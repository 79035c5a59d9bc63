import Mathlib
import JvmLift.Proofs.Format

/-!
# Sessions with a cursor

A cursor may be asked for anything at any time, also after it could not answer. What it answers depends on its place
only: a number is spelled by exactly the next bytes, a boundary is the nearest one, and a request that the code is too
short for is refused with the start of the instruction and leaves the cursor where it is. The invariant is that the
cursor stands in the code, and not in front of the instruction that it is in; each request keeps it, so every session
does.
-/

namespace JvmLift.Bytecode.Cursor

variable {code : List UInt8} {c c' : Cursor}

/-! ### What a cursor has to answer -/

/-- A cursor that stands in `code`, not in front of its instruction. -/
structure StandsIn (code : List UInt8) (c : Cursor) : Prop where
  start_le : c.start ≤ c.position
  position_le : c.position ≤ code.length
  unread_eq : c.unread = code.drop c.position
  pending_eq : c.pending = code.drop c.start

/-- The least multiple of four that is not below a position. -/
def IsBoundary (position boundary : Nat) : Prop :=
  IsLeast {n | 4 ∣ n ∧ position ≤ n} boundary

lemma StandsIn.mark (h : c.StandsIn code) : c.mark.StandsIn code :=
  ⟨le_rfl, h.position_le, h.unread_eq, h.unread_eq⟩

lemma StandsIn.skip (h : c.StandsIn code) {n : Nat} (hn : c.position + n ≤ code.length) : (c.skip n).StandsIn code where
  start_le := h.start_le.trans (Nat.le_add_right _ _)
  position_le := hn
  unread_eq := by rw [unread_skip, h.unread_eq, List.drop_drop, position_skip]
  pending_eq := h.pending_eq

end JvmLift.Bytecode.Cursor
