import Mathlib
import JvmLift.Bytecode.Opcode

/-!
# Facts about all opcodes

What is said of every opcode can be evaluated; where it is about its row, in one pass over the table.
-/

namespace JvmLift.Bytecode.Opcode

instance decidableForall {P : Opcode → Prop} [DecidablePred P] : Decidable (∀ op, P op) :=
  decidable_of_iff (∀ n : Fin 256, P ⟨.ofNat n⟩)
    ⟨fun h op => by simpa using h ⟨op.raw.toNat, op.raw.toNat_lt⟩, fun h _ => h _⟩

/-- The opcodes of the table with their rows. -/
def known : List (Opcode × OpcodeInfo) :=
  table.toList.zipIdx.map fun row => (⟨.ofNat row.2⟩, row.1)

lemma mem_known {op : Opcode} {info : OpcodeInfo} (h : op.info? = some info) : (op, info) ∈ known := by
  refine List.mem_map.mpr ⟨(info, op.raw.toNat), ?_, by simp⟩
  rw [List.mem_zipIdx_iff_getElem?, Array.getElem?_toList]
  exact h

/-- The bytes behind the table have no row. -/
lemma unknown_iff {op : Opcode} : op.info? = none ↔ 0xca ≤ op.raw := by
  have hsize : table.size = 0xca := by decide +kernel
  rw [info?, Array.getElem?_eq_none_iff, hsize, UInt8.le_iff_toNat_le]
  rfl

/-- The role of an opcode is that of its row, and plain behind the table. -/
lemma holds_role {P : Opcode → Role → Prop} (hknown : ∀ row ∈ known, P row.1 row.2.role)
    (hrest : ∀ op, 0xca ≤ op.raw → P op .plain) (op : Opcode) : P op op.role := by
  rw [role]
  cases hinfo : op.info? with
  | none => exact hrest op (unknown_iff.mp hinfo)
  | some info => exact hknown _ (mem_known hinfo)

end JvmLift.Bytecode.Opcode
