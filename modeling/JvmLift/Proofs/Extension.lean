import Mathlib
import JvmLift.Proofs.Tiling

/-!
# Decoding when more bytes follow

Bytes behind the code do not change what was decoded of it. A reader takes its bytes one after another and looks at no
others, so where it succeeds it still does, with the same result. Where it fails for another reason than the end of the
bytes, it still fails for that reason. Only a truncated instruction may be completed by what follows.
-/

namespace JvmLift.Bytecode

/-- The bytes ended before the instruction did. -/
def DecodeError.isTruncated : DecodeError → Bool
  | truncated _ => true
  | _ => false

namespace Cursor

/-- The cursor at the same place, with more bytes behind the code. -/
def extend (more : List UInt8) (c : Cursor) : Cursor :=
  { c with unread := c.unread ++ more, pending := c.pending ++ more }

variable (more : List UInt8) (c : Cursor)

@[simp] lemma position_extend : (c.extend more).position = c.position := rfl

@[simp] lemma start_extend : (c.extend more).start = c.start := rfl

@[simp] lemma unread_extend : (c.extend more).unread = c.unread ++ more := rfl

@[simp] lemma pending_extend : (c.extend more).pending = c.pending ++ more := rfl

@[simp] lemma mark_extend : (c.extend more).mark = c.mark.extend more := rfl

end Cursor

/-! ### Readers -/

variable {α β : Type} {p : Read α} {f : α → Read β}

/-- A reader that succeeds does so whatever follows, and so it is with every failure but one for want of bytes. -/
structure Steady (p : Read α) : Prop where
  ok : ∀ {c a c'} (more : List UInt8), p c = .ok (a, c') → p (c.extend more) = .ok (a, c'.extend more)
  error : ∀ {c e} (more : List UInt8), p c = .error e → e.isTruncated = false → p (c.extend more) = .error e

namespace Steady

protected lemma pure (a : α) : Steady (pure a : Read α) where
  ok {c b c'} more h := by
    cases h
    rfl
  error more h := nomatch h

protected lemma throw (e : DecodeError) : Steady (throw e : Read α) where
  ok more h := nomatch h
  error more h _ := by
    cases h
    rfl

protected lemma bind (hp : Steady p) (hf : ∀ a, Steady (f a)) : Steady (p >>= f) where
  ok more h := by
    obtain ⟨a, c₁, ha, hb⟩ := bind_eq_ok.mp h
    exact bind_eq_ok.mpr ⟨a, c₁.extend more, hp.ok more ha, (hf a).ok more hb⟩
  error more h htruncated := by
    rcases bind_eq_error.mp h with h | ⟨a, c₁, ha, h⟩
    · exact bind_eq_error.mpr (.inl (hp.error more h htruncated))
    · exact bind_eq_error.mpr (.inr ⟨a, c₁.extend more, hp.ok more ha, (hf a).error more h htruncated⟩)

/-- A reader whose result is changed. -/
protected lemma map (g : α → β) (hp : Steady p) : Steady (p >>= fun a => pure (g a)) :=
  hp.bind fun a => .pure (g a)

/-- A reader may look at the cursor, but not at the bytes that are left. -/
protected lemma get {g : Cursor → Read α} (hg : ∀ c, Steady (g c)) (hsame : ∀ c more, g (c.extend more) = g c) :
    Steady (get >>= g) where
  ok {c _ _} more h := by
    change g (c.extend more) (c.extend more) = _
    rw [hsame]
    exact (hg c).ok more h
  error {c _} more h htruncated := by
    change g (c.extend more) (c.extend more) = _
    rw [hsame]
    exact (hg c).error more h htruncated

protected lemma ite {q : Read α} {P : Prop} [Decidable P] (hp : Steady p) (hq : Steady q) :
    Steady (if P then p else q) := by
  split
  · exact hp
  · exact hq

/-- Bytes that are there are still there, and there is no other failure than that they are not. -/
protected lemma take (n : Nat) : Steady (Cursor.take n) where
  ok {c a c'} more h := by
    simp only [Cursor.take] at h ⊢
    split_ifs at h with hlen
    cases h
    have hle : n ≤ c.unread.length := by simpa using hlen
    simp [List.take_append_of_le_length hle, List.drop_append_of_le_length hle, hlen, Cursor.extend]
  error {c e} more h htruncated := by
    simp only [Cursor.take] at h
    split_ifs at h
    cases h
    cases htruncated

protected lemma unsigned (width : Nat) : Steady (Cursor.unsigned width) :=
  (Steady.take width).map bigEndian

protected lemma signed (width : Nat) : Steady (Cursor.signed width) :=
  (Steady.take width).map _

protected lemma align : Steady Cursor.align :=
  .get (fun _ => (Steady.take _).map _) fun _ _ => rfl

end Steady

/-! ### Operands -/

lemma steady_jumpTarget (offset : Nat) (distance : Int) : Steady (jumpTarget offset distance : Read Nat) := by
  unfold jumpTarget
  dsimp only
  split_ifs
  · exact .pure _
  · exact .throw _

lemma steady_readTarget (offset width : Nat) : Steady (readTarget offset width) :=
  (Steady.signed width).bind fun distance => steady_jumpTarget offset distance

lemma steady_readTableCases (offset : Nat) (key : Int) (count : Nat) : Steady (readTableCases offset key count) := by
  induction count generalizing key with
  | zero => exact .pure _
  | succ count ih => exact (steady_readTarget offset 4).bind fun _ => (ih (key + 1)).map _

lemma steady_readLookupCases (offset count : Nat) : Steady (readLookupCases offset count) := by
  induction count with
  | zero => exact .pure _
  | succ count ih => exact (Steady.signed 4).bind fun _ => (steady_readTarget offset 4).bind fun _ => ih.map _

lemma steady_readTableSwitch (offset : Nat) : Steady (readTableSwitch offset) :=
  Steady.align.bind fun _ => (steady_readTarget offset 4).bind fun _ => (Steady.signed 4).bind fun low =>
    (Steady.signed 4).bind fun _ => .ite (.throw _) ((steady_readTableCases offset low _).map _)

lemma steady_readLookupSwitch (offset : Nat) : Steady (readLookupSwitch offset) :=
  Steady.align.bind fun _ => (steady_readTarget offset 4).bind fun _ => (Steady.signed 4).bind fun _ =>
    .ite (.throw _) ((steady_readLookupCases offset _).map _)

lemma steady_readOperand (offset : Nat) (op : Opcode) (layout : Layout) : Steady (readOperand offset op layout) := by
  cases layout with
  | bare => exact .pure _
  | slot | arrayType | poolNarrow => exact (Steady.unsigned 1).map _
  | pool => exact (Steady.unsigned 2).map _
  | byte => exact (Steady.signed 1).map _
  | short => exact (Steady.signed 2).map _
  | increment => exact (Steady.unsigned 1).bind fun _ => (Steady.signed 1).map _
  | branch => exact (steady_readTarget offset 2).map _
  | branchWide => exact (steady_readTarget offset 4).map _
  | tableSwitch => exact (steady_readTableSwitch offset).map _
  | lookupSwitch => exact (steady_readLookupSwitch offset).map _
  | interfaceCall => exact (Steady.unsigned 2).bind fun _ => (Steady.unsigned 1).bind fun _ => (Steady.unsigned 1).map _
  | dynamicCall => exact (Steady.unsigned 2).bind fun _ => (Steady.unsigned 2).map _
  | multiArray => exact (Steady.unsigned 2).bind fun _ => (Steady.unsigned 1).map _
  | wide => exact .throw _

/-- **One instruction.** What is read at a place does not depend on bytes behind those that were looked at. -/
lemma steady_readInstruction : Steady readInstruction := by
  refine .get (fun c => (Steady.unsigned 1).bind fun raw => ?_) fun c more => by simp only [Cursor.start_extend]
  dsimp only
  split
  · exact .throw _
  · exact (steady_readOperand _ _ _).bind fun _ => .get (fun _ => .pure _) fun _ _ => rfl

/-! ### Code -/

/-- What is decoded when more bytes follow: the same instructions, and then others where the code ended or broke off.
A tail that has another reason than the end of the code stays, with the new bytes in it. -/
inductive Extends (more : List UInt8) : List Instruction → List Instruction → Prop
  | done (rest : List Instruction) : Extends more [] rest
  | instruction {i : Instruction} {insns insns' : List Instruction} (isDecoded : i.isUndecoded = false)
      (behind : Extends more insns insns') : Extends more (i :: insns) (i :: insns')
  | truncated {c : Cursor} {reason : DecodeError} (rest : List Instruction) (isTruncated : reason.isTruncated = true) :
      Extends more [undecodedTail c reason] rest
  | tail {c : Cursor} {reason : DecodeError} (isTruncated : reason.isTruncated = false) :
      Extends more [undecodedTail c reason] [undecodedTail (c.extend more) reason]

/-- **Decoding.** With room for all bytes, both runs take the same steps up to the end of the shorter code. -/
lemma extends_decodeUpTo (more : List UInt8) {n m : Nat} {c : Cursor} (hn : c.unread.length ≤ n)
    (hm : (c.extend more).unread.length ≤ m) :
    Extends more (decodeUpTo n c) (decodeUpTo m (c.extend more)) := by
  induction n generalizing m c with
  | zero => exact .done _
  | succ n ih =>
    rw [decodeUpTo]
    split
    case isTrue => exact .done _
    case isFalse hend =>
      have hpos : 0 < c.unread.length := List.length_pos_iff.mpr (by simpa [Cursor.atEnd] using hend)
      rw [Cursor.unread_extend, List.length_append] at hm
      obtain ⟨m, rfl⟩ : ∃ k, m = k + 1 := ⟨m - 1, by omega⟩
      have hend' : (c.extend more).atEnd = false := by
        simpa [Cursor.atEnd] using fun h => absurd h (List.length_pos_iff.mp hpos)
      rw [decodeUpTo, hend', Cursor.mark_extend]
      cases hread : readInstruction c.mark with
      | ok result =>
        obtain ⟨i, c'⟩ := result
        obtain ⟨-, hencodable, slack, hslack, hbytes, rfl⟩ := readInstruction_ok_iff.mp hread
        have hsize := hencodable.size_eq hslack ▸ hbytes.length_le
        have hpos := hencodable.size_pos
        rw [steady_readInstruction.ok more hread]
        refine .instruction hencodable.not_undecoded (ih ?_ ?_)
        · simp only [Cursor.unread_skip, Cursor.unread_mark, List.length_drop]
          omega
        · simp only [Cursor.unread_extend, Cursor.unread_skip, Cursor.unread_mark, List.length_append, List.length_drop]
          omega
      | error reason =>
        cases htruncated : reason.isTruncated with
        | true => exact .truncated _ htruncated
        | false =>
          rw [steady_readInstruction.error more hread htruncated]
          exact .tail htruncated

namespace Extends

variable {more : List UInt8} {insns insns' : List Instruction}

lemma getElem?_eq (h : Extends more insns insns') {k : Nat} {i : Instruction} (hi : insns[k]? = some i)
    (hdecoded : i.isUndecoded = false) : insns'[k]? = some i := by
  induction h generalizing k with
  | done rest => simp at hi
  | instruction _ _ ih =>
    cases k with
    | zero => simpa using hi
    | succ k => simpa using ih (by simpa using hi)
  | truncated | tail =>
    obtain ⟨rfl, rfl⟩ : k = 0 ∧ undecodedTail _ _ = i := by simpa [List.getElem?_singleton] using hi
    cases hdecoded

lemma getLast?_eq (h : Extends more insns insns') {i : Instruction} {bytes : List UInt8} {reason : DecodeError}
    (hi : insns.getLast? = some i) (hop : i.operand = .undecoded bytes reason)
    (htruncated : reason.isTruncated = false) :
    ∃ tail, insns'.getLast? = some tail ∧ tail.offset = i.offset ∧
      tail.operand = .undecoded (bytes ++ more) reason := by
  induction h with
  | done rest => simp at hi
  | @instruction j insns insns' isDecoded _ ih =>
    cases insns with
    | nil =>
      obtain rfl : j = i := by simpa using hi
      simp [Instruction.isUndecoded, hop] at isDecoded
    | cons k insns =>
      obtain ⟨tail, htail, hsame⟩ := ih (by simpa using hi)
      exact ⟨tail, List.mem_getLast?_cons htail, hsame⟩
  | truncated rest isTruncated =>
    obtain rfl : undecodedTail _ _ = i := by simpa using hi
    cases hop
    cases isTruncated.symm.trans htruncated
  | tail =>
    obtain rfl : undecodedTail _ _ = i := by simpa using hi
    cases hop
    exact ⟨_, rfl, rfl, rfl⟩

end Extends

/-- **More bytes.** Whatever follows the code, its instructions are decoded as before, in the same places. If the last
of them is a tail with another reason than the end of the code, the longer code ends there in a tail with that
reason. -/
theorem decode_append_stable (code more : List UInt8) :
    (∀ (k : Nat) (i : Instruction), (decode code)[k]? = some i → i.isUndecoded = false →
      (decode (code ++ more))[k]? = some i) ∧
    ∀ i bytes reason, (decode code).getLast? = some i → i.operand = .undecoded bytes reason →
      (∀ offset, reason ≠ .truncated offset) →
      ∃ tail, (decode (code ++ more)).getLast? = some tail ∧ tail.offset = i.offset ∧
        tail.operand = .undecoded (bytes ++ more) reason := by
  have h : Extends more (decode code) (decode (code ++ more)) :=
    extends_decodeUpTo more (c := .ofBytes code) (le_refl code.length) (le_refl _)
  refine ⟨fun k i => h.getElem?_eq, fun i bytes reason hi hop hne => h.getLast?_eq hi hop ?_⟩
  cases reason with
  | truncated offset => exact absurd rfl (hne offset)
  | _ => rfl

/-- A jump to before the start of the code stays what it is, though the bytes behind it could be decoded, and so does
the instruction in front of it. -/
theorem decode_append_badJump :
    (decode [0x04, 0xa7, 0xff, 0xf0])[0]? = some ⟨0, ⟨0x04⟩, .none, 1⟩ ∧
    (decode [0x04, 0xa7, 0xff, 0xf0]).getLast? =
      some ⟨1, ⟨0xa7⟩, .undecoded [0xa7, 0xff, 0xf0] (.invalidTarget 1 (-15)), 3⟩ ∧
    (decode ([0x04, 0xa7, 0xff, 0xf0] ++ [0x57, 0xb1]))[0]? = some ⟨0, ⟨0x04⟩, .none, 1⟩ ∧
    ∃ tail, (decode ([0x04, 0xa7, 0xff, 0xf0] ++ [0x57, 0xb1])).getLast? = some tail ∧ tail.offset = 1 ∧
      tail.operand = .undecoded [0xa7, 0xff, 0xf0, 0x57, 0xb1] (.invalidTarget 1 (-15)) := by
  have hfirst : (decode [0x04, 0xa7, 0xff, 0xf0])[0]? = some ⟨0, ⟨0x04⟩, .none, 1⟩ := by decide +kernel
  have hlast : (decode [0x04, 0xa7, 0xff, 0xf0]).getLast? =
    some ⟨1, ⟨0xa7⟩, .undecoded [0xa7, 0xff, 0xf0] (.invalidTarget 1 (-15)), 3⟩ := by decide +kernel
  obtain ⟨hsame, htail⟩ := decode_append_stable [0x04, 0xa7, 0xff, 0xf0] [0x57, 0xb1]
  exact ⟨hfirst, hlast, hsame 0 _ hfirst rfl, htail _ _ _ hlast rfl (by simp)⟩

end JvmLift.Bytecode
