import Mathlib
import JvmLift.Proofs.Format

/-!
# Decoding tiles the code

Whatever the bytes are, the decoded instructions lie one behind the other from the first byte to the last. Every one of
them but an undecoded tail is written in its bytes; a tail is all that is left, and its reason is about the place where
it starts.
-/

namespace JvmLift.Bytecode

/-- Instructions that are written one behind the other from `offset` on, with a tail where nothing else is left. -/
inductive Tiles : Nat → List UInt8 → List Instruction → Prop
  | done (offset : Nat) : Tiles offset [] []
  | instruction {i : Instruction} {slack rest : List UInt8} {insns : List Instruction} (encodable : i.Encodable)
      (length_slack : slack.length = i.slack) (behind : Tiles i.next rest insns) :
      Tiles i.offset (i.bytes slack ++ rest) (i :: insns)
  | tail {offset : Nat} {bytes : List UInt8} {reason : DecodeError} (nonempty : bytes ≠ [])
      (offset_reason : reason.offset = offset) :
      Tiles offset bytes [⟨offset, ⟨bytes.headD 0⟩, .undecoded bytes reason, bytes.length⟩]

/-- What can be written is no tail. -/
lemma Instruction.Encodable.not_undecoded {i : Instruction} (h : i.Encodable) : i.isUndecoded = false := by
  obtain ⟨⟨layout, -, hholds⟩, -⟩ := h
  obtain ⟨offset, op, operand, size⟩ := i
  cases operand with
  | undecoded bytes reason =>
    cases layout with
    | bare =>
      simp only [Layout.Holds] at hholds
      cases hslot : op.implicitSlot? <;> simp [hslot] at hholds
    | _ => exact hholds.elim
  | _ => rfl

lemma Instruction.Encodable.size_eq {i : Instruction} (h : i.Encodable) {slack : List UInt8}
    (hslack : slack.length = i.slack) : i.size = (i.bytes slack).length := by
  rw [h.size, Instruction.length_bytes hslack]

lemma Instruction.Encodable.size_pos {i : Instruction} (h : i.Encodable) : 1 ≤ i.size := by
  rw [h.size, Instruction.encode, Instruction.bytes]
  simp

/-- **Decoding.** From a cursor with no more bytes to read than instructions allowed, the unread bytes are tiled. -/
lemma tiles_decodeUpTo (n : Nat) {c : Cursor} (h : c.unread.length ≤ n) :
    Tiles c.position c.unread (decodeUpTo n c) := by
  induction n generalizing c with
  | zero =>
    have hempty : c.unread = [] := List.length_eq_zero_iff.mp (by omega)
    rw [hempty]
    exact .done c.position
  | succ n ih =>
    rw [decodeUpTo]
    split
    case isTrue hend =>
      have hempty : c.unread = [] := by simpa [Cursor.atEnd] using hend
      rw [hempty]
      exact .done c.position
    case isFalse hend =>
      have hne : c.unread ≠ [] := by simpa [Cursor.atEnd] using hend
      split
      · next i c' hread =>
        obtain ⟨hoffset, hencodable, slack, hslack, ⟨rest, hrest⟩, rfl⟩ := readInstruction_ok_iff.mp hread
        have hsize := hencodable.size_eq hslack
        have hpos := hencodable.size_pos
        have hskip : (c.mark.skip i.size).unread = rest := by simp [← hrest, hsize]
        have hbehind := ih (c := c.mark.skip i.size) (by
          rw [hskip]
          have := congrArg List.length hrest
          simp only [List.length_append] at this
          omega)
        rw [hskip] at hbehind
        rw [← hrest, ← hoffset]
        exact .instruction hencodable hslack (by simpa [Instruction.next, hoffset] using hbehind)
      · next reason hread =>
        exact .tail hne (offset_of_readInstruction_error hread)

lemma tiles_decode (code : List UInt8) : Tiles 0 code (decode code) :=
  tiles_decodeUpTo code.length (c := Cursor.ofBytes code) (le_refl code.length)

/-! ### Sizes -/

/-- The number in the four bytes at a position of the code, in two's complement. -/
def numberAt (code : List UInt8) (position : Nat) : Int :=
  Int.bmod (bigEndian ((code.drop position).take 4)) (Nat.pow 256 4)

lemma numberAt_of_drop {code front rest : List UInt8} {offset position : Nat} {n : Int} (hn : InField 4 n)
    (h : code.drop offset = front ++ (bytesOf 4 n ++ rest)) (hposition : offset + front.length = position) :
    numberAt code position = n := by
  have hbytes : (code.drop position).take 4 = bytesOf 4 n := by
    rw [← hposition, ← List.drop_drop, h, List.drop_left, List.take_left' (length_bytesOf 4 n)]
  unfold numberAt
  rw [hbytes]
  exact bmod_bytesOf hn

/-- How many bytes an instruction takes, by the row of its opcode. A switch tells in the code how many cases it has. -/
def Instruction.HasSize (code : List UInt8) (i : Instruction) (info : OpcodeInfo) : Prop :=
  let padding := Cursor.padding (i.offset + 1)
  let position := i.offset + 1 + padding
  match info.layout with
  | .tableSwitch =>
    ∃ table low high, i.operand = .switch table ∧ low = numberAt code (position + 4) ∧
      high = numberAt code (position + 8) ∧ (table.cases.length : Int) = high - low + 1 ∧ KeysFrom low table.cases ∧
      i.size = 1 + padding + 12 + 4 * table.cases.length
  | .lookupSwitch =>
    ∃ table, i.operand = .switch table ∧ (table.cases.length : Int) = numberAt code (position + 4) ∧
      i.size = 1 + padding + 8 + 8 * table.cases.length
  | _ => info.size? = some i.size

/-- An operand takes as many bytes as its layout says. -/
lemma Layout.length_bytes_of_holds {offset position n : Nat} {op : Opcode} {layout : Layout} {operand : Operand}
    {slack : List UInt8} (hholds : layout.Holds offset op operand) (hslack : slack.length = layout.slack position)
    (hlength : layout.length? = some n) : (layout.bytes offset slack operand).length = n := by
  cases layout <;> cases operand <;>
    simp_all [Layout.Holds, Layout.slack, Layout.length?, Layout.bytes]

lemma length_tableCases (offset : Nat) (cases : List (Int32 × Nat)) :
    (cases.flatMap fun case => bytesOf 4 (case.2 - offset)).length = 4 * cases.length := by
  simp [List.length_flatMap, Nat.mul_comm]

lemma length_lookupCases (offset : Nat) (cases : List (Int32 × Nat)) :
    (cases.flatMap fun case => bytesOf 4 case.1.toInt ++ bytesOf 4 (case.2 - offset)).length = 8 * cases.length := by
  simp [List.length_flatMap, Nat.mul_comm]

/-- A switch over a range has its least and its greatest key behind the default. -/
lemma numberAt_tableSwitch {code slack rest : List UInt8} {offset : Nat} {raw : UInt8} {table : SwitchTable}
    (hslack : slack.length = Cursor.padding (offset + 1))
    (hcode : code.drop offset = raw :: Layout.tableSwitch.bytes offset slack (.switch table) ++ rest) :
    numberAt code (offset + 1 + Cursor.padding (offset + 1) + 4) = table.low ∧
      numberAt code (offset + 1 + Cursor.padding (offset + 1) + 8) = table.high := by
  let front := raw :: (slack ++ bytesOf 4 (table.default - offset))
  let distances := table.cases.flatMap fun case => bytesOf 4 (case.2 - offset)
  have hlow : code.drop offset = front ++ (bytesOf 4 table.low ++ (bytesOf 4 table.high ++ distances ++ rest)) := by
    simp [hcode, Layout.bytes, front, distances]
  have hhigh : code.drop offset = (front ++ bytesOf 4 table.low) ++ (bytesOf 4 table.high ++ (distances ++ rest)) := by
    simp [hcode, Layout.bytes, front, distances]
  have hfront : front.length = Cursor.padding (offset + 1) + 4 + 1 := by simp [front, hslack]
  have hfront' : (front ++ bytesOf 4 table.low).length = front.length + 4 := by simp
  exact ⟨numberAt_of_drop (inField_low table) hlow (by omega), numberAt_of_drop (inField_high table) hhigh (by omega)⟩

/-- A switch with listed keys has the number of its cases behind the default. -/
lemma numberAt_lookupSwitch {code slack rest : List UInt8} {offset : Nat} {raw : UInt8} {table : SwitchTable}
    (hfield : InField 4 table.cases.length) (hslack : slack.length = Cursor.padding (offset + 1))
    (hcode : code.drop offset = raw :: Layout.lookupSwitch.bytes offset slack (.switch table) ++ rest) :
    numberAt code (offset + 1 + Cursor.padding (offset + 1) + 4) = table.cases.length := by
  let front := raw :: (slack ++ bytesOf 4 (table.default - offset))
  let pairs := table.cases.flatMap fun case => bytesOf 4 case.1.toInt ++ bytesOf 4 (case.2 - offset)
  have hcount : code.drop offset = front ++ (bytesOf 4 table.cases.length ++ (pairs ++ rest)) := by
    simp [hcode, Layout.bytes, front, pairs]
  have hfront : front.length = Cursor.padding (offset + 1) + 4 + 1 := by simp [front, hslack]
  exact numberAt_of_drop hfield hcount (by omega)

/-- An instruction that is written in the code takes as many bytes as its opcode and the code say. -/
lemma Instruction.Encodable.hasSize {i : Instruction} (h : i.Encodable) {code slack rest : List UInt8}
    (hslack : slack.length = i.slack) (hcode : code.drop i.offset = i.bytes slack ++ rest) :
    ∃ info, i.opcode.info? = some info ∧ i.HasSize code info := by
  have hsize := h.size_eq hslack
  obtain ⟨layout, hlayout, hholds⟩ := h.operand
  obtain ⟨info, hinfo, rfl⟩ := Option.map_eq_some_iff.mp hlayout
  refine ⟨info, hinfo, ?_⟩
  rw [show i.bytes slack = i.opcode.raw :: info.layout.bytes i.offset slack i.operand by simp [bytes, hlayout]]
    at hsize hcode
  have hslack' : slack.length = info.layout.slack (i.offset + 1) := by simpa [Instruction.slack, hlayout] using hslack
  simp only [HasSize]
  split
  · next heq =>
    obtain ⟨table, hop⟩ := hholds.switch_iff.mpr (.inl heq)
    rw [heq, hop] at hholds hsize hcode
    rw [heq, Layout.slack] at hslack'
    obtain ⟨-, hne, hkeys⟩ := hholds
    obtain ⟨-, hends⟩ := ends_of_keysFrom hkeys hne
    obtain ⟨hlow, hhigh⟩ := numberAt_tableSwitch hslack' hcode
    refine ⟨table, table.low, table.high, hop, hlow.symm, hhigh.symm, by omega, hkeys, ?_⟩
    simp only [Layout.bytes, List.length_cons, List.length_append, length_bytesOf, length_tableCases] at hsize
    omega
  · next heq =>
    obtain ⟨table, hop⟩ := hholds.switch_iff.mpr (.inr heq)
    rw [heq, hop] at hholds hsize hcode
    rw [heq, Layout.slack] at hslack'
    refine ⟨table, hop, (numberAt_lookupSwitch hholds.2 hslack' hcode).symm, ?_⟩
    simp only [Layout.bytes, List.length_cons, List.length_append, length_bytesOf, length_lookupCases] at hsize
    omega
  · next hne hne' =>
    obtain ⟨n, hn⟩ : ∃ n, info.layout.length? = some n := by
      cases hcase : info.layout with
      | tableSwitch => exact absurd hcase hne
      | lookupSwitch => exact absurd hcase hne'
      | wide =>
        rw [hcase] at hholds
        cases i.operand <;> exact hholds.elim
      | _ => exact ⟨_, rfl⟩
    rw [hsize, List.length_cons, Layout.length_bytes_of_holds hholds hslack' hn, OpcodeInfo.size?, hn]
    rfl

/-! ### The tiling -/

/-- Each instruction starts where the one before it ends, and the first at `offset`. -/
def Contiguous : Nat → List Instruction → Prop
  | _, [] => True
  | offset, i :: rest => i.offset = offset ∧ Contiguous i.next rest

lemma Contiguous.le_offset {offset : Nat} {insns : List Instruction} (h : Contiguous offset insns) :
    ∀ i ∈ insns, offset ≤ i.offset := by
  induction insns generalizing offset with
  | nil => simp
  | cons i insns ih =>
    obtain ⟨rfl, hrest⟩ := h
    refine List.forall_mem_cons.mpr ⟨le_refl i.offset, fun j hj => ?_⟩
    exact (Nat.le_add_right i.offset i.size).trans (ih hrest j hj)

/-- Instructions that cover the code from its first byte to its last. -/
structure Tiling (code : List UInt8) (insns : List Instruction) : Prop where
  contiguous : Contiguous 0 insns
  size_pos : ∀ i ∈ insns, 1 ≤ i.size
  sum_size : (insns.map Instruction.size).sum = code.length
  /-- A tail is the last instruction. -/
  tail_last : ∀ i ∈ insns.dropLast, i.isUndecoded = false
  /-- A tail holds all bytes from its offset on, and its reason names that offset. -/
  tail_bytes : ∀ i ∈ insns, ∀ bytes reason, i.operand = .undecoded bytes reason →
    bytes = code.drop i.offset ∧ code[i.offset]? = some i.opcode.raw ∧ reason.offset = i.offset
  has_size : ∀ i ∈ insns, i.isUndecoded = false → ∃ info, i.opcode.info? = some info ∧ i.HasSize code info

namespace Tiles

variable {offset : Nat} {bytes : List UInt8} {insns : List Instruction}

lemma contiguous (h : Tiles offset bytes insns) : Contiguous offset insns := by
  induction h with
  | done offset => trivial
  | instruction encodable length_slack behind ih => exact ⟨rfl, ih⟩
  | tail nonempty offset_reason => exact ⟨rfl, trivial⟩

lemma size_pos (h : Tiles offset bytes insns) : ∀ i ∈ insns, 1 ≤ i.size := by
  induction h with
  | done offset => simp
  | instruction encodable length_slack behind ih => exact List.forall_mem_cons.mpr ⟨encodable.size_pos, ih⟩
  | tail nonempty offset_reason => simpa [Nat.one_le_iff_ne_zero] using nonempty

lemma sum_size (h : Tiles offset bytes insns) : (insns.map Instruction.size).sum = bytes.length := by
  induction h with
  | done offset => rfl
  | instruction encodable length_slack behind ih => simp [ih, encodable.size_eq length_slack]
  | tail nonempty offset_reason => simp

lemma tail_last (h : Tiles offset bytes insns) : ∀ i ∈ insns.dropLast, i.isUndecoded = false := by
  induction h with
  | done offset => simp
  | @instruction i slack rest insns encodable length_slack behind ih =>
    cases insns with
    | nil => simp
    | cons j insns =>
      rw [List.dropLast_cons_cons]
      exact List.forall_mem_cons.mpr ⟨encodable.not_undecoded, ih⟩
  | tail nonempty offset_reason => simp

lemma encodable (h : Tiles offset bytes insns) :
    ∀ i ∈ insns, i.isUndecoded = false → i.Encodable := by
  induction h with
  | done offset => simp
  | instruction encodable length_slack behind ih => exact List.forall_mem_cons.mpr ⟨fun _ => encodable, ih⟩
  | tail nonempty offset_reason => simp [Instruction.isUndecoded]

/-- An instruction of a tiled code is written at its offset, or it is the tail that starts there. -/
lemma written_or_tail (h : Tiles offset bytes insns) {code : List UInt8} (hcode : code.drop offset = bytes)
    {i : Instruction} (hi : i ∈ insns) :
    (i.Encodable ∧ ∃ slack rest, slack.length = i.slack ∧ code.drop i.offset = i.bytes slack ++ rest) ∨
      ∃ reason, reason.offset = i.offset ∧ (code.drop i.offset).head? = some i.opcode.raw ∧
        i.operand = .undecoded (code.drop i.offset) reason := by
  induction h with
  | done offset => simp at hi
  | @instruction j slack rest insns encodable length_slack behind ih =>
    rcases List.mem_cons.mp hi with rfl | hi
    · exact .inl ⟨encodable, slack, rest, length_slack, hcode⟩
    · refine ih ?_ hi
      rw [Instruction.next, encodable.size_eq length_slack, ← List.drop_drop, hcode, List.drop_left]
  | @tail offset bytes reason nonempty offset_reason =>
    obtain rfl := List.mem_singleton.mp hi
    obtain ⟨raw, rest, rfl⟩ := List.exists_cons_of_ne_nil nonempty
    exact .inr ⟨reason, offset_reason, by simp [hcode], by simp [hcode]⟩

end Tiles

/-- **Tiling.** Decoding covers any bytes whatsoever with instructions, one behind the other. All of them have the size
that their opcode calls for, but for the last one, which may be a tail. -/
theorem decode_tiling (code : List UInt8) : Tiling code (decode code) where
  contiguous := (tiles_decode code).contiguous
  size_pos := (tiles_decode code).size_pos
  sum_size := (tiles_decode code).sum_size
  tail_last := (tiles_decode code).tail_last
  tail_bytes := by
    intro i hi bytes reason hop
    rcases (tiles_decode code).written_or_tail List.drop_zero hi with ⟨hencodable, -⟩ | ⟨_, hreason, hraw, htail⟩
    · have := hencodable.not_undecoded
      simp [Instruction.isUndecoded, hop] at this
    · rw [htail] at hop
      obtain ⟨rfl, rfl⟩ := Operand.undecoded.inj hop
      exact ⟨rfl, by rw [← List.head?_drop, hraw], hreason⟩
  has_size := by
    intro i hi hdecoded
    rcases (tiles_decode code).written_or_tail List.drop_zero hi with
      ⟨hencodable, slack, rest, hslack, hat⟩ | ⟨_, _, _, htail⟩
    · exact hencodable.hasSize hslack hat
    · simp [Instruction.isUndecoded, htail] at hdecoded

end JvmLift.Bytecode
