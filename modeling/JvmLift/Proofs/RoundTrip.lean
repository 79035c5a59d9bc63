import Mathlib
import JvmLift.Proofs.Tiling

/-!
# Writing and reading instructions

Instructions that are written one behind the other are read back as they were. Bytes that are read without a tail and
written again are the same bytes, with zeros in the places that have no meaning.
-/

namespace JvmLift.Bytecode

/-- The bytes of instructions, one behind the other. -/
def encode (insns : List Instruction) : List UInt8 :=
  insns.flatMap Instruction.encode

/-- Where the bytes without a meaning of an operand begin, behind an opcode at `offset`. -/
def Layout.slackStart (offset : Nat) : Layout → Nat
  | .interfaceCall => offset + 4
  | .dynamicCall => offset + 3
  | _ => offset + 1

/-- The places of an instruction that have no meaning. -/
def Instruction.isSlack (i : Instruction) (position : Nat) : Bool :=
  i.opcode.layout?.any fun layout =>
    layout.slackStart i.offset ≤ position && position < layout.slackStart i.offset + layout.slack (i.offset + 1)

/-- Puts zeros in the places without a meaning of instructions that are written from `offset` on. -/
def clearSlack (insns : List Instruction) (offset : Nat) (code : List UInt8) : List UInt8 :=
  code.mapIdx fun k b => if insns.any (·.isSlack (offset + k)) then 0 else b

/-! ### Reading what is written -/

lemma tiles_encode {offset : Nat} {insns : List Instruction} (hcontiguous : Contiguous offset insns)
    (hencodable : ∀ i ∈ insns, i.Encodable) : Tiles offset (encode insns) insns := by
  induction insns generalizing offset with
  | nil => exact .done offset
  | cons i insns ih =>
    obtain ⟨rfl, hrest⟩ := hcontiguous
    obtain ⟨hi, hrest'⟩ := List.forall_mem_cons.mp hencodable
    exact .instruction hi List.length_replicate (ih hrest hrest')

/-- Instructions that tile the unread bytes are read, whatever the bytes without a meaning are. -/
lemma decodeUpTo_of_tiles {offset : Nat} {bytes : List UInt8} {insns : List Instruction} (h : Tiles offset bytes insns)
    (hdecoded : ∀ i ∈ insns, i.isUndecoded = false) {c : Cursor} (hposition : c.position = offset)
    (hunread : c.unread = bytes) {n : Nat} (hn : bytes.length ≤ n) : decodeUpTo n c = insns := by
  induction h generalizing c n with
  | done offset =>
    cases n with
    | zero => rfl
    | succ n => simp [decodeUpTo, Cursor.atEnd, hunread]
  | @instruction i slack rest insns encodable length_slack behind ih =>
    have hsize := encodable.size_eq length_slack
    have hpos := encodable.size_pos
    rw [List.length_append, ← hsize] at hn
    obtain ⟨n, rfl⟩ : ∃ m, n = m + 1 := ⟨n - 1, by omega⟩
    have hread : readInstruction c.mark = .ok (i, c.mark.skip i.size) :=
      readInstruction_ok_iff.mpr ⟨hposition.symm, encodable, slack, length_slack, ⟨rest, hunread.symm⟩, rfl⟩
    have hend : c.atEnd = false := by
      rw [Cursor.atEnd, hunread, Instruction.bytes]
      rfl
    have hrest : decodeUpTo n (c.mark.skip i.size) = insns :=
      ih (List.forall_mem_cons.mp hdecoded).2 (by simp [Instruction.next, hposition])
        (by simp [hunread, hsize]) (by omega)
    simp [decodeUpTo, hend, hread, hrest]
  | tail nonempty offset_reason => simp [Instruction.isUndecoded] at hdecoded

/-! ### Writing what is read -/

/-- The bytes without a meaning stand together, and the bytes around them do not depend on them. -/
lemma Layout.exists_bytes_eq {offset : Nat} {op : Opcode} {layout : Layout} {operand : Operand}
    (h : layout.Holds offset op operand) (raw : UInt8) :
    ∃ front back, layout.slackStart offset = offset + front.length ∧
      ∀ slack, slack.length = layout.slack (offset + 1) →
        raw :: layout.bytes offset slack operand = front ++ slack ++ back := by
  have hnone (hslack : layout.slack (offset + 1) = 0) (hstart : layout.slackStart offset = offset + 1) :
      ∃ front back, layout.slackStart offset = offset + front.length ∧
        ∀ slack, slack.length = layout.slack (offset + 1) →
          raw :: layout.bytes offset slack operand = front ++ slack ++ back := by
    refine ⟨[raw], layout.bytes offset [] operand, hstart, fun slack hlength => ?_⟩
    rw [List.eq_nil_of_length_eq_zero (hlength.trans hslack)]
    rfl
  cases layout with
  | tableSwitch =>
    cases operand with
    | switch table => exact ⟨[raw], _, rfl, fun slack _ => by simp only [Layout.bytes, List.append_assoc]; rfl⟩
    | _ => exact h.elim
  | lookupSwitch =>
    cases operand with
    | switch table => exact ⟨[raw], _, rfl, fun slack _ => by simp only [Layout.bytes, List.append_assoc]; rfl⟩
    | _ => exact h.elim
  | interfaceCall =>
    cases operand with
    | interfaceCall index count =>
      exact ⟨raw :: (bytesOf 2 index.toNat ++ bytesOf 1 count.toNat), [], by simp [slackStart], by simp [Layout.bytes]⟩
    | _ => exact h.elim
  | dynamicCall =>
    cases operand with
    | pool index => exact ⟨raw :: bytesOf 2 index.toNat, [], by simp [slackStart], by simp [Layout.bytes]⟩
    | _ => exact h.elim
  | _ => exact hnone rfl rfl

lemma mapIdx_clear_window (front slack back : List UInt8) :
    (front ++ slack ++ back).mapIdx
        (fun k b => if front.length ≤ k ∧ k < front.length + slack.length then 0 else b) =
      front ++ List.replicate slack.length 0 ++ back := by
  refine List.ext_getElem (by simp) fun k hk hk' => ?_
  simp only [List.getElem_mapIdx, List.getElem_append, List.length_append, List.length_replicate,
    List.getElem_replicate]
  split_ifs <;> first | rfl | omega

/-- The bytes of an instruction around those without a meaning, and where these stand. -/
lemma Instruction.Encodable.exists_bytes_eq {i : Instruction} (h : i.Encodable) :
    ∃ front back, (∀ slack, slack.length = i.slack → i.bytes slack = front ++ slack ++ back) ∧
      ∀ position, i.isSlack position = true ↔
        i.offset + front.length ≤ position ∧ position < i.offset + front.length + i.slack := by
  obtain ⟨layout, hlayout, hholds⟩ := h.operand
  obtain ⟨front, back, hstart, hbytes⟩ := Layout.exists_bytes_eq hholds i.opcode.raw
  have hcount : i.slack = layout.slack (i.offset + 1) := by simp [Instruction.slack, hlayout]
  refine ⟨front, back, fun slack hslack => ?_, fun position => ?_⟩
  · rw [← hbytes slack (hslack.trans hcount)]
    simp [Instruction.bytes, hlayout]
  · rw [Instruction.isSlack, hlayout, Option.any_some, hstart, ← hcount, Bool.and_eq_true, decide_eq_true_iff,
      decide_eq_true_iff]

/-- The places without a meaning belong to the instruction. -/
lemma Instruction.Encodable.isSlack_bounds {i : Instruction} (h : i.Encodable) {position : Nat}
    (hposition : i.isSlack position = true) : i.offset ≤ position ∧ position < i.next := by
  obtain ⟨front, back, hbytes, hat⟩ := h.exists_bytes_eq
  have hbounds := (hat position).mp hposition
  have hsize := h.size
  rw [Instruction.encode, hbytes _ List.length_replicate, List.length_append, List.length_append,
    List.length_replicate] at hsize
  rw [Instruction.next]
  omega

/-- An instruction that is written again has zeros in the places without a meaning. -/
lemma Instruction.Encodable.clearSlack_bytes {i : Instruction} (h : i.Encodable) {slack : List UInt8}
    (hslack : slack.length = i.slack) : clearSlack [i] i.offset (i.bytes slack) = i.encode := by
  obtain ⟨front, back, hbytes, hat⟩ := h.exists_bytes_eq
  rw [Instruction.encode, hbytes _ List.length_replicate, hbytes slack hslack, ← hslack, ← mapIdx_clear_window,
    clearSlack]
  refine congrArg (List.mapIdx · (front ++ slack ++ back)) (funext₂ fun k b => if_congr ?_ rfl rfl)
  rw [List.any_cons, List.any_nil, Bool.or_false, hat, hslack]
  omega

lemma clearSlack_append {i : Instruction} {insns : List Instruction} {bytes rest : List UInt8} (hi : i.Encodable)
    (hinsns : ∀ j ∈ insns, j.Encodable) (hoffset : ∀ j ∈ insns, i.next ≤ j.offset) (hsize : i.size = bytes.length) :
    clearSlack (i :: insns) i.offset (bytes ++ rest) =
      clearSlack [i] i.offset bytes ++ clearSlack insns i.next rest := by
  unfold clearSlack
  rw [List.mapIdx_append]
  refine congrArg₂ (· ++ ·) ?_ ?_
  · refine List.mapIdx_eq_mapIdx_iff.mpr fun k hk => if_congr ?_ rfl rfl
    have hnone : insns.any (·.isSlack (i.offset + k)) = false := by
      refine List.any_eq_false.mpr fun j hj hslack => ?_
      have := (hinsns j hj).isSlack_bounds hslack
      have := hoffset j hj
      rw [Instruction.next] at this
      omega
    rw [List.any_cons, List.any_cons, hnone, List.any_nil]
  · refine List.mapIdx_eq_mapIdx_iff.mpr fun k hk => if_congr ?_ rfl rfl
    have hnone : i.isSlack (i.offset + (k + bytes.length)) = false := by
      refine Bool.eq_false_iff.mpr fun hslack => ?_
      have := hi.isSlack_bounds hslack
      rw [Instruction.next] at this
      omega
    rw [List.any_cons, hnone, Bool.false_or, Instruction.next, hsize, Nat.add_assoc, Nat.add_comm k]

/-- Tiled bytes that are written again have zeros in the places without a meaning. -/
lemma encode_of_tiles {offset : Nat} {bytes : List UInt8} {insns : List Instruction} (h : Tiles offset bytes insns)
    (hdecoded : ∀ i ∈ insns, i.isUndecoded = false) : encode insns = clearSlack insns offset bytes := by
  induction h with
  | done offset => rfl
  | @instruction i slack rest insns encodable length_slack behind ih =>
    have hdecoded' := (List.forall_mem_cons.mp hdecoded).2
    rw [clearSlack_append encodable (fun j hj => behind.encodable j hj (hdecoded' j hj)) behind.contiguous.le_offset
      (encodable.size_eq length_slack), encodable.clearSlack_bytes length_slack, ← ih hdecoded']
    rfl
  | tail nonempty offset_reason => simp [Instruction.isUndecoded] at hdecoded

/-- **Round trip.** Instructions that can be written are read as they were written. Bytes that are read without a tail
are written as they were read, but for zeros in the places without a meaning. -/
theorem decode_encode_inverse :
    (∀ insns, Contiguous 0 insns → (∀ i ∈ insns, i.Encodable) → decode (encode insns) = insns) ∧
      ∀ code, (∀ i ∈ decode code, i.isUndecoded = false) →
        encode (decode code) = clearSlack (decode code) 0 code := by
  constructor
  · intro insns hcontiguous hencodable
    exact decodeUpTo_of_tiles (tiles_encode hcontiguous hencodable) (fun i hi => (hencodable i hi).not_undecoded)
      rfl rfl (le_refl _)
  · intro code hdecoded
    exact encode_of_tiles (tiles_decode code) hdecoded

/-- A switch behind two bytes of padding, a call with a reserved byte, and a return. -/
def paddedSwitch : List Instruction :=
  [⟨0, ⟨0x1a⟩, .slot 0, 1⟩, ⟨1, ⟨0xaa⟩, .switch ⟨29, [(-1, 24), (0, 0)]⟩, 23⟩, ⟨24, ⟨0xb9⟩, .interfaceCall 2 1, 5⟩,
    ⟨29, ⟨0xb1⟩, .none, 1⟩]

/-- The bytes of `paddedSwitch`, with sevens in the places without a meaning. -/
def paddedSwitchCode : List UInt8 :=
  [0x1a, 0xaa, 7, 7, 0, 0, 0, 28, 0xff, 0xff, 0xff, 0xff, 0, 0, 0, 0, 0, 0, 0, 23, 0xff, 0xff, 0xff, 0xff,
    0xb9, 0, 2, 1, 7, 0xb1]

lemma decode_paddedSwitchCode : decode paddedSwitchCode = paddedSwitch := by
  decide +kernel

/-- The switch is read back, and from other bytes it is written with zeros where the sevens stood. -/
theorem paddedSwitch_inverse :
    Contiguous 0 paddedSwitch ∧ (∀ i ∈ paddedSwitch, i.Encodable) ∧ decode (encode paddedSwitch) = paddedSwitch ∧
      (∀ i ∈ decode paddedSwitchCode, i.isUndecoded = false) ∧
      encode (decode paddedSwitchCode) = clearSlack (decode paddedSwitchCode) 0 paddedSwitchCode ∧
      clearSlack (decode paddedSwitchCode) 0 paddedSwitchCode ≠ paddedSwitchCode := by
  have hdecoded : ∀ i ∈ decode paddedSwitchCode, i.isUndecoded = false := by decide +kernel
  have hchanged : clearSlack (decode paddedSwitchCode) 0 paddedSwitchCode ≠ paddedSwitchCode := by decide +kernel
  have htiles : Tiles 0 paddedSwitchCode paddedSwitch := by
    rw [← decode_paddedSwitchCode]
    exact tiles_decode paddedSwitchCode
  have hencodable : ∀ i ∈ paddedSwitch, i.Encodable := by
    rw [decode_paddedSwitchCode] at hdecoded
    exact fun i hi => htiles.encodable i hi (hdecoded i hi)
  exact ⟨htiles.contiguous, hencodable, decode_encode_inverse.1 _ htiles.contiguous hencodable, hdecoded,
    decode_encode_inverse.2 _ hdecoded, hchanged⟩

end JvmLift.Bytecode
