import Mathlib
import JvmLift.Proofs.Reading

/-!
# The format of instructions

The bytes of an instruction as a function of the instruction, and which operands can be written in which layout. A
reader takes exactly these bytes: whatever it reads can be written, and it reads what is written. Some bytes have no
meaning, the padding of a switch and the reserved bytes of two calls. They are written as zeros and read as anything.
-/

namespace JvmLift.Bytecode

/-! ### Numbers -/

/-- A number in `width` bytes, most significant byte first, in two's complement. -/
def bytesOf : Nat → Int → List UInt8
  | 0, _ => []
  | width + 1, n => bytesOf width (n / 256) ++ [UInt8.ofNat (n % 256).toNat]

@[simp] lemma length_bytesOf (width : Nat) (n : Int) : (bytesOf width n).length = width := by
  induction width generalizing n with
  | zero => rfl
  | succ width ih => simp [bytesOf, ih]

lemma bigEndian_concat (bytes : List UInt8) (b : UInt8) :
    bigEndian (bytes ++ [b]) = 256 * bigEndian bytes + b.toNat := by
  simp [bigEndian]

lemma bigEndian_lt (bytes : List UInt8) : bigEndian bytes < 256 ^ bytes.length := by
  induction bytes using List.reverseRecOn with
  | nil => simp [bigEndian]
  | append_singleton bytes b ih =>
    have hb : b.toNat < 256 := b.toNat_lt
    rw [bigEndian_concat, List.length_append, List.length_singleton, Nat.pow_succ]
    omega

/-- Bytes are the number that they spell, written out. -/
lemma bytesOf_bigEndian (bytes : List UInt8) : bytesOf bytes.length (bigEndian bytes) = bytes := by
  induction bytes using List.reverseRecOn with
  | nil => rfl
  | append_singleton bytes b ih =>
    have hb : b.toNat < 256 := b.toNat_lt
    have hdiv : ((bigEndian (bytes ++ [b]) : Nat) : Int) / 256 = bigEndian bytes := by
      rw [bigEndian_concat]
      omega
    have hmod : ((bigEndian (bytes ++ [b]) : Nat) : Int) % 256 = b.toNat := by
      rw [bigEndian_concat]
      omega
    rw [List.length_append, List.length_singleton, bytesOf, hdiv, hmod, ih]
    simp

/-- A number that is written out and read without a sign is reduced to the width. -/
lemma bigEndian_bytesOf (width : Nat) (n : Int) : (bigEndian (bytesOf width n) : Int) = n % 256 ^ width := by
  induction width generalizing n with
  | zero => simp [bytesOf, bigEndian]
  | succ width ih =>
    have hbyte : (UInt8.ofNat (n % 256).toNat).toNat = (n % 256).toNat := by
      rw [UInt8.toNat_ofNat']
      omega
    have hlow : ((n % 256).toNat : Int) = n - 256 * (n / 256) := by omega
    rw [bytesOf, bigEndian_concat, hbyte, Nat.cast_add, Nat.cast_mul, ih, hlow, Int.emod_def (n / 256),
      Int.ediv_ediv_of_nonneg (by norm_num), Int.emod_def n, pow_succ']
    push_cast
    ring

/-- Only the residue of a number is written. -/
lemma bytesOf_congr {width : Nat} {m n : Int} (h : m % 256 ^ width = n % 256 ^ width) :
    bytesOf width m = bytesOf width n := by
  have hm := bytesOf_bigEndian (bytesOf width m)
  have hn := bytesOf_bigEndian (bytesOf width n)
  rw [length_bytesOf, bigEndian_bytesOf] at hm hn
  rw [← hm, h, hn]

/-- The numbers of `width` bytes in two's complement. -/
def InField (width : Nat) (n : Int) : Prop :=
  -256 ^ width ≤ 2 * n ∧ 2 * n < 256 ^ width

instance (width : Nat) (n : Int) : Decidable (InField width n) :=
  inferInstanceAs (Decidable (_ ∧ _))

/-! ### Readers of numbers -/

variable {offset : Nat}

lemma reads_unsigned (width : Nat) :
    Reads offset (Cursor.unsigned width) fun _ bytes n => n < 256 ^ width ∧ bytes = bytesOf width n := by
  refine ((Reads.take width).map bigEndian).congr fun _ bytes n => ?_
  constructor
  · rintro ⟨_, ⟨rfl, rfl⟩, rfl⟩
    exact ⟨bigEndian_lt _, (bytesOf_bigEndian _).symm⟩
  · rintro ⟨hn, rfl⟩
    refine ⟨_, ⟨length_bytesOf width n, rfl⟩, ?_⟩
    have hread := bigEndian_bytesOf width n
    rw [Int.emod_eq_of_lt (by positivity) (by exact_mod_cast hn)] at hread
    exact_mod_cast hread.symm

lemma cast_pow_width (width : Nat) : ((Nat.pow 256 width : Nat) : Int) = 256 ^ width :=
  Nat.cast_pow 256 width

/-- A number of the field reads as itself with its sign. -/
lemma bmod_bytesOf {width : Nat} {n : Int} (h : InField width n) :
    Int.bmod (bigEndian (bytesOf width n)) (Nat.pow 256 width) = n := by
  obtain ⟨hlow, hhigh⟩ := h
  rw [← cast_pow_width] at hlow hhigh
  rw [bigEndian_bytesOf, ← cast_pow_width, Int.emod_bmod]
  exact Int.bmod_eq_of_le (by omega) (by omega)

/-- Bytes spell the number that they read as with its sign. -/
lemma bytesOf_bmod {width : Nat} {bytes : List UInt8} (h : bytes.length = width) :
    InField width (Int.bmod (bigEndian bytes) (Nat.pow 256 width)) ∧
      bytes = bytesOf width (Int.bmod (bigEndian bytes) (Nat.pow 256 width)) := by
  subst h
  have hpos : 0 < Nat.pow 256 bytes.length := Nat.pow_pos (by norm_num)
  have hlow := Int.le_bmod (x := bigEndian bytes) hpos
  have hhigh := Int.bmod_lt (x := bigEndian bytes) hpos
  have hmod := Int.bmod_emod (x := bigEndian bytes) (m := Nat.pow 256 bytes.length)
  rw [cast_pow_width] at hlow hhigh hmod
  refine ⟨⟨by omega, by omega⟩, ?_⟩
  rw [bytesOf_congr hmod, bytesOf_bigEndian]

lemma reads_signed (width : Nat) :
    Reads offset (Cursor.signed width) fun _ bytes n => InField width n ∧ bytes = bytesOf width n := by
  refine ((Reads.take width).map fun bytes => Int.bmod (bigEndian bytes) (Nat.pow 256 width)).congr fun _ bytes n => ?_
  constructor
  · rintro ⟨bytes, ⟨hlength, rfl⟩, rfl⟩
    exact bytesOf_bmod hlength
  · rintro ⟨hfield, rfl⟩
    exact ⟨_, ⟨length_bytesOf width n, rfl⟩, (bmod_bytesOf hfield).symm⟩

/-- The target of a jump from `offset` whose distance has `width` bytes. Targets are 32-bit offsets. -/
def Reaches (offset width target : Nat) : Prop :=
  target < 2 ^ 32 ∧ InField width (target - offset)

instance (offset width target : Nat) : Decidable (Reaches offset width target) :=
  inferInstanceAs (Decidable (_ ∧ _))

lemma reads_jumpTarget (distance : Int) :
    Reads offset (jumpTarget offset distance : Read Nat) fun _ bytes target =>
      bytes = [] ∧ target < 2 ^ 32 ∧ (target : Int) = offset + distance := by
  unfold jumpTarget
  dsimp only [Nat.pow_eq]
  split_ifs with h
  · refine (Reads.pure ((offset : Int) + distance).toNat).congr fun _ bytes target => ?_
    refine and_congr_right fun _ => ⟨?_, ?_⟩
    · rintro rfl
      omega
    · omega
  · refine Reads.throw rfl fun _ bytes target => ?_
    rintro ⟨-, hlt, htarget⟩
    omega

lemma reads_target (width : Nat) :
    Reads offset (readTarget offset width) fun _ bytes target =>
      Reaches offset width target ∧ bytes = bytesOf width (target - offset) := by
  refine ((reads_signed width).bind fun _ => reads_jumpTarget _).congr fun _ bytes target => ?_
  constructor
  · rintro ⟨_, distance, _, rfl, ⟨hfield, rfl⟩, rfl, hlt, htarget⟩
    have hdistance : (target : Int) - offset = distance := by omega
    rw [Reaches, hdistance]
    exact ⟨⟨hlt, hfield⟩, by simp⟩
  · rintro ⟨⟨hlt, hfield⟩, rfl⟩
    exact ⟨_, _, [], by simp, ⟨hfield, rfl⟩, rfl, hlt, by omega⟩

lemma reads_align :
    Reads offset Cursor.align fun position bytes _ => bytes.length = Cursor.padding position := by
  refine (Reads.position fun n => (Reads.take (Cursor.padding n)).map fun _ => ()).congr fun position bytes _ => ?_
  simp

/-! ### Operands -/

/-- The keys of cases are consecutive numbers from `key` on. -/
def KeysFrom : Int → List (Int32 × Nat) → Prop
  | _, [] => True
  | key, (k, _) :: rest => k.toInt = key ∧ KeysFrom (key + 1) rest

/-- The least key of a table with consecutive keys. -/
def SwitchTable.low (table : SwitchTable) : Int :=
  (table.cases.head?.map fun case => case.1.toInt).getD 0

/-- The greatest key of a table with consecutive keys. -/
def SwitchTable.high (table : SwitchTable) : Int :=
  (table.cases.getLast?.map fun case => case.1.toInt).getD 0

/-- All targets of a switch are in reach of its distances. -/
def SwitchTable.Reachable (offset : Nat) (table : SwitchTable) : Prop :=
  Reaches offset 4 table.default ∧ ∀ case ∈ table.cases, Reaches offset 4 case.2

/-- The operands that can be written in a layout behind an opcode at `offset`. -/
def Layout.Holds (offset : Nat) (op : Opcode) : Layout → Operand → Prop
  | .bare, operand => operand = (op.implicitSlot?.map Operand.slot).getD .none
  | .slot, .slot index => index.toNat < 256
  | .byte, .immediate value => InField 1 value.toInt
  | .short, .immediate value => InField 2 value.toInt
  | .arrayType, .immediate value => 0 ≤ value.toInt ∧ value.toInt < 256
  | .poolNarrow, .pool index => index.toNat < 256
  | .pool, .pool _ => True
  | .increment, .increment index amount => index.toNat < 256 ∧ InField 1 amount.toInt
  | .branch, .branch target => Reaches offset 2 target
  | .branchWide, .branch target => Reaches offset 4 target
  | .tableSwitch, .switch table =>
    table.Reachable offset ∧ table.cases ≠ [] ∧ KeysFrom table.low table.cases
  | .lookupSwitch, .switch table => table.Reachable offset ∧ InField 4 table.cases.length
  | .interfaceCall, .interfaceCall _ _ => True
  | .dynamicCall, .pool _ => True
  | .multiArray, .multiArray _ _ => True
  | _, _ => False

/-- The number of operand bytes without a meaning, from the position of the first operand byte. -/
def Layout.slack (position : Nat) : Layout → Nat
  | .tableSwitch | .lookupSwitch => Cursor.padding position
  | .interfaceCall => 1
  | .dynamicCall => 2
  | _ => 0

/-- The bytes of an operand behind an opcode at `offset`, with given bytes in the places without a meaning. -/
def Layout.bytes (offset : Nat) (slack : List UInt8) : Layout → Operand → List UInt8
  | .slot, .slot index => bytesOf 1 index.toNat
  | .byte, .immediate value => bytesOf 1 value.toInt
  | .short, .immediate value => bytesOf 2 value.toInt
  | .arrayType, .immediate value => bytesOf 1 value.toInt
  | .poolNarrow, .pool index => bytesOf 1 index.toNat
  | .pool, .pool index => bytesOf 2 index.toNat
  | .increment, .increment index amount => bytesOf 1 index.toNat ++ bytesOf 1 amount.toInt
  | .branch, .branch target => bytesOf 2 (target - offset)
  | .branchWide, .branch target => bytesOf 4 (target - offset)
  | .tableSwitch, .switch table =>
    slack ++ bytesOf 4 (table.default - offset) ++ bytesOf 4 table.low ++ bytesOf 4 table.high ++
      table.cases.flatMap fun case => bytesOf 4 (case.2 - offset)
  | .lookupSwitch, .switch table =>
    slack ++ bytesOf 4 (table.default - offset) ++ bytesOf 4 table.cases.length ++
      table.cases.flatMap fun case => bytesOf 4 case.1.toInt ++ bytesOf 4 (case.2 - offset)
  | .interfaceCall, .interfaceCall index count => bytesOf 2 index.toNat ++ bytesOf 1 count.toNat ++ slack
  | .dynamicCall, .pool index => bytesOf 2 index.toNat ++ slack
  | .multiArray, .multiArray index dimensions => bytesOf 2 index.toNat ++ bytesOf 1 dimensions.toNat
  | _, _ => []

lemma Layout.Holds.branch_iff {layout : Layout} {offset : Nat} {op : Opcode} {operand : Operand}
    (h : layout.Holds offset op operand) :
    (∃ target, operand = .branch target) ↔ layout = .branch ∨ layout = .branchWide := by
  cases layout with
  | bare =>
    simp only [Layout.Holds] at h
    cases hslot : op.implicitSlot? <;> simp [h, hslot]
  | _ => cases operand <;> simp [Layout.Holds] at h ⊢

lemma Layout.Holds.switch_iff {layout : Layout} {offset : Nat} {op : Opcode} {operand : Operand}
    (h : layout.Holds offset op operand) :
    (∃ table, operand = .switch table) ↔ layout = .tableSwitch ∨ layout = .lookupSwitch := by
  cases layout with
  | bare =>
    simp only [Layout.Holds] at h
    cases hslot : op.implicitSlot? <;> simp [h, hslot]
  | _ => cases operand <;> simp [Layout.Holds] at h ⊢

/-! ### Readers of switches -/

lemma inField_toInt (n : Int32) : InField 4 n.toInt := by
  have hlow := n.le_toInt
  have hhigh := n.toInt_lt
  constructor <;> omega

/-- The first and the last of consecutive keys. -/
lemma ends_of_keysFrom {table : SwitchTable} {key : Int} (hkeys : KeysFrom key table.cases) (hne : table.cases ≠ []) :
    table.low = key ∧ table.high + 1 = key + table.cases.length := by
  obtain ⟨default, cases⟩ := table
  simp only at hkeys hne
  induction cases generalizing key with
  | nil => exact absurd rfl hne
  | cons case rest ih =>
    obtain ⟨hkey, hrest⟩ := hkeys
    refine ⟨hkey, ?_⟩
    cases rest with
    | nil => simp [SwitchTable.high, hkey]
    | cons case' rest =>
      have hhigh := (ih hrest (by simp)).2
      simp only [SwitchTable.high, List.getLast?_cons_cons, List.length_cons] at hhigh ⊢
      push_cast at hhigh ⊢
      omega

lemma inField_low (table : SwitchTable) : InField 4 table.low := by
  unfold SwitchTable.low
  cases table.cases.head? with
  | none => decide
  | some case => exact inField_toInt case.1

lemma inField_high (table : SwitchTable) : InField 4 table.high := by
  unfold SwitchTable.high
  cases table.cases.getLast? with
  | none => decide
  | some case => exact inField_toInt case.1

lemma reads_tableCases {key : Int} {count : Nat} (hlow : -2 ^ 31 ≤ key) (hhigh : key + count ≤ 2 ^ 31) :
    Reads offset (readTableCases offset key count) fun _ bytes cases =>
      cases.length = count ∧ KeysFrom key cases ∧ (∀ case ∈ cases, Reaches offset 4 case.2) ∧
        bytes = cases.flatMap fun case => bytesOf 4 (case.2 - offset) := by
  induction count generalizing key with
  | zero =>
    refine (Reads.pure []).congr fun _ bytes cases => ?_
    constructor
    · rintro ⟨rfl, rfl⟩
      simp [KeysFrom]
    · rintro ⟨hlen, -, -, rfl⟩
      simp [List.length_eq_zero_iff.mp hlen]
  | succ count ih =>
    have hkey : (Int32.ofInt key).toInt = key := Int32.toInt_ofInt_of_le hlow (by omega)
    have hrest := @ih (key + 1) (by omega) (by push_cast at hhigh; omega)
    refine ((reads_target 4).bind fun {_ _ target} _ => hrest.map fun rest => (Int32.ofInt key, target) :: rest).congr
      fun _ bytes cases => ?_
    constructor
    · rintro ⟨_, target, _, rfl, ⟨hreach, rfl⟩, rest, ⟨hlen, hkeys, hall, rfl⟩, rfl⟩
      exact ⟨by simp [hlen], ⟨hkey, hkeys⟩, List.forall_mem_cons.mpr ⟨hreach, hall⟩, rfl⟩
    · rintro ⟨hlen, hkeys, hall, rfl⟩
      obtain ⟨⟨k, target⟩, rest, rfl⟩ := List.exists_cons_of_length_eq_add_one hlen
      obtain ⟨rfl, hkeys⟩ := hkeys
      obtain ⟨hreach, hall⟩ := List.forall_mem_cons.mp hall
      exact ⟨_, target, _, rfl, ⟨hreach, rfl⟩, rest, ⟨by simpa using hlen, hkeys, hall, rfl⟩, by simp⟩

lemma reads_lookupCases (count : Nat) :
    Reads offset (readLookupCases offset count) fun _ bytes cases =>
      cases.length = count ∧ (∀ case ∈ cases, Reaches offset 4 case.2) ∧
        bytes = cases.flatMap fun case => bytesOf 4 case.1.toInt ++ bytesOf 4 (case.2 - offset) := by
  induction count with
  | zero =>
    refine (Reads.pure []).congr fun _ bytes cases => ?_
    constructor
    · rintro ⟨rfl, rfl⟩
      simp
    · rintro ⟨hlen, -, rfl⟩
      simp [List.length_eq_zero_iff.mp hlen]
  | succ count ih =>
    refine ((reads_signed 4).bind fun {_ _ key} _ => (reads_target 4).bind fun {_ _ target} _ =>
      ih.map fun rest => (Int32.ofInt key, target) :: rest).congr fun _ bytes cases => ?_
    constructor
    · rintro ⟨_, key, _, rfl, ⟨⟨hlow, hhigh⟩, rfl⟩, _, target, _, rfl, ⟨hreach, rfl⟩, rest, ⟨hlen, hall, rfl⟩, rfl⟩
      have hkey : (Int32.ofInt key).toInt = key := Int32.toInt_ofInt_of_le (by omega) (by omega)
      exact ⟨by simp [hlen], List.forall_mem_cons.mpr ⟨hreach, hall⟩, by simp [hkey]⟩
    · rintro ⟨hlen, hall, rfl⟩
      obtain ⟨⟨k, target⟩, rest, rfl⟩ := List.exists_cons_of_length_eq_add_one hlen
      obtain ⟨hreach, hall⟩ := List.forall_mem_cons.mp hall
      exact ⟨_, k.toInt, _, by simp, ⟨inField_toInt k, rfl⟩, _, target, _, rfl, ⟨hreach, rfl⟩, rest,
        ⟨by simpa using hlen, hall, rfl⟩, by simp⟩

/-- Which bytes spell an operand in a layout. -/
def Layout.Spells (offset : Nat) (op : Opcode) (layout : Layout) : Spelling Operand := fun position bytes operand =>
  layout.Holds offset op operand ∧
    ∃ slack, slack.length = layout.slack position ∧ bytes = layout.bytes offset slack operand

/-- The cases of a switch over a range, which is not empty. -/
lemma reads_tableRange {low high : Int} (hlow : InField 4 low) (hhigh : InField 4 high) (default : Nat) :
    Reads offset (if high < low then throw (.malformedSwitch offset)
      else do return ⟨default, ← readTableCases offset low (high - low + 1).toNat⟩ : Read SwitchTable)
      fun _ bytes table => low ≤ high ∧ table.default = default ∧
        table.cases.length = (high - low + 1).toNat ∧ KeysFrom low table.cases ∧
        (∀ case ∈ table.cases, Reaches offset 4 case.2) ∧
        bytes = table.cases.flatMap fun case => bytesOf 4 (case.2 - offset) := by
  obtain ⟨hlow, -⟩ := hlow
  obtain ⟨-, hhigh⟩ := hhigh
  split_ifs with hlt
  · refine Reads.throw rfl fun _ bytes table => ?_
    rintro ⟨hle, -⟩
    omega
  · refine ((reads_tableCases (by omega) (by omega)).map (SwitchTable.mk default)).congr fun _ bytes table => ?_
    constructor
    · rintro ⟨cases, ⟨hlen, hkeys, hall, rfl⟩, rfl⟩
      exact ⟨by omega, rfl, hlen, hkeys, hall, rfl⟩
    · rintro ⟨-, rfl, hlen, hkeys, hall, rfl⟩
      exact ⟨table.cases, ⟨hlen, hkeys, hall, rfl⟩, rfl⟩

lemma reads_tableSwitch (op : Opcode) :
    Reads offset (readTableSwitch offset) fun position bytes table =>
      Layout.tableSwitch.Spells offset op position bytes (.switch table) := by
  refine (reads_align.bind fun _ => (reads_target 4).bind fun {_ _ default} _ => (reads_signed 4).bind fun hlow =>
    (reads_signed 4).bind fun hhigh => reads_tableRange hlow.1 hhigh.1 default).congr fun position bytes table => ?_
  constructor
  · rintro ⟨slack, -, _, rfl, hslack, _, default, _, rfl, ⟨hdefault, rfl⟩, _, low, _, rfl, ⟨hlow, rfl⟩, _, high, _,
      rfl, ⟨hhigh, rfl⟩, hle, rfl, hlen, hkeys, hall, rfl⟩
    have hne : table.cases ≠ [] := by
      rw [← List.length_pos_iff]
      omega
    obtain ⟨rfl, hhigh⟩ := ends_of_keysFrom hkeys hne
    obtain rfl : table.high = high := by omega
    exact ⟨⟨⟨hdefault, hall⟩, hne, hkeys⟩, slack, hslack, by simp [Layout.bytes]⟩
  · rintro ⟨⟨⟨hdefault, hall⟩, hne, hkeys⟩, slack, hslack, rfl⟩
    have hends := (ends_of_keysFrom hkeys hne).2
    have hpos := List.length_pos_iff.mpr hne
    exact ⟨slack, (), _, by simp [Layout.bytes], hslack, _, table.default, _, rfl, ⟨hdefault, rfl⟩, _, table.low, _,
      rfl, ⟨inField_low table, rfl⟩, _, table.high, _, rfl, ⟨inField_high table, rfl⟩, by omega, rfl, by omega, hkeys,
      hall, rfl⟩

/-- The cases of a switch with listed keys, of which the number is not negative. -/
lemma reads_lookupPairs (count : Int) (default : Nat) :
    Reads offset (if count < 0 then throw (.malformedSwitch offset)
      else do return ⟨default, ← readLookupCases offset count.toNat⟩ : Read SwitchTable)
      fun _ bytes table => table.default = default ∧ (table.cases.length : Int) = count ∧
        (∀ case ∈ table.cases, Reaches offset 4 case.2) ∧
        bytes = table.cases.flatMap fun case => bytesOf 4 case.1.toInt ++ bytesOf 4 (case.2 - offset) := by
  split_ifs with hneg
  · refine Reads.throw rfl fun _ bytes table => ?_
    rintro ⟨-, hlen, -⟩
    omega
  · refine ((reads_lookupCases count.toNat).map (SwitchTable.mk default)).congr fun _ bytes table => ?_
    constructor
    · rintro ⟨cases, ⟨hlen, hall, rfl⟩, rfl⟩
      exact ⟨rfl, by simp only; omega, hall, rfl⟩
    · rintro ⟨rfl, hlen, hall, rfl⟩
      exact ⟨table.cases, ⟨by omega, hall, rfl⟩, rfl⟩

lemma reads_lookupSwitch (op : Opcode) :
    Reads offset (readLookupSwitch offset) fun position bytes table =>
      Layout.lookupSwitch.Spells offset op position bytes (.switch table) := by
  refine (reads_align.bind fun _ => (reads_target 4).bind fun {_ _ default} _ => (reads_signed 4).bind
    fun {_ _ count} _ => reads_lookupPairs count default).congr fun position bytes table => ?_
  constructor
  · rintro ⟨slack, -, _, rfl, hslack, _, default, _, rfl, ⟨hdefault, rfl⟩, _, count, _, rfl, ⟨hfield, rfl⟩, rfl, rfl,
      hall, rfl⟩
    exact ⟨⟨⟨hdefault, hall⟩, hfield⟩, slack, hslack, by simp [Layout.bytes]⟩
  · rintro ⟨⟨⟨hdefault, hall⟩, hfield⟩, slack, hslack, rfl⟩
    exact ⟨slack, (), _, by simp [Layout.bytes], hslack, _, table.default, _, rfl, ⟨hdefault, rfl⟩, _, _, _, rfl,
      ⟨hfield, rfl⟩, rfl, rfl, hall, rfl⟩

/-! ### Readers of operands -/

lemma pow_le_pow_of_width {width m : Nat} (h : width ≤ m) : 256 ^ width ≤ 256 ^ m :=
  Nat.pow_le_pow_right (by norm_num) h

lemma toNat_ofNat_field {width n : Nat} (hwidth : width ≤ 2) (h : n < 256 ^ width) : (UInt16.ofNat n).toNat = n := by
  have hle := pow_le_pow_of_width hwidth
  rw [UInt16.toNat_ofNat', Nat.mod_eq_of_lt]
  omega

lemma toInt_ofInt_field {width : Nat} {n : Int} (hwidth : width ≤ 4) (h : InField width n) :
    (Int32.ofInt n).toInt = n := by
  have hle : (256 : Int) ^ width ≤ 256 ^ 4 := by exact_mod_cast pow_le_pow_of_width hwidth
  obtain ⟨hlow, hhigh⟩ := h
  exact Int32.toInt_ofInt_of_le (by omega) (by omega)

/-- An index without a sign, in a field of at most two bytes. -/
lemma reads_index {width : Nat} (hwidth : width ≤ 2) (wrap : UInt16 → Operand) :
    Reads offset (do return wrap (UInt16.ofNat (← Cursor.unsigned width))) fun _ bytes operand =>
      ∃ index, operand = wrap index ∧ index.toNat < 256 ^ width ∧ bytes = bytesOf width index.toNat := by
  refine ((reads_unsigned width).map fun n => wrap (UInt16.ofNat n)).congr fun _ bytes operand => ?_
  constructor
  · rintro ⟨n, ⟨hn, rfl⟩, rfl⟩
    have hindex : (UInt16.ofNat n).toNat = n := toNat_ofNat_field hwidth hn
    exact ⟨UInt16.ofNat n, rfl, by rwa [hindex], by rw [hindex]⟩
  · rintro ⟨index, rfl, hindex, rfl⟩
    exact ⟨index.toNat, ⟨hindex, rfl⟩, by simp⟩

/-- A number with a sign, in a field of at most four bytes. -/
lemma reads_immediate {width : Nat} (hwidth : width ≤ 4) :
    Reads offset (do return Operand.immediate (Int32.ofInt (← Cursor.signed width))) fun _ bytes operand =>
      ∃ value : Int32, operand = .immediate value ∧ InField width value.toInt ∧ bytes = bytesOf width value.toInt := by
  refine ((reads_signed width).map fun n => Operand.immediate (Int32.ofInt n)).congr fun _ bytes operand => ?_
  constructor
  · rintro ⟨n, ⟨hn, rfl⟩, rfl⟩
    have hvalue : (Int32.ofInt n).toInt = n := toInt_ofInt_field hwidth hn
    exact ⟨Int32.ofInt n, rfl, by rwa [hvalue], by rw [hvalue]⟩
  · rintro ⟨value, rfl, hvalue, rfl⟩
    exact ⟨value.toInt, ⟨hvalue, rfl⟩, by simp⟩

/-- **Readers of operands.** A reader takes exactly the bytes that spell an operand in its layout. -/
lemma reads_operand (op : Opcode) (layout : Layout) :
    Reads offset (readOperand offset op layout) (layout.Spells offset op) := by
  cases layout with
  | bare =>
    refine (Reads.pure _).congr fun _ bytes operand => ?_
    simp only [Layout.Spells, Layout.Holds, Layout.slack, Layout.bytes]
    constructor
    · rintro ⟨rfl, rfl⟩
      exact ⟨rfl, [], rfl, rfl⟩
    · rintro ⟨rfl, -, -, rfl⟩
      exact ⟨rfl, rfl⟩
  | slot =>
    refine (reads_index (by norm_num) Operand.slot).congr fun _ bytes operand => ?_
    cases operand <;> simp [Layout.Spells, Layout.Holds, Layout.slack, Layout.bytes]
  | byte =>
    refine (reads_immediate (by norm_num)).congr fun _ bytes operand => ?_
    cases operand <;> simp [Layout.Spells, Layout.Holds, Layout.slack, Layout.bytes]
  | short =>
    refine (reads_immediate (by norm_num)).congr fun _ bytes operand => ?_
    cases operand <;> simp [Layout.Spells, Layout.Holds, Layout.slack, Layout.bytes]
  | arrayType =>
    refine ((reads_unsigned 1).map fun n => Operand.immediate (Int32.ofNat n)).congr fun _ bytes operand => ?_
    constructor
    · rintro ⟨n, ⟨hn, rfl⟩, rfl⟩
      have hvalue : (Int32.ofNat n).toInt = n := Int32.toInt_ofNat_of_lt (by omega)
      refine ⟨?_, [], rfl, ?_⟩
      · simp only [Layout.Holds, hvalue]
        omega
      · simp only [Layout.bytes, hvalue]
    · rintro ⟨hholds, slack, -, rfl⟩
      cases operand with
      | immediate value =>
        obtain ⟨hlow, hhigh⟩ := hholds
        have hvalue : ((value.toInt.toNat : Nat) : Int) = value.toInt := Int.toNat_of_nonneg hlow
        refine ⟨value.toInt.toNat, ⟨by omega, by rw [hvalue]; rfl⟩, ?_⟩
        rw [← Int32.ofInt_eq_ofNat, hvalue, Int32.ofInt_toInt]
      | _ => exact hholds.elim
  | poolNarrow =>
    refine (reads_index (by norm_num) Operand.pool).congr fun _ bytes operand => ?_
    cases operand <;> simp [Layout.Spells, Layout.Holds, Layout.slack, Layout.bytes]
  | pool =>
    refine (reads_index (by norm_num) Operand.pool).congr fun _ bytes operand => ?_
    have hlt (index : UInt16) : index.toNat < 65536 := index.toNat_lt
    cases operand <;> simp [Layout.Spells, Layout.Holds, Layout.slack, Layout.bytes, hlt]
  | increment =>
    refine ((reads_unsigned 1).bind fun {_ _ slot} _ => (reads_signed 1).map fun amount =>
      Operand.increment (UInt16.ofNat slot) (Int16.ofInt amount)).congr fun _ bytes operand => ?_
    constructor
    · rintro ⟨_, slot, _, rfl, ⟨hslot, rfl⟩, amount, ⟨hamount, rfl⟩, rfl⟩
      have hslot' : (UInt16.ofNat slot).toNat = slot := toNat_ofNat_field (by norm_num) hslot
      have hamount' : (Int16.ofInt amount).toInt = amount :=
        Int16.toInt_ofInt_of_le (by have := hamount.1; omega) (by have := hamount.2; omega)
      refine ⟨?_, [], rfl, ?_⟩
      · simp only [Layout.Holds, hslot', hamount']
        exact ⟨hslot, hamount⟩
      · simp only [Layout.bytes, hslot', hamount']
    · rintro ⟨hholds, slack, -, rfl⟩
      cases operand with
      | increment index amount =>
        exact ⟨_, index.toNat, _, rfl, ⟨hholds.1, rfl⟩, amount.toInt, ⟨hholds.2, rfl⟩, by simp⟩
      | _ => exact hholds.elim
  | branch =>
    refine ((reads_target 2).map Operand.branch).congr fun _ bytes operand => ?_
    cases operand <;> simp [Layout.Spells, Layout.Holds, Layout.slack, Layout.bytes]
  | branchWide =>
    refine ((reads_target 4).map Operand.branch).congr fun _ bytes operand => ?_
    cases operand <;> simp [Layout.Spells, Layout.Holds, Layout.slack, Layout.bytes]
  | tableSwitch =>
    refine ((reads_tableSwitch op).map Operand.switch).congr fun _ bytes operand => ?_
    cases operand <;> simp [Layout.Spells, Layout.Holds]
  | lookupSwitch =>
    refine ((reads_lookupSwitch op).map Operand.switch).congr fun _ bytes operand => ?_
    cases operand <;> simp [Layout.Spells, Layout.Holds]
  | interfaceCall =>
    refine ((reads_unsigned 2).bind fun {_ _ index} _ => (reads_unsigned 1).bind fun {_ _ count} _ =>
      ((Reads.take 1).map bigEndian).map fun _ => Operand.interfaceCall (UInt16.ofNat index) (UInt8.ofNat count)).congr
        fun _ bytes operand => ?_
    constructor
    · rintro ⟨_, index, _, rfl, ⟨hindex, rfl⟩, _, count, _, rfl, ⟨hcount, rfl⟩, _, ⟨slack, ⟨hslack, rfl⟩, -⟩, rfl⟩
      have hindex' : (UInt16.ofNat index).toNat = index := toNat_ofNat_field (by norm_num) hindex
      have hcount' : (UInt8.ofNat count).toNat = count := UInt8.toNat_ofNat_of_lt' hcount
      exact ⟨trivial, slack, hslack, by simp [Layout.bytes, hindex', hcount']⟩
    · rintro ⟨hholds, slack, hslack, rfl⟩
      cases operand with
      | interfaceCall index count =>
        exact ⟨_, index.toNat, _, by simp [Layout.bytes], ⟨index.toNat_lt, rfl⟩, _, count.toNat, slack, rfl,
          ⟨count.toNat_lt, rfl⟩, _, ⟨slack, ⟨hslack, rfl⟩, rfl⟩, by simp⟩
      | _ => exact hholds.elim
  | dynamicCall =>
    refine ((reads_unsigned 2).bind fun {_ _ index} _ =>
      ((Reads.take 2).map bigEndian).map fun _ => Operand.pool (UInt16.ofNat index)).congr fun _ bytes operand => ?_
    constructor
    · rintro ⟨_, index, _, rfl, ⟨hindex, rfl⟩, _, ⟨slack, ⟨hslack, rfl⟩, -⟩, rfl⟩
      have hindex' : (UInt16.ofNat index).toNat = index := toNat_ofNat_field (by norm_num) hindex
      exact ⟨trivial, slack, hslack, by simp [Layout.bytes, hindex']⟩
    · rintro ⟨hholds, slack, hslack, rfl⟩
      cases operand with
      | pool index =>
        exact ⟨_, index.toNat, slack, rfl, ⟨index.toNat_lt, rfl⟩, _, ⟨slack, ⟨hslack, rfl⟩, rfl⟩, by simp⟩
      | _ => exact hholds.elim
  | multiArray =>
    refine ((reads_unsigned 2).bind fun {_ _ index} _ => (reads_unsigned 1).map fun dimensions =>
      Operand.multiArray (UInt16.ofNat index) (UInt8.ofNat dimensions)).congr fun _ bytes operand => ?_
    constructor
    · rintro ⟨_, index, _, rfl, ⟨hindex, rfl⟩, dimensions, ⟨hdimensions, rfl⟩, rfl⟩
      have hindex' : (UInt16.ofNat index).toNat = index := toNat_ofNat_field (by norm_num) hindex
      have hdimensions' : (UInt8.ofNat dimensions).toNat = dimensions := UInt8.toNat_ofNat_of_lt' hdimensions
      exact ⟨trivial, [], rfl, by simp [Layout.bytes, hindex', hdimensions']⟩
    · rintro ⟨hholds, slack, -, rfl⟩
      cases operand with
      | multiArray index dimensions =>
        exact ⟨_, index.toNat, _, rfl, ⟨index.toNat_lt, rfl⟩, dimensions.toNat, ⟨dimensions.toNat_lt, rfl⟩, by simp⟩
      | _ => exact hholds.elim
  | wide =>
    refine Reads.throw rfl fun _ bytes operand => ?_
    rintro ⟨hholds, -⟩
    cases operand <;> exact hholds

/-! ### Instructions -/

/-- The layout of the operand of a known opcode. -/
def Opcode.layout? (op : Opcode) : Option Layout :=
  op.info?.map OpcodeInfo.layout

namespace Instruction

/-- The number of bytes without a meaning. -/
def slack (i : Instruction) : Nat :=
  (i.opcode.layout?.map (Layout.slack (i.offset + 1))).getD 0

/-- The bytes of an instruction, with given bytes in the places without a meaning. -/
def bytes (slack : List UInt8) (i : Instruction) : List UInt8 :=
  i.opcode.raw :: (i.opcode.layout?.map fun layout => layout.bytes i.offset slack i.operand).getD []

/-- The bytes of an instruction, with zeros in the places without a meaning. -/
def encode (i : Instruction) : List UInt8 :=
  i.bytes (List.replicate i.slack 0)

/-- An instruction that can be written: its opcode is known, its operand has a place in the layout, and its size is that
of its bytes. -/
structure Encodable (i : Instruction) : Prop where
  operand : ∃ layout, i.opcode.layout? = some layout ∧ layout.Holds i.offset i.opcode i.operand
  size : i.size = i.encode.length

end Instruction

/-- The bytes without a meaning do not change how many bytes there are. -/
lemma Layout.length_bytes_congr {layout : Layout} {operand : Operand} {s t : List UInt8} (h : s.length = t.length) :
    (layout.bytes offset s operand).length = (layout.bytes offset t operand).length := by
  cases layout <;> cases operand <;> simp [Layout.bytes, h]

lemma Instruction.length_bytes {i : Instruction} {slack : List UInt8} (h : slack.length = i.slack) :
    (i.bytes slack).length = i.encode.length := by
  rw [Instruction.encode, Instruction.bytes, Instruction.bytes]
  cases i.opcode.layout? with
  | none => simp
  | some layout => simpa using Layout.length_bytes_congr (by simpa using h)

/-- What is read behind a known opcode. -/
lemma reads_behind (op : Opcode) (layout : Layout) :
    Reads offset (do
      let operand ← readOperand offset op layout
      return { offset, opcode := op, operand, size := (← get).position - offset : Instruction })
      fun position bytes i => ∃ operand, layout.Spells offset op position bytes operand ∧
        i = ⟨offset, op, operand, position + bytes.length - offset⟩ := by
  refine ((reads_operand op layout).bind fun {_ _ operand} _ =>
    Reads.position fun n => Reads.pure (Instruction.mk offset op operand (n - offset))).congr fun position bytes i => ?_
  constructor
  · rintro ⟨bytes, operand, _, rfl, hspells, rfl, rfl⟩
    exact ⟨operand, by simpa using hspells, by simp⟩
  · rintro ⟨operand, hspells, rfl⟩
    exact ⟨bytes, operand, [], by simp, hspells, rfl, rfl⟩

lemma get_eq_ok {c c' : Cursor} {a : Cursor} : (get : Read Cursor) c = .ok (a, c') ↔ a = c ∧ c' = c := by
  have hget : (get : Read Cursor) c = .ok (c, c) := rfl
  simp [hget, eq_comm]

lemma bytesOf_one {n : Nat} (h : n < 256 ^ 1) : bytesOf 1 n = [UInt8.ofNat n] := by
  have hmod : (n : Int) % 256 = n := by omega
  simp [bytesOf, hmod]

lemma readInstruction_eq_ok {c c' : Cursor} {i : Instruction} :
    readInstruction c.mark = .ok (i, c') ↔ ∃ (raw : UInt8) (info : OpcodeInfo) (operand : Operand) (bytes : List UInt8),
      (Opcode.mk raw).info? = some info ∧ info.layout.Spells c.position ⟨raw⟩ (c.position + 1) bytes operand ∧
        raw :: bytes <+: c.unread ∧ i = ⟨c.position, ⟨raw⟩, operand, bytes.length + 1⟩ ∧
        c' = c.mark.skip (bytes.length + 1) := by
  unfold readInstruction
  simp only [bind_eq_ok, get_eq_ok]
  constructor
  · rintro ⟨_, _, ⟨rfl, rfl⟩, n, c₁, hraw, h⟩
    obtain ⟨_, hfirst, rfl, hn, rfl⟩ := (@reads_unsigned c.position 1).ok_iff.mp hraw
    rw [length_bytesOf] at h
    rw [bytesOf_one hn] at hfirst
    cases hinfo : (Opcode.mk (UInt8.ofNat n)).info? with
    | none =>
      simp only [hinfo] at h
      cases h
    | some info =>
      simp only [hinfo] at h
      obtain ⟨bytes, hbytes, rfl, operand, hspells, rfl⟩ := (reads_behind _ _).ok_iff.mp h
      refine ⟨UInt8.ofNat n, info, operand, bytes, hinfo, hspells, ?_, ?_, ?_⟩
      · obtain ⟨rest, hrest⟩ := hfirst
        rw [Cursor.unread_mark] at hrest
        simpa [← hrest] using hbytes
      · simp only [Cursor.start_mark, Cursor.position_skip, Cursor.position_mark, Instruction.mk.injEq, true_and]
        omega
      · rw [Cursor.skip_skip, Nat.add_comm]
  · rintro ⟨raw, info, operand, bytes, hinfo, hspells, ⟨rest, hrest⟩, rfl, rfl⟩
    refine ⟨c.mark, c.mark, ⟨rfl, rfl⟩, raw.toNat, c.mark.skip 1, ?_, ?_⟩
    · refine (@reads_unsigned c.position 1).ok_iff.mpr ⟨[raw], ⟨bytes ++ rest, hrest⟩, rfl, raw.toNat_lt, ?_⟩
      rw [bytesOf_one raw.toNat_lt, UInt8.ofNat_toNat]
    · simp only [UInt8.ofNat_toNat, hinfo]
      refine (reads_behind _ _).ok_iff.mpr ⟨bytes, ⟨rest, ?_⟩, ?_, operand, hspells, ?_⟩
      · simp [← hrest]
      · rw [Cursor.skip_skip, Nat.add_comm]
      · simp only [Cursor.start_mark, Cursor.position_skip, Cursor.position_mark, Instruction.mk.injEq, true_and]
        omega

/-- An error is about the instruction that starts at the cursor. -/
lemma offset_of_readInstruction_error {c : Cursor} {e : DecodeError} (h : readInstruction c.mark = .error e) :
    e.offset = c.position := by
  unfold readInstruction at h
  rcases bind_eq_error.mp h with h | ⟨_, _, hget, h⟩
  · cases h
  obtain ⟨rfl, rfl⟩ := get_eq_ok.mp hget
  rcases bind_eq_error.mp h with h | ⟨n, c₁, hraw, h⟩
  · exact (@reads_unsigned c.position 1).offset_of_error rfl h
  obtain ⟨_, -, rfl, -⟩ := (@reads_unsigned c.position 1).ok_iff.mp hraw
  cases hinfo : (Opcode.mk (UInt8.ofNat n)).info? with
  | none =>
    simp only [hinfo] at h
    cases h
    rfl
  | some info =>
    simp only [hinfo] at h
    exact (@reads_behind c.position _ _).offset_of_error rfl h

namespace Instruction

lemma bytes_eq {raw : UInt8} {info : OpcodeInfo} (hinfo : (Opcode.mk raw).info? = some info) (offset : Nat)
    (operand : Operand) (size : Nat) (slack : List UInt8) :
    (Instruction.mk offset ⟨raw⟩ operand size).bytes slack = raw :: info.layout.bytes offset slack operand := by
  simp [bytes, Opcode.layout?, hinfo]

lemma slack_eq {raw : UInt8} {info : OpcodeInfo} (hinfo : (Opcode.mk raw).info? = some info) (offset : Nat)
    (operand : Operand) (size : Nat) :
    (Instruction.mk offset ⟨raw⟩ operand size).slack = info.layout.slack (offset + 1) := by
  simp [slack, Opcode.layout?, hinfo]

end Instruction

/-- **Readers of instructions.** At the start of an instruction, exactly the instructions that can be written there are
read, whatever the bytes without a meaning are. -/
lemma readInstruction_ok_iff {c c' : Cursor} {i : Instruction} :
    readInstruction c.mark = .ok (i, c') ↔
      i.offset = c.position ∧ i.Encodable ∧
        ∃ slack, slack.length = i.slack ∧ i.bytes slack <+: c.unread ∧ c' = c.mark.skip i.size := by
  rw [readInstruction_eq_ok]
  constructor
  · rintro ⟨raw, info, operand, _, hinfo, ⟨hholds, slack, hslack, rfl⟩, hprefix, rfl, rfl⟩
    rw [← Instruction.slack_eq hinfo _ operand _] at hslack
    refine ⟨rfl, ⟨⟨info.layout, ?_, hholds⟩, ?_⟩, slack, hslack, ?_, rfl⟩
    · simp [Opcode.layout?, hinfo]
    · rw [← Instruction.length_bytes hslack, Instruction.bytes_eq hinfo, List.length_cons]
    · rwa [Instruction.bytes_eq hinfo]
  · rintro ⟨hoffset, ⟨⟨layout, hlayout, hholds⟩, hsize⟩, slack, hslack, hprefix, rfl⟩
    obtain ⟨offset, ⟨raw⟩, operand, size⟩ := i
    obtain ⟨info, hinfo, rfl⟩ := Option.map_eq_some_iff.mp hlayout
    subst hoffset
    rw [← Instruction.length_bytes hslack, Instruction.bytes_eq hinfo, List.length_cons] at hsize
    rw [Instruction.bytes_eq hinfo] at hprefix
    rw [Instruction.slack_eq hinfo] at hslack
    subst hsize
    exact ⟨raw, info, operand, _, hinfo, ⟨hholds, slack, hslack, rfl⟩, hprefix, rfl, rfl⟩

end JvmLift.Bytecode
