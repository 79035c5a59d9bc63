import Mathlib
import JvmLift.Proofs.BranchConditions
import JvmLift.Proofs.StackShape

/-!
# Code that tests

The machine on numbers and references, with the instructions that do nothing but compute: no calls, no stores and no
constructions. It knows its instructions by their bytes; what is read from arrays, objects and classes is left to an
interpretation. An instruction that throws has no result.

A symbolic run over such code leaves expressions with the machine's values, with one exception. A conversion from `int`
to `long` leaves no trace in the source, where the number is still an `int`. That makes no difference to what is read or
compared, but `long` arithmetic on converted numbers alone becomes arithmetic on `int`. Where the machine does none of
that, the condition of the branch at the end tells which way the machine goes.
-/

namespace JvmLift.TestCode

open Bytecode Recovery Source

/-! ### The machine -/

/-- The types of values, as far as the machine tells them apart. -/
inductive Kind
  | int
  | long
  | ref
  deriving DecidableEq

def Kind.has : Kind → Value → Bool
  | int, .int _ | long, .long _ | ref, .ref _ => true
  | _, _ => false

/-- A value on the operand stack. -/
structure Cell where
  value : Value
  /-- Whether the value is a `long` that comes from an `int` by nothing but a conversion. -/
  widened : Bool := false

def Cell.isLong (c : Cell) : Bool :=
  Kind.long.has c.value

/-- Words that a value takes. -/
def Cell.words (c : Cell) : Nat :=
  if c.isLong then 2 else 1

/-- The instructions of the machine. -/
inductive TestOp
  | nothing
  | null
  | const (c : Constant)
  | load (kind : Kind) (slot : UInt16)
  | element (kind : Kind)
  | length
  | pop (words : Nat)
  /-- Copies the top `words` words beneath the next `skip` words. -/
  | dup (words skip : Nat)
  | swap
  | binary (op : BinOp) (kind : Kind)
  | negate (kind : Kind)
  /-- From `int` to `long`. -/
  | widen
  /-- From `long` to `int`. -/
  | narrow
  /-- From `int` to a smaller type and back. -/
  | truncate (type : String)
  | compare
  | staticField (member : Member)
  | field (member : Member)
  | checkCast (type : String)
  | instanceOf (type : String)

/-- The instructions without an operand, each with its byte. -/
def bareOps : List (UInt8 × TestOp) :=
  [(0x00, .nothing), (0x01, .null), (0x02, .const (.int (-1))), (0x03, .const (.int 0)), (0x04, .const (.int 1)),
    (0x05, .const (.int 2)), (0x06, .const (.int 3)), (0x07, .const (.int 4)), (0x08, .const (.int 5)),
    (0x09, .const (.long 0)), (0x0a, .const (.long 1)), (0x2e, .element .int), (0x2f, .element .long),
    (0x32, .element .ref), (0x33, .element .int), (0x34, .element .int), (0x35, .element .int), (0x57, .pop 1),
    (0x58, .pop 2), (0x59, .dup 1 0), (0x5a, .dup 1 1), (0x5b, .dup 1 2), (0x5c, .dup 2 0), (0x5d, .dup 2 1),
    (0x5e, .dup 2 2), (0x5f, .swap), (0x60, .binary .add .int), (0x61, .binary .add .long), (0x64, .binary .sub .int),
    (0x65, .binary .sub .long), (0x68, .binary .mul .int), (0x69, .binary .mul .long), (0x6c, .binary .div .int),
    (0x6d, .binary .div .long), (0x70, .binary .rem .int), (0x71, .binary .rem .long), (0x74, .negate .int),
    (0x75, .negate .long), (0x78, .binary .shl .int), (0x79, .binary .shl .long), (0x7a, .binary .shr .int),
    (0x7b, .binary .shr .long), (0x7c, .binary .ushr .int), (0x7d, .binary .ushr .long), (0x7e, .binary .bitAnd .int),
    (0x7f, .binary .bitAnd .long), (0x80, .binary .bitOr .int), (0x81, .binary .bitOr .long),
    (0x82, .binary .bitXor .int), (0x83, .binary .bitXor .long), (0x85, .widen), (0x88, .narrow),
    (0x91, .truncate "byte"), (0x92, .truncate "char"), (0x93, .truncate "short"), (0x94, .compare), (0xbe, .length)]

/-- The bytes that load a slot of each kind: the general one, and the first of four that name a slot themselves. -/
def Kind.loads : Kind → UInt8 × UInt8
  | int => (0x15, 0x1a)
  | long => (0x16, 0x1e)
  | ref => (0x19, 0x2a)

def Kind.isLoad (kind : Kind) (raw : UInt8) (slot : UInt16) : Bool :=
  raw == kind.loads.1 || [0, 1, 2, 3].any fun k => slot == k && raw == kind.loads.2 + k.toUInt8

/-- The instructions that refer to the pool. -/
def pooledOp? (pool : Pool) (raw : UInt8) (index : UInt16) : Option TestOp :=
  if raw = 0x12 ∨ raw = 0x13 ∨ raw = 0x14 then (pool.constant? index).map .const
  else if raw = 0xb2 then (pool.member? index).map .staticField
  else if raw = 0xb4 then (pool.member? index).map .field
  else if raw = 0xc0 then (pool.className? index).map (.checkCast <| classOperandName ·)
  else if raw = 0xc1 then (pool.className? index).map (.instanceOf <| classOperandName ·)
  else none

/-- The operation of an instruction, by its byte and its operand. -/
def testOp? (pool : Option Pool) (i : Instruction) : Option TestOp :=
  match i.operand with
  | .none => bareOps.lookup i.opcode.raw
  | .immediate n => if i.opcode.raw = 0x10 ∨ i.opcode.raw = 0x11 then some (.const (.int n)) else none
  | .slot slot => ([.int, .long, .ref].find? (Kind.isLoad · i.opcode.raw slot)).map (.load · slot)
  | .pool index => pool.bind (pooledOp? · i.opcode.raw index)
  | _ => none

/-- The kind of the values of a type. -/
def kindOf? : FieldType → Option Kind
  | .long => some .long
  | .object _ | .array _ => some .ref
  | .double | .float => none
  | .byte | .char | .int | .short | .boolean => some .int

def fieldKind? (member : Member) : Option Kind :=
  match FieldType.parse member.descriptor with
  | .ok type => kindOf? type
  | .error _ => none

section Machine

variable (I : Interpretation) (locals : UInt16 → Value)

/-- The kind of a constant, and its value. -/
def constantKind : Constant → Kind
  | .int _ => .int
  | .long _ => .long
  | _ => .ref

def constantValue? : Constant → Option Value
  | .int n => some (.int n)
  | .long n => some (.long n)
  | .string s => some (I.strings s)
  | .classRef name => I.gives (.classLit (classOperandName name)) []
  | .float _ | .double _ => none

/-- The top `words` words as values, and the stack below. A `long` is not divided. -/
def cutWords? : Nat → List Cell → Option (List Cell × List Cell)
  | 0, s => some ([], s)
  | _ + 1, [] => none
  | words + 1, c :: s =>
    if words + 1 < c.words then none
    else (cutWords? (words + 1 - c.words) s).map fun (top, below) => (c :: top, below)

/-- Pushes a value that must be of a kind. -/
def push? (kind : Kind) (x : Option Value) (s : List Cell) : Option (List Cell) :=
  (x.filter kind.has).map fun x => ⟨x, false⟩ :: s

/-- Runs one operation on a stack whose top is its first element. -/
def TestOp.exec : TestOp → List Cell → Option (List Cell)
  | nothing, s => some s
  | null, s => some (⟨.ref none, false⟩ :: s)
  | const c, s => push? (constantKind c) (constantValue? I c) s
  | load kind slot, s => push? kind (some (locals slot)) s
  | element kind, ⟨.int n, _⟩ :: ⟨.ref a, _⟩ :: s => push? kind (I.gives .index [.ref a, .int n]) s
  | length, ⟨.ref a, _⟩ :: s => push? .int (I.gives .length [.ref a]) s
  | pop words, s => (cutWords? words s).map Prod.snd
  | dup words skip, s => do
    let (top, s) ← cutWords? words s
    let (below, s) ← cutWords? skip s
    return top ++ below ++ top ++ s
  | swap, a :: b :: s => if a.isLong || b.isLong then none else some (b :: a :: s)
  | binary op kind, b :: a :: s => if kind.has a.value then push? kind (Value.binary? op a.value b.value) s else none
  | negate kind, a :: s => if kind.has a.value then push? kind a.value.negative? s else none
  | widen, ⟨.int n, _⟩ :: s => some (⟨.long n.toInt64, true⟩ :: s)
  | narrow, ⟨.long n, _⟩ :: s => some (⟨.int n.toInt32, false⟩ :: s)
  | truncate type, ⟨.int n, _⟩ :: s => push? .int (Value.cast? type (.int n)) s
  | compare, ⟨.long b, _⟩ :: ⟨.long a, _⟩ :: s => push? .int (Value.binary? .cmp (.long a) (.long b)) s
  | staticField member, s => do
    push? (← fieldKind? member) (I.gives (.field member.name) [I.vars (simpleClassName member.owner)]) s
  | field member, ⟨.ref a, _⟩ :: s => do push? (← fieldKind? member) (I.gives (.field member.name) [.ref a]) s
  | checkCast type, ⟨.ref a, _⟩ :: s => push? .ref (I.gives (.cast type) [.ref a]) s
  | instanceOf type, ⟨.ref a, _⟩ :: s => push? .int (I.gives (.instanceOf type) [.ref a]) s
  | _, _ => none

/-- Whether an operation is not one of `long` arithmetic on converted numbers alone. -/
def TestOp.keepsWidths : TestOp → List Cell → Bool
  | binary op .long, b :: a :: _ => !(a.widened && (op.isShift || b.widened))
  | negate .long, a :: _ => !a.widened
  | _, _ => true

variable (pool : Option Pool)

/-- The branch that an instruction is. -/
def branchOf? (i : Instruction) : Option Branch :=
  match i.operand with
  | .branch _ => branches.lookup i.opcode.raw
  | _ => none

/-- Runs code up to the branch at its end, and tells whether the branch is taken. -/
def test? : List Instruction → List Cell → Option Bool
  | [], _ => none
  | [i], s => do (← branchOf? i).takes? (s.map Cell.value)
  | i :: j :: rest, s => do test? (j :: rest) (← (← testOp? pool i).exec I locals s)

/-- Whether code does no `long` arithmetic on converted numbers alone. -/
def keepsWidths : List Instruction → List Cell → Bool
  | [], _ => true
  | i :: rest, s =>
    match testOp? pool i with
    | some op => op.keepsWidths s && (op.exec I locals s).all (keepsWidths rest)
    | none => true

end Machine

/-! ### Operations on symbolic stacks -/

/-- What an operation does to a symbolic stack. -/
def TestOp.onStack? (name : UInt16 → String) : TestOp → Stack → Option Stack
  | nothing, s => some s
  | null, s => some (⟨.null, false⟩ :: s)
  | const c, s => some (constantValue c :: s)
  | load kind slot, s => some (⟨.var (name slot), kind == .long⟩ :: s)
  | element kind, i :: a :: s => some (⟨.index a.expr i.expr, kind == .long⟩ :: s)
  | length, a :: s => some (⟨.length a.expr, false⟩ :: s)
  | pop words, s => (takeWords? words s).map Prod.snd
  | dup words skip, s => do
    let (top, s) ← takeWords? words s
    let (below, s) ← takeWords? skip s
    return top ++ below ++ top ++ s
  | swap, a :: b :: s => some (b :: a :: s)
  | binary op kind, b :: a :: s => some (⟨.binary op a.expr b.expr, kind == .long⟩ :: s)
  | negate kind, a :: s => some (⟨.unary .neg a.expr, kind == .long⟩ :: s)
  | widen, a :: s => some (⟨a.expr, true⟩ :: s)
  | narrow, a :: s => some (⟨.cast "int" a.expr, false⟩ :: s)
  | truncate type, a :: s => some (⟨.cast type a.expr, false⟩ :: s)
  | compare, b :: a :: s => some (⟨.binary .cmp a.expr b.expr, false⟩ :: s)
  | staticField member, s => some (⟨Recovery.staticField member, isWideField member⟩ :: s)
  | field member, a :: s => some (⟨.field a.expr member.name, isWideField member⟩ :: s)
  | checkCast type, a :: s => some (⟨.cast type a.expr, a.wide⟩ :: s)
  | instanceOf type, a :: s => some (⟨.instanceOf a.expr type, false⟩ :: s)
  | _, _ => none

/-- The effect of an operation that needs no operand of the instruction. -/
def TestOp.effect? : TestOp → Option Effect
  | nothing => some .nothing
  | null => some (.push ⟨.null, false⟩)
  | const c => some (.push (constantValue c))
  | element kind => some (.arrayLoad (kind == .long))
  | length => some .arrayLength
  | pop words => some (.pop words)
  | dup words skip => some (.dup words skip)
  | swap => some .swap
  | binary op kind => some (.binary op (kind == .long))
  | negate kind => some (.negate (kind == .long))
  | widen => some (.convert none true)
  | narrow => some (.convert (some "int") false)
  | truncate type => some (.convert (some type) false)
  | compare => some .compare
  | load .. | staticField _ | field _ | checkCast _ | instanceOf _ => none

set_option maxRecDepth 4000 in
lemma effect?_of_bareOps : ∀ p ∈ bareOps, p.2.effect? = some (effectOf ⟨p.1⟩) := by
  simp only [bareOps, List.forall_mem_cons, List.not_mem_nil, false_implies, implies_true, and_true]
  repeat' constructor

lemma effect_of_isLoad {kind : Kind} {op : Opcode} {slot : UInt16} (h : kind.isLoad op.raw slot = true) :
    effectOf op = .load (kind == .long) := by
  obtain ⟨raw⟩ := op
  simp only [Kind.isLoad, List.any_cons, List.any_nil, Bool.or_eq_true, Bool.and_eq_true, beq_iff_eq,
    Bool.false_eq_true, or_false] at h
  rcases h with rfl | ⟨-, rfl⟩ | ⟨-, rfl⟩ | ⟨-, rfl⟩ | ⟨-, rfl⟩ <;> cases kind <;> rfl

variable {ctx : Recovery.Context} {i : Instruction} {op : TestOp} {stack stack' : Stack}

lemma applyEffect?_of_effect? {effect : Effect} (heffect : op.effect? = some effect) {name : UInt16 → String}
    (h : op.onStack? name stack = some stack') :
    ∃ stmts, applyEffect? ctx i effect stack = some { stmts, stack := stack' } := by
  cases op <;> cases heffect
  case pop words =>
    obtain ⟨⟨taken, below⟩, htake, rfl⟩ := Option.map_eq_some_iff.mp h
    exact ⟨_, by simp [applyEffect?, htake]; rfl⟩
  case dup words skip =>
    obtain ⟨⟨top, rest⟩, htop, h⟩ := Option.bind_eq_some_iff.mp h
    obtain ⟨⟨below, rest'⟩, hbelow, h⟩ := Option.bind_eq_some_iff.mp h
    cases h
    exact ⟨[], by simp [applyEffect?, htop, hbelow]⟩
  all_goals rcases stack with _ | ⟨b, _ | ⟨a, stack⟩⟩ <;> cases h <;> exact ⟨[], rfl⟩

/-- How an instruction comes by its operation. -/
lemma testOp_cases {pool : Option Pool} (h : testOp? pool i = some op) :
    (i.operand = .none ∧ (i.opcode.raw, op) ∈ bareOps) ∨
    (∃ n, i.operand = .immediate n ∧ (i.opcode.raw = 0x10 ∨ i.opcode.raw = 0x11) ∧ op = .const (.int n)) ∨
    (∃ kind slot, i.operand = .slot slot ∧ kind.isLoad i.opcode.raw slot = true ∧ op = .load kind slot) ∨
    (∃ index p, i.operand = .pool index ∧ pool = some p ∧ pooledOp? p i.opcode.raw index = some op) := by
  unfold testOp? at h
  split at h
  · exact .inl ⟨‹_›, mem_of_lookup h⟩
  · rename_i n hop
    split_ifs at h with hraw
    cases h
    exact .inr (.inl ⟨n, hop, hraw, rfl⟩)
  · rename_i slot hop
    obtain ⟨kind, hfind, rfl⟩ := Option.map_eq_some_iff.mp h
    have hload := List.find?_some hfind
    exact .inr (.inr (.inl ⟨kind, slot, hop, hload, rfl⟩))
  · rename_i index hop
    obtain ⟨p, hp, h⟩ := Option.bind_eq_some_iff.mp h
    exact .inr (.inr (.inr ⟨index, p, hop, hp, h⟩))
  · cases h

lemma applyEffect?_of_pooledOp? {pool : Pool} (hpool : ctx.pool = some pool) {index : UInt16}
    (hop : i.operand = .pool index) (h : pooledOp? pool i.opcode.raw index = some op) {name : UInt16 → String}
    (hstack : op.onStack? name stack = some stack') :
    applyEffect? ctx i (effectOf i.opcode) stack = some { stack := stack' } := by
  obtain ⟨offset, ⟨raw⟩, operand, size⟩ := i
  subst hop
  simp only [pooledOp?] at h
  split_ifs at h with hraw hraw hraw hraw hraw
  all_goals obtain ⟨x, hx, rfl⟩ := Option.map_eq_some_iff.mp h
  · cases hstack
    rcases hraw with rfl | rfl | rfl
    all_goals
      simp only [effectOf, applyEffect?, hpool, poolIndex?, usePool?, constantAt, hx]
      rfl
  · subst hraw
    cases hstack
    simp only [effectOf, applyEffect?, hpool, poolIndex?, usePool?, memberAt, hx]
    rfl
  all_goals
    subst hraw
    cases stack with
    | nil => cases hstack
    | cons a stack =>
      cases hstack
      simp only [effectOf, applyEffect?, hpool, poolIndex?, usePool?, memberAt, classNameAt, hx]
      rfl

/-- A step of an instruction is what its operation does to the stack. -/
lemma step_of_testOp? (hop : testOp? ctx.pool i = some op)
    (hstack : op.onStack? (ctx.names · i.offset) stack = some stack') :
    ∃ stmts, step ctx i stack = .ok { stmts, stack := stack' } := by
  have hdecoded : i.isUndecoded = false := by
    obtain ⟨hi, -⟩ | ⟨n, hi, -⟩ | ⟨kind, slot, hi, -⟩ | ⟨index, p, hi, -⟩ := testOp_cases hop
    all_goals simp [Instruction.isUndecoded, hi]
  suffices ∃ stmts, applyEffect? ctx i (effectOf i.opcode) stack = some { stmts, stack := stack' } from
    this.imp fun stmts h => step_of_applyEffect? hdecoded h
  obtain ⟨hi, hmem⟩ | ⟨n, hi, hraw, rfl⟩ | ⟨kind, slot, hi, hload, rfl⟩ | ⟨index, pool, hi, hpool, hop⟩ :=
    testOp_cases hop
  · exact applyEffect?_of_effect? (effect?_of_bareOps _ hmem) hstack
  · obtain ⟨offset, ⟨raw⟩, operand, size⟩ := i
    cases hstack
    cases hi
    rcases hraw with rfl | rfl <;> exact ⟨[], rfl⟩
  · cases hstack
    rw [effect_of_isLoad hload]
    exact ⟨[], by simp only [applyEffect?, hi]⟩
  · exact ⟨[], applyEffect?_of_pooledOp? hpool hi hop hstack⟩

/-! ### Values of symbolic stacks -/

/-- What the source has for a value of the machine: the same value, or the `int` before a conversion. -/
inductive Shows : Value → Cell → Prop
  | same (x : Value) : Shows x ⟨x, false⟩
  | converted (n : Int32) : Shows (.int n) ⟨.long n.toInt64, true⟩

/-- A symbolic value stands for a value of the machine. -/
structure Stands (I : Interpretation) (v : StackValue) (c : Cell) : Prop where
  wide : v.wide = c.isLong
  value : ∃ x, I.value? v.expr = some x ∧ Shows x c

variable {I : Interpretation} {locals : UInt16 → Value} {kind : Kind} {e : Expr} {x : Value} {v : StackValue} {c : Cell}
  {cells cells' : List Cell}

lemma Kind.has_long (h : kind.has x = true) : Kind.long.has x = (kind == .long) := by
  cases kind <;> cases x <;> first | rfl | cases h

lemma Stands.of_value (kind : Kind) (hx : I.value? e = some x) (hkind : kind.has x = true) :
    Stands I ⟨e, kind == .long⟩ ⟨x, false⟩ :=
  ⟨(Kind.has_long hkind).symm, x, hx, .same x⟩

/-- A value that is no `long` is the same in the source. -/
lemma Stands.value_eq (h : Stands I v c) (hc : c.isLong = false) : I.value? v.expr = some c.value := by
  obtain ⟨-, x, hx, hshows⟩ := h
  cases hshows with
  | same => exact hx
  | converted n => cases hc

/-- A `long` is the same in the source, but perhaps not yet converted. -/
lemma Stands.exists_widen {n : Int64} (h : Stands I v c) (hc : c.value = .long n) :
    ∃ x, I.value? v.expr = some x ∧ x.widen = .long n := by
  obtain ⟨-, x, hx, hshows⟩ := h
  cases hshows <;> cases hc <;> exact ⟨_, hx, rfl⟩

/-- Only a `long` can be converted. -/
lemma Stands.not_widened (h : Stands I v c) (hkind : kind.has c.value = true) (hlong : kind ≠ .long) :
    c.widened = false := by
  obtain ⟨-, x, -, hshows⟩ := h
  cases hshows with
  | same => rfl
  | converted n => cases kind <;> first | exact absurd rfl hlong | cases hkind

lemma Stands.words_eq (h : Stands I v c) : v.words = c.words := by
  rw [StackValue.words, Cell.words, h.wide]

lemma push?_eq_some {y : Option Value} : push? kind y cells = some cells' ↔
    ∃ x, y = some x ∧ kind.has x = true ∧ cells' = ⟨x, false⟩ :: cells := by
  simp only [push?, Option.map_eq_some_iff, Option.filter_eq_some_iff]
  grind

/-- A pushed value is that of its expression. -/
lemma stands_push? (kind : Kind) {y : Option Value} (h : push? kind y cells = some cells')
    (hvalue : ∀ x, y = some x → I.value? e = some x) (hstack : List.Forall₂ (Stands I) stack cells) :
    List.Forall₂ (Stands I) (⟨e, kind == .long⟩ :: stack) cells' := by
  obtain ⟨x, hx, hkind, rfl⟩ := push?_eq_some.mp h
  exact .cons (.of_value kind (hvalue x hx) hkind) hstack

lemma takeWords?_stands {words : Nat} {top below : List Cell} (h : cutWords? words cells = some (top, below))
    (hstack : List.Forall₂ (Stands I) stack cells) : ∃ top' below', takeWords? words stack = some (top', below') ∧
      List.Forall₂ (Stands I) top' top ∧ List.Forall₂ (Stands I) below' below := by
  fun_induction cutWords? words cells generalizing stack top below with
  | case1 cells =>
    cases h
    exact ⟨[], stack, by simp [takeWords?], .nil, hstack⟩
  | case2 => cases h
  | case3 => cases h
  | case4 words c cells hwords ih =>
    obtain ⟨⟨top, below⟩, hcut, heq⟩ := Option.map_eq_some_iff.mp h
    cases heq
    cases hstack with
    | cons hv hstack =>
      obtain ⟨top', below', htake, htop, hbelow⟩ := ih hcut hstack
      exact ⟨_ :: top', below', by simp [takeWords?, hv.words_eq, htake], .cons hv htop, hbelow⟩

/-! ### Operators -/

lemma isShift_of_binary? {op : BinOp} {m n : Int64} (h : Value.binary? op (.long m) (.long n) = some x) :
    op.isShift = false := by
  cases op <;> first | rfl | cases h

lemma binary?_long_int {op : BinOp} (hop : op.isShift = false) (m : Int64) (n : Int32) :
    Value.binary? op (.long m) (.int n) = none := by
  cases op <;> first | rfl | cases hop

/-- Operands that are not all converted have the same result in the source. -/
lemma operate?_of_shows {op : BinOp} {a b : Cell} {y z : Value} (hy : Shows y a) (hz : Shows z b)
    (hkeeps : (a.widened && (op.isShift || b.widened)) = false) (h : Value.binary? op a.value b.value = some x) :
    Value.operate? op y z = some x := by
  cases hy with
  | same =>
    cases hz with
    | same => exact Value.operate?_of_binary? h
    | converted n =>
      cases y with
      | long m =>
        have hnone := binary?_long_int (isShift_of_binary? h) m n
        rw [Value.operate?, hnone]
        exact h
      | _ => cases h
  | converted n =>
    cases hz with
    | same =>
      cases z with
      | long m => exact h
      | int m =>
        have hnone := binary?_long_int (by simpa using hkeeps) n.toInt64 m
        cases hnone.symm.trans h
      | _ => cases h
    | converted m => simp at hkeeps

lemma binary?_lazy {op : BinOp} {a b : Value} (h : Value.binary? op a b = some x) : op ≠ .and ∧ op ≠ .or := by
  constructor
  all_goals
    rintro rfl
    cases a <;> cases b <;> cases h

lemma Stands.value?_binary {op : BinOp} {a b : Cell} {v w : StackValue} (ha : Stands I v a) (hb : Stands I w b)
    (hkeeps : (a.widened && (op.isShift || b.widened)) = false) (h : Value.binary? op a.value b.value = some x) :
    I.value? (.binary op v.expr w.expr) = some x := by
  obtain ⟨y, hy, hya⟩ := ha.value
  obtain ⟨z, hz, hzb⟩ := hb.value
  obtain ⟨hand, hor⟩ := binary?_lazy h
  exact (Interpretation.value?_binary hand hor).mpr ⟨y, z, hy, hz, operate?_of_shows hya hzb hkeeps h⟩

/-- A three-way comparison converts its operands. -/
lemma Stands.value?_cmp {m n : Int64} {a b : Cell} {v w : StackValue} (ha : Stands I v a) (hm : a.value = .long m)
    (hb : Stands I w b) (hn : b.value = .long n) (h : Value.binary? .cmp (.long m) (.long n) = some x) :
    I.value? (.binary .cmp v.expr w.expr) = some x := by
  obtain ⟨y, hy, hym⟩ := ha.exists_widen hm
  obtain ⟨z, hz, hzn⟩ := hb.exists_widen hn
  refine (Interpretation.value?_binary (by simp) (by simp)).mpr ⟨y, z, hy, hz, ?_⟩
  rw [Value.operate?, hym, hzn, h, Value.binary?_cmp]
  cases y <;> cases z <;> cases hym <;> cases hzn <;> first | rfl | exact h

lemma Stands.value?_negate {a : Cell} {v : StackValue} (ha : Stands I v a) (hkeeps : a.widened = false)
    (h : a.value.negative? = some x) : I.value? (.unary .neg v.expr) = some x := by
  obtain ⟨y, hy, hya⟩ := ha.value
  cases hya with
  | same => simpa [Interpretation.value?, hy] using h
  | converted n => cases hkeeps

/-- A conversion to `int` takes a conversion back. -/
lemma Stands.value?_narrow {n : Int64} {a : Cell} {v : StackValue} (ha : Stands I v a) (hn : a.value = .long n) :
    I.value? (.cast "int" v.expr) = some (.int n.toInt32) := by
  obtain ⟨y, hy, hya⟩ := ha.value
  cases hya with
  | same =>
    cases hn
    simp [Interpretation.value?, hy, Value.cast?]
  | converted k =>
    cases hn
    simp [Interpretation.value?, hy, Value.cast?]

/-! ### Steps and runs -/

lemma isWideField_of_kind {member : Member} (h : fieldKind? member = some kind) :
    isWideField member = (kind == .long) := by
  rw [fieldKind?] at h
  rw [isWideField]
  cases htype : FieldType.parse member.descriptor with
  | error =>
    rw [htype] at h
    cases h
  | ok type =>
    rw [htype] at h
    cases type <;> cases h <;> rfl

lemma constantValue_stands {k : Constant} (hx : constantValue? I k = some x) (hkind : (constantKind k).has x = true) :
    Stands I (constantValue k) ⟨x, false⟩ := by
  cases k with
  | float | double => cases hx
  | int | long =>
    cases hx
    exact ⟨rfl, _, rfl, .same _⟩
  | string =>
    cases hx
    exact Stands.of_value .ref rfl hkind
  | classRef => exact Stands.of_value .ref hx hkind

/-- **Steps.** An operation of the machine keeps a symbolic stack in step with the machine's, unless it is `long`
arithmetic on converted numbers alone. -/
lemma onStack?_stands {name : UInt16 → String}
    (hname : ∀ kind slot, op = .load kind slot → I.vars (name slot) = locals slot)
    (hkeeps : op.keepsWidths cells = true) (hexec : op.exec I locals cells = some cells')
    (hstack : List.Forall₂ (Stands I) stack cells) :
    ∃ stack', op.onStack? name stack = some stack' ∧ List.Forall₂ (Stands I) stack' cells' := by
  unfold TestOp.exec at hexec
  split at hexec
  · -- nothing
    cases hexec
    exact ⟨stack, rfl, hstack⟩
  · -- null
    cases hexec
    exact ⟨_, rfl, .cons (Stands.of_value .ref rfl rfl) hstack⟩
  · -- const
    obtain ⟨x, hx, hkind, rfl⟩ := push?_eq_some.mp hexec
    exact ⟨_, rfl, .cons (constantValue_stands hx hkind) hstack⟩
  · -- load
    exact ⟨_, rfl, stands_push? _ hexec (fun x hx => (congrArg some (hname _ _ rfl)).trans hx) hstack⟩
  · -- element
    obtain _ | ⟨hi, _ | ⟨ha, hstack⟩⟩ := hstack
    refine ⟨_, rfl, stands_push? _ hexec (fun x hx => ?_) hstack⟩
    simpa [Interpretation.value?, hi.value_eq rfl, ha.value_eq rfl] using hx
  · -- length
    obtain _ | ⟨ha, hstack⟩ := hstack
    refine ⟨_, rfl, stands_push? _ hexec (fun x hx => ?_) hstack⟩
    simpa [Interpretation.value?, ha.value_eq rfl] using hx
  · -- pop
    obtain ⟨⟨top, below⟩, hcut, rfl⟩ := Option.map_eq_some_iff.mp hexec
    obtain ⟨top', below', htake, -, hbelow⟩ := takeWords?_stands hcut hstack
    exact ⟨below', by simp [TestOp.onStack?, htake], hbelow⟩
  · -- dup
    obtain ⟨⟨top, rest⟩, hcut, hexec⟩ := Option.bind_eq_some_iff.mp hexec
    obtain ⟨⟨below, rest⟩, hcut', hexec⟩ := Option.bind_eq_some_iff.mp hexec
    cases hexec
    obtain ⟨top', rest', htake, htop, hrest⟩ := takeWords?_stands hcut hstack
    obtain ⟨below', rest', htake', hbelow, hrest⟩ := takeWords?_stands hcut' hrest
    refine ⟨top' ++ below' ++ top' ++ rest', by simp [TestOp.onStack?, htake, htake'], ?_⟩
    exact List.rel_append (List.rel_append (List.rel_append htop hbelow) htop) hrest
  · -- swap
    obtain _ | ⟨ha, _ | ⟨hb, hstack⟩⟩ := hstack
    split_ifs at hexec
    cases hexec
    exact ⟨_, rfl, .cons hb (.cons ha hstack)⟩
  · -- binary
    rename_i op kind b a s
    obtain _ | ⟨hb, _ | ⟨ha, hstack⟩⟩ := hstack
    split_ifs at hexec with hkind
    have hkeeps' : (a.widened && (op.isShift || b.widened)) = false := by
      cases kind with
      | long => simpa only [TestOp.keepsWidths, Bool.not_eq_true'] using hkeeps
      | int | ref => rw [ha.not_widened hkind (by simp), Bool.false_and]
    exact ⟨_, rfl, stands_push? _ hexec (fun x hx => ha.value?_binary hb hkeeps' hx) hstack⟩
  · -- negate
    rename_i kind a s
    obtain _ | ⟨ha, hstack⟩ := hstack
    split_ifs at hexec with hkind
    have hkeeps' : a.widened = false := by
      cases kind with
      | long => simpa only [TestOp.keepsWidths, Bool.not_eq_true'] using hkeeps
      | int | ref => exact ha.not_widened hkind (by simp)
    exact ⟨_, rfl, stands_push? _ hexec (fun x hx => ha.value?_negate hkeeps' hx) hstack⟩
  · -- widen
    obtain _ | ⟨ha, hstack⟩ := hstack
    cases hexec
    exact ⟨_, rfl, .cons ⟨rfl, _, ha.value_eq rfl, .converted _⟩ hstack⟩
  · -- narrow
    obtain _ | ⟨ha, hstack⟩ := hstack
    cases hexec
    exact ⟨_, rfl, .cons (Stands.of_value .int (ha.value?_narrow rfl) rfl) hstack⟩
  · -- truncate
    obtain _ | ⟨ha, hstack⟩ := hstack
    refine ⟨_, rfl, stands_push? .int hexec (fun x hx => ?_) hstack⟩
    simp [Interpretation.value?, ha.value_eq rfl, hx]
  · -- compare
    obtain _ | ⟨hb, _ | ⟨ha, hstack⟩⟩ := hstack
    exact ⟨_, rfl, stands_push? .int hexec (fun x hx => ha.value?_cmp rfl hb rfl hx) hstack⟩
  · -- staticField
    obtain ⟨kind, hkind, hexec⟩ := Option.bind_eq_some_iff.mp hexec
    refine ⟨_, by rw [TestOp.onStack?, isWideField_of_kind hkind], stands_push? _ hexec (fun x hx => ?_) hstack⟩
    simpa [Interpretation.value?, Recovery.staticField] using hx
  · -- field
    obtain ⟨kind, hkind, hexec⟩ := Option.bind_eq_some_iff.mp hexec
    obtain _ | ⟨ha, hstack⟩ := hstack
    refine ⟨_, by rw [TestOp.onStack?, isWideField_of_kind hkind], stands_push? _ hexec (fun x hx => ?_) hstack⟩
    simpa [Interpretation.value?, ha.value_eq rfl] using hx
  · -- checkCast
    obtain _ | ⟨ha, hstack⟩ := hstack
    refine ⟨_, by rw [TestOp.onStack?, ha.wide]; rfl, stands_push? .ref hexec (fun x hx => ?_) hstack⟩
    simpa [Interpretation.value?, ha.value_eq rfl, Value.cast?] using hx
  · -- instanceOf
    obtain _ | ⟨ha, hstack⟩ := hstack
    refine ⟨_, rfl, stands_push? .int hexec (fun x hx => ?_) hstack⟩
    simpa [Interpretation.value?, ha.value_eq rfl] using hx
  · cases hexec

lemma values?_of_stands (hstack : List.Forall₂ (Stands I) stack cells) (hcells : ∀ c ∈ cells, c.isLong = false) :
    I.values? (stack.map StackValue.expr) = some (cells.map Cell.value) := by
  induction hstack with
  | nil => rfl
  | cons h _ ih =>
    obtain ⟨hc, hcells⟩ := List.forall_mem_cons.mp hcells
    exact Interpretation.values?_cons.mpr ⟨_, _, h.value_eq hc, ih hcells, rfl⟩

/-- The operands of a branch are no `long` numbers, and it does not look below them. -/
lemma takes?_take {branch : Branch} {vs : List Value} {t : Bool} (ht : branch.takes? vs = some t) :
    branch.arity ≤ vs.length ∧ (∀ x ∈ vs.take branch.arity, Kind.long.has x = false) ∧
      branch.takes? (vs.take branch.arity) = some t := by
  unfold Branch.takes? at ht
  split at ht <;> cases ht <;> simp [Branch.arity, Branch.takes?, Kind.has]

lemma step_of_branch (ctx : Recovery.Context) {branch : Branch} (hi : branchOf? i = some branch) {t : Bool}
    (ht : branch.takes? (cells.map Cell.value) = some t) (hstack : List.Forall₂ (Stands I) stack cells) :
    ∃ c below, step ctx i stack = .ok { stack := below, exit := some (.conditional c) } ∧ I.Tells c t := by
  obtain ⟨target, hoperand, hop⟩ :
      ∃ target, i.operand = .branch target ∧ branches.lookup i.opcode.raw = some branch := by
    unfold branchOf? at hi
    split at hi
    · exact ⟨_, ‹_›, hi⟩
    · cases hi
  obtain ⟨hlen, hlong, ht⟩ := takes?_take ht
  have hlength : branch.arity ≤ stack.length := by simpa [hstack.length_eq] using hlen
  have hcount : branchOperandCount? i.opcode = some branch.arity := by
    simp [branchOperandCount?, branchTest?_of_lookup hop, Branch.arity_eq]
  have hvs : I.values? (((stack.map StackValue.expr).take branch.arity).take branch.arity) =
      some ((cells.map Cell.value).take branch.arity) := by
    rw [List.take_take, Nat.min_self, ← List.map_take, ← List.map_take]
    exact values?_of_stands (List.forall₂_take _ hstack) (by simpa [← List.map_take, Cell.isLong] using hlong)
  obtain ⟨c, hc, htells⟩ := Interpretation.tells_of_takes? hop hvs ht
  refine ⟨c, stack.drop branch.arity, step_of_applyEffect? (by simp [Instruction.isUndecoded, hoperand]) ?_, htells⟩
  rw [effectOf_of_lookup hop]
  simp [applyEffect?, hcount, takeValues?, hlength.not_gt, hc]

lemma operand_of_load {pool : Option Pool} {slot : UInt16} (h : testOp? pool i = some (.load kind slot)) :
    i.operand = .slot slot := by
  obtain ⟨-, hmem⟩ | ⟨_, _, _, ⟨⟩⟩ | ⟨_, _, hop, -, ⟨⟩⟩ | ⟨index, p, -, -, hop⟩ := testOp_cases h
  · simp [bareOps] at hmem
  · exact hop
  · simp only [pooledOp?] at hop
    split_ifs at hop <;> simp at hop

/-- **Runs.** The condition at the end of code tells which way the machine goes. -/
lemma run_tells {body : List Instruction} {t : Bool} (htest : test? I locals ctx.pool body cells = some t)
    (hkeeps : keepsWidths I locals ctx.pool body cells = true)
    (hnames : ∀ i ∈ body, ∀ slot, i.operand = .slot slot → I.vars (ctx.names slot i.offset) = locals slot)
    (hstack : List.Forall₂ (Stands I) stack cells) :
    ∃ r c, run ctx body stack = .ok r ∧ r.exit = some (.conditional c) ∧ I.Tells c t := by
  fun_induction test? I locals ctx.pool body cells generalizing stack with
  | case1 => cases htest
  | case2 i cells =>
    obtain ⟨branch, hbranch, htakes⟩ := Option.bind_eq_some_iff.mp htest
    obtain ⟨c, below, hstep, htells⟩ := step_of_branch ctx hbranch htakes hstack
    exact ⟨_, c, run_cons_of_ok hstep rfl, rfl, htells⟩
  | case3 i j rest cells ih =>
    obtain ⟨op, hop, htest⟩ := Option.bind_eq_some_iff.mp htest
    obtain ⟨cells', hexec, htest⟩ := Option.bind_eq_some_iff.mp htest
    have hname : ∀ kind slot, op = .load kind slot → I.vars (ctx.names slot i.offset) = locals slot := by
      rintro kind slot rfl
      exact hnames i (by simp) slot (operand_of_load hop)
    simp only [keepsWidths, hop, hexec, Option.all_some, Bool.and_eq_true] at hkeeps
    obtain ⟨stack', honStack, hstack'⟩ := onStack?_stands hname hkeeps.1 hexec hstack
    obtain ⟨stmts, hstep⟩ := step_of_testOp? hop honStack
    obtain ⟨r, c, hrun, hexit, htells⟩ :=
      ih cells' htest hkeeps.2 (fun k hk => hnames k (List.mem_cons_of_mem _ hk)) hstack'
    refine ⟨_, c, run_cons_of_ok hstep hrun, ?_, htells⟩
    simp [Recovered.andThen, hexit]

end JvmLift.TestCode
