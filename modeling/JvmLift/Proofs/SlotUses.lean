import Mathlib
import JvmLift.Proofs.CallOrder
import JvmLift.Proofs.Occurrences
import JvmLift.Proofs.Run

/-!
# Variables that instructions bring

A variable comes into the tree where an instruction refers to a slot, and where a pool entry is shown as a name: the
class of a static field, or the index of a constant that is not there. All other variables of what is recovered were on
the stack before. The same holds of any property that an expression inherits from its parts: what is recovered has it,
if the stack, the variables that are brought and a new object have it.
-/

namespace JvmLift.Recovery

open Bytecode Source

/-- The slot that an instruction refers to, and the offset at which its name is looked up. -/
def slotUse? (i : Instruction) : Option (UInt16 × Nat) :=
  match effectOf i.opcode, i.operand with
  | .load _, .slot slot => some (slot, i.offset)
  | .store, .slot slot => some (slot, i.next)
  | .increment, .increment slot _ => some (slot, i.offset)
  | _, _ => none

/-- The variable as which a pool entry is shown. -/
def PoolUse.shown? (pool : Pool) (index : UInt16) : PoolUse → Option String
  | .constant _ => if (pool.constant? index).isSome then none else some s!"const#{index.toNat}"
  | .getStatic | .putStatic => some (simpleClassName (memberAt pool "field" index).owner)
  | _ => none

/-- The variable as which an instruction shows the pool entry that it refers to. -/
def poolName? (ctx : Context) (i : Instruction) : Option String :=
  match effectOf i.opcode, ctx.pool, poolIndex? i.operand with
  | .pooled use, some pool, some index => use.shown? pool index
  | _, _, _ => none

/-- An instruction brings a variable, as the name of a slot or of a pool entry. -/
def Brings (ctx : Context) (i : Instruction) (x : String) : Prop :=
  (∃ slot offset, slotUse? i = some (slot, offset) ∧ ctx.names slot offset = x) ∨ poolName? ctx i = some x

def Exit.exprs : Exit → List Expr
  | conditional condition => [condition.taken, condition.fallthrough]
  | switch selector => [selector]

/-- The variables on a stack are among given ones. -/
def StackNamesIn (A : String → Prop) (stack : Stack) : Prop :=
  ∀ v ∈ stack, v.expr.NamesIn A

/-- The variables of what is recovered are among given ones. -/
structure Recovered.NamesIn (A : String → Prop) (r : Recovered) : Prop where
  stmts : ∀ s ∈ r.stmts, ∀ e ∈ s.exprs, e.NamesIn A
  stack : StackNamesIn A r.stack
  exit : ∀ exit, r.exit = some exit → ∀ e ∈ exit.exprs, e.NamesIn A

variable {A : String → Prop} {ctx : Context} {i : Instruction} {stack : Stack} {r : Recovered}

@[simp] lemma stackNamesIn_nil : StackNamesIn A [] := nofun

@[simp] lemma stackNamesIn_cons {v : StackValue} :
    StackNamesIn A (v :: stack) ↔ v.expr.NamesIn A ∧ StackNamesIn A stack :=
  List.forall_mem_cons

/-! ### Inherited properties -/

/-- Whether a step may push an expression without taking one. -/
def isLiteral : Expr → Bool
  | .int _ | .long _ | .float _ | .double _ | .string _ | .classLit _ | .null => true
  | _ => false

/-- A property that all literals have, and that an expression has exactly if its parts have it. -/
structure Inherited (P : Expr → Prop) : Prop where
  literal : ∀ {e}, isLiteral e = true → P e
  unary : ∀ {op a}, P (.unary op a) ↔ P a
  binary : ∀ {op a b}, P (.binary op a b) ↔ P a ∧ P b
  field : ∀ {a name}, P (.field a name) ↔ P a
  index : ∀ {a b}, P (.index a b) ↔ P a ∧ P b
  length : ∀ {a}, P (.length a) ↔ P a
  cast : ∀ {type a}, P (.cast type a) ↔ P a
  instanceOf : ∀ {a type}, P (.instanceOf a type) ↔ P a
  new : ∀ {type args}, P (.new type args) ↔ ∀ e ∈ args, P e
  newArray : ∀ {element dims}, P (.newArray element dims) ↔ ∀ e ∈ dims, P e
  call : ∀ {receiver owner name args}, P (.call receiver owner name args) ↔ P receiver ∧ ∀ e ∈ args, P e
  staticCall : ∀ {owner name args}, P (.staticCall owner name args) ↔ ∀ e ∈ args, P e

lemma inherited_namesIn : Inherited (Expr.NamesIn A) where
  literal {e} h := by
    refine Expr.namesIn_of_mentions fun x => ?_
    cases e <;> first | rfl | cases h
  unary := Expr.namesIn_unary
  binary := Expr.namesIn_binary
  field := Expr.namesIn_field
  index := Expr.namesIn_index
  length := Expr.namesIn_length
  cast := Expr.namesIn_cast
  instanceOf := Expr.namesIn_instanceOf
  new := Expr.namesIn_new
  newArray := Expr.namesIn_newArray
  call := Expr.namesIn_call
  staticCall := Expr.namesIn_staticCall

variable {P : Expr → Prop}

/-- All expressions of what is recovered have a property. -/
structure Recovered.Holds (P : Expr → Prop) (r : Recovered) : Prop where
  stmts : ∀ s ∈ r.stmts, ∀ e ∈ s.exprs, P e
  stack : ∀ v ∈ r.stack, P v.expr
  exit : ∀ exit, r.exit = some exit → ∀ e ∈ exit.exprs, P e

lemma holds_push (h : ∀ v ∈ stack, P v.expr) : Recovered.Holds P { stack } :=
  ⟨by simp, h, by simp⟩

lemma holds_stmt {s : Stmt} (hs : ∀ e ∈ s.exprs, P e) (h : ∀ v ∈ stack, P v.expr) :
    Recovered.Holds P { stmts := [s], stack } :=
  ⟨by simpa using hs, h, by simp⟩

lemma holds_exit {exit : Exit} (hexit : ∀ e ∈ exit.exprs, P e) (h : ∀ v ∈ stack, P v.expr) :
    Recovered.Holds P { stack, exit := some exit } :=
  ⟨by simp, h, by simpa using hexit⟩

lemma holds_assign {target value : Expr} (htarget : P target) (hvalue : P value) (h : ∀ v ∈ stack, P v.expr) :
    Recovered.Holds P { stmts := [.assign target value], stack } :=
  holds_stmt (by simpa [Stmt.exprs] using ⟨htarget, hvalue⟩) h

lemma Recovered.Holds.andThen {first second : Recovered} (h₁ : first.Holds P) (h₂ : second.Holds P) :
    (first.andThen second).Holds P := by
  refine ⟨List.forall_mem_append.mpr ⟨h₁.stmts, h₂.stmts⟩, h₂.stack, fun exit hexit => ?_⟩
  rcases Option.or_eq_some_iff.mp hexit with hexit | ⟨-, hexit⟩
  · exact h₂.exit exit hexit
  · exact h₁.exit exit hexit

/-! ### Taking values -/

lemma forall_mem_of_takeWords? {words : Nat} {taken below : Stack} (h : takeWords? words stack = some (taken, below))
    (hstack : ∀ v ∈ stack, P v.expr) : (∀ v ∈ taken, P v.expr) ∧ ∀ v ∈ below, P v.expr := by
  rw [append_of_takeWords? h] at hstack
  exact List.forall_mem_append.mp hstack

lemma forall_mem_of_takeValues? {n : Nat} {values : List Expr} {below : Stack}
    (h : takeValues? n stack = some (values, below)) (hstack : ∀ v ∈ stack, P v.expr) :
    (∀ e ∈ values, P e) ∧ ∀ v ∈ below, P v.expr := by
  unfold takeValues? at h
  split_ifs at h
  cases h
  refine ⟨fun e he => ?_, fun v hv => hstack v (List.mem_of_mem_drop hv)⟩
  obtain ⟨v, hv, rfl⟩ := List.mem_map.mp he
  exact hstack v (List.mem_of_mem_take (List.mem_reverse.mp hv))

section Steps

variable (hP : Inherited P)
include hP

lemma holds_of_condition? {op : Opcode} {operands : List Expr} {condition : Condition}
    (h : condition? op operands = some condition) (hoperands : ∀ e ∈ operands, P e) :
    P condition.taken ∧ P condition.fallthrough := by
  simp only [condition?, bind, Option.bind_eq_some_iff, pure] at h
  obtain ⟨⟨rel, against⟩, htest, taken, htaken, h⟩ := h
  cases h
  have hholds : P taken := by
    unfold takenCondition? at htaken
    split at htaken
    · cases htaken
      have htop := hoperands _ List.mem_cons_self
      unfold compareToZero
      split
      · exact hP.binary.mpr (hP.binary.mp htop)
      · exact hP.binary.mpr ⟨htop, hP.literal rfl⟩
    · cases htaken
      exact hP.binary.mpr ⟨hoperands _ List.mem_cons_self, hP.literal rfl⟩
    · cases htaken
      simp only [List.forall_mem_cons] at hoperands
      exact hP.binary.mpr ⟨hoperands.2.1, hoperands.1⟩
    · cases htaken
  refine ⟨hholds, ?_⟩
  obtain ⟨a, b, rfl⟩ := binary_of_takenCondition? htaken
  exact hP.binary.mpr (hP.binary.mp hholds)

/-! ### Calls -/

lemma holds_constantValue (k : Constant) : P (constantValue k).expr := by
  cases k <;> exact hP.literal rfl

lemma holds_recipeParts {args : List Expr} (hargs : ∀ e ∈ args, P e) (text chars : List Char)
    (constants : List Constant) : ∀ e ∈ recipeParts text chars args constants, P e := by
  have htext (text : List Char) : ∀ e ∈ textPart text, P e := by
    unfold textPart
    split_ifs
    · exact List.forall_mem_nil _
    · exact List.forall_mem_singleton.mpr (hP.literal rfl)
  induction chars generalizing text args constants with
  | nil => exact htext text
  | cons c rest ih =>
    unfold recipeParts
    split_ifs
    · simp only [List.forall_mem_append]
      refine ⟨⟨htext text, fun e he => hargs e ?_⟩, ih (fun e he => hargs e (List.mem_of_mem_tail he)) _ _⟩
      exact List.mem_of_head? (Option.mem_toList.mp he)
    · simp only [List.forall_mem_append]
      refine ⟨⟨htext text, fun e he => ?_⟩, ih hargs _ _⟩
      obtain ⟨k, -, rfl⟩ := Option.map_eq_some_iff.mp (Option.mem_toList.mp he)
      exact holds_constantValue hP k
    · exact ih hargs _ _

lemma holds_foldl_add {first : Expr} {rest : List Expr} (hfirst : P first) (hrest : ∀ e ∈ rest, P e) :
    P (rest.foldl (Expr.binary .add) first) := by
  induction rest generalizing first with
  | nil => exact hfirst
  | cons e rest ih =>
    rw [List.forall_mem_cons] at hrest
    exact ih (hP.binary.mpr ⟨hfirst, hrest.1⟩) hrest.2

lemma holds_joinConcat {parts : List Expr} (h : ∀ e ∈ parts, P e) : P (joinConcat parts) := by
  have hempty : P (.string "") := hP.literal rfl
  unfold joinConcat
  dsimp only
  split
  · exact hempty
  · next first rest hparts =>
    have hall : ∀ e ∈ first :: rest, P e := by
      rw [← hparts]
      split
      · split_ifs
        · exact h
        · exact List.forall_mem_cons.mpr ⟨hempty, h⟩
      · exact List.forall_mem_cons.mpr ⟨hempty, h⟩
    rw [List.forall_mem_cons] at hall
    exact holds_foldl_add hP hall.1 hall.2

lemma holds_dynamicCall {site : CallSite} {args : List Expr} (h : ∀ e ∈ args, P e) : P (dynamicCall site args) := by
  unfold dynamicCall
  split
  · exact holds_joinConcat hP (holds_recipeParts hP h _ _ _)
  · exact holds_joinConcat hP h
  · exact hP.staticCall.mpr h

omit hP in
lemma holds_finishCall {ret : Option FieldType} {value : Expr} (hvalue : P value) (h : ∀ v ∈ stack, P v.expr) :
    (finishCall ret value stack).Holds P := by
  cases ret with
  | none => exact holds_stmt (by simpa [Stmt.exprs] using hvalue) h
  | some type => exact holds_push (List.forall_mem_cons.mpr ⟨hvalue, h⟩)

lemma holds_construct {type : String} {args : List Expr} (hargs : ∀ e ∈ args, P e) (h : ∀ v ∈ stack, P v.expr) :
    (construct type args stack).Holds P := by
  have hnew : P (.new type args) := hP.new.mpr hargs
  unfold construct
  split
  · split_ifs
    · exact holds_push (List.forall_mem_cons.mpr ⟨hnew, (List.forall_mem_cons.mp h).2⟩)
    · exact holds_stmt (by simpa [Stmt.exprs] using hnew) h
  · exact holds_stmt (by simpa [Stmt.exprs] using hnew) h

lemma holds_callOn {receiver : Expr} {member : Member} {ret : Option FieldType} {args : List Expr}
    (hreceiver : P receiver) (hargs : ∀ e ∈ args, P e) (h : ∀ v ∈ stack, P v.expr) :
    (callOn receiver member ret args stack).Holds P := by
  have hplain (owner name : String) : (finishCall ret (.call receiver owner name args) stack).Holds P :=
    holds_finishCall (hP.call.mpr ⟨hreceiver, hargs⟩) h
  unfold callOn
  dsimp only
  split_ifs
  · split
    · exact holds_construct hP hargs h
    · exact hplain _ _
  · exact hplain _ _

lemma holds_of_invoke? {isStatic : Bool} {member : Member} (h : invoke? ctx isStatic member stack = some r)
    (hstack : ∀ v ∈ stack, P v.expr) : r.Holds P := by
  simp only [invoke?, bind, Option.bind_eq_some_iff, pure] at h
  obtain ⟨⟨args, below⟩, htaken, h⟩ := h
  obtain ⟨hargs, hbelow⟩ := forall_mem_of_takeValues? htaken hstack
  split at h
  · split at h
    · cases h
      exact holds_push hbelow
    · cases h
      exact holds_finishCall (hP.staticCall.mpr hargs) hbelow
  · cases below with
    | nil => cases h
    | cons receiver below =>
      cases h
      rw [List.forall_mem_cons] at hbelow
      exact holds_callOn hP hbelow.1 hargs hbelow.2

lemma holds_of_invokeDynamic? {site : CallSite} (h : invokeDynamic? site stack = some r)
    (hstack : ∀ v ∈ stack, P v.expr) : r.Holds P := by
  simp only [invokeDynamic?, bind, Option.bind_eq_some_iff, pure] at h
  obtain ⟨⟨args, below⟩, htaken, h⟩ := h
  cases h
  obtain ⟨hargs, hbelow⟩ := forall_mem_of_takeValues? htaken hstack
  exact holds_finishCall (holds_dynamicCall hP hargs) hbelow

/-! ### Steps -/

lemma holds_constantAt {pool : Pool} {wide : Bool} {index : UInt16}
    (hname : ∀ x, (PoolUse.constant wide).shown? pool index = some x → P (.var x)) :
    P (constantAt pool wide index).expr := by
  unfold constantAt
  cases hconstant : pool.constant? index with
  | none => exact hname _ (by simp [PoolUse.shown?, hconstant])
  | some k => exact holds_constantValue hP k

lemma holds_of_usePool? {pool : Pool} {operand : Operand} {index : UInt16} {use : PoolUse}
    (h : usePool? ctx pool operand index use stack = some r) (hstack : ∀ v ∈ stack, P v.expr)
    (hname : ∀ x, use.shown? pool index = some x → P (.var x)) (hnew : use = .newObject → ∀ type, P (.uninit type)) :
    r.Holds P := by
  unfold usePool? at h
  split at h
  case h_1 =>
    cases h
    exact holds_push (List.forall_mem_cons.mpr ⟨holds_constantAt hP hname, hstack⟩)
  case h_2 =>
    cases h
    exact holds_push (List.forall_mem_cons.mpr ⟨hP.field.mpr (hname _ rfl), hstack⟩)
  case h_3 =>
    cases h
    rw [List.forall_mem_cons] at hstack
    exact holds_assign (hP.field.mpr (hname _ rfl)) hstack.1 hstack.2
  case h_6 => exact holds_of_invoke? hP h hstack
  case h_7 =>
    split at h
    · exact holds_of_invokeDynamic? hP h hstack
    · cases h
      exact holds_push hstack
  case h_10 =>
    simp only [bind, Option.bind_eq_some_iff, pure] at h
    obtain ⟨⟨dims, below⟩, htaken, h⟩ := h
    cases h
    obtain ⟨hdims, hbelow⟩ := forall_mem_of_takeValues? htaken hstack
    exact holds_push (List.forall_mem_cons.mpr ⟨hP.newArray.mpr hdims, hbelow⟩)
  case h_8 =>
    cases h
    exact holds_push (List.forall_mem_cons.mpr ⟨hnew rfl _, hstack⟩)
  case h_5 =>
    cases h
    simp only [List.forall_mem_cons] at hstack
    exact holds_assign (hP.field.mpr hstack.2.1) hstack.1 hstack.2.2
  all_goals cases h
  all_goals exact holds_push (by simpa [hP.field, hP.newArray, hP.cast, hP.instanceOf] using hstack)

omit hP in
/-- The values that opcodes push by themselves are literals. -/
lemma isLiteral_of_push {op : Opcode} {v : StackValue} (h : effectOf op = .push v) : isLiteral v.expr = true := by
  have hall : ∀ op, (match effectOf op with
      | .push v => isLiteral v.expr
      | _ => true) = true := by decide +kernel
  simpa [h] using hall op

lemma holds_of_applyEffect? (h : applyEffect? ctx i (effectOf i.opcode) stack = some r)
    (hstack : ∀ v ∈ stack, P v.expr) (hbrings : ∀ x, Brings ctx i x → P (.var x))
    (hnew : effectOf i.opcode = .pooled .newObject → ∀ type, P (.uninit type)) : r.Holds P := by
  have hslot {slot : UInt16} {offset : Nat} (huse : slotUse? i = some (slot, offset)) :
      P (.var (ctx.names slot offset)) :=
    hbrings _ (.inl ⟨slot, offset, huse, rfl⟩)
  generalize heffect : effectOf i.opcode = effect at h hnew
  have happly := h
  unfold applyEffect? at h
  split at h
  case h_2 =>
    cases h
    exact holds_push (List.forall_mem_cons.mpr ⟨hP.literal (isLiteral_of_push heffect), hstack⟩)
  -- the operand decides whether there is anything to push or to assign
  case h_3 =>
    split at h
    · cases h
      exact holds_push (List.forall_mem_cons.mpr ⟨hP.literal rfl, hstack⟩)
    · cases h
      exact holds_push hstack
  case h_4 =>
    split at h
    · next hoperand =>
      cases h
      exact holds_push (List.forall_mem_cons.mpr ⟨hslot (by simp [slotUse?, heffect, hoperand]), hstack⟩)
    · cases h
      exact holds_push hstack
  case h_5 =>
    rw [List.forall_mem_cons] at hstack
    split at h
    · next hoperand =>
      cases h
      exact holds_assign (hslot (by simp [slotUse?, heffect, hoperand])) hstack.1 hstack.2
    · cases h
      exact holds_push hstack.2
  case h_7 =>
    cases h
    simp only [List.forall_mem_cons] at hstack
    exact holds_assign (hP.index.mpr ⟨hstack.2.2.1, hstack.2.1⟩) hstack.1 hstack.2.2.2
  case h_8 =>
    simp only [bind, Option.bind_eq_some_iff, pure] at h
    obtain ⟨⟨taken, below⟩, htaken, h⟩ := h
    cases h
    obtain ⟨hvalues, hbelow⟩ := forall_mem_of_takeWords? htaken hstack
    refine ⟨List.forall_mem_map.mpr fun v hv => ?_, hbelow, by simp⟩
    simpa [Stmt.exprs] using hvalues v (List.mem_reverse.mp (List.mem_of_mem_filter hv))
  case h_9 =>
    obtain ⟨top, below, rest, htop, rfl⟩ := dup_ok happly
    obtain ⟨htop, hrest⟩ := forall_mem_of_takeWords? htop hstack
    rw [List.forall_mem_append] at hrest
    exact holds_push (by simpa only [List.forall_mem_append] using ⟨⟨⟨htop, hrest.1⟩, htop⟩, hrest.2⟩)
  case h_13 =>
    split at h
    · next slot _ hoperand =>
      cases h
      have hvar := hslot (show slotUse? i = some (slot, i.offset) by simp [slotUse?, heffect, hoperand])
      refine holds_assign hvar ?_ hstack
      split_ifs <;> exact hP.binary.mpr ⟨hvar, hP.literal rfl⟩
    · cases h
      exact holds_push hstack
  case h_14 =>
    cases h
    rw [List.forall_mem_cons] at hstack
    refine holds_push (List.forall_mem_cons.mpr ⟨?_, hstack.2⟩)
    dsimp only
    cases ‹Option String› with
    | none => exact hstack.1
    | some type => exact hP.cast.mpr hstack.1
  -- what leaves the block is on the stack
  case h_16 =>
    simp only [bind, Option.bind_eq_some_iff, pure] at h
    obtain ⟨⟨operands, rest⟩, htaken, condition, hcondition, h⟩ := h
    cases h
    obtain ⟨hoperands, hrest⟩ := forall_mem_of_takeValues? htaken hstack
    obtain ⟨htaken, hfall⟩ := holds_of_condition? hP hcondition fun e he => hoperands e (List.mem_reverse.mp he)
    exact holds_exit (by simpa [Exit.exprs] using ⟨htaken, hfall⟩) hrest
  case h_17 =>
    cases h
    exact holds_push (List.forall_mem_cons.mpr ⟨hP.literal rfl, hstack⟩)
  case h_18 =>
    cases h
    rw [List.forall_mem_cons] at hstack
    exact holds_exit (by simpa [Exit.exprs] using hstack.1) hstack.2
  case h_19 | h_21 | h_24 =>
    cases h
    rw [List.forall_mem_cons] at hstack
    exact holds_stmt (by simpa [Stmt.exprs, hP.staticCall] using hstack.1) hstack.2
  case h_20 =>
    cases h
    exact holds_stmt (by simp [Stmt.exprs]) hstack
  case h_25 =>
    split at h
    · next hpool hindex =>
      refine holds_of_usePool? hP h hstack (fun x hx => hbrings x (.inr ?_)) fun huse => hnew (huse ▸ rfl)
      simp [poolName?, heffect, hpool, hindex, hx]
    · cases h
      exact holds_push hstack
  -- all other effects put together what they take from the stack
  all_goals cases h
  all_goals exact holds_push (by simp_all [hP.binary, hP.index, hP.unary, hP.length, hP.newArray])

/-- What a step recovers has the property, if the stack has it and what the instruction brings. -/
lemma holds_of_step (h : step ctx i stack = .ok r) (hstack : ∀ v ∈ stack, P v.expr)
    (hbrings : ∀ x, Brings ctx i x → P (.var x))
    (hnew : effectOf i.opcode = .pooled .newObject → ∀ type, P (.uninit type)) : r.Holds P := by
  obtain ⟨-, text, rfl⟩ | ⟨-, h⟩ := step_ok h
  · exact holds_stmt (by simp [Stmt.exprs]) hstack
  · exact holds_of_applyEffect? hP h hstack hbrings hnew

end Steps

/-- All variables of what a run recovers were on the stack, but for those that its instructions bring. -/
lemma namesIn_of_run {insns : List Instruction} (h : run ctx insns stack = .ok r) (hstack : StackNamesIn A stack)
    (hbrings : ∀ i ∈ insns, ∀ x, Brings ctx i x → A x) : r.NamesIn A := by
  suffices hholds : r.Holds (Expr.NamesIn A) from ⟨hholds.stmts, hholds.stack, hholds.exit⟩
  induction insns generalizing stack r with
  | nil =>
    cases h
    exact holds_push hstack
  | cons i insns ih =>
    obtain ⟨r₁, r₂, h₁, h₂, rfl⟩ := run_cons_ok h
    rw [List.forall_mem_cons] at hbrings
    have hfirst := holds_of_step inherited_namesIn h₁ hstack (fun x hx => Expr.namesIn_var.mpr (hbrings.1 x hx))
      fun _ _ => Expr.namesIn_of_mentions fun _ => rfl
    exact hfirst.andThen (ih h₂ hfirst.stack hbrings.2)

end JvmLift.Recovery
