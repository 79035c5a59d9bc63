import Mathlib
import JvmLift.Recovery.Step

/-!
# Runs without names

What a run does with values depends on their shapes and widths, and never on the names of variables: without the names,
what it comes to is what the run of a context without names comes to on the stack without names. Only the names of local
slots are in question. A class, a field or a constant that is written as a variable has the same name in every method
with the same pool.
-/

namespace JvmLift.Source

namespace Expr

mutual

/-- An expression without the names of its variables. -/
def nameless : Expr → Expr
  | var _ => var ""
  | binary op a b => binary op a.nameless b.nameless
  | unary op a => unary op a.nameless
  | field a name => field a.nameless name
  | index a i => index a.nameless i.nameless
  | length a => length a.nameless
  | cast type a => cast type a.nameless
  | instanceOf a type => instanceOf a.nameless type
  | new type args => new type (namelessEach args)
  | newArray element dims => newArray element (namelessEach dims)
  | call receiver owner name args => call receiver.nameless owner name (namelessEach args)
  | staticCall owner name args => staticCall owner name (namelessEach args)
  | ternary c a b => ternary c.nameless a.nameless b.nameless
  | e@(int _) | e@(long _) | e@(float _) | e@(double _) | e@(string _) | e@(classLit _) | e@null | e@(bool _)
  | e@(uninit _) => e

def namelessEach : List Expr → List Expr
  | [] => []
  | e :: rest => e.nameless :: namelessEach rest

end

@[simp] lemma namelessEach_eq_map (es : List Expr) : namelessEach es = es.map nameless := by
  induction es with
  | nil => rfl
  | cons e es ih => rw [namelessEach, ih, List.map_cons]

attribute [simp] nameless

mutual

@[simp] lemma nameless_nameless (e : Expr) : e.nameless.nameless = e.nameless := by
  cases e with
  | new _ args | newArray _ args | staticCall _ _ args => simpa using nameless_of_mem args
  | call receiver _ _ args => simpa using ⟨nameless_nameless receiver, nameless_of_mem args⟩
  | binary _ a b | index a b => simpa using ⟨nameless_nameless a, nameless_nameless b⟩
  | ternary a b c => simpa using ⟨nameless_nameless a, nameless_nameless b, nameless_nameless c⟩
  | unary _ a | field a _ | length a | cast _ a | instanceOf a _ => simpa using nameless_nameless a
  | _ => rfl

lemma nameless_of_mem (es : List Expr) : ∀ e ∈ es, e.nameless.nameless = e.nameless := by
  cases es with
  | nil => simp
  | cons e es => exact List.forall_mem_cons.mpr ⟨nameless_nameless e, nameless_of_mem es⟩

end

@[simp] lemma hasSideEffects_nameless (e : Expr) : e.nameless.hasSideEffects = e.hasSideEffects := by
  cases e <;> rfl

@[simp] lemma nameless_invert (e : Expr) : e.invert.nameless = e.nameless.invert := by
  cases e <;> rfl

lemma nameless_negate (e : Expr) : e.negate.nameless = e.nameless.negate := by
  fun_induction negate e with
  | case1 a => rfl
  | case2 a b iha ihb => simp [negate, iha, ihb]
  | case3 a b iha ihb => simp [negate, iha, ihb]
  | case4 op a b hand hor op' h => cases op <;> cases h <;> rfl
  | case5 op a b hand hor h => cases op <;> simp_all [negate, BinOp.complement?]
  | case6 e hnot hand hor hbinary =>
    cases e with
    | unary op a => cases op <;> simp_all [negate]
    | binary op a b => simp_all
    | _ => rfl

/-- Only a variable looks like one. -/
lemma nameless_eq_var_iff {e : Expr} : e.nameless = var "" ↔ ∃ name, e = var name := by
  cases e <;> simp

end Expr

namespace Stmt

mutual

lemma mapExprs_mapExprs (f g : Expr → Expr) (s : Stmt) : (s.mapExprs f).mapExprs g = s.mapExprs (g ∘ f) := by
  cases s with
  | block body | ifThen _ body | whileLoop _ body | forEach _ _ _ body | synchronized _ body =>
    simp [mapExprs, mapExprsEach_mapExprsEach f g body]
  | ifElse _ thenBody elseBody =>
    simp [mapExprs, mapExprsEach_mapExprsEach f g thenBody, mapExprsEach_mapExprsEach f g elseBody]
  | forLoop init _ update body =>
    simp [mapExprs, mapExprsEach_mapExprsEach f g init, mapExprsEach_mapExprsEach f g update,
      mapExprsEach_mapExprsEach f g body]
  | switch _ arms => simp [mapExprs, mapExprsArms_mapExprsArms f g arms]
  | tryCatch body clauses =>
    simp [mapExprs, mapExprsEach_mapExprsEach f g body, mapExprsClauses_mapExprsClauses f g clauses]
  | _ => rfl

lemma mapExprsEach_mapExprsEach (f g : Expr → Expr) (body : List Stmt) :
    mapExprsEach g (mapExprsEach f body) = mapExprsEach (g ∘ f) body := by
  cases body with
  | nil => rfl
  | cons s rest => simp [mapExprsEach, mapExprs_mapExprs f g s, mapExprsEach_mapExprsEach f g rest]

lemma mapExprsArms_mapExprsArms (f g : Expr → Expr) (arms : Arms) :
    mapExprsArms g (mapExprsArms f arms) = mapExprsArms (g ∘ f) arms := by
  cases arms with
  | done => rfl
  | case _ body rest =>
    simp [mapExprsArms, mapExprsEach_mapExprsEach f g body, mapExprsArms_mapExprsArms f g rest]
  | default body => simp [mapExprsArms, mapExprsEach_mapExprsEach f g body]

lemma mapExprsClauses_mapExprsClauses (f g : Expr → Expr) : ∀ clauses : Clauses,
    mapExprsClauses g (mapExprsClauses f clauses) = mapExprsClauses (g ∘ f) clauses
  | .done => rfl
  | .handler _ _ body rest => by
    simp [mapExprsClauses, mapExprsEach_mapExprsEach f g body, mapExprsClauses_mapExprsClauses f g rest]
  | .finally body => by simp [mapExprsClauses, mapExprsEach_mapExprsEach f g body]

end

/-- A statement without the names of the variables in its expressions. -/
abbrev nameless (s : Stmt) : Stmt :=
  s.mapExprs Expr.nameless

@[simp] lemma nameless_nameless (s : Stmt) : s.nameless.nameless = s.nameless := by
  rw [nameless, nameless, mapExprs_mapExprs]
  exact congrArg (s.mapExprs ·) (funext Expr.nameless_nameless)

end Stmt

end JvmLift.Source

namespace JvmLift

/-- Two outcomes agree: both are failures, with related errors, or both are successes, with related results. -/
inductive Agree {ε ε' α β : Type} (E : ε → ε' → Prop) (R : α → β → Prop) : Except ε α → Except ε' β → Prop
  | error {e : ε} {e' : ε'} (h : E e e') : Agree E R (.error e) (.error e')
  | ok {a : α} {b : β} (h : R a b) : Agree E R (.ok a) (.ok b)

lemma Agree.bind {ε ε' α β α' β' : Type} {E : ε → ε' → Prop} {R : α → β → Prop} {S : α' → β' → Prop}
    {x : Except ε α} {y : Except ε' β} {f : α → Except ε α'} {g : β → Except ε' β'} (h : Agree E R x y)
    (hfg : ∀ a b, R a b → Agree E S (f a) (g b)) : Agree E S (x >>= f) (y >>= g) := by
  cases h with
  | error h => exact .error h
  | ok h => exact hfg _ _ h

lemma Agree.isOk_eq {ε ε' α β : Type} {E : ε → ε' → Prop} {R : α → β → Prop} {x : Except ε α} {y : Except ε' β}
    (h : Agree E R x y) : x.isOk = y.isOk := by
  cases h <;> rfl

end JvmLift

namespace JvmLift.Recovery

open Bytecode Source

/-! ### What is recovered -/

/-- A value without the names of its variables. -/
@[simps] def StackValue.nameless (v : StackValue) : StackValue :=
  { v with expr := v.expr.nameless }

@[simp] lemma StackValue.nameless_nameless (v : StackValue) : v.nameless.nameless = v.nameless := by
  simp [StackValue.nameless]

@[simp] lemma StackValue.words_nameless (v : StackValue) : v.nameless.words = v.words := rfl

@[simps] def Condition.nameless (c : Condition) : Condition :=
  ⟨c.taken.nameless, c.fallthrough.nameless⟩

def Exit.nameless : Exit → Exit
  | conditional c => conditional c.nameless
  | switch selector => switch selector.nameless

@[simps] def Recovered.nameless (r : Recovered) : Recovered :=
  ⟨r.stmts.map Stmt.nameless, r.stack.map StackValue.nameless, r.exit.map Exit.nameless⟩

/-- A context in which no local slot has a name. -/
def Context.nameless (ctx : Context) : Context :=
  { ctx with method := "", names := fun _ _ => "" }

/-! ### Taking values -/

lemma takeWords?_nameless (words : Nat) (stack : Stack) :
    takeWords? words (stack.map StackValue.nameless) =
      (takeWords? words stack).map (Prod.map (List.map StackValue.nameless) (List.map StackValue.nameless)) := by
  fun_induction takeWords? words stack with
  | case1 stack => simp [takeWords?]
  | case2 words => simp [takeWords?]
  | case3 words v stack ih => simp [takeWords?, ih, Function.comp_def]

lemma takeValues?_nameless (n : Nat) (stack : Stack) :
    takeValues? n (stack.map StackValue.nameless) =
      (takeValues? n stack).map (Prod.map (List.map Expr.nameless) (List.map StackValue.nameless)) := by
  unfold takeValues?
  split_ifs <;> simp_all [List.map_take, List.map_drop, Function.comp_def]

/-! ### Conditions and calls -/

lemma nameless_compareToZero (op : BinOp) (e : Expr) :
    (compareToZero op e).nameless = compareToZero op e.nameless := by
  unfold compareToZero
  split
  · rfl
  · next hcmp =>
    cases e with
    | binary op' a b => cases op' <;> first | rfl | exact absurd rfl (hcmp a b)
    | _ => rfl

lemma takenCondition?_nameless (test : BinOp × Comparand) (es : List Expr) :
    takenCondition? test (es.map Expr.nameless) = (takenCondition? test es).map Expr.nameless := by
  obtain ⟨op, _ | _ | _⟩ := test <;> rcases es with _ | ⟨a, _ | ⟨b, es⟩⟩ <;>
    simp [takenCondition?, nameless_compareToZero]

lemma condition?_nameless (op : Opcode) (es : List Expr) :
    condition? op (es.map Expr.nameless) = (condition? op es).map Condition.nameless := by
  simp only [condition?, bind]
  cases branchTest? op with
  | none => rfl
  | some test =>
    simp only [Option.bind_some, takenCondition?_nameless]
    cases takenCondition? test es with
    | none => rfl
    | some taken => simp [Condition.nameless]

lemma nameless_finishCall (ret : Option FieldType) (value : Expr) (stack : Stack) :
    (finishCall ret value stack).nameless = finishCall ret value.nameless (stack.map StackValue.nameless) := by
  cases ret <;> rfl

lemma nameless_construct (type : String) (args : List Expr) (stack : Stack) :
    (construct type args stack).nameless =
      construct type (args.map Expr.nameless) (stack.map StackValue.nameless) := by
  rcases stack with _ | ⟨⟨e, wide⟩, stack⟩
  · simp [construct, Recovered.nameless, Stmt.mapExprs]
  · cases e with
    | uninit type' =>
      by_cases htype : type' = type <;>
        simp [construct, htype, Recovered.nameless, StackValue.nameless, Stmt.mapExprs]
    | _ => simp [construct, Recovered.nameless, StackValue.nameless, Stmt.mapExprs]

lemma nameless_callOn (receiver : Expr) (member : Member) (ret : Option FieldType) (args : List Expr) (stack : Stack) :
    (callOn receiver member ret args stack).nameless =
      callOn receiver.nameless member ret (args.map Expr.nameless) (stack.map StackValue.nameless) := by
  unfold callOn
  dsimp only
  split_ifs
  · cases receiver with
    | uninit type => exact nameless_construct type args stack
    | _ => simp [nameless_finishCall]
  · simp [nameless_finishCall]

@[simp] lemma nameless_constantValue (k : Constant) : (constantValue k).nameless = constantValue k := by
  cases k <;> rfl

lemma nameless_recipeParts (text chars : List Char) (args : List Expr) (constants : List Constant) :
    (recipeParts text chars args constants).map Expr.nameless =
      recipeParts text chars (args.map Expr.nameless) constants := by
  have htext (text : List Char) : (textPart text).map Expr.nameless = textPart text := by
    unfold textPart
    split_ifs <;> simp
  have hconstant (k : Constant) : (constantValue k).expr.nameless = (constantValue k).expr :=
    congrArg StackValue.expr (nameless_constantValue k)
  induction chars generalizing text args constants with
  | nil => exact htext text
  | cons c chars ih =>
    simp only [recipeParts]
    split_ifs
    · cases args <;> simp [htext, ih]
    · cases constants <;> simp [htext, ih, hconstant]
    · exact ih _ _ _

@[simp] lemma isStringLiteral_nameless (e : Expr) : isStringLiteral e.nameless = isStringLiteral e := by
  cases e <;> rfl

lemma nameless_foldl_add (first : Expr) (rest : List Expr) :
    (rest.foldl (Expr.binary .add) first).nameless =
      (rest.map Expr.nameless).foldl (Expr.binary .add) first.nameless := by
  induction rest generalizing first with
  | nil => rfl
  | cons e rest ih => exact ih (.binary .add first e)

lemma nameless_joinConcat (parts : List Expr) :
    (joinConcat parts).nameless = joinConcat (parts.map Expr.nameless) := by
  rcases parts with _ | ⟨a, _ | ⟨b, rest⟩⟩
  · simp [joinConcat]
  · simp [joinConcat]
  · by_cases hliteral : (isStringLiteral a || isStringLiteral b) = true <;>
      simp [joinConcat, hliteral, nameless_foldl_add]

lemma nameless_dynamicCall (site : CallSite) (args : List Expr) :
    (dynamicCall site args).nameless = dynamicCall site (args.map Expr.nameless) := by
  unfold dynamicCall
  split
  · simp [concatFromRecipe, nameless_joinConcat, nameless_recipeParts]
  · exact nameless_joinConcat args
  · simp

lemma invoke?_nameless (ctx : Context) (isStatic : Bool) (member : Member) (stack : Stack) :
    invoke? ctx.nameless isStatic member (stack.map StackValue.nameless) =
      (invoke? ctx isStatic member stack).map Recovered.nameless := by
  simp only [invoke?, bind, takeValues?_nameless]
  cases takeValues? (MethodDescriptor.parseD member.descriptor).params.length stack with
  | none => rfl
  | some taken =>
    obtain ⟨args, rest⟩ := taken
    cases isStatic with
    | true =>
      have hhides : ctx.nameless.hides member = ctx.hides member := rfl
      simp only [Option.map_some, Prod.map_apply, Option.bind_some, hhides, ↓reduceIte]
      split_ifs
      · rfl
      · simp [nameless_finishCall]
    | false => cases rest <;> simp [nameless_callOn]

lemma invokeDynamic?_nameless (site : CallSite) (stack : Stack) :
    invokeDynamic? site (stack.map StackValue.nameless) = (invokeDynamic? site stack).map Recovered.nameless := by
  simp only [invokeDynamic?, bind, takeValues?_nameless]
  cases takeValues? (MethodDescriptor.parseD site.descriptor).params.length stack with
  | none => rfl
  | some taken => simp [nameless_finishCall, nameless_dynamicCall]

/-! ### Steps and runs -/

@[simp] lemma Recovered.nameless_nameless (r : Recovered) : r.nameless.nameless = r.nameless := by
  obtain ⟨stmts, stack, exit⟩ := r
  have hexit (e : Exit) : e.nameless.nameless = e.nameless := by
    cases e <;> simp [Exit.nameless, Condition.nameless]
  simp [Recovered.nameless, Function.comp_def, hexit]

lemma Recovered.nameless_andThen (first second : Recovered) :
    (first.andThen second).nameless = first.nameless.andThen second.nameless := by
  simp [Recovered.nameless, Recovered.andThen, Option.map_or]

lemma usePool?_nameless (ctx : Context) (pool : Pool) (operand : Operand) (index : UInt16) (use : PoolUse)
    (stack : Stack) :
    (usePool? ctx.nameless pool operand index use (stack.map StackValue.nameless)).map Recovered.nameless =
      (usePool? ctx pool operand index use stack).map Recovered.nameless := by
  cases use with
  | invoke isStatic => simp [usePool?, invoke?_nameless, Function.comp_def]
  | invokeDynamic =>
    simp only [usePool?]
    split
    · simp [invokeDynamic?_nameless, Function.comp_def]
    · simp [Recovered.nameless]
  | newMultiArray =>
    simp only [usePool?, bind, takeValues?_nameless]
    generalize takeValues? _ stack = taken
    cases taken <;> simp [Recovered.nameless, StackValue.nameless]
  | constant | getStatic | newObject => simp [usePool?, Recovered.nameless]
  | putStatic | getField | newArray | checkCast | instanceOf =>
    cases stack <;> simp [usePool?, Recovered.nameless, StackValue.nameless, Stmt.mapExprs]
  | putField =>
    rcases stack with _ | ⟨a, _ | ⟨b, stack⟩⟩ <;>
      simp [usePool?, Recovered.nameless, StackValue.nameless, Stmt.mapExprs]

lemma applyEffect?_nameless (ctx : Context) (i : Instruction) (effect : Effect) (stack : Stack) :
    (applyEffect? ctx.nameless i effect (stack.map StackValue.nameless)).map Recovered.nameless =
      (applyEffect? ctx i effect stack).map Recovered.nameless := by
  cases effect with
  | nothing | push | returnVoid | subroutineCall =>
    simp [applyEffect?, Recovered.nameless, Stmt.mapExprs, StackValue.nameless]
  | pushImmediate | load =>
    simp only [applyEffect?]
    split <;> simp [Recovered.nameless, StackValue.nameless]
  | increment =>
    simp only [applyEffect?]
    split
    · split_ifs <;> simp [Recovered.nameless, Stmt.mapExprs]
    · simp [Recovered.nameless]
  | convert cast wide =>
    cases cast <;> cases stack <;> simp [applyEffect?, Recovered.nameless, StackValue.nameless]
  | store =>
    cases stack with
    | nil => rfl
    | cons v stack =>
      simp only [applyEffect?, List.map_cons]
      split <;> simp [Recovered.nameless, StackValue.nameless, Stmt.mapExprs]
  | arrayStore =>
    rcases stack with _ | ⟨a, _ | ⟨b, _ | ⟨c, stack⟩⟩⟩ <;>
      simp [applyEffect?, Recovered.nameless, StackValue.nameless, Stmt.mapExprs]
  | pop words =>
    simp only [applyEffect?, bind, takeWords?_nameless]
    cases takeWords? words stack with
    | none => rfl
    | some taken =>
      simp [Recovered.nameless, ← List.map_reverse, List.filter_map, Function.comp_def, Stmt.mapExprs]
  | dup words skip =>
    simp only [applyEffect?, bind, takeWords?_nameless]
    cases takeWords? words stack with
    | none => rfl
    | some taken =>
      simp only [Option.map_some, Option.bind_some, Prod.map_snd, takeWords?_nameless]
      cases takeWords? skip taken.2 <;> simp [Recovered.nameless, Function.comp_def]
  | branch =>
    simp only [applyEffect?, bind, takeValues?_nameless]
    cases takeValues? ((branchOperandCount? i.opcode).getD 1) stack with
    | none => rfl
    | some taken =>
      simp only [Option.map_some, Option.bind_some, Prod.map_fst, ← List.map_reverse, condition?_nameless]
      cases condition? i.opcode taken.1.reverse <;>
        simp [Recovered.nameless, Exit.nameless, Condition.nameless]
  | pooled use =>
    simp only [applyEffect?]
    have hpool : ctx.nameless.pool = ctx.pool := rfl
    rw [hpool]
    split
    · exact usePool?_nameless ctx _ _ _ use stack
    · simp [Recovered.nameless]
  | swap | binary | arrayLoad | compare =>
    rcases stack with _ | ⟨a, _ | ⟨b, stack⟩⟩ <;> simp [applyEffect?, Recovered.nameless, StackValue.nameless]
  | negate | switch | returnValue | throwValue | arrayLength | newPrimitiveArray | monitor =>
    cases stack <;> simp [applyEffect?, Recovered.nameless, StackValue.nameless, Stmt.mapExprs, Exit.nameless]

/-! ### Two runs -/

/-- Stacks that differ in names only. -/
abbrev Stack.SameShape (stack stack' : Stack) : Prop :=
  stack.map StackValue.nameless = stack'.map StackValue.nameless

/-- What differs in names only. -/
abbrev Recovered.SameShape (r r' : Recovered) : Prop :=
  r.nameless = r'.nameless

lemma Stack.sameShape_cons {v v' : StackValue} {stack stack' : Stack} :
    SameShape (v :: stack) (v' :: stack') ↔
      (v.expr.nameless = v'.expr.nameless ∧ v.wide = v'.wide) ∧ SameShape stack stack' := by
  simp [SameShape, StackValue.nameless]

/-- Stacks of the same shape are both empty, or both have a top. -/
lemma Stack.SameShape.nil_or_cons {stack stack' : Stack} (h : SameShape stack stack') :
    (stack = [] ∧ stack' = []) ∨ ∃ v below v' below', stack = v :: below ∧ stack' = v' :: below' := by
  cases stack <;> cases stack' <;> simp [SameShape] at h ⊢

lemma Stack.SameShape.length_eq {stack stack' : Stack} (h : SameShape stack stack') : stack.length = stack'.length := by
  simpa using congrArg List.length h

/-- Transfers of control that differ in names only. -/
inductive SameExit : Option Exit → Option Exit → Prop
  | none : SameExit none none
  | conditional {c c' : Condition} (h : c.nameless = c'.nameless) :
    SameExit (some (.conditional c)) (some (.conditional c'))
  | switch {selector selector' : Expr} (h : selector.nameless = selector'.nameless) :
    SameExit (some (.switch selector)) (some (.switch selector'))

namespace Recovered.SameShape

variable {r r' : Recovered} (h : r.SameShape r')
include h

lemma stack : Stack.SameShape r.stack r'.stack :=
  congrArg Recovered.stack h

lemma stmts : r.stmts.map Stmt.nameless = r'.stmts.map Stmt.nameless :=
  congrArg Recovered.stmts h

lemma isEmpty : r.stmts.isEmpty = r'.stmts.isEmpty := by
  simpa using congrArg List.isEmpty h.stmts

lemma exit : SameExit r.exit r'.exit := by
  have hexit : r.exit.map Exit.nameless = r'.exit.map Exit.nameless := congrArg Recovered.exit h
  revert hexit
  generalize r.exit = x
  generalize r'.exit = y
  intro hexit
  rcases x with _ | _ | _ <;> rcases y with _ | _ | _ <;> simp [Exit.nameless] at hexit
  · exact .none
  · exact .conditional hexit
  · exact .switch hexit

end Recovered.SameShape

/-- Both errors are an underflow at one offset, each in its own method. -/
def Underflow (ctx ctx' : Context) (e e' : LiftError) : Prop :=
  ∃ offset, e = .stackUnderflow ctx.method offset ∧ e' = .stackUnderflow ctx'.method offset

variable {ctx ctx' : Context} (hctx : ctx.nameless = ctx'.nameless) {stack stack' : Stack}
include hctx

lemma agree_step (i : Instruction) (hstack : Stack.SameShape stack stack') :
    Agree (Underflow ctx ctx') Recovered.SameShape (step ctx i stack) (step ctx' i stack') := by
  have heffect : (applyEffect? ctx i (effectOf i.opcode) stack).map Recovered.nameless =
      (applyEffect? ctx' i (effectOf i.opcode) stack').map Recovered.nameless := by
    rw [← applyEffect?_nameless ctx, ← applyEffect?_nameless ctx', hctx, hstack]
  unfold step
  split
  · exact .ok (by simp [Recovered.SameShape, Recovered.nameless, hstack])
  · revert heffect
    generalize applyEffect? ctx i (effectOf i.opcode) stack = x
    generalize applyEffect? ctx' i (effectOf i.opcode) stack' = y
    intro heffect
    rcases x with _ | r <;> rcases y with _ | r' <;> simp at heffect
    · exact .error ⟨i.offset, rfl, rfl⟩
    · exact .ok heffect

/-- Two runs underflow at one instruction, or they come to the same but for names. -/
lemma agree_run (insns : List Instruction) (hstack : Stack.SameShape stack stack') :
    Agree (Underflow ctx ctx') Recovered.SameShape (run ctx insns stack) (run ctx' insns stack') := by
  induction insns generalizing stack stack' with
  | nil => exact .ok (by simp [Recovered.SameShape, Recovered.nameless, hstack])
  | cons i insns ih =>
    refine (agree_step hctx i hstack).bind fun first first' hfirst => ?_
    refine (ih hfirst.stack).bind fun second second' hsecond => .ok ?_
    rw [Recovered.SameShape, Recovered.nameless_andThen, hfirst, hsecond, Recovered.nameless_andThen]

end JvmLift.Recovery
