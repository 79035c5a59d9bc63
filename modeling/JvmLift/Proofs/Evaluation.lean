import Mathlib
import JvmLift.Proofs.NormalForm

/-!
# Evaluation with effects

An expression is evaluated from left to right, and only as far as its parts matter. Calls and constructions can be seen,
one behind the other, and whatever is computed may depend on what has been seen so far. A division by zero throws, and so
does any other operation where the world around says so.
-/

namespace JvmLift.Source

open Number

/-! ### Evaluation -/

/-- Values of all kinds. -/
inductive Datum
  | plain (v : Value)
  | float (x : Single)
  | double (x : Double)
  | text (s : String)

/-- What is thrown. -/
inductive Raised
  | divisionByZero
  | object (n : Nat)

/-- What an expression does with the values of its operands. -/
inductive Operation
  | unary (op : UnOp)
  | binary (op : BinOp)
  | field (name : String)
  | index
  | length
  | cast (type : String)
  | instanceOf (type : String)
  | newArray (element : String)
  | classLit (name : String)
  | uninit (type : String)
  | new (type : String)
  | call (owner name : String)
  | staticCall (owner name : String)

/-- Calls and constructions can be seen. -/
def Operation.isVisible : Operation → Bool
  | new _ | call .. | staticCall .. => true
  | _ => false

/-- A call or a construction with its operands. -/
structure Occurrence where
  operation : Operation
  operands : List Datum

/-- The events so far, the latest one last. -/
abbrev History := List Occurrence

/-- Something that adds to the history and comes to a result, or throws. -/
def Course (α : Type) := History → History × Except Raised α

namespace Course

variable {α β : Type} {c c' : Course α} {k k' : α → Course β} {h h' : History} {a : α} {x : Raised}

instance : Monad Course where
  pure a := fun h => (h, .ok a)
  bind c k := fun h =>
    match c h with
    | (h', .ok a) => k a h'
    | (h', .error x) => (h', .error x)

lemma pure_apply (a : α) (h : History) : (pure a : Course α) h = (h, .ok a) := rfl

lemma bind_of_ok (hc : c h = (h', .ok a)) : (c >>= k) h = k a h' := by
  simp only [bind, hc]

lemma bind_of_error (hc : c h = (h', .error x)) : (c >>= k) h = (h', .error x) := by
  simp only [bind, hc]

instance : LawfulMonad Course := by
  refine .mk' Course ?_ (fun a k => rfl) ?_
  · intro α c
    funext h
    rcases hc : c h with ⟨h', _ | a⟩
    · exact bind_of_error hc
    · exact bind_of_ok hc
  · intro α β γ c k l
    funext h
    rcases hc : c h with ⟨h', _ | a⟩
    · rw [bind_of_error (bind_of_error hc), bind_of_error hc]
    · rcases hk : k a h' with ⟨h'', _ | b⟩
      · rw [bind_of_error ((bind_of_ok hc).trans hk), bind_of_ok hc, bind_of_error hk]
      · rw [bind_of_ok ((bind_of_ok hc).trans hk), bind_of_ok hc, bind_of_ok hk]

/-- Only results that occur matter for what comes behind. -/
lemma bind_congr (hc : c h = c' h) (hk : ∀ h' a, c h = (h', .ok a) → k a h' = k' a h') :
    (c >>= k) h = (c' >>= k') h := by
  rcases hr : c h with ⟨h', x | a⟩
  · rw [bind_of_error hr, bind_of_error (hc.symm.trans hr)]
  · rw [bind_of_ok hr, bind_of_ok (hc.symm.trans hr), hk h' a hr]

end Course

/-- What an evaluation leaves to the world around. -/
structure World where
  vars : String → Datum
  /-- What an operation comes to behind the events so far, its own one included. -/
  perform : History → Operation → List Datum → Except Raised Datum
  /-- Whether a condition holds that is no truth value. -/
  holds : Datum → Bool

/-- Whether an operator divides an integer by zero. -/
def Value.dividesByZero (op : BinOp) : Value → Value → Bool
  | int _, int b => (op = .div ∨ op = .rem) ∧ b = 0
  | long _, long b => (op = .div ∨ op = .rem) ∧ b = 0
  | _, _ => false

namespace World

variable (W : World)

/-- What an operation comes to. Operators on numbers, truth values and texts are those of the language, and the rest is
left to the world. -/
def compute (h : History) : Operation → List Datum → Except Raised Datum
  | .binary op, [.plain x, .plain y] =>
    match Value.binary? op x y with
    | some v => .ok (.plain v)
    | none =>
      if Value.dividesByZero op x y then .error .divisionByZero else W.perform h (.binary op) [.plain x, .plain y]
  | .binary .add, [.text s, .text t] => .ok (.text (s ++ t))
  | .unary .neg, [.plain x] =>
    match x.negative? with
    | some v => .ok (.plain v)
    | none => W.perform h (.unary .neg) [.plain x]
  | .unary .neg, [.float x] => .ok (.float (-x))
  | .unary .neg, [.double x] => .ok (.double (-x))
  | .unary .not, [.plain (.bool b)] => .ok (.plain (.bool !b))
  | f, xs => W.perform h f xs

/-- Carries out an operation. -/
def apply (f : Operation) (xs : List Datum) : Course Datum := fun h =>
  let h' := if f.isVisible then h ++ [⟨f, xs⟩] else h
  (h', W.compute h' f xs)

def truth : Datum → Bool
  | .plain (.bool b) => b
  | x => W.holds x

mutual

/-- Evaluates an expression, its operands from left to right and only where they matter. -/
def eval : Expr → Course Datum
  | .int n => pure (.plain (.int n))
  | .long n => pure (.plain (.long n))
  | .float x => pure (.float x)
  | .double x => pure (.double x)
  | .string s => pure (.text s)
  | .bool b => pure (.plain (.bool b))
  | .null => pure (.plain (.ref none))
  | .var name => pure (W.vars name)
  | .binary .and a b => do
    if W.truth (← eval a) then return .plain (.bool (W.truth (← eval b))) else return .plain (.bool false)
  | .binary .or a b => do
    if W.truth (← eval a) then return .plain (.bool true) else return .plain (.bool (W.truth (← eval b)))
  | .ternary cond a b => do if W.truth (← eval cond) then eval a else eval b
  | .binary op a b => do W.apply (.binary op) [← eval a, ← eval b]
  | .unary op a => do W.apply (.unary op) [← eval a]
  | .field a name => do W.apply (.field name) [← eval a]
  | .index a i => do W.apply .index [← eval a, ← eval i]
  | .length a => do W.apply .length [← eval a]
  | .cast type a => do W.apply (.cast type) [← eval a]
  | .instanceOf a type => do W.apply (.instanceOf type) [← eval a]
  | .newArray element dims => do W.apply (.newArray element) (← evalEach dims)
  | .classLit name => W.apply (.classLit name) []
  | .uninit type => W.apply (.uninit type) []
  | .new type args => do W.apply (.new type) (← evalEach args)
  | .call receiver owner name args => do W.apply (.call owner name) ((← eval receiver) :: (← evalEach args))
  | .staticCall owner name args => do W.apply (.staticCall owner name) (← evalEach args)

/-- Evaluates expressions one behind the other. -/
def evalEach : List Expr → Course (List Datum)
  | [] => pure []
  | a :: as => do return (← eval a) :: (← evalEach as)

end

end World

/-! ### Operations and lazy operators -/

namespace Expr

/-- The operation of an expression that evaluates all of its operands. -/
def operation? : Expr → Option Operation
  | binary .and _ _ | binary .or _ _ | ternary .. => none
  | binary op _ _ => some (.binary op)
  | unary op _ => some (.unary op)
  | field _ name => some (.field name)
  | index .. => some .index
  | length _ => some .length
  | cast type _ => some (.cast type)
  | instanceOf _ type => some (.instanceOf type)
  | newArray element _ => some (.newArray element)
  | classLit name => some (.classLit name)
  | uninit type => some (.uninit type)
  | new type _ => some (.new type)
  | call _ owner name _ => some (.call owner name)
  | staticCall owner name _ => some (.staticCall owner name)
  | int _ | long _ | float _ | double _ | string _ | null | bool _ | var _ => none

/-- Literals and variables. -/
def isAtom : Expr → Bool
  | int _ | long _ | float _ | double _ | string _ | null | bool _ | var _ => true
  | _ => false

lemma operation?_binary {op : BinOp} {a b : Expr} (hand : op ≠ .and) (hor : op ≠ .or) :
    (binary op a b).operation? = some (.binary op) := by
  cases op <;> simp_all [operation?]

lemma sizeOf_lt_of_mem_operands {a e : Expr} (h : a ∈ e.operands) : sizeOf a < sizeOf e := by
  cases e <;> simp only [operands, List.mem_cons, List.not_mem_nil, or_false] at h
  case newArray | new | staticCall =>
    have := List.sizeOf_lt_of_mem h
    simp only [newArray.sizeOf_spec, new.sizeOf_spec, staticCall.sizeOf_spec]
    omega
  case call =>
    rcases h with rfl | h
    · simp only [call.sizeOf_spec]
      omega
    · have := List.sizeOf_lt_of_mem h
      simp only [call.sizeOf_spec]
      omega
  case ternary =>
    rcases h with rfl | rfl | rfl <;> simp only [ternary.sizeOf_spec] <;> omega
  case binary | index =>
    rcases h with rfl | rfl <;> simp only [binary.sizeOf_spec, index.sizeOf_spec] <;> omega
  all_goals
    subst h
    simp only [unary.sizeOf_spec, field.sizeOf_spec, length.sizeOf_spec, cast.sizeOf_spec, instanceOf.sizeOf_spec]
    omega

/-- Expressions by the way in which they are evaluated. -/
theorem evaluation_induction {P : Expr → Prop} (atom : ∀ e, e.isAtom = true → P e)
    (strict : ∀ e f, e.operation? = some f → (∀ a ∈ e.operands, P a) → P e)
    (and : ∀ a b, P a → P b → P (binary .and a b)) (or : ∀ a b, P a → P b → P (binary .or a b))
    (ternary : ∀ c a b, P c → P a → P b → P (ternary c a b)) (e : Expr) : P e := by
  induction hsize : sizeOf e using Nat.strong_induction_on generalizing e with
  | _ size ih =>
    have operands (a : Expr) (ha : a ∈ e.operands) : P a := ih _ (hsize ▸ sizeOf_lt_of_mem_operands ha) a rfl
    cases hop : e.operation? with
    | some f => exact strict e f hop operands
    | none =>
      unfold operation? at hop
      split at hop <;> simp only [reduceCtorEq] at hop
      case h_1 a b => exact and a b (operands a (by simp [Expr.operands])) (operands b (by simp [Expr.operands]))
      case h_2 a b => exact or a b (operands a (by simp [Expr.operands])) (operands b (by simp [Expr.operands]))
      case h_3 c a b =>
        exact ternary c a b (operands c (by simp [Expr.operands])) (operands a (by simp [Expr.operands]))
          (operands b (by simp [Expr.operands]))
      all_goals exact atom _ rfl

lemma simplifyAll_eq_map (es : List Expr) : simplifyAll es = es.map simplify := by
  induction es with
  | nil => rfl
  | cons e es ih => rw [simplifyAll, ih, List.map_cons]

end Expr

namespace World

variable {W : World} {e a b c : Expr} {f : Operation} {h h' : History} {op : BinOp} {x : Datum}

lemma eval_of_isAtom (he : e.isAtom = true) (h : History) : ∃ x, W.eval e h = (h, .ok x) := by
  cases e <;> cases he <;> exact ⟨_, rfl⟩

lemma eval_of_operation? (hop : e.operation? = some f) : W.eval e = W.evalEach e.operands >>= W.apply f := by
  unfold Expr.operation? at hop
  split at hop <;> simp only [reduceCtorEq, Option.some.injEq] at hop
  all_goals
    subst hop
    simp [eval, evalEach, Expr.operands]

lemma eval_binary (hand : op ≠ .and) (hor : op ≠ .or) :
    W.eval (.binary op a b) = W.eval a >>= fun x => W.eval b >>= fun y => W.apply (.binary op) [x, y] := by
  rw [eval_of_operation? (Expr.operation?_binary hand hor)]
  simp [evalEach, Expr.operands]

lemma eval_unary {op : UnOp} : W.eval (.unary op a) = W.eval a >>= fun x => W.apply (.unary op) [x] := by
  rw [eval]

/-! ### The history grows -/

/-- Nothing that has been seen is taken back. -/
def Grows {α : Type} (c : Course α) : Prop :=
  ∀ h, h <+: (c h).1

lemma grows_pure {α : Type} (a : α) : Grows (pure a : Course α) := fun h => h.prefix_refl

lemma grows_apply (f : Operation) (xs : List Datum) : Grows (W.apply f xs) := by
  intro h
  unfold apply
  split
  · exact List.prefix_append h _
  · exact h.prefix_refl

lemma Grows.bind {α β : Type} {c : Course α} {k : α → Course β} (hc : Grows c) (hk : ∀ a, Grows (k a)) :
    Grows (c >>= k) := by
  intro h
  have hfirst := hc h
  rcases hr : c h with ⟨h', _ | a⟩ <;> rw [hr] at hfirst
  · rw [Course.bind_of_error hr]
    exact hfirst
  · rw [Course.bind_of_ok hr]
    exact hfirst.trans (hk a h')

lemma grows_evalEach {es : List Expr} (hes : ∀ e ∈ es, Grows (W.eval e)) : Grows (W.evalEach es) := by
  induction es with
  | nil => exact grows_pure _
  | cons e es ih =>
    obtain ⟨he, hes⟩ := List.forall_mem_cons.mp hes
    rw [evalEach]
    exact he.bind fun x => (ih hes).bind fun xs => grows_pure _

lemma grows_eval (W : World) (e : Expr) : Grows (W.eval e) := by
  induction e using Expr.evaluation_induction with
  | atom e he =>
    intro h
    obtain ⟨x, hx⟩ := eval_of_isAtom (W := W) he h
    rw [hx]
  | strict e f hop ih =>
    rw [eval_of_operation? hop]
    exact (grows_evalEach ih).bind (grows_apply f)
  | and a b iha ihb =>
    rw [eval]
    refine iha.bind fun x => ?_
    split
    · exact ihb.bind fun y => grows_pure _
    · exact grows_pure _
  | or a b iha ihb =>
    rw [eval]
    refine iha.bind fun x => ?_
    split
    · exact grows_pure _
    · exact ihb.bind fun y => grows_pure _
  | ternary c a b ihc iha ihb =>
    rw [eval]
    refine ihc.bind fun x => ?_
    split
    · exact iha
    · exact ihb

/-- Whether an evaluation has no effect: nothing can be seen of it and nothing is thrown. -/
def IsQuiet (W : World) (e : Expr) (h : History) : Prop :=
  ∃ x, W.eval e h = (h, .ok x)

/-- The operands of a quiet operation are quiet. -/
lemma isQuiet_operands (hand : op ≠ .and) (hor : op ≠ .or) (hquiet : W.IsQuiet (.binary op a b) h) :
    W.IsQuiet a h ∧ W.IsQuiet b h := by
  obtain ⟨v, hv⟩ := hquiet
  rw [eval_binary hand hor] at hv
  have hgrows := W.grows_eval a h
  rcases ha : W.eval a h with ⟨h₁, r | x⟩
  · rw [Course.bind_of_error ha] at hv
    cases hv
  rw [Course.bind_of_ok ha] at hv
  rw [ha] at hgrows
  have hgrows' := W.grows_eval b h₁
  rcases hb : W.eval b h₁ with ⟨h₂, r | y⟩
  · rw [Course.bind_of_error hb] at hv
    cases hv
  rw [Course.bind_of_ok hb] at hv
  rw [hb] at hgrows'
  -- what is seen in between is seen in the end
  have hlast : h₂ <+: h := by
    simpa [hv] using W.grows_apply (.binary op) [x, y] h₂
  obtain rfl : h₁ = h := antisymm_of (· <+: ·) (hgrows'.trans hlast) hgrows
  obtain rfl : h₂ = h₁ := antisymm_of (· <+: ·) hlast hgrows'
  exact ⟨⟨x, ha⟩, ⟨y, hb⟩⟩

end World

end JvmLift.Source
