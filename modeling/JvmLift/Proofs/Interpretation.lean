import Mathlib
import JvmLift.Proofs.Evaluation

/-!
# Values under an interpretation

What expressions come to where variables, and whatever is read from arrays, objects and classes or given back by calls,
have values that are left open. A number of type `int` beside one of type `long` is widened, as it is in the source
language. A negation has the opposite truth value, and to negate twice changes nothing unless there is a `!`.

Floating-point numbers have no value here.
-/

namespace JvmLift.Source

/-! ### Operators on numbers of both types -/

namespace Value

/-- An integer as a `long`. -/
def widen : Value → Value
  | int n => long n.toInt64
  | v => v

/-- The value of an operator. Where its operands are not of one type, or it compares three ways, they are widened. -/
def operate? (op : BinOp) (x y : Value) : Option Value :=
  (binary? op x y).or (binary? op x.widen y.widen)

/-- The value of a cast to an integer type. -/
def cast? (type : String) : Value → Option Value
  | int n =>
    match type with
    | "int" => some (int n)
    | "long" => some (long n.toInt64)
    | "byte" => some (int n.toInt8.toInt32)
    | "short" => some (int n.toInt16.toInt32)
    | "char" => some (int n.toUInt32.toUInt16.toUInt32.toInt32)
    | _ => none
  | long n =>
    match type with
    | "int" => some (int n.toInt32)
    | "long" => some (long n)
    | _ => none
  | _ => none

lemma operate?_of_binary? {op : BinOp} {x y v : Value} (h : binary? op x y = some v) : operate? op x y = some v := by
  simp [operate?, h]

/-- Complementary comparisons are opposite on all values that they compare. -/
lemma operate?_complement {op op' : BinOp} (hop : op.complement? = some op') {x y : Value} {t : Bool}
    (h : operate? op x y = some (.bool t)) : operate? op' x y = some (.bool !t) := by
  have hop' : op'.complement? = some op := by cases op <;> cases hop <;> rfl
  rcases Option.or_eq_some_iff.mp h with h | ⟨hnone, h⟩
  · exact operate?_of_binary? (binary?_complement hop h)
  · -- an operator that does not compare the values as they are is no better off with its complement
    have hnone' : binary? op' x y = none := by
      rw [binary?_eq_bool hop] at hnone
      rw [binary?_eq_bool hop']
      split at hnone
      · cases op <;> cases hop <;> cases hnone
      · cases op <;> cases hop <;> cases hnone
      · cases op <;> cases hop <;> simp_all
      · rfl
    simp [operate?, hnone', binary?_complement hop h]

end Value

/-! ### Expressions -/

/-- What is left open about values. -/
structure Interpretation where
  vars : String → Value
  strings : String → Value
  /-- What an operation on values gives that is no operator on numbers or truth values. -/
  gives : Operation → List Value → Option Value

namespace Interpretation

variable (I : Interpretation)

mutual

/-- The value of an expression. -/
def value? : Expr → Option Value
  | .int n => some (.int n)
  | .long n => some (.long n)
  | .bool b => some (.bool b)
  | .null => some (.ref none)
  | .string s => some (I.strings s)
  | .var name => some (I.vars name)
  | .float _ | .double _ => none
  | .binary .and a b => do
    if ← (← value? a).truth? then return .bool (← (← value? b).truth?) else return .bool false
  | .binary .or a b => do
    if ← (← value? a).truth? then return .bool true else return .bool (← (← value? b).truth?)
  | .ternary cond a b => do if ← (← value? cond).truth? then value? a else value? b
  | .binary op a b => do Value.operate? op (← value? a) (← value? b)
  | .unary .neg a => do (← value? a).negative?
  | .unary .not a => do return .bool !(← (← value? a).truth?)
  | .cast type a => do
    let x ← value? a
    (x.cast? type).or (I.gives (.cast type) [x])
  | .field a name => do I.gives (.field name) [← value? a]
  | .index a i => do I.gives .index [← value? a, ← value? i]
  | .length a => do I.gives .length [← value? a]
  | .instanceOf a type => do I.gives (.instanceOf type) [← value? a]
  | .newArray element dims => do I.gives (.newArray element) (← values? dims)
  | .classLit name => I.gives (.classLit name) []
  | .uninit type => I.gives (.uninit type) []
  | .new type args => do I.gives (.new type) (← values? args)
  | .call receiver owner name args => do I.gives (.call owner name) ((← value? receiver) :: (← values? args))
  | .staticCall owner name args => do I.gives (.staticCall owner name) (← values? args)

/-- The values of expressions, if all of them have one. -/
def values? : List Expr → Option (List Value)
  | [] => some []
  | a :: as => do return (← value? a) :: (← values? as)

end

variable {I} {a b c : Expr} {op : BinOp} {v : Value} {t : Bool}

lemma value?_binary (hand : op ≠ .and) (hor : op ≠ .or) : I.value? (.binary op a b) = some v ↔
    ∃ x y, I.value? a = some x ∧ I.value? b = some y ∧ Value.operate? op x y = some v := by
  rw [value?]
  · simp only [bind, Option.bind_eq_some_iff]
    grind
  · exact hand
  · exact hor

lemma values?_cons {es : List Expr} {vs : List Value} : I.values? (a :: es) = some vs ↔
    ∃ x xs, I.value? a = some x ∧ I.values? es = some xs ∧ vs = x :: xs := by
  simp only [values?, bind, Option.bind_eq_some_iff, pure, Option.some.injEq]
  grind

lemma value?_and : I.value? (.binary .and a b) = some (.bool t) ↔
    (I.value? a = some (.bool false) ∧ t = false) ∨
      (I.value? a = some (.bool true) ∧ I.value? b = some (.bool t)) := by
  rw [value?, Expr.and_eq_some]
  simp

lemma value?_or : I.value? (.binary .or a b) = some (.bool t) ↔
    (I.value? a = some (.bool true) ∧ t = true) ∨
      (I.value? a = some (.bool false) ∧ I.value? b = some (.bool t)) := by
  rw [value?, Expr.or_eq_some]
  simp

lemma value?_not : I.value? (.unary .not a) = some (.bool t) ↔ I.value? a = some (.bool !t) := by
  simp only [value?, bind, Option.bind_eq_some_iff, Expr.truth?_eq_some, pure]
  constructor
  · rintro ⟨_, ha, u, rfl, h⟩
    cases h
    simpa using ha
  · intro ha
    exact ⟨_, ha, !t, rfl, by simp⟩

/-! ### Negations -/

lemma value?_complement {op' : BinOp} (hop : op.complement? = some op')
    (h : I.value? (.binary op a b) = some (.bool t)) : I.value? (.binary op' a b) = some (.bool !t) := by
  have hlazy : op ≠ .and ∧ op ≠ .or ∧ op' ≠ .and ∧ op' ≠ .or := by cases op <;> cases hop <;> simp
  obtain ⟨x, y, hx, hy, hxy⟩ := (value?_binary hlazy.1 hlazy.2.1).mp h
  exact (value?_binary hlazy.2.2.1 hlazy.2.2.2).mpr ⟨x, y, hx, hy, Value.operate?_complement hop hxy⟩

/-- Where a condition has a truth value, its negation has the other one. -/
lemma value?_negate (h : I.value? c = some (.bool t)) : I.value? c.negate = some (.bool !t) := by
  revert t
  refine Expr.negate_induction (P := fun e e' => ∀ {t}, I.value? e = some (.bool t) → I.value? e' = some (.bool !t))
    ?_ ?_ ?_ ?_ ?_ c
  · exact fun e t h => value?_not.mp h
  · intro e e' ih ih' t h
    obtain ⟨he, rfl⟩ | ⟨he, he'⟩ := value?_and.mp h
    · exact value?_or.mpr (.inl ⟨ih he, rfl⟩)
    · exact value?_or.mpr (.inr ⟨ih he, ih' he'⟩)
  · intro e e' ih ih' t h
    obtain ⟨he, rfl⟩ | ⟨he, he'⟩ := value?_or.mp h
    · exact value?_and.mpr (.inl ⟨ih he, rfl⟩)
    · exact value?_and.mpr (.inr ⟨ih he, ih' he'⟩)
  · exact fun op op' e e' hop t h => value?_complement hop h
  · exact fun e t h => value?_not.mpr (by simpa using h)

end Interpretation

namespace Expr

/-- Whether there is no `!` among the operators on truth values at the top. -/
def isPositive : Expr → Bool
  | unary .not _ => false
  | binary .and a b | binary .or a b => a.isPositive && b.isPositive
  | _ => true

lemma negate_negate {c : Expr} (h : c.isPositive = true) : c.negate.negate = c := by
  fun_induction negate c with
  | case1 a => cases h
  | case2 a b iha ihb =>
    obtain ⟨ha, hb⟩ : a.isPositive = true ∧ b.isPositive = true := by simpa [isPositive] using h
    rw [negate, iha ha, ihb hb]
  | case3 a b iha ihb =>
    obtain ⟨ha, hb⟩ : a.isPositive = true ∧ b.isPositive = true := by simpa [isPositive] using h
    rw [negate, iha ha, ihb hb]
  | case4 op a b hand hor op' hop =>
    cases op <;> cases hop <;> rfl
  | case5 op a b _ _ _ => rfl
  | case6 e => rfl

end Expr

end JvmLift.Source
