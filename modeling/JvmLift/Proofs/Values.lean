import Mathlib
import JvmLift.Source.Expr

/-!
# Values of expressions

What expressions over variables and literals come to when they are evaluated. Arithmetic is said on integers: the result
of an operator is the integer that it gives, taken back into two's complement. A quotient is rounded toward zero, only
the low bits of the distance of a shift count, and a division by zero has no value. Operands of `&&`, `||` and of a
choice are evaluated only where they matter.

Calls, fields, arrays and floating-point numbers have no value here.
-/

namespace JvmLift.Source

/-! ### Words -/

namespace BinOp

variable {w : Nat}

/-- The value of an operator on two words of one width. -/
def onWords? (op : BinOp) (a b : BitVec w) : Option (BitVec w) :=
  match op with
  | add => some (.ofInt w (a.toInt + b.toInt))
  | sub => some (.ofInt w (a.toInt - b.toInt))
  | mul => some (.ofInt w (a.toInt * b.toInt))
  | div => if b.toInt = 0 then none else some (.ofInt w (a.toInt.tdiv b.toInt))
  | rem => if b.toInt = 0 then none else some (.ofInt w (a.toInt.tmod b.toInt))
  | bitAnd => some (a &&& b)
  | bitOr => some (a ||| b)
  | bitXor => some (a ^^^ b)
  | _ => none

/-- The value of a shift. Of the distance, the remainder by the width counts: five bits for 32, six for 64. -/
def shift? (op : BinOp) (a : BitVec w) (distance : BitVec 32) : Option (BitVec w) :=
  let places := distance.toNat % w
  match op with
  | shl => some (.ofInt w (a.toInt * 2 ^ places))
  | shr => some (.ofInt w (a.toInt / 2 ^ places))
  | ushr => some (.ofNat w (a.toNat / 2 ^ places))
  | _ => none

/-- Whether a relation holds of two integers. -/
def relates? (op : BinOp) (a b : Int) : Option Bool :=
  match op with
  | eq => some (a = b)
  | ne => some (a ≠ b)
  | lt => some (a < b)
  | ge => some (b ≤ a)
  | gt => some (b < a)
  | le => some (a ≤ b)
  | _ => none

end BinOp

/-! ### Values -/

inductive Value
  | int (n : Int32)
  | long (n : Int64)
  | bool (b : Bool)
  /-- A reference, to an object unless it is `null`. -/
  | ref (object : Option Nat)
  deriving DecidableEq

namespace Value

/-- The truth value that a value is. -/
def truth? : Value → Option Bool
  | bool b => some b
  | _ => none

/-- The value of an operator that evaluates both of its operands. -/
def binary? (op : BinOp) : Value → Value → Option Value
  | int a, int b =>
    ((op.onWords? a.toBitVec b.toBitVec).or (op.shift? a.toBitVec b.toBitVec)).map (int <| .ofBitVec ·) |>.or <|
      (op.relates? a.toInt b.toInt).map bool
  | long a, long b =>
    (op.onWords? a.toBitVec b.toBitVec).map (long <| .ofBitVec ·) |>.or <|
      (op.relates? a.toInt b.toInt).map bool |>.or <|
      if op = .cmp then some (int (if a < b then -1 else if a = b then 0 else 1)) else none
  | long a, int b => (op.shift? a.toBitVec b.toBitVec).map (long <| .ofBitVec ·)
  | ref a, ref b => if op = .eq then some (bool (a = b)) else if op = .ne then some (bool (a ≠ b)) else none
  | _, _ => none

/-- The value of a unary minus. -/
def negative? : Value → Option Value
  | int n => some (int (.ofBitVec (.ofInt 32 (-n.toInt))))
  | long n => some (long (.ofBitVec (.ofInt 64 (-n.toInt))))
  | _ => none

/-- Whether values relate. -/
lemma binary?_eq_bool {op op' : BinOp} (hop : op.complement? = some op') (x y : Value) : binary? op x y =
    match x, y with
    | .int m, .int n => (op.relates? m.toInt n.toInt).map .bool
    | .long m, .long n => (op.relates? m.toInt n.toInt).map .bool
    | .ref m, .ref n => if op = .eq then some (.bool (m = n)) else if op = .ne then some (.bool (m ≠ n)) else none
    | _, _ => none := by
  cases op <;> cases hop <;> cases x <;> cases y <;> rfl

/-- Complementary comparisons are opposite on all values that they compare. -/
lemma binary?_complement {op op' : BinOp} (hop : op.complement? = some op') {x y : Value} {b : Bool}
    (h : binary? op x y = some (.bool b)) : binary? op' x y = some (.bool !b) := by
  have hop' : op'.complement? = some op := by cases op <;> cases hop <;> rfl
  have hrelates {m n : Int} (h : (op.relates? m n).map bool = some (.bool b)) :
      (op'.relates? m n).map bool = some (.bool !b) := by
    cases op <;> cases hop <;>
      · simp only [BinOp.relates?, Option.map_some, Option.some.injEq, bool.injEq] at h ⊢
        rw [← h, Bool.eq_iff_iff]
        simp
  rw [binary?_eq_bool hop] at h
  rw [binary?_eq_bool hop']
  split at h
  · exact hrelates h
  · exact hrelates h
  · cases op <;> cases hop <;> simp_all
  · cases h

end Value

namespace Expr

/-- The value of an expression under an assignment of values to variables. -/
def value? (σ : String → Value) : Expr → Option Value
  | int n => some (.int n)
  | long n => some (.long n)
  | bool b => some (.bool b)
  | null => some (.ref none)
  | var name => some (σ name)
  | binary .and a b => do
    if ← (← a.value? σ).truth? then return .bool (← (← b.value? σ).truth?) else return .bool false
  | binary .or a b => do
    if ← (← a.value? σ).truth? then return .bool true else return .bool (← (← b.value? σ).truth?)
  | binary op a b => do Value.binary? op (← a.value? σ) (← b.value? σ)
  | unary .neg a => do (← a.value? σ).negative?
  | unary .not a => do return .bool !(← (← a.value? σ).truth?)
  | ternary cond a b => do if ← (← cond.value? σ).truth? then a.value? σ else b.value? σ
  | _ => none

/-! ### What a value comes from -/

variable {σ : String → Value} {a b c : Expr} {v : Value}

lemma value?_binary {op : BinOp} (hand : op ≠ .and) (hor : op ≠ .or) : (binary op a b).value? σ = some v ↔
    ∃ x y, a.value? σ = some x ∧ b.value? σ = some y ∧ Value.binary? op x y = some v := by
  rw [value?]
  · simp only [bind, Option.bind_eq_some_iff]
    grind
  · exact hand
  · exact hor

lemma truth?_eq_some {v : Value} {t : Bool} : v.truth? = some t ↔ v = .bool t := by
  cases v <;> simp [Value.truth?]

/-- An operator whose first operand decides what comes next. -/
lemma decided_eq_some {x p q : Option Value} : (do if ← (← x).truth? then p else q) = some v ↔
    ∃ t, x = some (.bool t) ∧ (if t then p else q) = some v := by
  simp only [bind, Option.bind_eq_some_iff, truth?_eq_some]
  constructor
  · rintro ⟨_, hx, t, rfl, hv⟩
    exact ⟨t, hx, hv⟩
  · rintro ⟨t, hx, hv⟩
    exact ⟨_, hx, t, rfl, hv⟩

lemma bool_eq_some {y : Option Value} : (do return .bool (← (← y).truth?) : Option Value) = some v ↔
    ∃ t, y = some (.bool t) ∧ v = .bool t := by
  simp only [bind, Option.bind_eq_some_iff, truth?_eq_some, pure, Option.some.injEq, @eq_comm _ _ v]
  exact ⟨fun ⟨_, hy, t, ht, hv⟩ => ⟨t, ht ▸ hy, hv⟩, fun ⟨t, hy, hv⟩ => ⟨_, hy, t, rfl, hv⟩⟩

/-- What `&&` comes to, from what its operands come to. -/
lemma and_eq_some {x y : Option Value} : (do
      if ← (← x).truth? then return .bool (← (← y).truth?) else return .bool false : Option Value) = some v ↔
    (x = some (.bool false) ∧ v = .bool false) ∨ ∃ t, x = some (.bool true) ∧ y = some (.bool t) ∧ v = .bool t := by
  rw [decided_eq_some, Bool.exists_bool, if_pos rfl, if_neg Bool.false_ne_true, bool_eq_some]
  simp only [pure, Option.some.injEq, @eq_comm _ _ v, exists_and_left]

lemma or_eq_some {x y : Option Value} : (do
      if ← (← x).truth? then return .bool true else return .bool (← (← y).truth?) : Option Value) = some v ↔
    (x = some (.bool true) ∧ v = .bool true) ∨ ∃ t, x = some (.bool false) ∧ y = some (.bool t) ∧ v = .bool t := by
  rw [decided_eq_some, Bool.exists_bool, or_comm, if_pos rfl, if_neg Bool.false_ne_true, bool_eq_some]
  simp only [pure, Option.some.injEq, @eq_comm _ _ v, exists_and_left]

lemma value?_and : (binary .and a b).value? σ = some v ↔
    (a.value? σ = some (.bool false) ∧ v = .bool false) ∨
      ∃ t, a.value? σ = some (.bool true) ∧ b.value? σ = some (.bool t) ∧ v = .bool t := by
  rw [value?, and_eq_some]

lemma value?_or : (binary .or a b).value? σ = some v ↔
    (a.value? σ = some (.bool true) ∧ v = .bool true) ∨
      ∃ t, a.value? σ = some (.bool false) ∧ b.value? σ = some (.bool t) ∧ v = .bool t := by
  rw [value?, or_eq_some]

lemma value?_neg : (unary .neg a).value? σ = some v ↔ ∃ x, a.value? σ = some x ∧ x.negative? = some v := by
  simp only [value?, bind, Option.bind_eq_some_iff]

lemma value?_not : (unary .not a).value? σ = some v ↔ ∃ t, a.value? σ = some (.bool t) ∧ v = .bool !t := by
  simp only [value?, bind, Option.bind_eq_some_iff, truth?_eq_some, pure]
  constructor
  · rintro ⟨_, ha, t, rfl, hv⟩
    exact ⟨t, ha, (Option.some.inj hv).symm⟩
  · rintro ⟨t, ha, rfl⟩
    exact ⟨_, ha, t, rfl, rfl⟩

lemma value?_ternary : (ternary c a b).value? σ = some v ↔
    ∃ t, c.value? σ = some (.bool t) ∧ (if t then a else b).value? σ = some v := by
  rw [value?, decided_eq_some]
  exact exists_congr fun t => by cases t <;> rfl

/-! ### Negations -/

lemma value?_complement {op op' : BinOp} (hop : op.complement? = some op') {t : Bool}
    (h : (binary op a b).value? σ = some (.bool t)) : (binary op' a b).value? σ = some (.bool !t) := by
  have hop' : op ≠ .and ∧ op ≠ .or ∧ op' ≠ .and ∧ op' ≠ .or := by cases op <;> cases hop <;> simp
  obtain ⟨x, y, hx, hy, hxy⟩ := (value?_binary hop'.1 hop'.2.1).mp h
  exact (value?_binary hop'.2.2.1 hop'.2.2.2).mpr ⟨x, y, hx, hy, Value.binary?_complement hop hxy⟩

/-- Where a condition has a truth value, its negation has the other one. -/
lemma value?_negate {t : Bool} (h : c.value? σ = some (.bool t)) : c.negate.value? σ = some (.bool !t) := by
  revert t
  refine negate_induction (P := fun e e' => ∀ {t}, e.value? σ = some (.bool t) → e'.value? σ = some (.bool !t))
    ?_ ?_ ?_ ?_ ?_ c
  · intro e t h
    obtain ⟨t', he, ht⟩ := value?_not.mp h
    cases ht
    simpa using he
  · intro e e' ih ih' t h
    obtain ⟨he, ht⟩ | ⟨t', he, he', ht⟩ := value?_and.mp h
    · cases ht
      exact value?_or.mpr (.inl ⟨ih he, rfl⟩)
    · cases ht
      exact value?_or.mpr (.inr ⟨_, ih he, ih' he', rfl⟩)
  · intro e e' ih ih' t h
    obtain ⟨he, ht⟩ | ⟨t', he, he', ht⟩ := value?_or.mp h
    · cases ht
      exact value?_and.mpr (.inl ⟨ih he, rfl⟩)
    · cases ht
      exact value?_and.mpr (.inr ⟨_, ih he, ih' he', rfl⟩)
  · exact fun op op' e e' hop _ h => value?_complement hop h
  · exact fun e t h => value?_not.mpr ⟨t, h, rfl⟩

end Expr

end JvmLift.Source
