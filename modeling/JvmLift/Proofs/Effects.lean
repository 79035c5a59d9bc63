import Mathlib
import JvmLift.Proofs.Evaluation

/-!
# Effects of simplified expressions

Simplification drops an operand beside an absorbing zero unless the operand itself is a call or a construction. A call
further inside is lost with the operand, and so is what the operand would throw. Where values are of the types that the
operators ask for, this is the only way to lose an effect: an expression and all that is evaluated in it keep their events
and exceptions if and only if each operand that a zero absorbs is quiet, and then the result is the same as well.
-/

namespace JvmLift

@[simp] lemma Number.Floating.neg_neg {f : Format} (x : Floating f) : - -x = x := by
  show neg (neg x) = x
  simp [neg]

namespace Source

/-! ### What is dropped -/

namespace Expr

variable {op : BinOp} {a b e : Expr}

/-- Whether the left operand goes away beside a zero. -/
def absorbsLeft (op : BinOp) (a zero : Expr) : Bool :=
  (op == .mul || op == .bitAnd) && zero.isZero && !a.isConcat && !a.hasSideEffects

/-- Whether the right operand goes away beside a zero. -/
def absorbsRight (op : BinOp) (zero b : Expr) : Bool :=
  op == .mul && zero.isZero && !b.isConcat && !b.hasSideEffects

/-- Whether one of the operands goes away. -/
def dropsOperand (op : BinOp) (a b : Expr) : Bool :=
  !(a.isConcat || b.isConcat) && (dropOperand? op a b).isSome

/-- An operand on the right that changes nothing. -/
def IsNeutralRight (op : BinOp) (b : Expr) : Prop :=
  b.isZero = true ∧ op ∈ [.add, .sub, .bitOr, .bitXor, .shl, .shr, .ushr] ∨ b.isOne = true ∧ op ∈ [.mul, .div]

/-- An operand on the left that changes nothing. -/
def IsNeutralLeft (op : BinOp) (a : Expr) : Prop :=
  a.isZero = true ∧ op ∈ [.add, .bitOr, .bitXor] ∨ a.isOne = true ∧ op = .mul

/-- What is left where an operand goes away. -/
lemma left_of_dropOperand? (h : dropOperand? op a b = some e) (hconcat : (a.isConcat || b.isConcat) = false) :
    (e = a ∧ IsNeutralRight op b) ∨ (e = b ∧ IsNeutralLeft op a) ∨
      (e = b ∧ absorbsLeft op a b = true) ∨ (e = a ∧ absorbsRight op a b = true) := by
  obtain ⟨ha, hb⟩ := Bool.or_eq_false_iff.mp hconcat
  obtain ⟨hzero, hop, rfl⟩ | ⟨hzero, hop, heffect, rfl⟩ | ⟨hone, hop, rfl⟩ | ⟨hzero, hop, rfl⟩ |
    ⟨hzero, rfl, heffect, rfl⟩ | ⟨hone, rfl, rfl⟩ := dropOperand?_cases h
  · exact .inl ⟨rfl, .inl ⟨hzero, hop⟩⟩
  · fin_cases hop <;> simp [absorbsLeft, hzero, ha, heffect]
  · exact .inl ⟨rfl, .inr ⟨hone, hop⟩⟩
  · exact .inr (.inl ⟨rfl, .inl ⟨hzero, hop⟩⟩)
  · simp [absorbsRight, hzero, hb, heffect]
  · exact .inr (.inl ⟨rfl, .inr ⟨hone, rfl⟩⟩)

lemma ne_lazy_of_foldLiterals? (h : foldLiterals? op a b = some e) : op ≠ .and ∧ op ≠ .or := by
  constructor <;> rintro rfl <;> cases a <;> cases b <;> cases h

/-- Lazy operators are left alone. -/
lemma foldBinary_of_lazy (hop : op = .and ∨ op = .or) : foldBinary op a b = binary op a b := by
  have hliterals : foldLiterals? op a b = none := by
    by_contra hsome
    obtain ⟨e, he⟩ := Option.ne_none_iff_exists'.mp hsome
    exact (not_and_or.mpr (by simpa using hop)) (ne_lazy_of_foldLiterals? he)
  have hdrop : dropOperand? op a b = none := by
    by_contra hsome
    obtain ⟨e, he⟩ := Option.ne_none_iff_exists'.mp hsome
    exact (not_and_or.mpr (by simpa using hop)) (ne_lazy_of_dropOperand? he)
  simp [foldBinary, hliterals, hdrop]

end Expr

/-! ### Values that operators ask for -/

/-- Operands that an operator on integers takes. -/
def Suits (op : BinOp) : Datum → Datum → Prop
  | .plain (.int _), .plain (.int _) => True
  | .plain (.long _), .plain (.long _) => op.isShift = false
  | .plain (.long _), .plain (.int _) => op.isShift = true
  | _, _ => False

/-- Operands that a unary operator takes. -/
def SuitsUnary : UnOp → Datum → Prop
  | .neg, .plain (.int _) | .neg, .plain (.long _) | .neg, .float _ | .neg, .double _ => True
  | .not, .plain (.bool _) => True
  | _, _ => False

/-- On operands that suit, an operator has a value but for divisions by zero. -/
lemma Suits.exists_value {op : BinOp} {x y : Datum} (hsuits : Suits op x y)
    (hop : op.isArithmetic = true ∨ op.isShift = true)
    (hdefined : op = .div ∨ op = .rem → ∀ z, y = .plain z → ¬ z.IsZero) :
    ∃ v w u, x = .plain v ∧ y = .plain w ∧ Value.binary? op v w = some u := by
  unfold Suits at hsuits
  split at hsuits
  case h_1 a b =>
    have hdefined (hdiv : op = .div ∨ op = .rem) : b ≠ 0 := by
      rintro rfl
      exact hdefined hdiv _ rfl (.inl rfl)
    obtain ⟨c, hc⟩ := Option.isSome_iff_exists.mp (Expr.isSome_foldInt?_iff (a := a).mpr ⟨hop, hdefined⟩)
    exact ⟨_, _, _, rfl, rfl, Value.binary?_of_foldInt? hc⟩
  case h_2 a b =>
    have hdefined (hdiv : op = .div ∨ op = .rem) : b ≠ 0 := by
      rintro rfl
      exact hdefined hdiv _ rfl (.inr rfl)
    have hop : op.isArithmetic = true := by simpa [hsuits] using hop
    obtain ⟨c, hc⟩ := Option.isSome_iff_exists.mp (Expr.isSome_foldLong?_iff (a := a).mpr ⟨hop, hdefined⟩)
    exact ⟨_, _, _, rfl, rfl, Value.binary?_of_foldLong? hc⟩
  case h_3 a b =>
    obtain ⟨c, hc⟩ := Option.isSome_iff_exists.mp (Expr.isSome_foldLongShift?_iff (a := a) (b := b).mpr hsuits)
    exact ⟨_, _, _, rfl, rfl, Value.binary?_of_foldLongShift? hc⟩
  case h_4 => exact hsuits.elim

lemma Value.not_isZero_of_isOne {z : Value} (hz : z.IsOne) : ¬ z.IsZero := by
  rcases hz with rfl | rfl <;> simp [IsZero]

namespace World

variable {W : World} {op : BinOp} {a b c e : Expr} {h h' : History} {x y : Datum}

lemma compute_of_binary? {v w u : Value} (hvalue : Value.binary? op v w = some u) (h : History) :
    W.compute h (.binary op) [.plain v, .plain w] = .ok (.plain u) := by
  simp [compute, hvalue]

lemma eval_of_isZero (he : e.isZero = true) (W : World) (h : History) :
    ∃ z : Value, z.IsZero ∧ W.eval e h = (h, .ok (.plain z)) := by
  rcases Expr.isZero_iff.mp he with rfl | rfl
  · exact ⟨_, .inl rfl, rfl⟩
  · exact ⟨_, .inr rfl, rfl⟩

lemma eval_of_isOne (he : e.isOne = true) (W : World) (h : History) :
    ∃ z : Value, z.IsOne ∧ W.eval e h = (h, .ok (.plain z)) := by
  rcases Expr.isOne_iff.mp he with rfl | rfl
  · exact ⟨_, .inl rfl, rfl⟩
  · exact ⟨_, .inr rfl, rfl⟩

/-- The values of the operands are ones that the operator takes. -/
def SuitsAt (W : World) (op : BinOp) (a b : Expr) (h : History) : Prop :=
  ∀ h₁ x, W.eval a h = (h₁, .ok x) → ∀ h₂ y, W.eval b h₁ = (h₂, .ok y) → Suits op x y

/-- The operation where the left operand has its value at once. -/
lemma eval_binary_of_eval (hand : op ≠ .and) (hor : op ≠ .or) (ha : W.eval a h = (h', .ok x)) :
    W.eval (.binary op a b) h = (W.eval b >>= fun y => W.apply (.binary op) [x, y]) h' := by
  rw [eval_binary hand hor, Course.bind_of_ok ha]

/-- The operation where both operands have their values. -/
lemma eval_binary_of_values (hand : op ≠ .and) (hor : op ≠ .or) {h₁ h₂ : History} {v w u : Value}
    (ha : W.eval a h = (h₁, .ok (.plain v))) (hb : W.eval b h₁ = (h₂, .ok (.plain w)))
    (hvalue : Value.binary? op v w = some u) : W.eval (.binary op a b) h = (h₂, .ok (.plain u)) := by
  rw [eval_binary_of_eval hand hor ha, Course.bind_of_ok hb]
  exact congrArg (h₂, ·) (compute_of_binary? hvalue h₂)

/-! ### Operations on simplified operands -/

lemma eval_of_isNeutralRight (hb : Expr.IsNeutralRight op b) (hsuits : W.SuitsAt op a b h) :
    W.eval (.binary op a b) h = W.eval a h := by
  have hop : op ≠ .and ∧ op ≠ .or ∧ (op.isArithmetic = true ∨ op.isShift = true) := by
    rcases hb with ⟨-, hop⟩ | ⟨-, hop⟩ <;> revert hop <;> cases op <;> decide
  rcases ha : W.eval a h with ⟨h₁, r | x⟩
  · rw [eval_binary hop.1 hop.2.1]
    exact Course.bind_of_error ha
  obtain ⟨z, hz, hneutral, hdefined⟩ : ∃ z : Value, W.eval b h₁ = (h₁, .ok (.plain z)) ∧
      (∀ v u, Value.binary? op v z = some u → u = v) ∧ (op = .div ∨ op = .rem → ¬ z.IsZero) := by
    rcases hb with ⟨hzero, hop⟩ | ⟨hone, hop⟩
    · obtain ⟨z, hz, heval⟩ := eval_of_isZero hzero W h₁
      refine ⟨z, heval, fun v u hu => ?_, ?_⟩
      · have hdrop := Value.of_zero_right hz hu
        revert hop hdrop
        cases op <;> simp
      · rintro (rfl | rfl) <;> simp at hop
    · obtain ⟨z, hz, heval⟩ := eval_of_isOne hone W h₁
      refine ⟨z, heval, fun v u hu => ?_, fun _ => Value.not_isZero_of_isOne hz⟩
      have hdrop := Value.of_one_right hz hu
      revert hop hdrop
      cases op <;> simp
  obtain ⟨v, w, u, rfl, hw, hu⟩ := (hsuits h₁ x ha h₁ _ hz).exists_value hop.2.2
    (fun hdiv z' hz' => by cases hz'; exact hdefined hdiv)
  cases hw
  obtain rfl := hneutral v u hu
  exact eval_binary_of_values hop.1 hop.2.1 ha hz hu

lemma eval_of_isNeutralLeft (ha : Expr.IsNeutralLeft op a) (hsuits : W.SuitsAt op a b h) :
    W.eval (.binary op a b) h = W.eval b h := by
  have hop : op ≠ .and ∧ op ≠ .or ∧ (op.isArithmetic = true ∨ op.isShift = true) ∧ ¬ (op = .div ∨ op = .rem) := by
    rcases ha with ⟨-, hop⟩ | ⟨-, hop⟩ <;> revert hop <;> cases op <;> decide
  obtain ⟨z, hz, hneutral⟩ : ∃ z : Value, W.eval a h = (h, .ok (.plain z)) ∧
      ∀ v u, Value.binary? op z v = some u → u = v := by
    rcases ha with ⟨hzero, hop⟩ | ⟨hone, rfl⟩
    · obtain ⟨z, hz, heval⟩ := eval_of_isZero hzero W h
      refine ⟨z, heval, fun v u hu => ?_⟩
      have hdrop := Value.of_zero_left hz hu
      revert hop hdrop
      cases op <;> simp
    · obtain ⟨z, hz, heval⟩ := eval_of_isOne hone W h
      exact ⟨z, heval, fun v u hu => Value.of_one_left hz hu⟩
  rcases hb : W.eval b h with ⟨h₁, r | y⟩
  · rw [eval_binary_of_eval hop.1 hop.2.1 hz]
    exact Course.bind_of_error hb
  obtain ⟨v, w, u, hv, rfl, hu⟩ := (hsuits h _ hz h₁ y hb).exists_value hop.2.2.1 (fun hdiv => absurd hdiv hop.2.2.2)
  cases hv
  obtain rfl := hneutral w u hu
  exact eval_binary_of_values hop.1 hop.2.1 hz hb hu

/-- An operand beside a zero may go away where it is quiet. -/
lemma eval_of_absorbsLeft (habsorbs : Expr.absorbsLeft op a b = true) (hsuits : W.SuitsAt op a b h)
    (hquiet : W.IsQuiet a h) : W.eval (.binary op a b) h = W.eval b h := by
  simp only [Expr.absorbsLeft, Bool.and_eq_true, Bool.or_eq_true, beq_iff_eq] at habsorbs
  obtain ⟨⟨⟨hop, hzero⟩, -⟩, -⟩ := habsorbs
  obtain ⟨x, hx⟩ := hquiet
  obtain ⟨z, hz, heval⟩ := eval_of_isZero hzero W h
  obtain ⟨v, w, u, rfl, hw, hu⟩ := (hsuits h x hx h _ heval).exists_value
    (by rcases hop with rfl | rfl <;> decide) (by rcases hop with rfl | rfl <;> simp)
  cases hw
  have hdrop := Value.of_zero_right hz hu
  obtain rfl : u = z := by rcases hop with rfl | rfl <;> exact hdrop
  rw [heval]
  exact eval_binary_of_values (by rcases hop with rfl | rfl <;> decide) (by rcases hop with rfl | rfl <;> decide) hx
    heval hu

lemma eval_of_absorbsRight (habsorbs : Expr.absorbsRight op a b = true) (hsuits : W.SuitsAt op a b h)
    (hquiet : W.IsQuiet b h) : W.eval (.binary op a b) h = W.eval a h := by
  simp only [Expr.absorbsRight, Bool.and_eq_true, beq_iff_eq] at habsorbs
  obtain ⟨⟨⟨rfl, hzero⟩, -⟩, -⟩ := habsorbs
  obtain ⟨y, hy⟩ := hquiet
  obtain ⟨z, hz, heval⟩ := eval_of_isZero hzero W h
  obtain ⟨v, w, u, hv, rfl, hu⟩ := (hsuits h _ heval h y hy).exists_value (by decide) (by simp)
  cases hv
  obtain rfl : u = z := Value.of_zero_left hz hu
  rw [heval]
  exact eval_binary_of_values (by decide) (by decide) heval hy hu

/-- Two literals are evaluated like the operator does it. -/
lemma eval_of_foldLiterals? (hfold : Expr.foldLiterals? op a b = some e) (W : World) (h : History) :
    ∃ x, W.eval e h = (h, .ok x) ∧ W.eval (.binary op a b) h = (h, .ok x) := by
  obtain ⟨hand, hor⟩ := Expr.ne_lazy_of_foldLiterals? hfold
  unfold Expr.foldLiterals? at hfold
  split at hfold
  · obtain ⟨c, hc, rfl⟩ := Option.map_eq_some_iff.mp hfold
    exact ⟨_, rfl, eval_binary_of_values hand hor rfl rfl (Value.binary?_of_foldInt? hc)⟩
  · obtain ⟨c, hc, rfl⟩ := Option.map_eq_some_iff.mp hfold
    exact ⟨_, rfl, eval_binary_of_values hand hor rfl rfl (Value.binary?_of_foldLong? hc)⟩
  · obtain ⟨c, hc, rfl⟩ := Option.map_eq_some_iff.mp hfold
    exact ⟨_, rfl, eval_binary_of_values hand hor rfl rfl (Value.binary?_of_foldLongShift? hc)⟩
  · split_ifs at hfold with hop
    cases hfold
    exact ⟨_, rfl, hop ▸ rfl⟩
  · cases hfold

lemma eval_foldBinary (hsuits : Expr.dropsOperand op a b = true → W.SuitsAt op a b h)
    (hleft : Expr.absorbsLeft op a b = true → W.IsQuiet a h)
    (hright : Expr.absorbsRight op a b = true → W.IsQuiet b h) :
    W.eval (Expr.foldBinary op a b) h = W.eval (.binary op a b) h := by
  unfold Expr.foldBinary
  cases hfold : Expr.foldLiterals? op a b with
  | some e =>
    obtain ⟨x, he, hbinary⟩ := eval_of_foldLiterals? hfold W h
    rw [hbinary]
    exact he
  | none =>
    by_cases hconcat : (a.isConcat || b.isConcat) = true
    · simp [hconcat]
    rw [Bool.not_eq_true] at hconcat
    simp only [hconcat, Bool.false_eq_true, if_false]
    cases hdrop : Expr.dropOperand? op a b with
    | none => rfl
    | some e =>
      have hsuits := hsuits (by simp [Expr.dropsOperand, hconcat, hdrop])
      obtain ⟨rfl, hb⟩ | ⟨rfl, ha⟩ | ⟨rfl, habsorbs⟩ | ⟨rfl, habsorbs⟩ := Expr.left_of_dropOperand? hdrop hconcat
      · exact (eval_of_isNeutralRight hb hsuits).symm
      · exact (eval_of_isNeutralLeft ha hsuits).symm
      · exact (eval_of_absorbsLeft habsorbs hsuits (hleft habsorbs)).symm
      · exact (eval_of_absorbsRight habsorbs hsuits (hright habsorbs)).symm

lemma apply_unary (op : UnOp) (x : Datum) (h : History) :
    W.apply (.unary op) [x] h = (h, W.compute h (.unary op) [x]) := rfl

/-- An operator that is applied twice to a value that it takes gives the value back. -/
lemma compute_doubled {op : UnOp} (hsuits : SuitsUnary op x) (h : History) :
    ∃ y, W.compute h (.unary op) [x] = .ok y ∧ W.compute h (.unary op) [y] = .ok x := by
  unfold SuitsUnary at hsuits
  split at hsuits
  case h_1 n => exact ⟨.plain (.int (-n)), by simp [compute], by simp [compute]⟩
  case h_2 n => exact ⟨.plain (.long (-n)), by simp [compute], by simp [compute]⟩
  case h_3 n => exact ⟨.float (-n), rfl, by simp [compute]⟩
  case h_4 n => exact ⟨.double (-n), rfl, by simp [compute]⟩
  case h_5 t => exact ⟨.plain (.bool !t), rfl, by simp [compute]⟩
  case h_6 => exact hsuits.elim

lemma eval_doubled {op : UnOp} (hsuits : ∀ h' x, W.eval c h = (h', .ok x) → SuitsUnary op x) :
    W.eval (.unary op (.unary op c)) h = W.eval c h := by
  rw [eval_unary, eval_unary]
  rcases hc : W.eval c h with ⟨h', r | x⟩
  · exact Course.bind_of_error (Course.bind_of_error hc)
  · obtain ⟨y, hy, hx⟩ := compute_doubled (W := W) (hsuits h' x hc) h'
    have hinner : (W.eval c >>= fun x => W.apply (.unary op) [x]) h = (h', .ok y) := by
      rw [Course.bind_of_ok hc, apply_unary, hy]
    rw [Course.bind_of_ok hinner, apply_unary, hx]

lemma eval_foldUnary {op : UnOp}
    (hsuits : ∀ c, a = .unary op c → ∀ h' x, W.eval c h = (h', .ok x) → SuitsUnary op x) :
    W.eval (Expr.foldUnary op a) h = W.eval (.unary op a) h := by
  unfold Expr.foldUnary
  split
  · simp [eval, Course.pure_apply, apply_unary, compute]
  · simp [eval, Course.pure_apply, apply_unary, compute]
  · rfl
  · rfl
  · split_ifs with heq
    · subst heq
      exact (eval_doubled (hsuits _ rfl)).symm
    · rfl
  · rfl

/-! ### The parts that are evaluated -/

/-- The evaluation of a part right within the evaluation of an expression, each with the history when it starts. -/
inductive Visits (W : World) : Expr × History → Expr × History → Prop
  | operand {e a : Expr} {f : Operation} {front back : List Expr} {h h' : History} {xs : List Datum}
      (isStrict : e.operation? = some f) (split : e.operands = front ++ a :: back)
      (before : W.evalEach front h = (h', .ok xs)) : Visits W (e, h) (a, h')
  | andLeft {a b : Expr} {h : History} : Visits W (.binary .and a b, h) (a, h)
  | andRight {a b : Expr} {h h' : History} {x : Datum} (left : W.eval a h = (h', .ok x)) (holds : W.truth x = true) :
      Visits W (.binary .and a b, h) (b, h')
  | orLeft {a b : Expr} {h : History} : Visits W (.binary .or a b, h) (a, h)
  | orRight {a b : Expr} {h h' : History} {x : Datum} (left : W.eval a h = (h', .ok x)) (fails : W.truth x = false) :
      Visits W (.binary .or a b, h) (b, h')
  | test {c a b : Expr} {h : History} : Visits W (.ternary c a b, h) (c, h)
  | choice {c a b : Expr} {h h' : History} {x : Datum} (test : W.eval c h = (h', .ok x)) :
      Visits W (.ternary c a b, h) (if W.truth x then a else b, h')

/-- A property of every part that is evaluated, the whole expression included. -/
def Everywhere (W : World) (P : Expr → History → Prop) (e : Expr) (h : History) : Prop :=
  ∀ part, Relation.ReflTransGen W.Visits (e, h) part → P part.1 part.2

section

variable {P : Expr → History → Prop}

lemma Everywhere.self (hP : W.Everywhere P e h) : P e h := hP _ .refl

lemma Everywhere.visit (hP : W.Everywhere P e h) (hvisit : W.Visits (e, h) (a, h')) : W.Everywhere P a h' :=
  fun _ hpart => hP _ (.head hvisit hpart)

end

lemma Visits.mem_operands {part : Expr × History} (hvisit : W.Visits (e, h) part) : part.1 ∈ e.operands := by
  cases hvisit with
  | operand _ hsplit _ => simp [hsplit]
  | choice _ => split <;> simp [Expr.operands]
  | _ => simp [Expr.operands]

lemma visits_left (hand : op ≠ .and) (hor : op ≠ .or) : W.Visits (.binary op a b, h) (a, h) :=
  .operand (Expr.operation?_binary hand hor) (show _ = [] ++ a :: [b] from rfl) rfl

lemma visits_right (hand : op ≠ .and) (hor : op ≠ .or) (ha : W.eval a h = (h', .ok x)) :
    W.Visits (.binary op a b, h) (b, h') := by
  have hleft : W.evalEach [a] h = (h', .ok [x]) := by
    rw [evalEach, Course.bind_of_ok ha]
    rfl
  exact .operand (Expr.operation?_binary hand hor) (show _ = [a] ++ b :: [] from rfl) hleft

lemma everywhere_of_operands_eq_nil {P : Expr → History → Prop} (he : e.operands = []) (hself : P e h) :
    W.Everywhere P e h := by
  intro part hpart
  obtain rfl | ⟨next, hvisit, -⟩ := hpart.cases_head
  · exact hself
  · have := hvisit.mem_operands
    simp [he] at this

lemma everywhere_binary {P : Expr → History → Prop} (hand : op ≠ .and) (hor : op ≠ .or) (hself : P (.binary op a b) h)
    (ha : W.Everywhere P a h) (hb : ∀ h' x, W.eval a h = (h', .ok x) → W.Everywhere P b h') :
    W.Everywhere P (.binary op a b) h := by
  intro part hpart
  obtain rfl | ⟨next, hvisit, hpart⟩ := hpart.cases_head
  · exact hself
  cases hvisit with
  | @operand _ _ _ front back _ _ xs _ hsplit hfront =>
    match front with
    | [] =>
      cases hsplit
      cases hfront
      exact ha part hpart
    | [_] =>
      cases hsplit
      rw [evalEach] at hfront
      rcases hx : W.eval a h with ⟨h₁, r | x⟩
      · rw [Course.bind_of_error hx] at hfront
        cases hfront
      · rw [Course.bind_of_ok hx] at hfront
        cases hfront
        exact hb _ x hx part hpart
    | _ :: _ :: _ => simp [Expr.operands] at hsplit
  | _ => contradiction

/-- The operands may be replaced one by one, each where it is evaluated. -/
lemma evalEach_map {g : Expr → Expr} {es : List Expr} (hes : ∀ front a back h' xs, es = front ++ a :: back →
      W.evalEach front h = (h', .ok xs) → W.eval (g a) h' = W.eval a h') :
    W.evalEach (es.map g) h = W.evalEach es h := by
  induction es generalizing h with
  | nil => rfl
  | cons e es ih =>
    have he : W.eval (g e) h = W.eval e h := hes [] e es h [] rfl rfl
    rw [List.map_cons, evalEach, evalEach]
    refine Course.bind_congr he fun h₁ x hx => Course.bind_congr (ih ?_) fun _ _ _ => rfl
    rintro front a back h₂ xs rfl hfront
    refine hes (e :: front) a back h₂ (x :: xs) rfl ?_
    rw [evalEach, Course.bind_of_ok (he.symm.trans hx), Course.bind_of_ok hfront]
    rfl

lemma eval_congr {e' : Expr} {f : Operation} {g : Expr → Expr} (hop : e.operation? = some f)
    (hop' : e'.operation? = some f) (hoperands : e'.operands = e.operands.map g)
    (hparts : ∀ a h', W.Visits (e, h) (a, h') → W.eval (g a) h' = W.eval a h') : W.eval e' h = W.eval e h := by
  rw [eval_of_operation? hop, eval_of_operation? hop', hoperands]
  refine Course.bind_congr (evalEach_map ?_) fun _ _ _ => rfl
  exact fun front a back h' xs hsplit hfront => hparts a h' (.operand hop hsplit hfront)

/-! ### Simplification -/

/-- Where an operand goes away or an operator is doubled, the values are ones that the operator takes. -/
def Fits (W : World) : Expr → History → Prop
  | .binary op a b, h => Expr.dropsOperand op a.simplify b.simplify = true → W.SuitsAt op a b h
  | .unary op a, h => ∀ c, a.simplify = .unary op c → ∀ h' x, W.eval c h = (h', .ok x) → SuitsUnary op x
  | _, _ => True

/-- An operand that goes away beside a zero has no effect. -/
def Spares (W : World) : Expr → History → Prop
  | .binary op a b, h =>
    (Expr.absorbsLeft op a.simplify b.simplify = true → W.IsQuiet a h) ∧
      (Expr.absorbsRight op a.simplify b.simplify = true → W.IsQuiet b h)
  | _, _ => True

/-- The simplified expression has the events of the expression in their order, and it throws where the expression does. -/
def KeepsEffects (W : World) (e : Expr) (h : History) : Prop :=
  (W.eval e.simplify h).1 = (W.eval e h).1 ∧ (W.eval e.simplify h).2.isOk = (W.eval e h).2.isOk

lemma fold_of_operation? {f : Operation} (hop : e.operation? = some f) (hbinary : ∀ op a b, e ≠ .binary op a b)
    (hunary : ∀ op a, e ≠ .unary op a) :
    e.simplify.operation? = some f ∧ e.simplify.operands = e.operands.map Expr.simplify := by
  cases e with
  | binary => exact absurd rfl (hbinary _ _ _)
  | unary => exact absurd rfl (hunary _ _)
  | _ =>
    simp only [Expr.operation?, reduceCtorEq, Option.some.injEq] at hop <;>
      simp [Expr.simplify, Expr.operation?, Expr.operands, Expr.simplifyAll_eq_map, hop]

/-- **Evaluation.** Where values are of the types that the operators ask for and no operand with an effect goes away,
the simplified expression is evaluated like the expression. -/
lemma eval_simplify (hfits : W.Everywhere W.Fits e h) (hspares : W.Everywhere W.Spares e h) :
    W.eval e.simplify h = W.eval e h := by
  induction e using Expr.evaluation_induction generalizing h with
  | atom e he => cases e <;> cases he <;> rfl
  | and a b iha ihb =>
    rw [Expr.simplify, Expr.foldBinary_of_lazy (.inl rfl), eval, eval]
    have ha := iha (hfits.visit .andLeft) (hspares.visit .andLeft)
    refine Course.bind_congr ha fun h' x hx => ?_
    split
    next holds =>
      have hvisit : W.Visits (.binary .and a b, h) (b, h') := .andRight (ha.symm.trans hx) holds
      exact Course.bind_congr (ihb (hfits.visit hvisit) (hspares.visit hvisit)) fun _ _ _ => rfl
    · rfl
  | or a b iha ihb =>
    rw [Expr.simplify, Expr.foldBinary_of_lazy (.inr rfl), eval, eval]
    have ha := iha (hfits.visit .orLeft) (hspares.visit .orLeft)
    refine Course.bind_congr ha fun h' x hx => ?_
    split
    · rfl
    next fails =>
      have hvisit : W.Visits (.binary .or a b, h) (b, h') := .orRight (ha.symm.trans hx) (by simpa using fails)
      exact Course.bind_congr (ihb (hfits.visit hvisit) (hspares.visit hvisit)) fun _ _ _ => rfl
  | ternary c a b ihc iha ihb =>
    rw [Expr.simplify, eval, eval]
    have hc := ihc (hfits.visit .test) (hspares.visit .test)
    refine Course.bind_congr hc fun h' x hx => ?_
    have hvisit : W.Visits (.ternary c a b, h) (if W.truth x then a else b, h') := .choice (hc.symm.trans hx)
    split
    next holds =>
      rw [if_pos holds] at hvisit
      exact iha (hfits.visit hvisit) (hspares.visit hvisit)
    next fails =>
      rw [if_neg fails] at hvisit
      exact ihb (hfits.visit hvisit) (hspares.visit hvisit)
  | strict e f hop ih =>
    have hparts (a : Expr) (h' : History) (hvisit : W.Visits (e, h) (a, h')) : W.eval a.simplify h' = W.eval a h' :=
      ih a hvisit.mem_operands (hfits.visit hvisit) (hspares.visit hvisit)
    by_cases hbinary : ∃ op a b, e = .binary op a b
    · obtain ⟨op, a, b, rfl⟩ := hbinary
      have hlazy : op ≠ .and ∧ op ≠ .or := by constructor <;> rintro rfl <;> cases hop
      have hop (a b : Expr) : (Expr.binary op a b).operation? = some (.binary op) := Expr.operation?_binary hlazy.1 hlazy.2
      have ha := hparts a h (visits_left hlazy.1 hlazy.2)
      have hb (h' : History) (x : Datum) (hx : W.eval a h = (h', .ok x)) : W.eval b.simplify h' = W.eval b h' :=
        hparts b h' (visits_right hlazy.1 hlazy.2 hx)
      rw [Expr.simplify, eval_foldBinary]
      · exact eval_congr (hop a b) (hop a.simplify b.simplify) rfl hparts
      · intro hdrops h₁ x hx h₂ y hy
        rw [ha] at hx
        rw [hb h₁ x hx] at hy
        exact hfits.self hdrops h₁ x hx h₂ y hy
      · intro habsorbs
        obtain ⟨x, hx⟩ := hspares.self.1 habsorbs
        exact ⟨x, ha.trans hx⟩
      · intro habsorbs
        obtain ⟨y, hy⟩ := hspares.self.2 habsorbs
        -- the zero on the left adds nothing to the history
        have hzero : a.simplify.isZero = true := by
          simp only [Expr.absorbsRight, Bool.and_eq_true] at habsorbs
          exact habsorbs.1.1.2
        obtain ⟨z, -, hz⟩ := eval_of_isZero hzero W h
        exact ⟨y, (hb h _ (ha.symm.trans hz)).trans hy⟩
    by_cases hunary : ∃ op a, e = .unary op a
    · obtain ⟨op, a, rfl⟩ := hunary
      rw [Expr.simplify, eval_foldUnary hfits.self]
      exact eval_congr hop hop rfl hparts
    · push Not at hbinary hunary
      obtain ⟨hop', hoperands⟩ := fold_of_operation? hop hbinary hunary
      exact eval_congr hop hop' hoperands hparts

/-- What is left of an operation with an absorbed operand is a number. -/
lemma isQuiet_of_absorbs (habsorbs : Expr.absorbsLeft op a b = true ∨ Expr.absorbsRight op a b = true) (W : World)
    (h : History) : W.IsQuiet (Expr.foldBinary op a b) h := by
  unfold Expr.foldBinary
  cases hfold : Expr.foldLiterals? op a b with
  | some e =>
    obtain ⟨x, he, -⟩ := eval_of_foldLiterals? hfold W h
    exact ⟨x, he⟩
  | none =>
    obtain ⟨z, hdrop, hzero, hconcat⟩ : ∃ z, Expr.dropOperand? op a b = some z ∧ z.isZero = true ∧
        (a.isConcat || b.isConcat) = false := by
      simp only [Expr.absorbsLeft, Expr.absorbsRight, Bool.and_eq_true, Bool.or_eq_true, beq_iff_eq,
        Bool.not_eq_true'] at habsorbs
      rcases habsorbs with ⟨⟨⟨hop, hb⟩, hconcat⟩, heffect⟩ | ⟨⟨⟨rfl, ha⟩, hconcat⟩, heffect⟩
      · refine ⟨b, ?_, hb, by simp [hconcat, Expr.isConcat_of_isZero hb]⟩
        rcases hop with rfl | rfl <;> simp [Expr.dropOperand?, Expr.rightZero?, hb, heffect]
      · have hnone : a.hasSideEffects = false := by
          rcases Expr.isZero_iff.mp ha with rfl | rfl <;> rfl
        by_cases hb : b.isZero = true
        · refine ⟨b, ?_, hb, by simp [hconcat, Expr.isConcat_of_isZero ha]⟩
          simp [Expr.dropOperand?, Expr.rightZero?, hb, hnone]
        · refine ⟨a, ?_, ha, by simp [hconcat, Expr.isConcat_of_isZero ha]⟩
          cases hone : b.isOne <;> simp [Expr.dropOperand?, Expr.rightOne?, Expr.leftZero?, hb, ha, heffect, hone]
    obtain ⟨v, -, hv⟩ := eval_of_isZero hzero W h
    simp only [hconcat, Bool.false_eq_true, if_false, hdrop]
    exact ⟨_, hv⟩

/-- Where a simplified expression keeps its effects, no operand with an effect went away. -/
lemma spares_of_keepsEffects (hkeeps : W.KeepsEffects e h) : W.Spares e h := by
  cases e with
  | binary op a b =>
    have hquiet (habsorbs : Expr.absorbsLeft op a.simplify b.simplify = true ∨
        Expr.absorbsRight op a.simplify b.simplify = true) : W.IsQuiet a h ∧ W.IsQuiet b h := by
      obtain ⟨z, hz⟩ := isQuiet_of_absorbs habsorbs W h
      obtain ⟨hevents, hthrows⟩ := hkeeps
      rw [Expr.simplify, hz] at hevents hthrows
      have hlazy : op ≠ .and ∧ op ≠ .or := by
        constructor <;> rintro rfl <;> simp [Expr.absorbsLeft, Expr.absorbsRight] at habsorbs
      refine isQuiet_operands hlazy.1 hlazy.2 ?_
      rcases heval : W.eval (.binary op a b) h with ⟨h', r | x⟩ <;> rw [heval] at hevents hthrows
      · cases hthrows
      · obtain rfl : h = h' := hevents
        exact ⟨x, heval⟩
    exact ⟨fun habsorbs => (hquiet (.inl habsorbs)).1, fun habsorbs => (hquiet (.inr habsorbs)).2⟩
  | _ => trivial

/-- **Effects.** Where values are of the types that the operators ask for, the parts of an expression keep their events
and exceptions under simplification if and only if each operand that a zero absorbs is quiet. The expression is then
evaluated to the same end. -/
theorem keepsEffects_everywhere_iff (hfits : W.Everywhere W.Fits e h) :
    (W.Everywhere W.KeepsEffects e h ↔ W.Everywhere W.Spares e h) ∧
      (W.Everywhere W.Spares e h → W.eval e.simplify h = W.eval e h) := by
  refine ⟨⟨fun hkeeps part hpart => spares_of_keepsEffects (hkeeps part hpart), fun hspares part hpart => ?_⟩,
    eval_simplify hfits⟩
  have heval : W.eval part.1.simplify part.2 = W.eval part.1 part.2 :=
    eval_simplify (fun _ hinner => hfits _ (hpart.trans hinner)) (fun _ hinner => hspares _ (hpart.trans hinner))
  exact ⟨by rw [heval], by rw [heval]⟩

/-- A world in which every variable and every result is the same number. -/
def steady (n : Int32) : World where
  vars _ := .plain (.int n)
  perform _ _ _ := .ok (.plain (.int n))
  holds _ := true

/-- In `A.f() + x * 0` the product goes away, and the call stays. -/
theorem keepsEffects_sum :
    let e : Expr := .binary .add (.staticCall "A" "f" []) (.binary .mul (.var "x") (.int 0))
    e.simplify = .staticCall "A" "f" [] ∧ (steady 7).Everywhere (steady 7).KeepsEffects e [] ∧
      (steady 7).eval e.simplify [] = (steady 7).eval e [] := by
  intro e
  have hfits : (steady 7).Everywhere (steady 7).Fits e [] := by
    refine everywhere_binary (by decide) (by decide) ?_ (everywhere_of_operands_eq_nil rfl trivial) fun h x _ =>
      everywhere_binary (by decide) (by decide) ?_ (everywhere_of_operands_eq_nil rfl trivial) fun h x _ =>
        everywhere_of_operands_eq_nil rfl trivial
    · rintro - _ _ ⟨⟩ _ _ ⟨⟩
      trivial
    · rintro - _ _ ⟨⟩ _ _ ⟨⟩
      trivial
  have hspares : (steady 7).Everywhere (steady 7).Spares e [] := by
    refine everywhere_binary (by decide) (by decide) ?_ (everywhere_of_operands_eq_nil rfl trivial) fun h x _ =>
      everywhere_binary (by decide) (by decide) ?_ (everywhere_of_operands_eq_nil rfl trivial) fun h x _ =>
        everywhere_of_operands_eq_nil rfl trivial
    · exact ⟨nofun, nofun⟩
    · exact ⟨fun _ => ⟨_, rfl⟩, nofun⟩
  have hiff := keepsEffects_everywhere_iff hfits
  exact ⟨rfl, hiff.1.mpr hspares, hiff.2 hspares⟩

/-- In `(A.f() + 1) * 0` a call is lost, and in `(1 / 0) * 0` an exception. -/
theorem loses_effects :
    ¬ (steady 7).KeepsEffects (.binary .mul (.binary .add (.staticCall "A" "f" []) (.int 1)) (.int 0)) [] ∧
      ¬ (steady 7).KeepsEffects (.binary .mul (.binary .div (.int 1) (.int 0)) (.int 0)) [] := by
  constructor
  · rintro ⟨hevents, -⟩
    cases hevents
  · rintro ⟨-, hthrows⟩
    cases hthrows

end World

end Source

end JvmLift
