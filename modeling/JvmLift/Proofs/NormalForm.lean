import Mathlib
import JvmLift.Proofs.Nameless
import JvmLift.Proofs.PlainBodies
import JvmLift.Proofs.Simplification

/-!
# Normal forms

One pass of simplification leaves nothing to simplify. The rules look at an operation whose operands are simplified
already, and what they put in its place is a literal or a part of the operation, which holds no redex either. So the
simplified expressions are those without a redex, and they are the ones that simplification leaves alone.
-/

namespace JvmLift.Source

namespace Expr

/-! ### Redexes -/

/-- The expressions that an expression is made of. -/
def operands : Expr → List Expr
  | binary _ a b | index a b => [a, b]
  | unary _ a | field a _ | length a | cast _ a | instanceOf a _ => [a]
  | new _ args | newArray _ args | staticCall _ _ args => args
  | call receiver _ _ args => receiver :: args
  | ternary c a b => [c, a, b]
  | int _ | long _ | float _ | double _ | string _ | classLit _ | null | bool _ | var _ | uninit _ => []

/-- The subexpressions of an expression, itself included. -/
inductive Within : Expr → Expr → Prop
  | self (e : Expr) : Within e e
  | operand {part a e : Expr} (mem : a ∈ e.operands) (within : Within part a) : Within part e

/-- A literal of a numeric type. -/
def IsNumber : Expr → Prop
  | int _ | long _ | float _ | double _ => True
  | _ => False

/-- What a rule of simplification is for. Operators on two literals are evaluated, but for divisions by zero. An operand
that is neutral is dropped, and so is one beside an absorbing zero that has no side effects; neither is done in a
concatenation of strings. A number is negated, and an operator that is applied twice goes away. -/
inductive Redex : Expr → Prop
  | ints {op : BinOp} {a b : Int32} (isOperator : op.isArithmetic = true ∨ op.isShift = true)
      (isDefined : op = .div ∨ op = .rem → b ≠ 0) : Redex (binary op (int a) (int b))
  | longs {op : BinOp} {a b : Int64} (isOperator : op.isArithmetic = true)
      (isDefined : op = .div ∨ op = .rem → b ≠ 0) : Redex (binary op (long a) (long b))
  | longShift {op : BinOp} {a : Int64} {b : Int32} (isOperator : op.isShift = true) : Redex (binary op (long a) (int b))
  | strings {a b : String} : Redex (binary .add (string a) (string b))
  | rightZero {op : BinOp} {a b : Expr} (neutral : op ∈ [.add, .sub, .bitOr, .bitXor, .shl, .shr, .ushr])
      (isZero : b = int 0 ∨ b = long 0) (noConcat : a.isConcat = false) : Redex (binary op a b)
  | rightOne {op : BinOp} {a b : Expr} (neutral : op ∈ [.mul, .div]) (isOne : b = int 1 ∨ b = long 1)
      (noConcat : a.isConcat = false) : Redex (binary op a b)
  | leftZero {op : BinOp} {a b : Expr} (neutral : op ∈ [.add, .bitOr, .bitXor]) (isZero : a = int 0 ∨ a = long 0)
      (noConcat : b.isConcat = false) : Redex (binary op a b)
  | leftOne {a b : Expr} (isOne : a = int 1 ∨ a = long 1) (noConcat : b.isConcat = false) : Redex (binary .mul a b)
  | rightAbsorbs {op : BinOp} {a b : Expr} (absorbs : op ∈ [.mul, .bitAnd]) (isZero : b = int 0 ∨ b = long 0)
      (noConcat : a.isConcat = false) (noEffect : a.hasSideEffects = false) : Redex (binary op a b)
  | leftAbsorbs {a b : Expr} (isZero : a = int 0 ∨ a = long 0) (noConcat : b.isConcat = false)
      (noEffect : b.hasSideEffects = false) : Redex (binary .mul a b)
  | negated {a : Expr} (isNumber : a.IsNumber) : Redex (unary .neg a)
  | doubled {op : UnOp} {a : Expr} : Redex (unary op (unary op a))

/-- An expression without a redex in it. -/
def Normal (e : Expr) : Prop :=
  ∀ part, Within part e → ¬ part.Redex

variable {op : BinOp} {a b e : Expr}

lemma normal_iff : e.Normal ↔ ¬ e.Redex ∧ ∀ a ∈ e.operands, a.Normal := by
  constructor
  · intro h
    exact ⟨h e (.self e), fun a ha part hpart => h part (.operand ha hpart)⟩
  · rintro ⟨hself, hoperands⟩ part hpart
    cases hpart with
    | self => exact hself
    | operand ha hpart => exact hoperands _ ha part hpart

/-- What is neither an operation nor made of others has no redex in it. -/
lemma normal_of_operands_eq_nil (h : e.operands = []) : e.Normal := by
  refine normal_iff.mpr ⟨fun hredex => ?_, by simp [h]⟩
  cases hredex <;> simp [operands] at h

/-- Only operations are redexes. -/
lemma normal_of_operands (hbinary : ∀ op a b, e ≠ binary op a b) (hunary : ∀ op a, e ≠ unary op a)
    (h : ∀ a ∈ e.operands, a.Normal) : e.Normal := by
  refine normal_iff.mpr ⟨fun hredex => ?_, h⟩
  cases hredex with
  | negated | doubled => exact hunary _ _ rfl
  | _ => exact hbinary _ _ _ rfl

/-! ### Rules -/

lemma isZero_iff : e.isZero = true ↔ e = int 0 ∨ e = long 0 := by
  cases e <;> simp [isZero]

lemma isOne_iff : e.isOne = true ↔ e = int 1 ∨ e = long 1 := by
  cases e <;> simp [isOne]

lemma isConcat_of_isZero (h : e.isZero = true) : e.isConcat = false := by
  rcases isZero_iff.mp h with rfl | rfl <;> rfl

lemma isConcat_of_isOne (h : e.isOne = true) : e.isConcat = false := by
  rcases isOne_iff.mp h with rfl | rfl <;> rfl

lemma isSome_foldInt?_iff {a b : Int32} : (op.foldInt? a b).isSome = true ↔
    (op.isArithmetic = true ∨ op.isShift = true) ∧ (op = .div ∨ op = .rem → b ≠ 0) := by
  cases op <;> simp [BinOp.foldInt?, BinOp.isArithmetic, BinOp.isShift]

lemma isSome_foldLong?_iff {a b : Int64} : (op.foldLong? a b).isSome = true ↔
    op.isArithmetic = true ∧ (op = .div ∨ op = .rem → b ≠ 0) := by
  cases op <;> simp [BinOp.foldLong?, BinOp.isArithmetic]

lemma isSome_foldLongShift?_iff {a : Int64} {b : Int32} :
    (op.foldLongShift? a b).isSome = true ↔ op.isShift = true := by
  cases op <;> simp [BinOp.foldLongShift?, BinOp.isShift]

/-- Two literals are evaluated to a literal, and only where they are a redex. -/
lemma of_foldLiterals? (h : foldLiterals? op a b = some e) : (binary op a b).Redex ∧ e.operands = [] := by
  unfold foldLiterals? at h
  split at h
  · obtain ⟨c, hc, rfl⟩ := Option.map_eq_some_iff.mp h
    obtain ⟨hop, hdefined⟩ := isSome_foldInt?_iff.mp (Option.isSome_of_eq_some hc)
    exact ⟨.ints hop hdefined, rfl⟩
  · obtain ⟨c, hc, rfl⟩ := Option.map_eq_some_iff.mp h
    obtain ⟨hop, hdefined⟩ := isSome_foldLong?_iff.mp (Option.isSome_of_eq_some hc)
    exact ⟨.longs hop hdefined, rfl⟩
  · obtain ⟨c, hc, rfl⟩ := Option.map_eq_some_iff.mp h
    exact ⟨.longShift (isSome_foldLongShift?_iff.mp (Option.isSome_of_eq_some hc)), rfl⟩
  · split_ifs at h with hop
    cases h
    exact ⟨hop ▸ .strings, rfl⟩
  · cases h

/-- An operand is dropped only where there is a redex, and what is left is one of the two. -/
lemma of_dropOperand? (h : dropOperand? op a b = some e) (hconcat : (a.isConcat || b.isConcat) = false) :
    (binary op a b).Redex ∧ (e = a ∨ e = b) := by
  obtain ⟨ha, hb⟩ := Bool.or_eq_false_iff.mp hconcat
  obtain ⟨hzero, hop, rfl⟩ | ⟨hzero, hop, heffect, rfl⟩ | ⟨hone, hop, rfl⟩ | ⟨hzero, hop, rfl⟩ |
    ⟨hzero, rfl, heffect, rfl⟩ | ⟨hone, rfl, rfl⟩ := dropOperand?_cases h
  · exact ⟨.rightZero hop (isZero_iff.mp hzero) ha, .inl rfl⟩
  · exact ⟨.rightAbsorbs hop (isZero_iff.mp hzero) ha heffect, .inr rfl⟩
  · exact ⟨.rightOne hop (isOne_iff.mp hone) ha, .inl rfl⟩
  · exact ⟨.leftZero hop (isZero_iff.mp hzero) hb, .inr rfl⟩
  · exact ⟨.leftAbsorbs (isZero_iff.mp hzero) hb heffect, .inl rfl⟩
  · exact ⟨.leftOne (isOne_iff.mp hone) hb, .inr rfl⟩

/-- On a redex one of the rules applies. -/
lemma applies_of_redex (h : (binary op a b).Redex) : (foldLiterals? op a b).isSome = true ∨
    (a.isConcat || b.isConcat) = false ∧ (dropOperand? op a b).isSome = true := by
  cases h with
  | ints hop hdefined => exact .inl (by simpa [foldLiterals?] using isSome_foldInt?_iff.mpr ⟨hop, hdefined⟩)
  | longs hop hdefined => exact .inl (by simpa [foldLiterals?] using isSome_foldLong?_iff.mpr ⟨hop, hdefined⟩)
  | longShift hop => exact .inl (by simpa [foldLiterals?] using isSome_foldLongShift?_iff.mpr hop)
  | strings => exact .inl rfl
  | rightZero hop hzero ha =>
    have hzero := isZero_iff.mpr hzero
    refine .inr ⟨by simp [ha, isConcat_of_isZero hzero], ?_⟩
    simp only [List.mem_cons, List.not_mem_nil, or_false] at hop
    rcases hop with rfl | rfl | rfl | rfl | rfl | rfl | rfl <;> simp [dropOperand?, hzero, rightZero?]
  | rightOne hop hone ha =>
    have hone := isOne_iff.mpr hone
    refine .inr ⟨by simp [ha, isConcat_of_isOne hone], ?_⟩
    simp only [List.mem_cons, List.not_mem_nil, or_false] at hop
    rcases hop with rfl | rfl <;> simp [dropOperand?, hone, rightOne?]
  | leftZero hop hzero hb =>
    have hzero := isZero_iff.mpr hzero
    refine .inr ⟨by simp [hb, isConcat_of_isZero hzero], ?_⟩
    simp only [List.mem_cons, List.not_mem_nil, or_false] at hop
    rcases hop with rfl | rfl | rfl <;> simp [dropOperand?, hzero, leftZero?]
  | leftOne hone hb =>
    have hone := isOne_iff.mpr hone
    refine .inr ⟨by simp [hb, isConcat_of_isOne hone], ?_⟩
    simp [dropOperand?, hone, leftOne?]
  | rightAbsorbs hop hzero ha heffect =>
    have hzero := isZero_iff.mpr hzero
    refine .inr ⟨by simp [ha, isConcat_of_isZero hzero], ?_⟩
    simp only [List.mem_cons, List.not_mem_nil, or_false] at hop
    rcases hop with rfl | rfl <;> simp [dropOperand?, hzero, rightZero?, heffect]
  | leftAbsorbs hzero hb heffect =>
    have hzero := isZero_iff.mpr hzero
    refine .inr ⟨by simp [hb, isConcat_of_isZero hzero], ?_⟩
    simp [dropOperand?, hzero, leftZero?, heffect]

/-- What becomes of an operation: it stays as it is where it is no redex, and else a literal or an operand is left. -/
lemma foldBinary_cases (op : BinOp) (a b : Expr) :
    (foldBinary op a b = binary op a b ∧ ¬ (binary op a b).Redex) ∨
      (binary op a b).Redex ∧
        ((foldBinary op a b).operands = [] ∨ foldBinary op a b = a ∨ foldBinary op a b = b) := by
  unfold foldBinary
  cases hfold : foldLiterals? op a b with
  | some e =>
    obtain ⟨hredex, hliteral⟩ := of_foldLiterals? hfold
    exact .inr ⟨hredex, .inl hliteral⟩
  | none =>
    by_cases hconcat : (a.isConcat || b.isConcat) = true
    · refine .inl ⟨by simp [hconcat], fun hredex => ?_⟩
      rcases applies_of_redex hredex with h | ⟨h, -⟩
      · simp [hfold] at h
      · cases hconcat.symm.trans h
    · rw [Bool.not_eq_true] at hconcat
      simp only [hconcat, Bool.false_eq_true, if_false]
      cases hdrop : dropOperand? op a b with
      | some e =>
        obtain ⟨hredex, hleft⟩ := of_dropOperand? hdrop hconcat
        exact .inr ⟨hredex, .inr hleft⟩
      | none =>
        refine .inl ⟨rfl, fun hredex => ?_⟩
        rcases applies_of_redex hredex with h | ⟨-, h⟩
        · simp [hfold] at h
        · simp [hdrop] at h

lemma foldUnary_cases (op : UnOp) (a : Expr) :
    (foldUnary op a = unary op a ∧ ¬ (unary op a).Redex) ∨
      (unary op a).Redex ∧ ((foldUnary op a).operands = [] ∨ foldUnary op a ∈ a.operands) := by
  unfold foldUnary
  split
  · exact .inr ⟨.negated trivial, .inl rfl⟩
  · exact .inr ⟨.negated trivial, .inl rfl⟩
  · exact .inr ⟨.negated trivial, .inl rfl⟩
  · exact .inr ⟨.negated trivial, .inl rfl⟩
  · split_ifs with heq
    · exact .inr ⟨heq ▸ .doubled, .inr (by simp [operands])⟩
    · refine .inl ⟨rfl, fun hredex => ?_⟩
      cases hredex with
      | negated hnumber => exact hnumber
      | doubled => exact heq rfl
  · refine .inl ⟨rfl, fun hredex => ?_⟩
    cases hredex with
    | negated hnumber => cases a <;> simp_all [IsNumber]
    | doubled => simp_all

lemma normal_foldBinary (ha : a.Normal) (hb : b.Normal) : (foldBinary op a b).Normal := by
  obtain ⟨heq, hredex⟩ | ⟨-, hliteral | heq | heq⟩ := foldBinary_cases op a b
  · rw [heq]
    exact normal_iff.mpr ⟨hredex, by simpa [operands] using ⟨ha, hb⟩⟩
  · exact normal_of_operands_eq_nil hliteral
  · exact heq.symm ▸ ha
  · exact heq.symm ▸ hb

lemma normal_foldUnary {op : UnOp} (ha : a.Normal) : (foldUnary op a).Normal := by
  obtain ⟨heq, hredex⟩ | ⟨-, hliteral | hmem⟩ := foldUnary_cases op a
  · rw [heq]
    exact normal_iff.mpr ⟨hredex, by simpa [operands] using ha⟩
  · exact normal_of_operands_eq_nil hliteral
  · exact (normal_iff.mp ha).2 _ hmem

/-! ### The whole tree -/

mutual

/-- **Normal form.** A simplified expression has no redex in it. -/
lemma normal_simplify : ∀ e : Expr, e.simplify.Normal
  | binary op a b => by
    rw [simplify]
    exact normal_foldBinary (normal_simplify a) (normal_simplify b)
  | unary op a => by
    rw [simplify]
    exact normal_foldUnary (normal_simplify a)
  | field a _ | length a | cast _ a | instanceOf a _ => by
    rw [simplify]
    exact normal_of_operands nofun nofun (by simpa [operands] using normal_simplify a)
  | index a b => by
    rw [simplify]
    exact normal_of_operands nofun nofun (by simpa [operands] using ⟨normal_simplify a, normal_simplify b⟩)
  | ternary c a b => by
    rw [simplify]
    exact normal_of_operands nofun nofun
      (by simpa [operands] using ⟨normal_simplify c, normal_simplify a, normal_simplify b⟩)
  | new _ args | newArray _ args | staticCall _ _ args => by
    rw [simplify]
    exact normal_of_operands nofun nofun (normal_simplifyAll args)
  | call receiver _ _ args => by
    rw [simplify]
    exact normal_of_operands nofun nofun
      (List.forall_mem_cons.mpr ⟨normal_simplify receiver, normal_simplifyAll args⟩)
  | int _ | long _ | float _ | double _ | string _ | classLit _ | null | bool _ | var _ | uninit _ => by
    rw [simplify]
    exact normal_of_operands_eq_nil rfl

lemma normal_simplifyAll : ∀ es : List Expr, ∀ e ∈ simplifyAll es, e.Normal
  | [] => by simp [simplifyAll]
  | e :: es => by
    rw [simplifyAll]
    exact List.forall_mem_cons.mpr ⟨normal_simplify e, normal_simplifyAll es⟩

end

lemma foldBinary_eq_self (h : (binary op a b).Normal) : foldBinary op a b = binary op a b := by
  obtain ⟨heq, -⟩ | ⟨hredex, -⟩ := foldBinary_cases op a b
  · exact heq
  · exact absurd hredex (normal_iff.mp h).1

lemma foldUnary_eq_self {op : UnOp} (h : (unary op a).Normal) : foldUnary op a = unary op a := by
  obtain ⟨heq, -⟩ | ⟨hredex, -⟩ := foldUnary_cases op a
  · exact heq
  · exact absurd hredex (normal_iff.mp h).1

mutual

/-- An expression without a redex is left alone. -/
lemma simplify_eq_self : ∀ {e : Expr}, e.Normal → e.simplify = e
  | binary op a b, h => by
    have hoperands := (normal_iff.mp h).2
    rw [simplify, simplify_eq_self (hoperands a (by simp [operands])), simplify_eq_self (hoperands b (by simp [operands])),
      foldBinary_eq_self h]
  | unary op a, h => by
    rw [simplify, simplify_eq_self ((normal_iff.mp h).2 a (by simp [operands])), foldUnary_eq_self h]
  | field a _, h | length a, h | cast _ a, h | instanceOf a _, h => by
    rw [simplify, simplify_eq_self ((normal_iff.mp h).2 a (by simp [operands]))]
  | index a b, h => by
    have hoperands := (normal_iff.mp h).2
    rw [simplify, simplify_eq_self (hoperands a (by simp [operands])), simplify_eq_self (hoperands b (by simp [operands]))]
  | ternary c a b, h => by
    have hoperands := (normal_iff.mp h).2
    rw [simplify, simplify_eq_self (hoperands c (by simp [operands])), simplify_eq_self (hoperands a (by simp [operands])),
      simplify_eq_self (hoperands b (by simp [operands]))]
  | new _ args, h | newArray _ args, h | staticCall _ _ args, h => by
    have hargs : simplifyAll args = args := simplifyAll_eq_self (normal_iff.mp h).2
    rw [simplify, hargs]
  | call receiver _ _ args, h => by
    obtain ⟨hreceiver, hargs⟩ := List.forall_mem_cons.mp (normal_iff.mp h).2
    rw [simplify, simplify_eq_self hreceiver, simplifyAll_eq_self hargs]
  | int _, _ | long _, _ | float _, _ | double _, _ | string _, _ | classLit _, _ | null, _ | bool _, _ | var _, _
  | uninit _, _ => by rw [simplify]

lemma simplifyAll_eq_self : ∀ {es : List Expr}, (∀ e ∈ es, e.Normal) → simplifyAll es = es
  | [], _ => by rw [simplifyAll]
  | e :: es, h => by
    obtain ⟨he, hes⟩ := List.forall_mem_cons.mp h
    rw [simplifyAll, simplify_eq_self he, simplifyAll_eq_self hes]

end

lemma simplify_simplify (e : Expr) : e.simplify.simplify = e.simplify :=
  simplify_eq_self (normal_simplify e)

end Expr

/-! ### Statements -/

namespace Stmt

/-- Every expression of the statement satisfies `P`. -/
def HasExprs (P : Expr → Prop) (s : Stmt) : Prop :=
  ∀ e ∈ s.exprs, P e

variable {P : Expr → Prop} {f : Expr → Expr}

lemma hasExprs_mapExprs (h : ∀ e, P (f e)) (s : Stmt) : (s.mapExprs f).HasExprs P := by
  cases s <;> simp [HasExprs, mapExprs, exprs, h]

mutual

lemma every_mapExprs (h : ∀ e, P (f e)) (s : Stmt) : Every (HasExprs P) (s.mapExprs f) := by
  have hs := hasExprs_mapExprs h s
  cases s with
  | block body | ifThen _ body | whileLoop _ body | forEach _ _ _ body | synchronized _ body =>
    exact ⟨hs, everyIn_mapExprsEach h body⟩
  | ifElse _ thenBody elseBody => exact ⟨hs, everyIn_mapExprsEach h thenBody, everyIn_mapExprsEach h elseBody⟩
  | forLoop init _ update body =>
    exact ⟨hs, everyIn_mapExprsEach h init, everyIn_mapExprsEach h update, everyIn_mapExprsEach h body⟩
  | switch _ arms => exact ⟨hs, everyInArms_mapExprsArms h arms⟩
  | tryCatch body clauses => exact ⟨hs, everyIn_mapExprsEach h body, everyInClauses_mapExprsClauses h clauses⟩
  | _ => exact hs

lemma everyIn_mapExprsEach (h : ∀ e, P (f e)) : ∀ body : List Stmt, EveryIn (HasExprs P) (mapExprsEach f body)
  | [] => trivial
  | s :: rest => ⟨every_mapExprs h s, everyIn_mapExprsEach h rest⟩

lemma everyInArms_mapExprsArms (h : ∀ e, P (f e)) : ∀ arms : Arms, EveryInArms (HasExprs P) (mapExprsArms f arms)
  | .done => trivial
  | .case _ body rest => ⟨everyIn_mapExprsEach h body, everyInArms_mapExprsArms h rest⟩
  | .default body => everyIn_mapExprsEach h body

lemma everyInClauses_mapExprsClauses (h : ∀ e, P (f e)) :
    ∀ clauses : Clauses, EveryInClauses (HasExprs P) (mapExprsClauses f clauses)
  | .done => trivial
  | .handler _ _ body rest => ⟨everyIn_mapExprsEach h body, everyInClauses_mapExprsClauses h rest⟩
  | .finally body => everyIn_mapExprsEach h body

end

end Stmt

/-- **Normal forms.** Simplifying an expression or a body twice is simplifying it once, and no subexpression of the
result is a redex. Of expressions, simplification leaves alone those in which there is no redex and no others. -/
theorem simplified_is_normal :
    (∀ e : Expr, e.simplify.simplify = e.simplify ∧ e.simplify.Normal) ∧
    (∀ body, simplifyBody (simplifyBody body) = simplifyBody body ∧
      Stmt.EveryIn (Stmt.HasExprs Expr.Normal) (simplifyBody body)) ∧
    ∀ e : Expr, e.simplify = e ↔ e.Normal := by
  refine ⟨fun e => ⟨e.simplify_simplify, e.normal_simplify⟩, fun body => ⟨?_, ?_⟩, fun e => ⟨fun h => ?_, ?_⟩⟩
  · rw [simplifyBody, simplifyBody, Stmt.mapExprsEach_mapExprsEach]
    exact congrArg (Stmt.mapExprsEach · body) (funext Expr.simplify_simplify)
  · exact Stmt.everyIn_mapExprsEach Expr.normal_simplify body
  · rw [← h]
    exact e.normal_simplify
  · exact Expr.simplify_eq_self

end JvmLift.Source
