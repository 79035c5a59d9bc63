import Mathlib
import JvmLift.Proofs.BranchConditions
import JvmLift.Proofs.StackShape

/-!
# Comparisons of floating-point numbers

The machine compares two floating-point numbers three ways and tests the result against zero. Where one of the two is not
a number, it depends on the instruction whether the result is negative or positive. The recovered conditions compare the
numbers themselves, so they cannot tell the instructions apart. They are exact on numbers, and for tests of equality on all
words. An order test of what is no number is recovered as two conditions neither of which holds, although the machine goes
one of the two ways.
-/

namespace JvmLift

open Bytecode Number Recovery Source
open IntCode (Relation exists_complement)

/-! ### The machine -/

/-- A three-way comparison: the format of its operands, and its result where one of them is not a number. -/
structure FloatComparison where
  format : Format
  unordered : Int32

/-- The three-way comparisons, each with its byte. -/
def floatComparisons : List (UInt8 × FloatComparison) :=
  [(0x95, ⟨.single, -1⟩), (0x96, ⟨.single, 1⟩), (0x97, ⟨.double, -1⟩), (0x98, ⟨.double, 1⟩)]

/-- What the machine pushes. -/
def FloatComparison.result (c : FloatComparison) (x y : Floating c.format) : Int32 :=
  if x.ordered y then if x.lt y then -1 else if x.eq y then 0 else 1 else c.unordered

/-! ### Truth values -/

/-- Whether a comparison of floating-point numbers holds. -/
def Source.Expr.floatTest? {f : Format} (value : Expr → Option (Floating f)) : Expr → Option Bool
  | .binary op a b => do op.holdsFloating? (← value a) (← value b)
  | _ => none

namespace FloatComparison

variable {c : FloatComparison} {x y : Floating c.format}

/-- What is no number is not equal to anything. -/
lemma unordered_ne_zero {raw : UInt8} (h : floatComparisons.lookup raw = some c) : c.unordered ≠ 0 := by
  have hall : ∀ p ∈ floatComparisons, p.2.unordered ≠ 0 := by decide
  exact hall _ (mem_of_lookup h)

lemma effectOf_of_lookup {op : Opcode} (h : floatComparisons.lookup op.raw = some c) : effectOf op = .compare := by
  have hmem := mem_of_lookup h
  obtain ⟨raw⟩ := op
  simp only [floatComparisons, List.mem_cons, Prod.mk.injEq, List.not_mem_nil, or_false] at hmem
  obtain ⟨rfl, -⟩ | ⟨rfl, -⟩ | ⟨rfl, -⟩ | ⟨rfl, -⟩ := hmem <;> rfl

/-- Numbers relate as the result of their three-way comparison relates to zero. -/
lemma holdsFloating?_of_ordered (h : x.ordered y = true) (r : Relation) :
    r.op.holdsFloating? x y = some (r.holds (c.result x y) 0) := by
  have h' : y.ordered x = true := (Bool.and_comm _ _).trans h
  have hless : r.holds (-1) 0 = [.ne, .lt, .le].contains r := by cases r <;> decide
  have hequal : r.holds 0 0 = [.eq, .ge, .le].contains r := by cases r <;> decide
  have hgreater : r.holds 1 0 = [.ne, .gt, .ge].contains r := by cases r <;> decide
  simp only [BinOp.holdsFloating?, result, Floating.lt, Floating.eq, h, h', Bool.true_and, if_true, decide_eq_true_eq,
    beq_iff_eq]
  generalize x.key = m, y.key = n
  split_ifs with hlt heq
  · rw [hless]
    cases r <;> simp [Relation.op, BinOp.holds?] <;> omega
  · rw [hequal]
    cases r <;> simp [Relation.op, BinOp.holds?, heq]
  · rw [hgreater]
    cases r <;> simp [Relation.op, BinOp.holds?] <;> omega

/-- Where there is no order, only `!=` holds. -/
lemma holdsFloating?_of_not_ordered (h : x.ordered y = false) (r : Relation) :
    r.op.holdsFloating? x y = some (decide (r = .ne)) := by
  have h' : y.ordered x = false := (Bool.and_comm _ _).trans h
  cases r <;> simp [Relation.op, BinOp.holdsFloating?, BinOp.holds?, Floating.lt, Floating.eq, h, h']

end FloatComparison

/-! ### Recovered conditions -/

/-- The relation that holds where another does not. -/
def complementOf : Relation → Relation
  | .eq => .ne
  | .ne => .eq
  | .lt => .ge
  | .ge => .lt
  | .gt => .le
  | .le => .gt

lemma complement?_op (r : Relation) : r.op.complement? = some (complementOf r).op := by
  cases r <;> rfl

lemma holds_complementOf (r : Relation) (a b : Int32) : (complementOf r).holds a b = !r.holds a b := by
  rw [Bool.eq_iff_iff]
  cases r <;> simp [complementOf, Relation.holds, Int32.le_iff_toInt_le, Int32.lt_iff_toInt_lt]

/-- A zero test of a three-way comparison compares the operands themselves. -/
lemma run_floatComparison {c : FloatComparison} {i j : Instruction} (hi : i.isUndecoded = false)
    (hcompare : floatComparisons.lookup i.opcode.raw = some c) (hj : j.isUndecoded = false) {r : Relation}
    (hbranch : branches.lookup j.opcode.raw = some (.zero r)) (ctx : Context) (v w : StackValue) (below : Stack) :
    run ctx [i, j] (v :: w :: below) = .ok
      { stack := below,
        exit := some (.conditional ⟨.binary r.op w.expr v.expr, .binary (complementOf r).op w.expr v.expr⟩) } := by
  have hfirst : step ctx i (v :: w :: below) = .ok { stack := ⟨.binary .cmp w.expr v.expr, false⟩ :: below } := by
    refine step_of_applyEffect? hi ?_
    rw [FloatComparison.effectOf_of_lookup hcompare]
    rfl
  have hsecond : step ctx j (⟨.binary .cmp w.expr v.expr, false⟩ :: below) = .ok
      { stack := below,
        exit := some (.conditional ⟨.binary r.op w.expr v.expr, .binary (complementOf r).op w.expr v.expr⟩) } := by
    refine step_of_applyEffect? hj ?_
    rw [effectOf_of_lookup hbranch]
    have heffect := IntCode.applyEffect?_branch ctx (branchTest?_of_lookup hbranch)
      [⟨.binary .cmp w.expr v.expr, false⟩] below rfl rfl
    simpa [compareToZero, Expr.invert, complement?_op] using heffect
  exact run_cons_of_ok hfirst (run_cons_of_ok hsecond (show run ctx [] _ = .ok { stack := below } from rfl))

/-- **Floating-point comparisons.** The condition that is recovered for a three-way comparison with a zero test, and the
opposite condition, tell whether the machine takes the branch if and only if both operands are numbers or the test is one
of equality. A condition that holds is right in any case: where the two do not tell, neither of them holds. -/
theorem floatCondition_exact_iff {c : FloatComparison} {i j : Instruction} (hi : i.isUndecoded = false)
    (hcompare : floatComparisons.lookup i.opcode.raw = some c) (hj : j.isUndecoded = false) {r : Relation}
    (hbranch : branches.lookup j.opcode.raw = some (.zero r)) (ctx : Context) (v w : StackValue) (below : Stack) :
    ∃ cond, run ctx [i, j] (v :: w :: below) = .ok { stack := below, exit := some (.conditional cond) } ∧
      ∀ (value : Expr → Option (Floating c.format)) (x y : Floating c.format), value w.expr = some x →
        value v.expr = some y →
        let taken := r.holds (c.result x y) 0
        (cond.taken.floatTest? value = some taken ∧ cond.fallthrough.floatTest? value = some (!taken) ↔
          x.ordered y = true ∨ r = .eq ∨ r = .ne) ∧
        (¬ (x.ordered y = true ∨ r = .eq ∨ r = .ne) →
          cond.taken.floatTest? value = some false ∧ cond.fallthrough.floatTest? value = some false) := by
  refine ⟨_, run_floatComparison hi hcompare hj hbranch ctx v w below, fun value x y hx hy => ?_⟩
  have htest (r' : Relation) : (Expr.binary r'.op w.expr v.expr).floatTest? value = r'.op.holdsFloating? x y := by
    simp [Expr.floatTest?, hx, hy]
  simp only [htest]
  cases hordered : x.ordered y with
  | true =>
    simp only [FloatComparison.holdsFloating?_of_ordered hordered, holds_complementOf]
    simp
  | false =>
    simp only [FloatComparison.holdsFloating?_of_not_ordered hordered]
    have hresult : c.result x y = c.unordered := by simp [FloatComparison.result, hordered]
    have hne := FloatComparison.unordered_ne_zero hcompare
    cases r <;> simp [complementOf, Relation.holds, hresult, hne]

/-- The values of the variables `a` and `b`. -/
def pairValue (x y : Single) : Expr → Option Single
  | .var "a" => some x
  | .var "b" => some y
  | _ => none

/-- `fcmpg` and `iflt` on one and two: the branch is taken. -/
theorem floatCondition_exact_numbers : ∃ cond,
    run ⟨"m", fun _ _ => "", none, {}⟩ [⟨2, ⟨0x96⟩, .none, 1⟩, ⟨3, ⟨0x9b⟩, .branch 8, 3⟩]
        [⟨.var "b", false⟩, ⟨.var "a", false⟩] = .ok { stack := [], exit := some (.conditional cond) } ∧
      cond.taken.floatTest? (pairValue (.ofNat 0x3f800000) (.ofNat 0x40000000)) = some true ∧
      cond.fallthrough.floatTest? (pairValue (.ofNat 0x3f800000) (.ofNat 0x40000000)) = some false := by
  obtain ⟨cond, hrun, hexact⟩ := floatCondition_exact_iff (c := ⟨.single, 1⟩) (i := ⟨2, ⟨0x96⟩, .none, 1⟩)
    (j := ⟨3, ⟨0x9b⟩, .branch 8, 3⟩) (r := .lt) rfl rfl rfl rfl ⟨"m", fun _ _ => "", none, {}⟩ ⟨.var "b", false⟩
    ⟨.var "a", false⟩ []
  have htells := (hexact (pairValue (.ofNat 0x3f800000) (.ofNat 0x40000000)) _ _ rfl rfl).1.mpr (.inl (by decide))
  exact ⟨cond, hrun, htells⟩

/-- `fcmpg` and `iflt` on what is no number: the machine falls through, but the condition of that way does not hold. With
`fcmpl` it takes the branch, but the condition of the branch does not hold. -/
theorem floatCondition_inexact : ∃ cond cond',
    run ⟨"m", fun _ _ => "", none, {}⟩ [⟨2, ⟨0x96⟩, .none, 1⟩, ⟨3, ⟨0x9b⟩, .branch 8, 3⟩]
        [⟨.var "b", false⟩, ⟨.var "a", false⟩] = .ok { stack := [], exit := some (.conditional cond) } ∧
      Relation.lt.holds (FloatComparison.result ⟨.single, 1⟩ .nan .nan) 0 = false ∧
      cond.fallthrough.floatTest? (pairValue .nan .nan) = some false ∧
    run ⟨"m", fun _ _ => "", none, {}⟩ [⟨2, ⟨0x95⟩, .none, 1⟩, ⟨3, ⟨0x9b⟩, .branch 8, 3⟩]
        [⟨.var "b", false⟩, ⟨.var "a", false⟩] = .ok { stack := [], exit := some (.conditional cond') } ∧
      Relation.lt.holds (FloatComparison.result ⟨.single, -1⟩ .nan .nan) 0 = true ∧
      cond'.taken.floatTest? (pairValue .nan .nan) = some false :=
  ⟨_, _, rfl, by decide, by decide, rfl, by decide, by decide⟩

end JvmLift
