import Mathlib
import JvmLift.Proofs.Interpretation
import JvmLift.Proofs.JumpCode

/-!
# Branch conditions

The conditional branches of the machine, on numbers and references, beside the comparisons that are recovered for them. A
recovered condition holds if and only if the machine takes the branch, and the opposite condition if and only if it does
not; a zero test of a three-way comparison is no exception. Negation of conditions is exact as well.
-/

namespace JvmLift

open Bytecode Recovery Source
open IntCode (Relation relates?_op relates?_compared exists_complement)

lemma mem_of_lookup {β : Type} {table : List (UInt8 × β)} {raw : UInt8} {row : β} (h : table.lookup raw = some row) :
    (raw, row) ∈ table := by
  obtain ⟨front, back, heq, -⟩ := List.lookup_eq_some_iff.mp h
  simp [heq]

/-! ### The branches of the machine -/

/-- What a conditional branch of the machine tests. -/
inductive Branch
  /-- How the number at the top of the stack relates to zero. -/
  | zero (r : Relation)
  /-- How the number below the top relates to the top. -/
  | ints (r : Relation)
  /-- Whether the two references at the top are the same, or whether they are not. -/
  | refs (same : Bool)
  /-- Whether the reference at the top is `null`, or whether it is not. -/
  | null (isNull : Bool)
  deriving DecidableEq

/-- The conditional branches, each with its byte. -/
def branches : List (UInt8 × Branch) :=
  [(0x99, .zero .eq), (0x9a, .zero .ne), (0x9b, .zero .lt), (0x9c, .zero .ge), (0x9d, .zero .gt), (0x9e, .zero .le),
    (0x9f, .ints .eq), (0xa0, .ints .ne), (0xa1, .ints .lt), (0xa2, .ints .ge), (0xa3, .ints .gt), (0xa4, .ints .le),
    (0xa5, .refs true), (0xa6, .refs false), (0xc6, .null true), (0xc7, .null false)]

namespace Branch

/-- Number of values that a branch takes from the stack. -/
def arity : Branch → Nat
  | zero _ | null _ => 1
  | ints _ | refs _ => 2

/-- Whether the machine takes a branch on a stack whose top is its first element. -/
def takes? : Branch → List Value → Option Bool
  | zero r, .int n :: _ => some (r.holds n 0)
  | ints r, .int b :: .int a :: _ => some (r.holds a b)
  | refs same, .ref b :: .ref a :: _ => some (decide (a = b) == same)
  | null isNull, .ref a :: _ => some (a.isNone == isNull)
  | _, _ => none

/-- The comparison that is recovered for a branch. -/
def test : Branch → BinOp × Comparand
  | zero r => (r.op, .zero)
  | ints r => (r.op, .pair)
  | refs same => (if same then .eq else .ne, .pair)
  | null isNull => (if isNull then .eq else .ne, .null)

lemma arity_eq (b : Branch) : b.arity = b.test.2.count := by
  cases b <;> rfl

end Branch

/-- The branches of the machine are the instructions for which comparisons are recovered. -/
lemma branchTest?_eq (op : Opcode) : branchTest? op = (branches.lookup op.raw).map Branch.test := by
  revert op
  decide +kernel

lemma branchTest?_of_lookup {op : Opcode} {branch : Branch} (hop : branches.lookup op.raw = some branch) :
    branchTest? op = some branch.test := by
  rw [branchTest?_eq, hop, Option.map_some]

lemma effectOf_of_lookup {op : Opcode} {branch : Branch} (hop : branches.lookup op.raw = some branch) :
    effectOf op = .branch := by
  have hall : ∀ p ∈ branches, (effectOf ⟨p.1⟩).isBranch = true := by decide +kernel
  have hbranch : (effectOf op).isBranch = true := hall _ (mem_of_lookup hop)
  cases heffect : effectOf op <;> rw [heffect] at hbranch <;> first | rfl | cases hbranch

/-! ### Truth values of the comparisons -/

namespace Source

lemma Value.operate?_relation {r : Relation} (a b : Int32) :
    operate? r.op (.int a) (.int b) = some (.bool (r.holds a b)) := by
  obtain ⟨op', hop⟩ := exists_complement r
  refine operate?_of_binary? ?_
  rw [binary?_eq_bool hop]
  simp [relates?_op]

lemma Value.binary?_cmp (x y : Value) : binary? .cmp x y =
    match x, y with
    | .long a, .long b => some (.int (if a < b then -1 else if a = b then 0 else 1))
    | _, _ => none := by
  cases x <;> cases y <;> rfl

/-- A three-way comparison is one of widened numbers. -/
lemma Value.widen_of_operate?_cmp {x y v : Value} (h : operate? .cmp x y = some v) : ∃ a b : Int64,
    x.widen = .long a ∧ y.widen = .long b ∧ v = .int (if a < b then -1 else if a = b then 0 else 1) := by
  rw [operate?, binary?_cmp, binary?_cmp] at h
  cases x <;> cases y <;> first
    | exact ⟨_, _, rfl, rfl, (Option.some.inj h).symm⟩
    | cases h

/-- Numbers are compared alike with and without widening. -/
lemma Value.operate?_of_widen {op op' : BinOp} (hop : op.complement? = some op') {x y : Value} {a b : Int64}
    (hx : x.widen = .long a) (hy : y.widen = .long b) : operate? op x y = (op.relates? a.toInt b.toInt).map .bool := by
  have hsome (m n : Int) : ∃ t, op.relates? m n = some t := by
    cases op <;> cases hop <;> exact ⟨_, rfl⟩
  choose t ht using hsome
  rw [operate?, binary?_eq_bool hop, binary?_eq_bool hop, hx, hy]
  cases x <;> cases y <;> cases hx <;> cases hy <;> simp [ht]

/-- Numbers relate as the result of their three-way comparison relates to zero. -/
lemma Value.operate?_compared {x y : Value} {n : Int32} (h : operate? .cmp x y = some (.int n)) (r : Relation) :
    operate? r.op x y = some (.bool (r.holds n 0)) := by
  obtain ⟨op', hop⟩ := exists_complement r
  obtain ⟨a, b, hx, hy, hn⟩ := widen_of_operate?_cmp h
  cases hn
  rw [operate?_of_widen hop hx hy, relates?_compared]
  rfl

end Source

namespace Source.Interpretation

variable {I : Interpretation} {e a b : Expr}

lemma value?_compareToZero {n : Int32} (he : I.value? e = some (.int n)) (r : Relation) :
    I.value? (compareToZero r.op e) = some (.bool (r.holds n 0)) := by
  have hlazy : r.op ≠ .and ∧ r.op ≠ .or := by cases r <;> simp [Relation.op]
  unfold compareToZero
  split
  · obtain ⟨x, y, hx, hy, hcmp⟩ := (value?_binary (by simp) (by simp)).mp he
    exact (value?_binary hlazy.1 hlazy.2).mpr ⟨x, y, hx, hy, Value.operate?_compared hcmp r⟩
  · exact (value?_binary hlazy.1 hlazy.2).mpr ⟨_, _, he, rfl, Value.operate?_relation n 0⟩

/-- A condition with the given truth value, and the opposite condition with the other one. -/
def Tells (I : Interpretation) (c : Condition) (t : Bool) : Prop :=
  I.value? c.taken = some (.bool t) ∧ I.value? c.fallthrough = some (.bool !t)

lemma values?_take_succ {n : Nat} {stack : List Expr} {x : Value} {xs : List Value}
    (h : I.values? (stack.take (n + 1)) = some (x :: xs)) :
    ∃ e rest, stack = e :: rest ∧ I.value? e = some x ∧ I.values? (rest.take n) = some xs := by
  cases stack with
  | nil => cases h
  | cons e rest =>
    obtain ⟨_, _, he, hrest, heq⟩ := values?_cons.mp h
    cases heq
    exact ⟨e, rest, rfl, he, hrest⟩

/-- What the machine tests is the truth value of the comparison. -/
lemma value?_takenCondition? {branch : Branch} {stack : List Expr} {vs : List Value}
    (hvs : I.values? (stack.take branch.arity) = some vs) {t : Bool} (ht : branch.takes? vs = some t) :
    ∃ taken, takenCondition? branch.test stack = some taken ∧ I.value? taken = some (.bool t) := by
  unfold Branch.takes? at ht
  split at ht <;> cases ht
  · -- a number against zero
    obtain ⟨e, rest, rfl, he, -⟩ := values?_take_succ hvs
    exact ⟨_, rfl, value?_compareToZero he _⟩
  · -- two numbers
    obtain ⟨e, rest, rfl, he, hvs⟩ := values?_take_succ hvs
    obtain ⟨e', rest, rfl, he', -⟩ := values?_take_succ hvs
    refine ⟨_, rfl, (value?_binary ?_ ?_).mpr ⟨_, _, he', he, Value.operate?_relation _ _⟩⟩
    all_goals cases ‹Relation› <;> simp [Relation.op]
  · -- two references
    obtain ⟨e, rest, rfl, he, hvs⟩ := values?_take_succ hvs
    obtain ⟨e', rest, rfl, he', -⟩ := values?_take_succ hvs
    refine ⟨_, rfl, (value?_binary ?_ ?_).mpr ⟨_, _, he', he, ?_⟩⟩
    all_goals cases ‹Bool› <;> simp [Value.operate?, Value.binary?]
  · -- a reference against `null`
    obtain ⟨e, rest, rfl, he, -⟩ := values?_take_succ hvs
    refine ⟨_, rfl, (value?_binary ?_ ?_).mpr ⟨_, _, he, rfl, ?_⟩⟩
    all_goals cases ‹Bool› <;> simp [Value.operate?, Value.binary?]
    all_goals cases ‹Option Nat› <;> rfl

/-- **One branch.** The recovered condition tells whether the machine takes the branch. -/
lemma tells_of_takes? {op : Opcode} {branch : Branch} (hop : branches.lookup op.raw = some branch) {stack : List Expr}
    {vs : List Value} (hvs : I.values? (stack.take branch.arity) = some vs) {t : Bool}
    (ht : branch.takes? vs = some t) : ∃ c, condition? op stack = some c ∧ I.Tells c t := by
  have htest := branchTest?_of_lookup hop
  obtain ⟨taken, htaken, hvalue⟩ := value?_takenCondition? hvs ht
  have hcondition : condition? op stack = some ⟨taken, taken.invert⟩ := by
    simp [condition?, htest, htaken]
  obtain ⟨rel, rel', a, b, hrel, heq, hfall⟩ := isComparison_of_condition? hcondition
  refine ⟨_, hcondition, hvalue, ?_⟩
  simp only at heq hfall
  rw [hfall]
  exact value?_complement hrel (heq ▸ hvalue)

/-- Conditions: comparisons of numbers or of references, other expressions with a truth value, and what `&&`, `||` and
`!` make of them. -/
inductive Tests (I : Interpretation) : Expr → Prop
  | numbers {op : BinOp} {a b : Expr} {x y : Value} {m n : Int64} (isRelational : op.isRelational = true)
      (left : I.value? a = some x) (isNumber : x.widen = .long m) (right : I.value? b = some y)
      (isNumber' : y.widen = .long n) : Tests I (.binary op a b)
  | refs {op : BinOp} {a b : Expr} {m n : Option Nat} (isEquality : op = .eq ∨ op = .ne)
      (left : I.value? a = some (.ref m)) (right : I.value? b = some (.ref n)) : Tests I (.binary op a b)
  | leaf {e : Expr} {t : Bool} (value : I.value? e = some (.bool t)) : Tests I e
  | and {a b : Expr} (left : Tests I a) (right : Tests I b) : Tests I (.binary .and a b)
  | or {a b : Expr} (left : Tests I a) (right : Tests I b) : Tests I (.binary .or a b)
  | not {a : Expr} (operand : Tests I a) : Tests I (.unary .not a)

lemma Tests.exists_value (h : I.Tests e) : ∃ t, I.value? e = some (.bool t) := by
  induction h with
  | leaf h => exact ⟨_, h⟩
  | and _ _ iha ihb =>
    obtain ⟨t, ht⟩ := iha
    obtain ⟨u, hu⟩ := ihb
    cases t
    · exact ⟨_, value?_and.mpr (.inl ⟨ht, rfl⟩)⟩
    · exact ⟨_, value?_and.mpr (.inr ⟨ht, hu⟩)⟩
  | or _ _ iha ihb =>
    obtain ⟨t, ht⟩ := iha
    obtain ⟨u, hu⟩ := ihb
    cases t
    · exact ⟨_, value?_or.mpr (.inr ⟨ht, hu⟩)⟩
    · exact ⟨_, value?_or.mpr (.inl ⟨ht, rfl⟩)⟩
  | not _ ih =>
    obtain ⟨t, ht⟩ := ih
    exact ⟨!t, value?_not.mpr (by simpa using ht)⟩
  | @refs op _ _ m n hop ha hb =>
    rcases hop with rfl | rfl
    · exact ⟨_, (value?_binary (by simp) (by simp)).mpr ⟨_, _, ha, hb, rfl⟩⟩
    · exact ⟨_, (value?_binary (by simp) (by simp)).mpr ⟨_, _, ha, hb, rfl⟩⟩
  | @numbers op _ _ x y m n hop ha hx hb hy =>
    obtain ⟨op', hop'⟩ := Option.isSome_iff_exists.mp hop
    have hlazy : op ≠ .and ∧ op ≠ .or := by constructor <;> rintro rfl <;> cases hop
    obtain ⟨t, ht⟩ : ∃ t, op.relates? m.toInt n.toInt = some t := by
      cases op <;> cases hop' <;> exact ⟨_, rfl⟩
    refine ⟨t, (value?_binary hlazy.1 hlazy.2).mpr ⟨x, y, ha, hb, ?_⟩⟩
    rw [Value.operate?_of_widen hop' hx hy, ht]
    rfl

end Source.Interpretation

/-- There is a condition for every conditional branch whose operands are on the stack. -/
lemma condition?_eq_none_iff (op : Opcode) (stack : List Expr) : condition? op stack = none ↔
    branches.lookup op.raw = none ∨ ∃ branch, branches.lookup op.raw = some branch ∧ stack.length < branch.arity := by
  cases hop : branches.lookup op.raw with
  | none => simp [condition?, branchTest?_eq, hop]
  | some branch =>
    have htaken : takenCondition? branch.test stack = none ↔ stack.length < branch.arity := by
      rcases stack with _ | ⟨_, _ | _⟩ <;> cases branch <;> simp [takenCondition?, Branch.test, Branch.arity]
    simp only [condition?, branchTest?_eq, hop, Option.map_some, bind, Option.bind_some, pure, reduceCtorEq, false_or,
      Option.some.injEq, exists_eq_left', ← htaken]
    cases takenCondition? branch.test stack <;> simp

/-- **Conditions.** A conditional branch on a stack that is long enough has a condition, and nothing else has one. The
condition holds if and only if the machine takes the branch, and the opposite condition if and only if it does not. A
negation has the opposite truth value, and to negate twice changes nothing where there is no `!`. -/
theorem condition?_exact (I : Interpretation) (op : Opcode) (stack : List Expr) :
    (condition? op stack = none ↔ branches.lookup op.raw = none ∨
      ∃ branch, branches.lookup op.raw = some branch ∧ stack.length < branch.arity) ∧
    (∀ branch vs t, branches.lookup op.raw = some branch → I.values? (stack.take branch.arity) = some vs →
      branch.takes? vs = some t → ∃ c, condition? op stack = some c ∧
        I.value? c.taken = some (.bool t) ∧ I.value? c.fallthrough = some (.bool !t)) ∧
    (∀ c, I.Tests c → ∃ t, I.value? c = some (.bool t) ∧ I.value? c.negate = some (.bool !t)) ∧
    ∀ c : Expr, c.isPositive = true → c.negate.negate = c := by
  refine ⟨condition?_eq_none_iff op stack, ?_, ?_, fun c => Expr.negate_negate⟩
  · exact fun branch vs t hop hvs ht => Interpretation.tells_of_takes? hop hvs ht
  · intro c hc
    obtain ⟨t, ht⟩ := hc.exists_value
    exact ⟨t, ht, Interpretation.value?_negate ht⟩

/-- `iflt` on the three-way comparison of three and five is taken, and `a < b || a == b` holds. -/
theorem condition?_exact_iflt :
    let I : Interpretation := ⟨fun name => if name = "a" then .long 3 else .long 5, fun _ => .ref none, fun _ _ => none⟩
    let c : Expr := .binary .or (.binary .lt (.var "a") (.var "b")) (.binary .eq (.var "a") (.var "b"))
    (∃ c, condition? ⟨0x9b⟩ [.binary .cmp (.var "a") (.var "b")] = some c ∧
      I.value? c.taken = some (.bool true) ∧ I.value? c.fallthrough = some (.bool false)) ∧
    (∃ t, I.value? c = some (.bool t) ∧ I.value? c.negate = some (.bool !t)) ∧ c.negate.negate = c := by
  intro I c
  obtain ⟨-, hbranch, htree, hdouble⟩ := condition?_exact I ⟨0x9b⟩ [.binary .cmp (.var "a") (.var "b")]
  exact ⟨hbranch (.zero .lt) [.int (-1)] true rfl rfl rfl,
    htree c (.or (.numbers rfl rfl rfl rfl rfl) (.numbers rfl rfl rfl rfl rfl)), hdouble c rfl⟩

end JvmLift
