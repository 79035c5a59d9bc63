import Mathlib
import JvmLift.Source.Stmt

/-!
# Traces of statements

What can be seen of a run of statements: the actions that it performs, the tests that it makes and how they come out,
and how it ends. Outcomes of tests are not determined, so the meaning of a statement is a relation between traces and
endings. A run may be interrupted in front of an action, of a test and of a round of a loop; then its trace is the
beginning of a longer one. Comparisons that are complements of each other are one test with two outcomes.

Switches, protected ranges and loops with heads have no meaning here: a run that gets to one is interrupted.
-/

namespace JvmLift.Trace

open Source

inductive Event
  /-- A statement without statements inside is performed. -/
  | act (s : Stmt)
  /-- A test comes out. -/
  | test (e : Expr) (outcome : Bool)

/-- How a run of statements ends. -/
inductive Ending
  | done
  | broken
  | continued
  /-- The method has been left. -/
  | left
  /-- The run was interrupted. -/
  | cut
  deriving DecidableEq

/-- The traces of something that comes to results of a type. -/
abbrev Behaviour (α : Type) := List Event → α → Prop

namespace Behaviour

variable {α β γ : Type}

/-- Comes to a result at once. -/
def ends (a : α) : Behaviour α := fun t b => t = [] ∧ b = a

/-- One behaviour behind another, which depends on its result. -/
def andThen (A : Behaviour α) (K : α → Behaviour β) : Behaviour β := fun t b =>
  ∃ t₁ t₂ a, t = t₁ ++ t₂ ∧ A t₁ a ∧ K a t₂ b

@[simp] lemma ends_andThen (a : α) (K : α → Behaviour β) : (ends a).andThen K = K a := by
  funext t b
  refine propext ⟨?_, fun h => ⟨[], t, a, rfl, ⟨rfl, rfl⟩, h⟩⟩
  rintro ⟨_, t₂, _, rfl, ⟨rfl, rfl⟩, h⟩
  exact h

@[simp] lemma andThen_ends (A : Behaviour α) : A.andThen ends = A := by
  funext t b
  refine propext ⟨?_, fun h => ⟨t, [], b, by simp, h, rfl, rfl⟩⟩
  rintro ⟨t₁, _, _, rfl, h, rfl, rfl⟩
  simpa using h

lemma andThen_assoc (A : Behaviour α) (K : α → Behaviour β) (L : β → Behaviour γ) :
    (A.andThen K).andThen L = A.andThen fun a => (K a).andThen L := by
  funext t c
  refine propext ⟨?_, ?_⟩
  · rintro ⟨_, t₃, b, rfl, ⟨t₁, t₂, a, rfl, hA, hK⟩, hL⟩
    exact ⟨t₁, t₂ ++ t₃, a, by simp, hA, t₂, t₃, b, rfl, hK, hL⟩
  · rintro ⟨t₁, _, a, rfl, hA, t₂, t₃, b, rfl, hK, hL⟩
    exact ⟨t₁ ++ t₂, t₃, b, by simp, ⟨t₁, t₂, a, rfl, hA, hK⟩, hL⟩

lemma andThen_mono {A A' : Behaviour α} {K K' : α → Behaviour β} (hA : A ≤ A') (hK : ∀ a t, A t a → K a ≤ K' a) :
    A.andThen K ≤ A'.andThen K' := by
  rintro t b ⟨t₁, t₂, a, rfl, h, h'⟩
  exact ⟨t₁, t₂, a, rfl, hA t₁ a h, hK a t₁ h t₂ b h'⟩

/-- Only results that occur matter for what comes behind. -/
lemma andThen_congr {A : Behaviour α} {K K' : α → Behaviour β} (h : ∀ a t, A t a → K a = K' a) :
    A.andThen K = A.andThen K' := by
  refine le_antisymm (andThen_mono le_rfl fun a t ha => (h a t ha).le) ?_
  exact andThen_mono le_rfl fun a t ha => (h a t ha).ge

end Behaviour

open Behaviour

/-! ### Tests -/

/-- The test that a comparison makes, and the outcome with which it holds. -/
def atom : Expr → Expr × Bool
  | .binary .ne a b => (.binary .eq a b, false)
  | .binary .ge a b => (.binary .lt a b, false)
  | .binary .le a b => (.binary .gt a b, false)
  | e => (e, true)

/-- An expression whose value is tested as a whole. -/
def testAtom (e : Expr) : Behaviour (Option Bool) := fun t r =>
  (t = [] ∧ r = none) ∨ ∃ v, t = [.test (atom e).1 v] ∧ r = some (v == (atom e).2)

/-- The tests that the evaluation of a condition makes, from left to right and only where they matter. The result is
`none` if the evaluation was interrupted. -/
def tests : Expr → Behaviour (Option Bool)
  | .bool v => ends (some v)
  | .unary .not a => (tests a).andThen fun r => ends (r.map not)
  | .binary .or a b => (tests a).andThen fun r => if r = some false then tests b else ends r
  | .binary .and a b => (tests a).andThen fun r => if r = some true then tests b else ends r
  | e => testAtom e

/-- The same tests with the opposite result. -/
def negated (C : Behaviour (Option Bool)) : Behaviour (Option Bool) :=
  C.andThen fun r => ends (r.map not)

lemma negated_andThen {α : Type} (C : Behaviour (Option Bool)) (K : Option Bool → Behaviour α) :
    (negated C).andThen K = C.andThen fun r => K (r.map not) := by
  simp only [negated, andThen_assoc, ends_andThen]

lemma negated_of_andThen {α : Type} (A : Behaviour α) (K : α → Behaviour (Option Bool)) :
    negated (A.andThen K) = A.andThen fun a => negated (K a) :=
  andThen_assoc A K _

lemma negated_negated (C : Behaviour (Option Bool)) : negated (negated C) = C := by
  conv_rhs => rw [← andThen_ends C]
  rw [negated, negated_andThen]
  congr
  funext r
  cases r <;> simp

lemma negated_testAtom {e e' : Expr} (h : atom e' = ((atom e).1, !(atom e).2)) :
    testAtom e' = negated (testAtom e) := by
  funext t r
  refine propext ⟨?_, ?_⟩
  · rintro (⟨rfl, rfl⟩ | ⟨v, rfl, rfl⟩)
    · exact ⟨[], [], none, rfl, .inl ⟨rfl, rfl⟩, rfl, rfl⟩
    · refine ⟨_, [], some (v == (atom e).2), by simp [h], .inr ⟨v, rfl, rfl⟩, rfl, ?_⟩
      rw [h]
      cases v <;> cases (atom e).2 <;> rfl
  · rintro ⟨_, _, _, rfl, ⟨rfl, rfl⟩ | ⟨v, rfl, rfl⟩, rfl, rfl⟩
    · exact .inl ⟨rfl, rfl⟩
    · refine .inr ⟨v, by simp [h], ?_⟩
      rw [h]
      cases v <;> cases (atom e).2 <;> rfl

/-- A comparison and its complement make the same test. -/
lemma tests_complement {op op' : BinOp} (h : op.complement? = some op') (a b : Expr) :
    tests (.binary op' a b) = negated (tests (.binary op a b)) := by
  cases op <;> cases h <;> exact negated_testAtom rfl

/-- **Negation.** A condition and its negation make the same tests and come to opposite results. -/
lemma tests_negate (e : Expr) : tests e.negate = negated (tests e) := by
  fun_induction Expr.negate e with
  | case1 a => exact (negated_negated (tests a)).symm
  | case2 a b iha ihb =>
    simp only [tests, iha, ihb, negated_andThen, negated_of_andThen]
    congr
    funext r
    rcases r with _ | _ | _ <;> simp [negated]
  | case3 a b iha ihb =>
    simp only [tests, iha, ihb, negated_andThen, negated_of_andThen]
    congr
    funext r
    rcases r with _ | _ | _ <;> simp [negated]
  | case4 op a b hand hor op' h => exact tests_complement h a b
  | case5 op a b hand hor h => rfl
  | case6 e => rfl

/-- The evaluation of a condition comes to a result or is interrupted before its first test. -/
lemma exists_tests_nil (e : Expr) : ∃ r, tests e [] r := by
  have hsilent {α β : Type} {A : Behaviour α} {K : α → Behaviour β} (hA : ∃ a, A [] a) (hK : ∀ a, ∃ b, K a [] b) :
      ∃ b, A.andThen K [] b := by
    obtain ⟨a, ha⟩ := hA
    obtain ⟨b, hb⟩ := hK a
    exact ⟨b, [], [], a, rfl, ha, hb⟩
  fun_induction tests e with
  | case1 v => exact ⟨_, rfl, rfl⟩
  | case2 a ih => exact hsilent ih fun r => ⟨_, rfl, rfl⟩
  | case3 a b iha ihb =>
    refine hsilent iha fun r => ?_
    split
    · exact ihb
    · exact ⟨_, rfl, rfl⟩
  | case4 a b iha ihb =>
    refine hsilent iha fun r => ?_
    split
    · exact ihb
    · exact ⟨_, rfl, rfl⟩
  | case5 e => exact ⟨none, .inl ⟨rfl, rfl⟩⟩

/-! ### Statements -/

/-- Performs an action. -/
def act (s : Stmt) (x : Ending) : Behaviour Ending := fun t y =>
  (t = [] ∧ y = .cut) ∨ (t = [.act s] ∧ y = x)

/-- Goes on only behind what has been done. -/
def onDone (B : Behaviour Ending) (x : Ending) : Behaviour Ending :=
  if x = .done then B else ends x

/-- Goes one of two ways after a test. -/
def pick (A B : Behaviour Ending) : Option Bool → Behaviour Ending
  | none => ends .cut
  | some true => A
  | some false => B

/-- A test with what follows its outcomes. -/
def tested (cond : Expr) (A B : Behaviour Ending) : Behaviour Ending :=
  (tests cond).andThen (pick A B)

lemma tested_mono {cond : Expr} {A A' B B' : Behaviour Ending} (hA : A ≤ A') (hB : B ≤ B') :
    tested cond A B ≤ tested cond A' B' := by
  refine andThen_mono le_rfl fun r _ _ => ?_
  rcases r with _ | _ | _
  · exact le_rfl
  · exact hB
  · exact hA

lemma tested_andThen (cond : Expr) (A B : Behaviour Ending) {K : Ending → Behaviour Ending} (hK : K .cut = ends .cut) :
    (tested cond A B).andThen K = tested cond (A.andThen K) (B.andThen K) := by
  rw [tested, andThen_assoc, tested]
  congr
  funext r
  rcases r with _ | _ | _ <;> simp [pick, hK]

lemma cut_le_tested {A B : Behaviour Ending} (cond : Expr) (hA : ends .cut ≤ A) (hB : ends .cut ≤ B) :
    ends .cut ≤ tested cond A B := by
  rintro _ _ ⟨rfl, rfl⟩
  obtain ⟨o, ho⟩ := exists_tests_nil cond
  refine ⟨[], [], o, rfl, ho, ?_⟩
  rcases o with _ | _ | _
  · exact ⟨rfl, rfl⟩
  · exact hB [] .cut ⟨rfl, rfl⟩
  · exact hA [] .cut ⟨rfl, rfl⟩

lemma tested_of_negated {e e' : Expr} (h : tests e' = negated (tests e)) (A B : Behaviour Ending) :
    tested e' A B = tested e B A := by
  rw [tested, h, negated_andThen, tested]
  congr
  funext r
  rcases r with _ | _ | _ <;> rfl

lemma tested_negate (e : Expr) (A B : Behaviour Ending) : tested e.negate A B = tested e B A :=
  tested_of_negated (tests_negate e) A B

/-- The second condition is tested where the first does not hold. -/
lemma tested_or (e e' : Expr) (A B : Behaviour Ending) :
    tested (.binary .or e e') A B = tested e A (tested e' A B) := by
  simp only [tested, tests, andThen_assoc]
  congr
  funext r
  rcases r with _ | _ | _ <;> simp [pick]

lemma tested_true (A B : Behaviour Ending) : tested (.bool true) A B = A := by
  simp only [tested, tests, ends_andThen, pick]

/-- How a loop ends after a round with the given ending, if it does. -/
def Ending.ofRound : Ending → Option Ending
  | .done | .continued => none
  | .broken => some .done
  | .left => some .left
  | .cut => some .cut

/-- The rounds of a loop. -/
inductive Rounds (C : Behaviour (Option Bool)) (B : Behaviour Ending) : Behaviour Ending
  | cut : Rounds C B [] .cut
  | cutTest {t : List Event} : C t none → Rounds C B t .cut
  | exit {t : List Event} : C t (some false) → Rounds C B t .done
  | stop {t₁ t₂ : List Event} {x y : Ending} : C t₁ (some true) → B t₂ x → x.ofRound = some y → Rounds C B (t₁ ++ t₂) y
  | again {t₁ t₂ t₃ : List Event} {x y : Ending} : C t₁ (some true) → B t₂ x → x.ofRound = none → Rounds C B t₃ y →
      Rounds C B (t₁ ++ (t₂ ++ t₃)) y

mutual

/-- The runs of a statement. -/
def runs : Stmt → Behaviour Ending
  | .block body => runsEach body
  | .ifThen cond body => tested cond (runsEach body) (ends .done)
  | .ifElse cond thenBody elseBody => tested cond (runsEach thenBody) (runsEach elseBody)
  | .whileLoop cond body => Rounds (tests cond) (runsEach body)
  | .breakOut => ends .broken
  | .continueLoop => ends .continued
  | s@.returnVoid | s@(.returnValue _) | s@(.throwValue _) => act s .left
  | s@(.assign ..) | s@(.evaluate _) | s@(.comment _) => act s .done
  | .forLoop .. | .forEach .. | .switch .. | .tryCatch .. | .synchronized .. => ends .cut

/-- The runs of a body. -/
def runsEach : List Stmt → Behaviour Ending
  | [] => ends .done
  | s :: rest => (runs s).andThen (onDone (runsEach rest))

end

@[simp] lemma runsEach_nil : runsEach [] = ends .done := rfl

lemma runsEach_cons (s : Stmt) (rest : List Stmt) :
    runsEach (s :: rest) = (runs s).andThen (onDone (runsEach rest)) := rfl

lemma onDone_cut (B : Behaviour Ending) : onDone B .cut = ends .cut := rfl

@[simp] lemma onDone_ends : onDone (ends .done) = ends := by
  funext x
  cases x <;> rfl

@[simp] lemma runsEach_singleton (s : Stmt) : runsEach [s] = runs s := by
  rw [runsEach_cons, runsEach_nil, onDone_ends, andThen_ends]

lemma onDone_andThen (B : Behaviour Ending) (K : Ending → Behaviour Ending) (x : Ending) :
    (onDone B x).andThen K = if x = .done then B.andThen K else K x := by
  unfold onDone
  split <;> simp

/-- One body behind another. -/
lemma runsEach_append (a b : List Stmt) : runsEach (a ++ b) = (runsEach a).andThen (onDone (runsEach b)) := by
  induction a with
  | nil => simp [onDone]
  | cons s rest ih =>
    rw [List.cons_append, runsEach_cons, ih, runsEach_cons, andThen_assoc]
    congr
    funext x
    rw [onDone_andThen]
    unfold onDone
    split <;> simp_all

lemma runsEach_append_andThen (a b : List Stmt) (K : Ending → Behaviour Ending) :
    (runsEach (a ++ b)).andThen K =
      (runsEach a).andThen fun x => if x = .done then (runsEach b).andThen K else K x := by
  rw [runsEach_append, andThen_assoc]
  congr
  funext x
  exact onDone_andThen _ K x

lemma runsEach_ifThen (cond : Expr) (body rest : List Stmt) :
    runsEach (.ifThen cond body :: rest) = tested cond (runsEach (body ++ rest)) (runsEach rest) := by
  rw [runsEach_cons, runs, tested_andThen _ _ _ (onDone_cut _), runsEach_append, ends_andThen]
  rfl

lemma runsEach_ifElse (cond : Expr) (thenBody elseBody rest : List Stmt) :
    runsEach (.ifElse cond thenBody elseBody :: rest) =
      tested cond (runsEach (thenBody ++ rest)) (runsEach (elseBody ++ rest)) := by
  rw [runsEach_cons, runs, tested_andThen _ _ _ (onDone_cut _), runsEach_append, runsEach_append]

/-- The end is not reached behind a statement that control does not get past. -/
lemma not_done_of_isExit {ss : List Stmt} {s : Stmt} (hlast : ss.getLast? = some s) (hs : s.isExit = true)
    (t : List Event) : ¬ runsEach ss t .done := by
  rw [← List.dropLast_append_getLast? s hlast, runsEach_append, runsEach_singleton]
  rintro ⟨t₁, t₂, x, rfl, -, hthen⟩
  have hruns (t : List Event) : ¬ runs s t .done := by
    intro h
    cases s <;> cases hs
    · rcases h with ⟨-, h⟩ | ⟨-, h⟩ <;> cases h
    · rcases h with ⟨-, h⟩ | ⟨-, h⟩ <;> cases h
    · rcases h with ⟨-, h⟩ | ⟨-, h⟩ <;> cases h
    · cases h.2
    · cases h.2
  by_cases hx : x = .done
  · simp only [onDone, hx, if_true] at hthen
    exact hruns t₂ hthen
  · simp only [onDone, hx, if_false] at hthen
    exact hx hthen.2.symm

/-! ### First events -/

lemma tested_cons_iff {e : Expr} (he : tests e = testAtom e) {A B : Behaviour Ending} {ev : Event} {t : List Event}
    {x : Ending} : tested e A B (ev :: t) x ↔
      ∃ v, ev = .test (atom e).1 v ∧ pick A B (some (v == (atom e).2)) t x := by
  rw [tested, he]
  constructor
  · rintro ⟨_, t₂, _, ht, ⟨rfl, rfl⟩ | ⟨v, rfl, rfl⟩, h⟩
    · cases ht.trans h.1
    · cases ht
      exact ⟨v, rfl, h⟩
  · rintro ⟨v, rfl, h⟩
    exact ⟨[.test (atom e).1 v], t, _, rfl, .inr ⟨v, rfl, rfl⟩, h⟩

lemma act_cons_iff {s : Stmt} {a : Ending} {K : Ending → Behaviour Ending} (hK : K .cut = ends .cut) {ev : Event}
    {t : List Event} {x : Ending} : (act s a).andThen K (ev :: t) x ↔ ev = .act s ∧ K a t x := by
  constructor
  · rintro ⟨_, t₂, _, ht, ⟨rfl, rfl⟩ | ⟨rfl, rfl⟩, h⟩
    · rw [hK] at h
      cases ht.trans h.1
    · cases ht
      exact ⟨rfl, h⟩
  · rintro ⟨rfl, h⟩
    exact ⟨[.act s], t, a, rfl, .inr ⟨rfl, rfl⟩, h⟩

/-! ### Silent beginnings -/

/-- Some ending other than leaving the method is reached without an event. -/
def Silent (A : Behaviour Ending) : Prop := ∃ x, x ≠ .left ∧ A [] x

lemma silent_ends {x : Ending} (h : x ≠ .left) : Silent (ends x) := ⟨x, h, rfl, rfl⟩

lemma silent_act (s : Stmt) (x : Ending) : Silent (act s x) := ⟨.cut, nofun, .inl ⟨rfl, rfl⟩⟩

lemma silent_tested {cond : Expr} {A B : Behaviour Ending} (hA : Silent A) (hB : Silent B) :
    Silent (tested cond A B) := by
  obtain ⟨r, hr⟩ := exists_tests_nil cond
  obtain ⟨x, hx, h⟩ : Silent (pick A B r) := by
    rcases r with _ | _ | _
    · exact silent_ends nofun
    · exact hB
    · exact hA
  exact ⟨x, hx, [], [], r, rfl, hr, h⟩

mutual

lemma silent_runs : ∀ s : Stmt, Silent (runs s)
  | .block body => silent_runsEach body
  | .ifThen _ body => silent_tested (silent_runsEach body) (silent_ends nofun)
  | .ifElse _ thenBody elseBody => silent_tested (silent_runsEach thenBody) (silent_runsEach elseBody)
  | .whileLoop .. => ⟨.cut, nofun, .cut⟩
  | .breakOut => silent_ends nofun
  | .continueLoop => silent_ends nofun
  | .returnVoid | .returnValue _ | .throwValue _ => silent_act _ _
  | .assign .. | .evaluate _ | .comment _ => silent_act _ _
  | .forLoop .. | .forEach .. | .switch .. | .tryCatch .. | .synchronized .. => silent_ends nofun

/-- Every body is interrupted or comes to its end, or to a jump, without an event. -/
lemma silent_runsEach : ∀ ss : List Stmt, Silent (runsEach ss)
  | [] => silent_ends nofun
  | s :: rest => by
    obtain ⟨x, hx, hs⟩ := silent_runs s
    by_cases hdone : x = .done
    · obtain ⟨y, hy, hrest⟩ := silent_runsEach rest
      exact ⟨y, hy, [], [], x, rfl, hs, by simpa [onDone, hdone] using hrest⟩
    · exact ⟨x, hx, [], [], x, rfl, hs, by simp [onDone, hdone, ends]⟩

end

/-! ### Loops -/

lemma rounds_mono {C : Behaviour (Option Bool)} {B B' : Behaviour Ending}
    (h : ∀ t x, B t x → ∃ x', x'.ofRound = x.ofRound ∧ B' t x') : Rounds C B ≤ Rounds C B' := by
  intro t x hr
  induction hr with
  | cut => exact .cut
  | cutTest hC => exact .cutTest hC
  | exit hC => exact .exit hC
  | stop hC hB hx =>
    obtain ⟨x', hx', hB'⟩ := h _ _ hB
    exact .stop hC hB' (hx'.trans hx)
  | again hC hB hx _ ih =>
    obtain ⟨x', hx', hB'⟩ := h _ _ hB
    exact .again hC hB' (hx'.trans hx) ih

end JvmLift.Trace
