import Mathlib
import JvmLift.Proofs.PassRules
import JvmLift.Proofs.ReturnedValues

/-!
# Choices between truth values

What becomes of an `if` that returns a truth value on one way and the opposite one on the other. The passes write inner
bodies first, and there the numbers one and zero are truth values already when the `if` around them is looked at, which
is only joined with numbers. So no `if` ever becomes a return of its condition: in a method with a boolean result the
passes leave the same statements as in any other method, and only returned values are written differently.
-/

namespace JvmLift.Idiom

open Source Stmt List

/-! ### Returned values -/

/-- The truth value that a literal is, where one and zero are truth values too. -/
def literalTruth? : Expr → Option Bool
  | .int n => if n = 1 then some true else if n = 0 then some false else none
  | .bool truth => some truth
  | _ => none

/-- The truth value that an expression is when each choice between one and zero is read as its condition. -/
def foldedTruth? : Expr → Option Bool
  | .ternary (.unary .not cond) a b => if literal? a = some 0 ∧ literal? b = some 1 then foldedTruth? cond else none
  | .ternary cond a b => if literal? a = some 1 ∧ literal? b = some 0 then foldedTruth? cond else none
  | e => literalTruth? e

/-- A returned number as a truth value. -/
def truthOf : Expr → Expr
  | .int n => if n == 1 then .bool true else if n == 0 then .bool false else .int n
  | e => e

/-- A returned value of a boolean method. -/
def settled : Expr → Expr
  | .ternary cond a b => truthOf ((chosen? cond (literal? a) (literal? b)).getD (.ternary cond a b))
  | e => truthOf e

/-- A statement of a boolean method, where no `if` is folded. -/
def settle : Stmt → Stmt
  | .returnValue value => .returnValue (settled value)
  | s => s

lemma returnTruth_returnValue (value : Expr) : returnTruth (.returnValue value) = .returnValue (truthOf value) := by
  cases value with
  | int n =>
    simp only [returnTruth, truthOf]
    split_ifs <;> rfl
  | _ => rfl

lemma returnTruth_foldReturn_returnValue (value : Expr) :
    returnTruth (foldReturn (.returnValue value)) = .returnValue (settled value) := by
  cases value with
  | ternary cond a b =>
    simp only [foldReturn, settled]
    cases chosen? cond (literal? a) (literal? b) <;> simp [returnTruth_returnValue]
  | _ => simp [foldReturn, settled, returnTruth_returnValue]

lemma literalTruth?_truthOf (e : Expr) : literalTruth? (truthOf e) = literalTruth? e := by
  cases e with
  | int n =>
    simp only [truthOf, beq_iff_eq]
    split_ifs with h₁ h₀ <;> simp [literalTruth?, *]
  | _ => rfl

lemma foldedTruth?_truthOf (e : Expr) : foldedTruth? (truthOf e) = foldedTruth? e := by
  cases e with
  | int n =>
    have := literalTruth?_truthOf (.int n)
    simp only [truthOf, beq_iff_eq] at this ⊢
    split_ifs at this ⊢ <;> simp_all [foldedTruth?]
  | _ => rfl

/-- Only what stands behind a `!` amounts to a truth value when it is negated. -/
lemma foldedTruth?_negate {cond : Expr} (h : ∀ inner, cond ≠ .unary .not inner) : foldedTruth? cond.negate = none := by
  revert h
  induction cond using Expr.negate_induction with
  | not a => exact fun h => absurd rfl (h a)
  | and | or | complement | other => simp [foldedTruth?, literalTruth?]

lemma foldedTruth?_settled (e : Expr) : foldedTruth? (settled e) = foldedTruth? e := by
  cases e with
  | ternary cond a b =>
    rw [settled, foldedTruth?_truthOf]
    cases hchosen : chosen? cond (literal? a) (literal? b) with
    | none => rfl
    | some value =>
      by_cases hcond : ∃ inner, cond = .unary .not inner
      · obtain ⟨inner, rfl⟩ := hcond
        obtain ⟨ha, hb, rfl⟩ | ⟨ha, hb, rfl⟩ := of_chosen? hchosen
        · simp [foldedTruth?, literalTruth?, ha, hb]
        · simp [foldedTruth?, ha, hb]
      · have hne : ∀ inner, cond ≠ .unary .not inner := fun inner h => hcond ⟨inner, h⟩
        obtain ⟨ha, hb, rfl⟩ | ⟨ha, hb, rfl⟩ := of_chosen? hchosen
        · simp [foldedTruth?, ha, hb]
        · simp [foldedTruth?, ha, hb, foldedTruth?_negate hne]
  | _ => simp [settled, foldedTruth?_truthOf]

/-- A literal is written as the truth value that it is. -/
lemma literalTruth?_settled {e : Expr} {truth : Bool} (h : literalTruth? e = some truth) :
    literalTruth? (settled e) = some truth := by
  cases e with
  | ternary => cases h
  | _ => rw [settled, literalTruth?_truthOf, h]; simp

lemma foldedTruth?_of_literalTruth? {e : Expr} {truth : Bool} (h : literalTruth? e = some truth) :
    foldedTruth? e = some truth := by
  cases e <;> first | exact h | cases h

/-- Two values that a boolean method may write for one returned value. The first one is a literal where the second one
is, and both amount to the same truth value. -/
structure Settles (value value' : Expr) : Prop where
  literal : ∀ truth, literalTruth? value' = some truth → literalTruth? value = some truth
  folded : foldedTruth? value = foldedTruth? value'

lemma Settles.refl (value : Expr) : Settles value value :=
  ⟨fun _ h => h, rfl⟩

lemma Settles.settled {value value' : Expr} (h : Settles value value') : Settles (settled value) value' :=
  ⟨fun truth hliteral => literalTruth?_settled (h.literal truth hliteral), (foldedTruth?_settled value).trans h.folded⟩

/-! ### Folding after the inner bodies -/

/-- A body that returns neither one nor zero as a number. -/
def IsSettled (body : List Stmt) : Prop :=
  ∀ s ∈ body, returnedLiteral? s ≠ some 1 ∧ returnedLiteral? s ≠ some 0

/-- A statement whose bodies, if it is an `if`, return neither one nor zero as a number. -/
def BranchesSettled : Stmt → Prop
  | .ifThen _ body => IsSettled body
  | .ifElse _ thenBody elseBody => IsSettled thenBody ∧ IsSettled elseBody
  | _ => True

lemma onlyReturn?_ne_of_isSettled {body : List Stmt} (h : IsSettled body) :
    onlyReturn? body ≠ some 1 ∧ onlyReturn? body ≠ some 0 := by
  unfold onlyReturn?
  split
  · exact h _ mem_cons_self
  · simp

/-- An `if` with settled bodies chooses nothing. -/
lemma chosen?_eq_none_of_isSettled {body : List Stmt} (h : IsSettled body) (cond : Expr) (other : Option Int32) :
    chosen? cond (onlyReturn? body) other = none := by
  obtain ⟨h₁, h₀⟩ := onlyReturn?_ne_of_isSettled h
  simp [chosen?, h₁, h₀]

lemma returnTruth_foldReturn {s : Stmt} (h : BranchesSettled s) : returnTruth (foldReturn s) = settle s := by
  cases s with
  | ifElse cond thenBody elseBody => simp only [foldReturn, chosen?_eq_none_of_isSettled h.1, returnTruth, settle]
  | returnValue value => rw [returnTruth_foldReturn_returnValue, settle]
  | _ => rfl

lemma branchesSettled_foldReturn {s : Stmt} (h : BranchesSettled s) : BranchesSettled (foldReturn s) := by
  unfold foldReturn
  split
  · simpa only [chosen?_eq_none_of_isSettled h.1] using h
  · split <;> trivial
  · exact h

lemma pushReturn_eq_cons {done : List Stmt} (h : ∀ s ∈ done, BranchesSettled s) (s : Stmt) :
    pushReturn done s = s :: done := by
  unfold pushReturn
  split
  · rw [chosen?_eq_none_of_isSettled (h _ mem_cons_self)]
  · rfl

lemma foldl_pushReturn {body done : List Stmt} (hbody : ∀ s ∈ body, BranchesSettled s)
    (hdone : ∀ s ∈ done, BranchesSettled s) : body.foldl pushReturn done = body.reverse ++ done := by
  induction body generalizing done with
  | nil => rfl
  | cons s body ih =>
    rw [forall_mem_cons] at hbody
    rw [foldl_cons, pushReturn_eq_cons hdone, ih hbody.2 (forall_mem_cons.mpr ⟨hbody.1, hdone⟩)]
    simp

/-- Where the bodies of every `if` are settled, each statement is settled by itself and none is joined with another. -/
lemma foldReturns_eq_map {body : List Stmt} (h : ∀ s ∈ body, BranchesSettled s) :
    foldReturns body = body.map settle := by
  have hfolded : ∀ s ∈ body.map foldReturn, BranchesSettled s :=
    forall_mem_map.mpr fun s hs => branchesSettled_foldReturn (h s hs)
  rw [foldReturns, foldl_pushReturn hfolded (by simp), append_nil, reverse_reverse, map_map]
  exact map_congr_left fun s hs => returnTruth_foldReturn (h s hs)

/-- The passes for monitors and loops make no `if`. -/
lemma branchesSettled_loops {body : List Stmt} (h : ∀ s ∈ body, BranchesSettled s) :
    ∀ s ∈ recoverFor (recoverForEach (recoverSynchronized body)), BranchesSettled s := by
  have hsections : KeptBySections BranchesSettled := ⟨fun _ _ _ => trivial, fun _ _ _ _ => trivial⟩
  refine forall_mem_joinHeads ?_ (forall_mem_joinHeads ?_ (forall_mem_recoverSynchronized hsections h))
  · intro setup cond inner loop hloop _ _
    obtain ⟨front, start, startValue, target, value, -, -, -, rfl⟩ := of_forLoop? hloop
    trivial
  · intro setup cond inner loop hloop _ _
    obtain ⟨-, iterable, type, name, first, rest, -, -, -, -, rfl⟩ := of_forEach? hloop
    trivial

lemma returnedLiteral?_returnTruth (s : Stmt) :
    returnedLiteral? (returnTruth s) ≠ some 1 ∧ returnedLiteral? (returnTruth s) ≠ some 0 := by
  unfold returnTruth
  split
  · split_ifs <;> simp_all [returnedLiteral?, literal?]
  · next h =>
    constructor <;> intro hliteral
    · exact h 1 (of_returnedLiteral? hliteral)
    · exact h 0 (of_returnedLiteral? hliteral)

lemma returnedLiteral?_foldAssign (s : Stmt) : returnedLiteral? (foldAssign s) = returnedLiteral? s := by
  unfold foldAssign
  split
  · split_ifs <;> rfl
  · rfl

/-- What the passes of a boolean method leave is settled. -/
lemma isSettled_recoverBody (body : List Stmt) : IsSettled (recoverBody true body) := by
  intro s hs
  simp only [recoverBody, if_true, foldAssigns, foldReturns] at hs
  obtain ⟨_, hreturn, rfl⟩ := mem_map.mp hs
  obtain ⟨_, -, rfl⟩ := mem_map.mp hreturn
  simpa only [returnedLiteral?_foldAssign] using returnedLiteral?_returnTruth _

/-- The branches of an `if` have been through the passes before the body that the `if` is in. -/
lemma branchesSettled_mapBodies (s : Stmt) : BranchesSettled (s.mapBodies (recoverBody true)) := by
  cases s with
  | ifThen cond body => exact isSettled_recoverBody _
  | ifElse cond thenBody elseBody => exact ⟨isSettled_recoverBody _, isSettled_recoverBody _⟩
  | _ => trivial

lemma like_settle {s s' : Stmt} (h : Like Settles s s') : Like Settles (settle s) s' := by
  cases h with
  | returnValue hvalue => exact .returnValue hvalue.settled
  | _ => constructor <;> assumption

/-- **A boolean method keeps every `if`.** What the passes make of its body is what they make of the body of any method,
up to the values that are returned. -/
theorem likeIn_recover (body : List Stmt) : LikeIn Settles (recover true body) (recover false body) := by
  have hpass : AlikePasses Settles BranchesSettled (recoverBody true) (recoverBody false) := by
    refine ⟨branchesSettled_mapBodies, fun {body body'} hbody h => ?_⟩
    have hloops : LikeIn Settles (recoverFor (recoverForEach (recoverSynchronized body)))
        (recoverFor (recoverForEach (recoverSynchronized body'))) :=
      likeIn_joinHeads rel_forLoop? (likeIn_joinHeads rel_forEach? (likeIn_recoverSynchronized h))
    simp only [recoverBody, if_true, Bool.false_eq_true, if_false, foldReturns_eq_map (branchesSettled_loops hbody)]
    exact likeIn_foldAssigns (forall₂_map_left_iff.mpr (hloops.imp fun _ _ hs => like_settle hs))
  exact likeIn_dropReturn (likeIn_bottomUp hpass (likeIn_refl Settles.refl body))

/-! ### Choices -/

/-- An `if`, in front of what follows it, that returns a truth value on one way and the opposite one on the other. -/
inductive Chooses (truth? : Expr → Option Bool) : Stmt → List Stmt → Prop
  | ifElse {cond a b truth rest} : truth? a = some truth → truth? b = some (!truth) →
    Chooses truth? (.ifElse cond [.returnValue a] [.returnValue b]) rest
  | ifThen {cond a b truth rest} : truth? a = some truth → truth? b = some (!truth) →
    Chooses truth? (.ifThen cond [.returnValue a]) (.returnValue b :: rest)

/-- A body with such an `if` in it, by itself or inside. -/
def HasChoice (truth? : Expr → Option Bool) (body : List Stmt) : Prop :=
  ∃ inner ∈ bodiesIn body, ∃ front s rest, inner = front ++ s :: rest ∧ Chooses truth? s rest

section Transfer

variable {R : Expr → Expr → Prop} {truth? truth?' : Expr → Option Bool} {body body' : List Stmt}

lemma exists_split_of_forall₂ {α β : Type*} {S : α → β → Prop} {front rest : List α} {x : α} {ys : List β}
    (h : Forall₂ S (front ++ x :: rest) ys) :
    ∃ front' y rest', ys = front' ++ y :: rest' ∧ S x y ∧ Forall₂ S rest rest' := by
  induction front generalizing ys with
  | nil =>
    cases h with
    | cons hxy hrest => exact ⟨[], _, _, rfl, hxy, hrest⟩
  | cons _ front ih =>
    cases h with
    | cons _ hrest =>
      obtain ⟨front', y, rest', rfl, hxy, hrest⟩ := ih hrest
      exact ⟨_ :: front', y, rest', rfl, hxy, hrest⟩

lemma exists_mem_of_forall₂ {α β : Type*} {S : α → β → Prop} {xs : List α} {ys : List β} {x : α} (h : Forall₂ S xs ys)
    (hx : x ∈ xs) : ∃ y ∈ ys, S x y := by
  obtain ⟨front, rest, rfl⟩ := append_of_mem hx
  obtain ⟨front', y, rest', rfl, hxy, -⟩ := exists_split_of_forall₂ h
  exact ⟨y, by simp, hxy⟩

lemma likeIn_return_left {value : Expr} (h : LikeIn R [.returnValue value] body') :
    ∃ value', body' = [.returnValue value'] ∧ R value value' := by
  cases h with
  | cons hs hrest =>
    cases hs with
    | returnValue hvalue =>
      cases hrest
      exact ⟨_, rfl, hvalue⟩

lemma likeIn_return_right {value' : Expr} (h : LikeIn R body [.returnValue value']) :
    ∃ value, body = [.returnValue value] ∧ R value value' := by
  cases h with
  | cons hs hrest =>
    cases hs with
    | returnValue hvalue =>
      cases hrest
      exact ⟨_, rfl, hvalue⟩

/-- Choices are kept from the first tree to the second one. -/
lemma HasChoice.of_likeIn_left (hR : ∀ {value value' truth}, R value value' → truth? value = some truth →
    truth?' value' = some truth) (h : LikeIn R body body') (hchoice : HasChoice truth? body) :
    HasChoice truth?' body' := by
  obtain ⟨inner, hinner, front, s, rest, rfl, hchooses⟩ := hchoice
  obtain ⟨inner', hinner', hlike⟩ := exists_mem_of_forall₂ (.cons h (forall₂_bodiesEach h)) hinner
  obtain ⟨front', s', rest', rfl, hs, hrest⟩ := exists_split_of_forall₂ hlike
  refine ⟨_, hinner', front', s', rest', rfl, ?_⟩
  cases hchooses with
  | ifElse ha hb =>
    cases hs with
    | ifElse hthen helse =>
      obtain ⟨a', rfl, ha'⟩ := likeIn_return_left hthen
      obtain ⟨b', rfl, hb'⟩ := likeIn_return_left helse
      exact .ifElse (hR ha' ha) (hR hb' hb)
  | ifThen ha hb =>
    cases hs with
    | ifThen hthen =>
      obtain ⟨a', rfl, ha'⟩ := likeIn_return_left hthen
      cases hrest with
      | cons hreturn _ =>
        cases hreturn with
        | returnValue hb' => exact .ifThen (hR ha' ha) (hR hb' hb)

/-- Choices are kept from the second tree to the first one. -/
lemma HasChoice.of_likeIn_right (hR : ∀ {value value' truth}, R value value' → truth?' value' = some truth →
    truth? value = some truth) (h : LikeIn R body body') (hchoice : HasChoice truth?' body') :
    HasChoice truth? body := by
  obtain ⟨inner', hinner', front', s', rest', rfl, hchooses⟩ := hchoice
  have hbodies : Forall₂ (LikeIn R) (bodiesIn body) (bodiesIn body') := .cons h (forall₂_bodiesEach h)
  obtain ⟨inner, hinner, hlike⟩ := exists_mem_of_forall₂ hbodies.flip hinner'
  obtain ⟨front, s, rest, rfl, hs, hrest⟩ := exists_split_of_forall₂ hlike.flip
  refine ⟨_, hinner, front, s, rest, rfl, ?_⟩
  cases hchooses with
  | ifElse ha hb =>
    cases hs with
    | ifElse hthen helse =>
      obtain ⟨a, rfl, ha'⟩ := likeIn_return_right hthen
      obtain ⟨b, rfl, hb'⟩ := likeIn_return_right helse
      exact .ifElse (hR ha' ha) (hR hb' hb)
  | ifThen ha hb =>
    cases hs with
    | ifThen hthen =>
      obtain ⟨a, rfl, ha'⟩ := likeIn_return_right hthen
      cases hrest with
      | cons hreturn _ =>
        cases hreturn with
        | returnValue hb' => exact .ifThen (hR ha' ha) (hR hb' hb)

end Transfer

/-- **Choices between truth values are not folded.** An `if` that chooses between two literals is left in a boolean
method wherever the passes leave one in any other method, and it is left nowhere else, unless a returned choice between
one and zero amounts to a literal. -/
theorem hasChoice_recover (body : List Stmt) :
    (HasChoice literalTruth? (recover false body) → HasChoice literalTruth? (recover true body)) ∧
      (HasChoice literalTruth? (recover true body) → HasChoice foldedTruth? (recover false body)) := by
  have hlike := likeIn_recover body
  refine ⟨.of_likeIn_right (fun h => h.literal _) hlike, .of_likeIn_left (fun h hliteral => ?_) hlike⟩
  rw [← h.folded]
  exact foldedTruth?_of_literalTruth? hliteral

/-- An `if` with a return of one and a return of zero stays an `if`. -/
theorem hasChoice_recover_ifElse : HasChoice literalTruth?
    (recover true [.ifElse (.var "c") [.returnValue (.int 1)] [.returnValue (.int 0)]]) := by
  have hrecover : recover true [.ifElse (.var "c") [.returnValue (.int 1)] [.returnValue (.int 0)]] =
      [.ifElse (.var "c") [.returnValue (.bool true)] [.returnValue (.bool false)]] := by rfl
  rw [hrecover]
  exact ⟨_, mem_cons_self, [], _, [], rfl, .ifElse rfl rfl⟩

end JvmLift.Idiom
