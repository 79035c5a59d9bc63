import Mathlib
import JvmLift.Proofs.Passage

/-!
# Statements in place of a machine

Statements stand for the machine at a place when they end as it goes on from there. Where they are done, the
machine comes to the block that is next, with the words of the stack that is kept; where they jump, it comes to the
target of the jump, with the words that the construct around was entered with; and where it returns, they return the
same. This is kept by the ways in which a walk puts statements together. The store never changes, so every
test has one outcome, and a round of a loop differs from the one before only by the place of the machine.
-/

namespace JvmLift.Structure.Scope

open JvmLift.Flow Recovery Source

/-! ### Jumps -/

variable {scope : Scope} {g : FlowGraph} {id : BlockId} {jump : Stmt}

lemma cases_of_jump? (h : scope.jump? g id = .ok (some jump)) :
    (jump = .breakOut ∧ scope.frames.head?.any (·.exit == some id) = true) ∨
    (jump = .continueLoop ∧ scope.frames.head?.any (·.exit == some id) = false ∧
      scope.frames.findSome? Frame.header = some id) := by
  rw [Scope.jump?] at h
  split_ifs at h with hexit hheader
  · cases h
    exact .inl ⟨rfl, hexit⟩
  · cases h
    exact .inr ⟨rfl, by simpa using hexit, by simpa using hheader⟩
  · cases h

lemma exists_landing (h : scope.jump? g id = .ok (some jump)) : ∃ landing, scope.landing? id = some landing := by
  obtain ⟨-, hexit⟩ | ⟨-, -, hheader⟩ := cases_of_jump? h
  · obtain ⟨frame, hframe, hid⟩ := (Option.any_eq_true _ _).mp hexit
    exact ⟨frame.stack, by simp [landing?, hframe, Option.filter, hid]⟩
  · obtain ⟨frame, hmem, hid⟩ := List.exists_of_findSome?_eq_some hheader
    have hfound : (scope.frames.find? (·.header == some id)).isSome := by
      rw [List.find?_isSome]
      exact ⟨frame, hmem, by simp [hid]⟩
    refine Option.isSome_iff_exists.mp ?_
    rw [landing?, Option.isSome_map, Option.isSome_or, hfound, Bool.or_true]

/-- A jump in the body of a loop is one of that loop, which was entered with its stack. -/
lemma landing_enterLoop {loop : Loop} {stack : Stack} (h : (scope.enterLoop loop stack).jump? g id = .ok (some jump)) :
    (scope.enterLoop loop stack).landing? id = some stack ∧
      (jump = .breakOut ∧ loop.exit = some id ∨ jump = .continueLoop ∧ loop.header = id) := by
  have hframe : (scope.enterLoop loop stack).frames = .loop loop.header loop.exit stack :: scope.frames := rfl
  obtain ⟨rfl, hexit⟩ | ⟨rfl, hexit, hheader⟩ := cases_of_jump? h
  · have hexit : loop.exit = some id := by simpa [hframe, Frame.exit] using hexit
    simp [landing?, hframe, Option.filter, Frame.exit, Frame.stack, hexit]
  · have hexit : loop.exit ≠ some id := by simpa [hframe, Frame.exit] using hexit
    have hheader : loop.header = id := by simpa [hframe, List.findSome?_cons, Frame.header] using hheader
    simp [landing?, hframe, Option.filter, Frame.exit, Frame.header, Frame.stack, hexit, hheader]

end JvmLift.Structure.Scope

namespace JvmLift.IntCode

open Bytecode JvmLift.Flow Recovery Source Structure

/-! ### Ways of a machine -/

namespace BlockRun

variable {M : BlockRun} {s : Setting} {σ : Store} {k l n : Nat} {p q r : Place} {result : Except Fault (Option Int32)}

/-- The machine comes from one place to another in `k` steps. -/
def Path (M : BlockRun) (k : Nat) (p q : Place) : Prop :=
  ∀ n, M (n + k) p = M n q

/-- The machine comes to no fault. -/
def Safe (M : BlockRun) (p : Place) : Prop :=
  ∀ n e, M n p ≠ some (.error e)

lemma Path.refl (p : Place) : M.Path 0 p p :=
  fun _ => rfl

lemma Path.trans (h : M.Path k p q) (h' : M.Path l q r) : M.Path (l + k) p r := fun n => by
  rw [← Nat.add_assoc, h, h']

lemma Path.safe (h : M.Path k p q) (hp : M.Safe p) : M.Safe q :=
  fun n e hq => hp (n + k) e ((h n).trans hq)

/-- A result is found behind every place on the way to it. -/
lemma Follows.result_behind (hM : M.Follows s σ) (hpath : M.Path k p q) (h : M n p = some result) :
    ∃ m, n = m + k ∧ M m q = some result := by
  by_cases hkn : k ≤ n
  · refine ⟨n - k, by omega, ?_⟩
    rw [← hpath, Nat.sub_add_cancel hkn]
    exact h
  · have hnone : M k p = none := by simpa [hM.zero] using hpath 0
    cases hnone.symm.trans (hM.more (Nat.le_of_not_le hkn) h)

end BlockRun

/-! ### Correspondence -/

section Correspondence

variable {M : BlockRun} {s : Setting} {g : FlowGraph} {σ : Store} {k k' l : Nat} {scope : Scope} {place place' : Place}
variable {id : BlockId} {stack : Stack} {p p' : Progress} {o : Source.Outcome}

/-- The machine comes to a block in at least `k` steps, with the words of a symbolic stack. -/
def Reaches (M : BlockRun) (σ : Store) (k : Nat) (place : Place) (id : BlockId) (stack : Stack) : Prop :=
  ∃ l ns, k ≤ l ∧ HasWords σ stack ns ∧ M.Path l place (id, ns)

/-- The machine comes to the target of a jump, with the words that the construct around was entered with. -/
def Lands (M : BlockRun) (g : FlowGraph) (σ : Store) (k : Nat) (scope : Scope) (place : Place) (jump : Stmt) : Prop :=
  ∃ id landing, scope.jump? g id = .ok (some jump) ∧ scope.landing? id = some landing ∧ Reaches M σ k place id landing

/-- Where the machine comes to, when the statements of a part of a walk have an outcome. -/
def LeadsTo (M : BlockRun) (g : FlowGraph) (σ : Store) (k : Nat) (scope : Scope) (place : Place) (p : Progress) :
    Source.Outcome → Prop
  | .done => ∃ id, p.next = some id ∧ Reaches M σ k place id p.stack
  | .returned x => ∃ n v, x = v.map .int ∧ M n place = some (.ok v)
  | .thrown _ => False
  | .broken => Lands M g σ k scope place .breakOut
  | .continued => Lands M g σ k scope place .continueLoop

/-- The runs of statements in stores of ints. -/
abbrev execInts : List Stmt → Run Store :=
  Evaluation.ofInts.execEach false

/-- A part of a walk stands for the machine, which starts at a place and makes at least `k` steps. -/
structure StandsFor (M : BlockRun) (g : FlowGraph) (σ : Store) (k : Nat) (scope : Scope) (place : Place)
    (p : Progress) : Prop where
  sound : ∀ {τ o}, execInts p.stmts σ τ o → τ = σ ∧ LeadsTo M g σ k scope place p o
  complete : ∀ {n v}, M n place = some (.ok v) → ∃ τ o, execInts p.stmts σ τ o

lemma Reaches.behind (hpath : M.Path l place place') (hk : k' ≤ k + l) (h : Reaches M σ k place' id stack) :
    Reaches M σ k' place id stack := by
  obtain ⟨m, ns, hm, hwords, hpath'⟩ := h
  exact ⟨m + l, ns, by omega, hwords, hpath.trans hpath'⟩

lemma LeadsTo.behind (hpath : M.Path l place place') (hk : k' ≤ k + l) (h : LeadsTo M g σ k scope place' p o) :
    LeadsTo M g σ k' scope place p o := by
  cases o with
  | done =>
    obtain ⟨id, hnext, hreach⟩ := h
    exact ⟨id, hnext, hreach.behind hpath hk⟩
  | returned x =>
    obtain ⟨n, v, hx, hn⟩ := h
    exact ⟨n + l, v, hx, (hpath n).trans hn⟩
  | thrown v => exact h
  | broken | continued =>
    obtain ⟨id, landing, hjump, hlanding, hreach⟩ := h
    exact ⟨id, landing, hjump, hlanding, hreach.behind hpath hk⟩

/-- Only what is done depends on where the walk goes on. -/
lemma LeadsTo.of_ne_done (ho : o ≠ .done) (h : LeadsTo M g σ k scope place p o) : LeadsTo M g σ k scope place p' o := by
  cases o with
  | done => exact absurd rfl ho
  | returned | thrown | broken | continued => exact h

/-- Other statements with the same runs, in front of the same block with the same words. -/
lemma StandsFor.congr (h : StandsFor M g σ k scope place p) (hexec : execInts p'.stmts σ = execInts p.stmts σ)
    (hnext : ∀ id, p.next = some id → p'.next = some id ∧ ∀ ns, HasWords σ p.stack ns → HasWords σ p'.stack ns) :
    StandsFor M g σ k scope place p' := by
  refine ⟨fun {τ o} hrun => ?_, fun hn => ?_⟩
  · obtain ⟨hτ, hleads⟩ := h.sound (hexec ▸ hrun)
    refine ⟨hτ, ?_⟩
    by_cases ho : o = .done
    · subst ho
      obtain ⟨id, hid, l, ns, hl, hwords, hpath⟩ := hleads
      obtain ⟨hid', hwords'⟩ := hnext id hid
      exact ⟨id, hid', l, ns, hl, hwords' ns hwords, hpath⟩
    · exact hleads.of_ne_done ho
  · rw [hexec]
    exact h.complete hn

/-- Statements that do one thing only. -/
lemma standsFor_of_stop (hexec : execInts p.stmts σ = Run.stop o σ) (h : LeadsTo M g σ k scope place p o) :
    StandsFor M g σ k scope place p := by
  refine ⟨fun hrun => ?_, fun _ => ⟨σ, o, ?_⟩⟩
  · rw [hexec] at hrun
    obtain ⟨rfl, rfl⟩ := hrun
    exact ⟨rfl, h⟩
  · rw [hexec]
    exact ⟨rfl, rfl⟩

/-- No statements, in front of the place where the machine is. -/
lemma standsFor_here {ns : List Int32} (hs : HasWords σ stack ns) :
    StandsFor M g σ 0 scope (id, ns) { next := some id, stack } :=
  standsFor_of_stop (o := .done) rfl ⟨id, rfl, 0, ns, Nat.le_refl 0, hs, .refl _⟩

/-- A jump to the block in front of which the machine is. -/
lemma standsFor_jump {jump : Stmt} (h : scope.jump? g id = .ok (some jump)) {ns : List Int32}
    (hs : ∀ landing, scope.landing? id = some landing → HasWords σ landing ns) (next : Option BlockId)
    (stack : Stack) : StandsFor M g σ 0 scope (id, ns) { stmts := [jump], next, stack } := by
  obtain ⟨landing, hlanding⟩ := Scope.exists_landing h
  have hlands : Lands M g σ 0 scope (id, ns) jump :=
    ⟨id, landing, h, hlanding, 0, ns, Nat.le_refl 0, hs landing hlanding, .refl _⟩
  obtain ⟨rfl, -⟩ | ⟨rfl, -⟩ := Scope.cases_of_jump? h
  · exact standsFor_of_stop (o := .broken) (by simp [Evaluation.exec]) hlands
  · exact standsFor_of_stop (o := .continued) (by simp [Evaluation.exec]) hlands

variable (hM : M.Follows s σ)
include hM

lemma StandsFor.behind (hpath : M.Path l place place') (hk : k' ≤ k + l) (h : StandsFor M g σ k scope place' p) :
    StandsFor M g σ k' scope place p := by
  refine ⟨fun hrun => ?_, fun hn => ?_⟩
  · obtain ⟨hτ, hleads⟩ := h.sound hrun
    exact ⟨hτ, hleads.behind hpath hk⟩
  · obtain ⟨m, -, hm⟩ := hM.result_behind hpath hn
    exact h.complete hm

/-- Parts one behind the other. The second one stands for the machine wherever the first one may lead to. -/
lemma StandsFor.append {rest : Progress} (h : StandsFor M g σ k scope place p) (hsafe : M.Safe place)
    (hrest : ∀ id, p.next = some id → ∀ ns, HasWords σ p.stack ns → M.Safe (id, ns) →
      StandsFor M g σ 0 scope (id, ns) rest) :
    StandsFor M g σ k scope place { rest with stmts := p.stmts ++ rest.stmts } := by
  -- the second part, if the first one is done
  have hdone (hleads : LeadsTo M g σ k scope place p .done) :
      ∃ l q, k ≤ l ∧ M.Path l place q ∧ StandsFor M g σ 0 scope q rest := by
    obtain ⟨id, hid, l, ns, hl, hwords, hpath⟩ := hleads
    exact ⟨l, (id, ns), hl, hpath, hrest id hid ns hwords (hpath.safe hsafe)⟩
  refine ⟨fun {τ o} hrun => ?_, fun {n v} hn => ?_⟩
  · rw [execInts, Evaluation.execEach_append] at hrun
    obtain ⟨u, o', hfirst, hsecond⟩ := hrun
    obtain ⟨rfl, hleads⟩ := h.sound hfirst
    by_cases ho : o' = .done
    · subst ho
      obtain ⟨l, q, hl, hpath, hstands⟩ := hdone hleads
      obtain ⟨hτ, hleads'⟩ := hstands.sound hsecond
      exact ⟨hτ, hleads'.behind hpath (by omega)⟩
    · rw [Run.onDone_of_ne ho] at hsecond
      obtain ⟨rfl, rfl⟩ := hsecond
      exact ⟨rfl, hleads.of_ne_done ho⟩
  · obtain ⟨u, o', hfirst⟩ := h.complete hn
    obtain ⟨rfl, hleads⟩ := h.sound hfirst
    rw [execInts, Evaluation.execEach_append]
    by_cases ho : o' = .done
    · subst ho
      obtain ⟨l, q, hl, hpath, hstands⟩ := hdone hleads
      obtain ⟨m, -, hm⟩ := hM.result_behind hpath hn
      obtain ⟨τ, o, hsecond⟩ := hstands.complete hm
      exact ⟨τ, o, u, .done, hfirst, hsecond⟩
    · refine ⟨u, o', u, o', hfirst, ?_⟩
      rw [Run.onDone_of_ne ho]
      exact ⟨rfl, rfl⟩

end Correspondence

/-! ### Loops -/

lemma mapOutcome_dropContinue (body : List Stmt) :
    (execInts (Setting.dropContinue body)).mapOutcome .pastContinue = (execInts body).mapOutcome .pastContinue := by
  unfold Setting.dropContinue
  split
  · rename_i hlast
    obtain ⟨front, rfl⟩ := List.getLast?_eq_some_iff.mp hlast
    rw [List.dropLast_concat, execInts, Evaluation.execEach_append, Evaluation.execEach_singleton, Evaluation.exec,
      Run.mapOutcome, Run.mapOutcome, Run.andThen, Run.bind_assoc]
    refine Run.bind_congr fun _ _ o _ => ?_
    by_cases ho : o = .done
    · rw [ho, Run.onDone, Run.stop_bind]
      rfl
    · rw [Run.onDone_of_ne ho, Run.stop_bind]
  · rfl

section Loops

variable {M : BlockRun} {s : Setting} {g : FlowGraph} {σ : Store} {scope : Scope} {loop : Loop} {stack : Stack}

variable {cond : Expr} {body : Progress}
  (hround : ∀ ns, HasWords σ stack ns → M.Safe (loop.header, ns) →
    ∃ t, Evaluation.ofInts.test cond σ = some t ∧
      (t = true → StandsFor M g σ 1 (scope.enterLoop loop stack) (loop.header, ns) body) ∧
      (t = false → ∃ id, loop.exit = some id ∧ Reaches M σ 1 (loop.header, ns) id stack))
  (hnext : body.next = none)
include hround hnext

omit hround in
/-- A round that leads on to the next one has come back to the header. -/
lemma reaches_header {ns : List Int32} {o : Source.Outcome} (ho : o.pastContinue = .done)
    (h : LeadsTo M g σ 1 (scope.enterLoop loop stack) (loop.header, ns) body o) :
    Reaches M σ 1 (loop.header, ns) loop.header stack := by
  cases o with
  | done =>
    obtain ⟨id, hid, -⟩ := h
    cases hnext.symm.trans hid
  | continued =>
    obtain ⟨id, landing, hjump, hlanding, hreach⟩ := h
    obtain ⟨hstack, ⟨⟨⟩, -⟩ | ⟨-, rfl⟩⟩ := Scope.landing_enterLoop hjump
    rwa [← Option.some.inj (hlanding.symm.trans hstack)]
  | returned | thrown | broken => cases ho

/-- Rounds of a loop lead where the machine comes to. By induction on the rounds, each of which starts with the machine
in front of the header. -/
lemma leadsTo_of_rounds {σ₀ τ : Store} {o : Source.Outcome}
    (h : Run.Rounds (Evaluation.ofInts.test cond) ((execInts body.stmts).mapOutcome .pastContinue) σ₀ τ o)
    (hσ : σ₀ = σ) {ns : List Int32} (hs : HasWords σ stack ns) (hsafe : M.Safe (loop.header, ns)) (stmts : List Stmt) :
    τ = σ ∧ LeadsTo M g σ 1 scope (loop.header, ns) { stmts, next := loop.exit, stack } o.pastBreak := by
  induction h generalizing ns with
  | stop htest =>
    subst hσ
    obtain ⟨t, ht, -, hexit⟩ := hround ns hs hsafe
    cases ht.symm.trans htest
    exact ⟨rfl, hexit rfl⟩
  | leave htest hrun ho =>
    subst hσ
    obtain ⟨t, ht, hbody, -⟩ := hround ns hs hsafe
    cases ht.symm.trans htest
    obtain ⟨u, o', hrun, rfl, rfl⟩ := hrun
    obtain ⟨rfl, hleads⟩ := (hbody rfl).sound hrun
    refine ⟨rfl, ?_⟩
    cases o' with
    | done | continued => exact absurd rfl ho
    | returned => exact hleads
    | thrown => exact hleads
    | broken =>
      obtain ⟨id, landing, hjump, hlanding, hreach⟩ := hleads
      obtain ⟨hstack, ⟨-, hexit⟩ | ⟨⟨⟩, -⟩⟩ := Scope.landing_enterLoop hjump
      rw [Option.some.inj (hlanding.symm.trans hstack)] at hreach
      exact ⟨id, hexit, hreach⟩
  | again htest hrun _ ih =>
    subst hσ
    obtain ⟨t, ht, hbody, -⟩ := hround ns hs hsafe
    cases ht.symm.trans htest
    obtain ⟨u, o', hrun, rfl, ho⟩ := hrun
    obtain ⟨rfl, hleads⟩ := (hbody rfl).sound hrun
    obtain ⟨l, ns', -, hs', hpath⟩ := reaches_header hnext ho.symm hleads
    obtain ⟨hτ, hleads'⟩ := ih rfl hs' (hpath.safe hsafe)
    exact ⟨hτ, hleads'.behind hpath (by omega)⟩

variable (hM : M.Follows s σ)
include hM

/-- Where the machine returns, the rounds come to an end. By induction on the number of steps that are left, of which
every round takes at least one. -/
lemma exists_rounds {n : Nat} {v : Option Int32} {ns : List Int32} (hn : M n (loop.header, ns) = some (.ok v))
    (hs : HasWords σ stack ns) (hsafe : M.Safe (loop.header, ns)) :
    ∃ τ o, Run.Rounds (Evaluation.ofInts.test cond) ((execInts body.stmts).mapOutcome .pastContinue) σ τ o := by
  induction n using Nat.strong_induction_on generalizing ns with
  | _ n ih =>
    obtain ⟨t, ht, hbody, -⟩ := hround ns hs hsafe
    cases t with
    | false => exact ⟨σ, .done, .stop ht⟩
    | true =>
      obtain ⟨u, o, hrun⟩ := (hbody rfl).complete hn
      obtain ⟨rfl, hleads⟩ := (hbody rfl).sound hrun
      have hrun' : (execInts body.stmts).mapOutcome .pastContinue u u o.pastContinue := ⟨u, o, hrun, rfl, rfl⟩
      by_cases ho : o.pastContinue = .done
      · obtain ⟨l, ns', hl, hs', hpath⟩ := reaches_header hnext ho hleads
        obtain ⟨m, hm, hresult⟩ := hM.result_behind hpath hn
        obtain ⟨τ, o', hrest⟩ := ih m (by omega) hresult hs' (hpath.safe hsafe)
        exact ⟨τ, o', .again ht (ho ▸ hrun') hrest⟩
      · exact ⟨u, _, .leave ht hrun' ho⟩

/-- A loop stands for the machine in front of its header. -/
lemma standsFor_loop {ns : List Int32} (hs : HasWords σ stack ns) (hsafe : M.Safe (loop.header, ns)) :
    StandsFor M g σ 1 scope (loop.header, ns)
      { stmts := [.whileLoop cond (Setting.dropContinue body.stmts)], next := loop.exit, stack } := by
  have hexec : execInts [.whileLoop cond (Setting.dropContinue body.stmts)] = Run.mapOutcome .pastBreak
      (Run.Rounds (Evaluation.ofInts.test cond) ((execInts body.stmts).mapOutcome .pastContinue)) := by
    rw [execInts, Evaluation.execEach_singleton, Evaluation.exec]
    exact congrArg (fun round => (Run.Rounds _ round).mapOutcome _) (mapOutcome_dropContinue body.stmts)
  refine ⟨fun hrun => ?_, fun hn => ?_⟩
  · rw [hexec] at hrun
    obtain ⟨u, o, hrounds, rfl, rfl⟩ := hrun
    exact leadsTo_of_rounds hround hnext hrounds rfl hs hsafe _
  · obtain ⟨τ, o, hrounds⟩ := exists_rounds hround hnext hM hn hs hsafe
    exact ⟨τ, o.pastBreak, by rw [hexec]; exact ⟨τ, o, hrounds, rfl, rfl⟩⟩

end Loops

end JvmLift.IntCode
