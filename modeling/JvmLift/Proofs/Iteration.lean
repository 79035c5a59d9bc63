import Mathlib
import JvmLift.Proofs.PassRules
import JvmLift.Proofs.Unused

/-!
# Loops over a collection

A `while` behind the set-up of its iterator is written as a loop over the collection, and the variable of the iterator
is gone. Nothing is asked about other uses of that variable. Where there are none, neither in the rest of the loop nor
behind it, the loop over the collection does what the two statements did: it makes the same calls in the same order,
ends in the same way, and leaves all variables but that of the iterator with the same values.
-/

namespace JvmLift.Source

open Conduct

/-! ### Situations that agree -/

/-- Two situations that differ in no more than the values of some variables. -/
structure Situation.AgreeBut (names : Set String) (σ σ' : Situation) : Prop where
  vars : ∀ x ∉ names, σ.vars x = σ'.vars x
  history : σ.history = σ'.history

namespace Situation

variable {names names' : Set String} {σ σ' σ'' : Situation} {name : String}

lemma AgreeBut.refl (σ : Situation) : AgreeBut names σ σ :=
  ⟨fun _ _ => rfl, rfl⟩

lemma AgreeBut.symm (h : AgreeBut names σ σ') : AgreeBut names σ' σ :=
  ⟨fun x hx => (h.vars x hx).symm, h.history.symm⟩

lemma AgreeBut.trans (h : AgreeBut names σ σ') (h' : AgreeBut names σ' σ'') : AgreeBut names σ σ'' :=
  ⟨fun x hx => (h.vars x hx).trans (h'.vars x hx), h.history.trans h'.history⟩

lemma AgreeBut.mono (h : AgreeBut names σ σ') (hsub : names ⊆ names') : AgreeBut names' σ σ' :=
  ⟨fun x hx => h.vars x fun hmem => hx (hsub hmem), h.history⟩

lemma agreeBut_set (σ : Situation) (name : String) (d : Datum) : AgreeBut {name} σ (σ.set name d) :=
  ⟨fun _ hx => (Function.update_of_ne hx ..).symm, rfl⟩

lemma AgreeBut.eq_set (h : AgreeBut {name} σ σ') : σ' = σ.set name (σ'.vars name) := by
  refine Situation.ext (funext fun x => ?_) h.history.symm
  by_cases hx : x = name
  · simp [hx, Situation.set]
  · simp [Situation.set, Function.update_of_ne hx, h.vars x hx]

lemma set_set (σ : Situation) (name : String) (d d' : Datum) : (σ.set name d).set name d' = σ.set name d' := by
  simp [Situation.set]

lemma set_self (σ : Situation) (name : String) : σ.set name (σ.vars name) = σ := by
  simp [Situation.set]

@[simp] lemma vars_set (σ : Situation) (name : String) (d : Datum) : (σ.set name d).vars name = d := by
  simp [Situation.set]

end Situation

namespace Conduct

open Situation

variable {α : Type} {names names' : Set String} {name : String} {r r' q q' : Conduct} {σ τ : Situation} {o : WayOut}

/-- Two conducts that have the same runs, up to the values of some variables in the end. -/
structure SameBut (names : Set String) (r r' : Conduct) : Prop where
  forth : ∀ {σ τ : Situation} {o : WayOut}, r σ τ o → ∃ τ', r' σ τ' o ∧ AgreeBut names τ τ'
  back : ∀ {σ τ' : Situation} {o : WayOut}, r' σ τ' o → ∃ τ, r σ τ o ∧ AgreeBut names τ τ'

/-- A conduct that does the same with any value of a variable, up to the value of that variable. -/
def Forgets (name : String) (r : Conduct) : Prop :=
  ∀ (d : Datum) (σ τ : Situation) (o : WayOut), r σ τ o → ∃ τ', r (σ.set name d) τ' o ∧ AgreeBut {name} τ τ'

lemma Ignores.forgets (h : Ignores name r) : Forgets name r :=
  fun d _ τ _ hrun => ⟨τ.set name d, h.shift hrun d, agreeBut_set τ name d⟩

lemma Forgets.of_agreeBut (h : Forgets name r) {σ' : Situation} (hσ : AgreeBut {name} σ σ') (hrun : r σ τ o) :
    ∃ τ', r σ' τ' o ∧ AgreeBut {name} τ τ' := by
  rw [hσ.eq_set]
  exact h _ σ τ o hrun

/-! ### Laws -/

lemma andThen_assoc (r q p : Conduct) : (r.andThen q).andThen p = r.andThen (q.andThen p) := by
  funext σ τ o
  refine propext ⟨?_, ?_⟩
  · rintro ⟨υ, o₁, ⟨ρ, o₂, hr, hq⟩, hp⟩
    cases o₂ with
    | done => exact ⟨ρ, .done, hr, υ, o₁, hq, hp⟩
    | _ =>
      obtain ⟨rfl, rfl⟩ := hq
      exact ⟨υ, _, hr, hp⟩
  · rintro ⟨ρ, o₂, hr, hqp⟩
    cases o₂ with
    | done =>
      obtain ⟨υ, o₁, hq, hp⟩ := hqp
      exact ⟨υ, o₁, ⟨ρ, .done, hr, hq⟩, hp⟩
    | _ => exact ⟨ρ, _, ⟨ρ, _, hr, rfl, rfl⟩, hqp⟩

lemma following_andThen (c : (String → Datum) → Course α) (k : α → Conduct) (q : Conduct) :
    (following c k).andThen q = following c fun a => (k a).andThen q := by
  funext σ τ o
  simp only [following, andThen, Conduct.bind]
  rcases c σ.vars σ.history with ⟨h, x | a⟩
  · refine propext ⟨?_, ?_⟩
    · rintro ⟨υ, o', ⟨rfl, rfl⟩, hq⟩
      exact hq
    · exact fun hstop => ⟨_, _, ⟨rfl, rfl⟩, hstop⟩
  · rfl

lemma set_andThen_iff {x : Datum} : (set name x).andThen q σ τ o ↔ q (σ.set name x) τ o := by
  constructor
  · rintro ⟨υ, o', ⟨rfl, rfl⟩, hq⟩
    exact hq
  · exact fun hq => ⟨_, .done, ⟨rfl, rfl⟩, hq⟩

lemma following_congr {c c' : (String → Datum) → Course α} {k k' : α → Conduct} (hc : c σ.vars = c' σ.vars)
    (hk : ∀ a h, k a ⟨σ.vars, h⟩ = k' a ⟨σ.vars, h⟩) : following c k σ = following c' k' σ := by
  funext τ o
  simp only [following, hc, hk]

lemma andThen_congr (h : r σ = r' σ) : r.andThen q σ = r'.andThen q σ := by
  funext τ o
  simp only [andThen, Conduct.bind, h]

lemma mapWayOut_congr {f : WayOut → WayOut} (h : r σ = r' σ) : r.mapWayOut f σ = r'.mapWayOut f σ := by
  funext τ o
  simp only [mapWayOut, Conduct.bind, h]

/-- Loops whose rounds are the same in all situations that can come up. -/
lemma forever_of_eq {P : Situation → Prop} (hround : ∀ σ, P σ → r σ = r' σ) (hkept : ∀ {σ τ o}, r σ τ o → P σ → P τ)
    (hσ : P σ) (h : Forever r σ τ o) : Forever r' σ τ o := by
  induction h with
  | leave hrun ho => exact .leave (hround _ hσ ▸ hrun) ho
  | again hrun _ ih => exact .again (hround _ hσ ▸ hrun) (ih (hkept hrun hσ))

/-! ### Same runs -/

lemma sameBut_following {c : (String → Datum) → Course α} {k k' : α → Conduct} (h : ∀ a, SameBut names (k a) (k' a)) :
    SameBut names (following c k) (following c k') := by
  constructor <;> intro σ τ o hrun <;> simp only [following] at hrun ⊢ <;>
    rcases hc : c σ.vars σ.history with ⟨h', x | a⟩ <;> simp only [hc] at hrun ⊢
  · exact ⟨τ, hrun, .refl τ⟩
  · exact (h a).forth hrun
  · exact ⟨τ, hrun, .refl τ⟩
  · exact (h a).back hrun

/-- What is the same behind one beginning. -/
lemma SameBut.andThen (h : SameBut names q q') : SameBut names (r.andThen q) (r.andThen q') := by
  constructor <;> rintro σ τ o ⟨υ, o', hr, hrest⟩ <;> cases o'
  case forth.done =>
    obtain ⟨τ', hrest, hagree⟩ := h.forth hrest
    exact ⟨τ', ⟨υ, .done, hr, hrest⟩, hagree⟩
  case back.done =>
    obtain ⟨τ', hrest, hagree⟩ := h.back hrest
    exact ⟨τ', ⟨υ, .done, hr, hrest⟩, hagree⟩
  all_goals exact ⟨τ, ⟨υ, _, hr, hrest⟩, .refl τ⟩

/-- Two beginnings that leave different values in a variable, in front of what does not need it. -/
lemma SameBut.andThen_of_forgets (hr : SameBut {name} r r') (hq : SameBut names q q') (hforgets : Forgets name q) :
    SameBut (insert name names) (r.andThen q) (r'.andThen q') := by
  have hone : ({name} : Set String) ⊆ insert name names := by simp
  have hrest : names ⊆ insert name names := Set.subset_insert _ _
  constructor
  · rintro σ τ o ⟨υ, o', hfirst, hsecond⟩
    obtain ⟨υ', hfirst', hagree⟩ := hr.forth hfirst
    cases o' with
    | done =>
      obtain ⟨τ₁, hsecond₁, hagree₁⟩ := hforgets.of_agreeBut hagree hsecond
      obtain ⟨τ', hsecond', hagree'⟩ := hq.forth hsecond₁
      exact ⟨τ', ⟨υ', .done, hfirst', hsecond'⟩, (hagree₁.mono hone).trans (hagree'.mono hrest)⟩
    | _ =>
      obtain ⟨rfl, rfl⟩ := hsecond
      exact ⟨υ', ⟨υ', _, hfirst', rfl, rfl⟩, hagree.mono hone⟩
  · rintro σ τ' o ⟨υ', o', hfirst, hsecond⟩
    obtain ⟨υ, hfirst', hagree⟩ := hr.back hfirst
    cases o' with
    | done =>
      obtain ⟨τ₁, hsecond₁, hagree₁⟩ := hq.back hsecond
      obtain ⟨τ, hsecond', hagree'⟩ := hforgets.of_agreeBut hagree.symm hsecond₁
      exact ⟨τ, ⟨υ, .done, hfirst', hsecond'⟩, (hagree'.symm.mono hone).trans (hagree₁.mono hrest)⟩
    | _ =>
      obtain ⟨rfl, rfl⟩ := hsecond
      exact ⟨υ, ⟨υ, _, hfirst', rfl, rfl⟩, hagree.mono hone⟩

lemma SameBut.mono (h : SameBut names r r') (hsub : names ⊆ names') : SameBut names' r r' := by
  constructor
  · intro σ τ o hrun
    obtain ⟨τ', hrun', hagree⟩ := h.forth hrun
    exact ⟨τ', hrun', hagree.mono hsub⟩
  · intro σ τ' o hrun
    obtain ⟨τ, hrun', hagree⟩ := h.back hrun
    exact ⟨τ, hrun', hagree.mono hsub⟩

end Conduct

/-! ### The loop itself -/

/-- Surroundings that treat values as the language does where a loop over a collection depends on it: anything can be
taken for an object as it is, and to compare a value with zero is to test it. -/
structure Surroundings.Faithful (S : Surroundings) : Prop where
  cast_object : ∀ h x, S.perform h (.cast "Object") [x] = .ok x
  nonzero : ∀ vars h x, ∃ y, (S.world vars).compute h (.binary .ne) [x, .plain (.int 0)] = .ok y ∧ S.truth y = S.truth x

namespace Surroundings

open Situation Idiom Stmt

variable {S : Surroundings} {it name type owner : String} {d : Datum} {σ τ : Situation} {o : WayOut}

lemma evaluating_call (receiver : Expr) (owner method : String) (k : Datum → Conduct) :
    S.evaluating (.call receiver owner method []) k =
      S.evaluating receiver fun x => S.applying (.call "" method) [x] k := by
  unfold evaluating applying
  rw [← following_bind]
  simp [Expr.dispatched, Expr.dispatchedEach, World.eval, World.evalEach]

lemma evaluating_cast (type : String) (e : Expr) (k : Datum → Conduct) :
    S.evaluating (.cast type e) k = S.evaluating e fun x => S.applying (.cast type) [x] k := by
  unfold evaluating applying
  rw [← following_bind]
  simp [Expr.dispatched, World.eval]

lemma evaluating_ne_zero (e : Expr) (k : Datum → Conduct) :
    S.evaluating (.binary .ne e (.int 0)) k =
      S.evaluating e fun x => S.applying (.binary .ne) [x, .plain (.int 0)] k := by
  unfold evaluating applying
  rw [← following_bind]
  simp [Expr.dispatched, World.eval]

lemma evaluating_var (x : String) (k : Datum → Conduct) (σ : Situation) :
    S.evaluating (.var x) k σ = k (σ.vars x) σ := by
  rfl

lemma applying_congr {f : Operation} {xs : List Datum} {k k' : Datum → Conduct}
    (hk : ∀ v h, k v ⟨σ.vars, h⟩ = k' v ⟨σ.vars, h⟩) : S.applying f xs k σ = S.applying f xs k' σ :=
  following_congr rfl hk

/-- An operation that nobody sees goes on with its result, if it has one. -/
lemma applying_of_ok {f : Operation} {xs : List Datum} {y : Datum} (hvisible : f.isVisible = false)
    (hy : (S.world σ.vars).compute σ.history f xs = .ok y) (k : Datum → Conduct) : S.applying f xs k σ = k y σ := by
  funext τ o
  simp [applying, following, World.apply, hvisible, hy]

/-- The test of a `while` over an iterator asks the iterator. -/
lemma testedRound_of_testsHasNext (hS : S.Faithful) {cond : Expr} (hcond : testsHasNext it cond = true)
    (round : Conduct) (σ : Situation) :
    S.testedRound (S.evaluating cond) round σ =
      S.testedRound (S.applying (.call "" "hasNext") [σ.vars it]) round σ := by
  unfold testsHasNext at hcond
  split at hcond
  · simp only [Bool.and_eq_true, beq_iff_eq] at hcond
    obtain ⟨rfl, hcall⟩ := hcond
    obtain ⟨owner, rfl⟩ := of_isCallOn hcall
    simp only [testedRound, evaluating_ne_zero, evaluating_call, evaluating_var]
    refine applying_congr fun x h => ?_
    obtain ⟨y, hy, htruth⟩ := hS.nonzero σ.vars h x
    rw [applying_of_ok rfl hy, htruth]
  · obtain ⟨owner, rfl⟩ := of_isCallOn hcond
    simp only [testedRound, evaluating_call, evaluating_var]

/-- The first statement of a `while` over an iterator takes the element. -/
lemma exec_of_element? (hS : S.Faithful) {first : Stmt} (hfirst : element? it first = some (type, name))
    (σ : Situation) :
    S.exec first σ =
      S.applying (.call "" "next") [σ.vars it] (fun x => S.applying (.cast type) [x] (set name)) σ := by
  obtain ⟨owner, rfl | ⟨rfl, rfl⟩⟩ := of_element? hfirst
  · simp only [exec, storing, evaluating_cast, evaluating_call, evaluating_var]
  · simp only [exec, storing, evaluating_call, evaluating_var]
    refine applying_congr fun x h => ?_
    have hobject : (S.world σ.vars).compute h (.cast "Object") [x] = .ok x := hS.cast_object h x
    exact (applying_of_ok rfl hobject _).symm

/-- Where the variable holds the iterator, the `while` is the loop over what the iterator gives. -/
lemma exec_whileLoop (hS : S.Faithful) {cond : Expr} {first : Stmt} {rest : List Stmt}
    (hcond : testsHasNext it cond = true) (hfirst : element? it first = some (type, name)) (hname : name ≠ it)
    (hrest : EveryIn (Avoids it) rest) (hit : σ.vars it = d) :
    S.exec (.whileLoop cond (first :: rest)) σ = S.iterating type name d (S.execEach rest) σ := by
  set round := S.testedRound (S.evaluating cond) (S.execEach (first :: rest)) with hround
  set round' := S.testedRound (S.applying (.call "" "hasNext") [d])
    ((S.applying (.call "" "next") [d] fun x => S.applying (.cast type) [x] (set name)).andThen (S.execEach rest))
    with hround'
  have hsame (υ : Situation) (hυ : υ.vars it = d) : round υ = round' υ := by
    rw [hround, testedRound_of_testsHasNext hS hcond, hround', hυ]
    refine applying_congr fun v h => ?_
    split
    · refine mapWayOut_congr (andThen_congr ?_)
      rw [exec_of_element? hS hfirst, hυ]
    · rfl
  -- the rounds keep the iterator, since neither the element nor the rest has its name
  have hkept {υ ρ : Situation} {o : WayOut} (h : round' υ ρ o) : ρ.vars it = υ.vars it := by
    have helement : Ignores it (S.applying (.call "" "next") [d] fun x => S.applying (.cast type) [x] (set name)) :=
      S.ignores_applying fun _ => S.ignores_applying (ignores_set hname)
    exact (S.ignores_testedRound S.ignores_applying
      (ignores_andThen helement (S.ignores_execEach hrest))).kept h
  refine mapWayOut_congr (funext fun τ => funext fun o => propext ⟨?_, ?_⟩)
  · exact forever_of_eq hsame (fun {υ _ _} h hυ => (hkept (by rwa [← hsame υ hυ])).trans hυ) hit
  · exact forever_of_eq (fun υ hυ => (hsame υ hυ).symm) (fun h hυ => (hkept h).trans hυ) hit

/-- **The set-up and the `while` are the loop over the collection**, but for the variable of the iterator. -/
lemma sameBut_forEach (hS : S.Faithful) {setup first : Stmt} {cond iterable : Expr} {rest : List Stmt}
    (hsetup : iteratorSetup? setup = some (it, iterable)) (hcond : testsHasNext it cond = true)
    (hfirst : element? it first = some (type, name)) (hname : name ≠ it) (hrest : EveryIn (Avoids it) rest) :
    SameBut {it} ((S.exec setup).andThen (S.exec (.whileLoop cond (first :: rest))))
      (S.exec (.forEach type name iterable rest)) := by
  obtain ⟨owner, rfl⟩ := of_iteratorSetup? hsetup
  have hloop (d : Datum) : Ignores it (S.iterating type name d (S.execEach rest)) :=
    S.ignores_iterating hname (S.ignores_execEach hrest)
  have hwhile (d : Datum) (σ : Situation) := exec_whileLoop hS hcond hfirst hname hrest (vars_set σ it d)
  have hassign : S.exec (.assign (.var it) (.call iterable owner "iterator" [])) =
      S.evaluating iterable fun x => S.applying (.call "" "iterator") [x] (set it) := by
    simp only [exec, storing, evaluating_call]
  have hforEach : S.exec (.forEach type name iterable rest) = S.evaluating iterable fun x =>
      S.applying (.call "" "iterator") [x] fun d => S.iterating type name d (S.execEach rest) := by
    rw [exec]
  rw [hassign, hforEach]
  simp only [evaluating, applying, following_andThen]
  refine sameBut_following fun x => sameBut_following fun d => ⟨?_, ?_⟩
  · intro σ τ o h
    rw [set_andThen_iff, hwhile] at h
    have hshift := (hloop d).shift h (σ.vars it)
    rw [set_set, set_self] at hshift
    exact ⟨_, hshift, agreeBut_set τ it _⟩
  · intro σ τ' o h
    have hshift := (hloop d).shift h d
    exact ⟨_, by rwa [set_andThen_iff, hwhile], (agreeBut_set τ' it d).symm⟩

end Surroundings

/-! ### What follows the loop -/

/-- The value of a variable does not matter to a body: the variable does not occur before it is assigned. -/
def DeadIn (name : String) : List Stmt → Prop
  | [] => True
  | s :: rest => (s.Every (Stmt.Avoids name) ∧ DeadIn name rest) ∨
    ∃ value, s = .assign (.var name) value ∧ value.mentions name = false

namespace Surroundings

open Situation Stmt

lemma forgets_execEach (S : Surroundings) {name : String} {body : List Stmt} (h : DeadIn name body) :
    Forgets name (S.execEach body) := by
  induction body with
  | nil => exact (ignores_stop _).forgets
  | cons s rest ih =>
    obtain ⟨hs, hrest⟩ | ⟨value, rfl, hvalue⟩ := h
    · rintro d σ τ o ⟨υ, o', hfirst, hsecond⟩
      have hfirst' := (S.ignores_exec hs).shift hfirst d
      cases o' with
      | done =>
        obtain ⟨τ', hsecond', hagree⟩ := ih hrest d υ τ o hsecond
        exact ⟨τ', ⟨_, .done, hfirst', hsecond'⟩, hagree⟩
      | _ =>
        obtain ⟨rfl, rfl⟩ := hsecond
        exact ⟨_, ⟨_, _, hfirst', rfl, rfl⟩, agreeBut_set τ name d⟩
    · -- whatever the value was, it is the assigned one then, unless the evaluation throws
      intro d σ τ o h
      have heval (vars : String → Datum) (d : Datum) : (S.world (Function.update vars name d)).eval value.dispatched =
          (S.world vars).eval value.dispatched := eval_update (by rwa [Expr.mentions_dispatched])
      simp only [execEach, exec, storing, evaluating, following_andThen, following, Situation.set, heval] at h ⊢
      rcases hvalue : (S.world σ.vars).eval value.dispatched σ.history with ⟨h', x | x⟩ <;> simp only [hvalue] at h ⊢
      · obtain ⟨rfl, rfl⟩ := h
        exact ⟨_, ⟨rfl, rfl⟩, agreeBut_set ⟨σ.vars, h'⟩ name d⟩
      · rw [set_andThen_iff] at h
        refine ⟨τ, set_andThen_iff.mpr ?_, .refl τ⟩
        simpa only [Situation.set, Function.update_idem] using h

end Surroundings

end JvmLift.Source

namespace JvmLift.Idiom

open Source Stmt Conduct

/-! ### Where loops are joined -/

section JoinHeads

variable {head? : Stmt → Expr → List Stmt → Option Stmt}

/-- Only the last finished statement is looked at again. -/
lemma foldl_pushLoop_cons (body : List Stmt) (s : Stmt) (done : List Stmt) :
    body.foldl (pushLoop head?) (s :: done) = body.foldl (pushLoop head?) [s] ++ done := by
  induction body generalizing s done with
  | nil => rfl
  | cons t body ih =>
    have hpush : (∃ loop, ∀ done, pushLoop head? (s :: done) t = loop :: done) ∨
        ∀ done, pushLoop head? (s :: done) t = t :: s :: done := by
      unfold pushLoop
      cases t with
      | whileLoop cond inner =>
        cases hloop : head? s cond inner with
        | none => exact .inr fun done => by simp only [hloop]
        | some loop => exact .inl ⟨loop, fun done => by simp only [hloop]⟩
      | _ => exact .inr fun done => rfl
    rcases hpush with ⟨loop, hpush⟩ | hpush
    · rw [List.foldl_cons, List.foldl_cons, hpush, hpush, ih]
    · rw [List.foldl_cons, List.foldl_cons, hpush, hpush, ih, ih t [s]]
      simp

lemma pushLoop_nil (s : Stmt) : pushLoop head? [] s = [s] := by
  cases s <;> rfl

/-- A statement that is not joined with what follows stays in front of what becomes of the rest. -/
lemma joinHeads_cons {s : Stmt} {rest : List Stmt}
    (h : ∀ cond inner back, rest = .whileLoop cond inner :: back → head? s cond inner = none) :
    joinHeads head? (s :: rest) = s :: joinHeads head? rest := by
  cases rest with
  | nil => simp [joinHeads, pushLoop_nil]
  | cons t rest =>
    have hpush : pushLoop head? [s] t = [t, s] := by
      unfold pushLoop
      split
      · next cond inner setup earlier heq =>
        cases heq
        rw [h cond inner rest rfl]
      · rfl
    simp only [joinHeads, List.foldl_cons, pushLoop_nil, hpush]
    rw [foldl_pushLoop_cons rest t [s]]
    simp

lemma joinHeads_cons_whileLoop {setup loop : Stmt} {cond : Expr} {inner back : List Stmt}
    (h : head? setup cond inner = some loop) :
    joinHeads head? (setup :: .whileLoop cond inner :: back) = joinHeads head? (loop :: back) := by
  simp only [joinHeads, List.foldl_cons, pushLoop_nil]
  simp only [pushLoop, h]

end JoinHeads

/-- Somewhere in a body the iterator `it` is set up for the `while` behind, which takes the element `name` from it, goes
on with `rest`, and is followed by `back`. -/
def Iterates (body : List Stmt) (it name : String) (rest back : List Stmt) : Prop :=
  ∃ front setup cond first iterable type, body = front ++ setup :: .whileLoop cond (first :: rest) :: back ∧
    iteratorSetup? setup = some (it, iterable) ∧ testsHasNext it cond = true ∧ element? it first = some (type, name)

/-- The variables of the iterators that go away. -/
def iterators (body : List Stmt) : Set String :=
  { it | ∃ name rest back, Iterates body it name rest back }

/-- Nothing uses the iterators that go away, but the tests and the first statements of their loops. -/
def IteratorsUnused (body : List Stmt) : Prop :=
  ∀ it name rest back, Iterates body it name rest back → name ≠ it ∧ EveryIn (Avoids it) rest ∧ DeadIn it back

lemma Iterates.append {body : List Stmt} {it name : String} {rest back : List Stmt} (front : List Stmt)
    (h : Iterates body it name rest back) : Iterates (front ++ body) it name rest back := by
  obtain ⟨front', setup, cond, first, iterable, type, rfl, h⟩ := h
  exact ⟨front ++ front', setup, cond, first, iterable, type, by simp, h⟩

lemma iterators_subset (front body : List Stmt) : iterators body ⊆ iterators (front ++ body) := by
  rintro it ⟨name, rest, back, h⟩
  exact ⟨name, rest, back, h.append front⟩

lemma IteratorsUnused.of_append (front : List Stmt) {body : List Stmt} (h : IteratorsUnused (front ++ body)) :
    IteratorsUnused body :=
  fun it name rest back hiterates => h it name rest back (hiterates.append front)

/-- Bodies in the way in which loops over collections are recovered in them. -/
theorem recoverForEach_induction {P : List Stmt → Prop} (nil : P [])
    (loop : ∀ setup cond inner back loop, forEach? setup cond inner = some loop →
      recoverForEach (setup :: .whileLoop cond inner :: back) = loop :: recoverForEach back → P back →
      P (setup :: .whileLoop cond inner :: back))
    (cons : ∀ s rest, recoverForEach (s :: rest) = s :: recoverForEach rest → P rest → P (s :: rest))
    (body : List Stmt) : P body := by
  induction hlength : body.length using Nat.strong_induction_on generalizing body with
  | _ length ih =>
    subst hlength
    cases body with
    | nil => exact nil
    | cons s rest =>
      by_cases hjoined : ∃ cond inner back joined, rest = .whileLoop cond inner :: back ∧
          forEach? s cond inner = some joined
      · obtain ⟨cond, inner, back, joined, rfl, hforEach⟩ := hjoined
        refine loop s cond inner back joined hforEach ?_ (ih _ (by simp) back rfl)
        -- the new loop is no set-up itself
        obtain ⟨it, iterable, type, name, first, rest, -, -, -, -, rfl⟩ := of_forEach? hforEach
        rw [recoverForEach, joinHeads_cons_whileLoop hforEach, joinHeads_cons fun _ _ _ _ => rfl]
      · refine cons s rest (joinHeads_cons fun cond inner back hrest => ?_) (ih _ (by simp) rest rfl)
        exact Option.eq_none_iff_forall_ne_some.mpr fun joined h => hjoined ⟨cond, inner, back, joined, hrest, h⟩

/-- **Loops over a collection do what the iterator did.** If nothing else uses the iterators that go away, the recovered
body has the same runs, with the same calls and the same endings, and with the same values of all other variables. -/
theorem sameBut_recoverForEach {S : Surroundings} (hS : S.Faithful) {body : List Stmt} (h : IteratorsUnused body) :
    SameBut (iterators body) (S.execEach body) (S.execEach (recoverForEach body)) := by
  induction body using recoverForEach_induction with
  | nil => exact ⟨fun {_ τ _} hrun => ⟨τ, hrun, .refl τ⟩, fun {_ τ _} hrun => ⟨τ, hrun, .refl τ⟩⟩
  | loop setup cond inner back loop hloop hrecover ih =>
    obtain ⟨it, iterable, type, name, first, rest, rfl, hsetup, hcond, hfirst, rfl⟩ := of_forEach? hloop
    have hiterates : Iterates (setup :: .whileLoop cond (first :: rest) :: back) it name rest back :=
      ⟨[], setup, cond, first, iterable, type, rfl, hsetup, hcond, hfirst⟩
    obtain ⟨hname, hrest, hdead⟩ := h it name rest back hiterates
    have hback : SameBut (iterators back) (S.execEach back) (S.execEach (recoverForEach back)) :=
      ih (.of_append [setup, .whileLoop cond (first :: rest)] h)
    have hhead := S.sameBut_forEach hS hsetup hcond hfirst hname hrest
    rw [hrecover, Surroundings.execEach, Surroundings.execEach, Surroundings.execEach, ← andThen_assoc]
    refine (hhead.andThen_of_forgets hback (S.forgets_execEach hdead)).mono (Set.insert_subset ?_ ?_)
    · exact ⟨name, rest, back, hiterates⟩
    · exact iterators_subset [setup, .whileLoop cond (first :: rest)] back
  | cons s rest hrecover ih =>
    rw [hrecover, Surroundings.execEach, Surroundings.execEach]
    exact (SameBut.andThen (ih (.of_append [s] h))).mono (iterators_subset [s] rest)

/-- Surroundings with a collection of one element: an iterator has a next element until it has been asked for it. -/
def oneElement : Surroundings where
  perform h
    | .call _ "hasNext", _ => .ok (.plain (.bool (h.all fun event =>
        match event.operation with
        | .call _ "next" => false
        | _ => true)))
    | .binary .ne, [x, _] => .ok x
    | _, [x] => .ok x
    | _, _ => .ok (.text "")
  holds
    | .plain (.int n) => n != 0
    | _ => false
  thrown _ := .divisionByZero
  catches _ _ := false
  caught _ := .text ""

lemma faithful_oneElement : oneElement.Faithful := by
  refine ⟨fun _ _ => rfl, fun vars h x => ?_⟩
  cases x with
  | plain v =>
    cases v with
    | int n =>
      refine ⟨.plain (.bool (n.toInt ≠ (0 : Int32).toInt)), rfl, ?_⟩
      have hzero : n.toInt = 0 ↔ n = 0 := Int32.toInt_inj (y := 0)
      simp [Surroundings.truth, oneElement, bne, hzero, beq_eq_decide]
    | _ => exact ⟨_, rfl, rfl⟩
  | _ => exact ⟨_, rfl, rfl⟩

/-- A loop that prints the elements of a collection. -/
def printing : List Stmt :=
  [.assign (.var "it") (.call (.var "xs") "List" "iterator" []),
    .whileLoop (.binary .ne (.call (.var "it") "Iterator" "hasNext" []) (.int 0))
      [.assign (.var "x") (.cast "String" (.call (.var "it") "Iterator" "next" [])),
        .evaluate (.staticCall "Out" "print" [.var "x"])]]

lemma iteratorsUnused_printing : IteratorsUnused printing := by
  rintro it name rest back ⟨front, setup, cond, first, iterable, type, hbody, hsetup, -, hfirst⟩
  rcases front with _ | ⟨_, _ | ⟨_, front⟩⟩
  · simp only [printing, List.nil_append, List.cons.injEq, whileLoop.injEq] at hbody
    obtain ⟨rfl, ⟨-, rfl, rfl⟩, rfl⟩ := hbody
    obtain ⟨rfl, -⟩ := Prod.mk.inj (Option.some.inj hsetup)
    obtain ⟨-, rfl⟩ := Prod.mk.inj (Option.some.inj hfirst)
    refine ⟨by decide, ⟨⟨?_, ?_⟩, trivial⟩, trivial⟩
    · simp [Stmt.exprs, Expr.mentions, Expr.mentionsAny]
    · simp [Stmt.binders]
  · simp only [printing, List.cons_append, List.nil_append, List.cons.injEq] at hbody
    obtain ⟨-, rfl, h, -⟩ := hbody
  · simp [printing] at hbody

/-- What can be seen of a loop over one element, which is passed to an operation. -/
def seen (operation : Operation) (x : Datum) : History :=
  [⟨.call "" "iterator", [.text "xs"]⟩, ⟨.call "" "hasNext", [.text "xs"]⟩, ⟨.call "" "next", [.text "xs"]⟩,
    ⟨operation, [x]⟩, ⟨.call "" "hasNext", [.text "xs"]⟩]

/-- A loop that is left at the second test. -/
lemma run_of_one_round {round : Conduct} {σ υ τ : Situation} (hround : round σ υ .done) (hlast : round υ τ .broken) :
    (Forever round).mapWayOut .pastBreak σ τ .done :=
  ⟨τ, .broken, .again hround (.leave hlast nofun), rfl, rfl⟩

/-- The one element is printed by the loop over the collection, behind the same calls. -/
theorem sameBut_recoverForEach_printing : ∃ τ', oneElement.execEach (recoverForEach printing) ⟨.text, []⟩ τ' .done ∧
    τ'.history = seen (.staticCall "Out" "print") (.text "xs") := by
  let events := seen (.staticCall "Out" "print") (.text "xs")
  let found := Function.update Datum.text "it" (.text "xs")
  let taken := Function.update found "x" (.text "xs")
  have hrun : oneElement.execEach printing ⟨.text, []⟩ ⟨taken, events⟩ .done := by
    refine ⟨⟨found, events.take 1⟩, .done, ⟨rfl, rfl⟩, ⟨taken, events⟩, .done,
      run_of_one_round (υ := ⟨taken, events.take 4⟩) ?_ ⟨rfl, rfl⟩, rfl, rfl⟩
    exact ⟨⟨taken, events.take 4⟩, .done, ⟨⟨taken, events.take 3⟩, .done, ⟨rfl, rfl⟩, ⟨taken, events.take 4⟩, .done,
      ⟨rfl, rfl⟩, rfl, rfl⟩, rfl, rfl⟩
  obtain ⟨τ', hrun', hagree⟩ := (sameBut_recoverForEach faithful_oneElement iteratorsUnused_printing).forth hrun
  exact ⟨τ', hrun', hagree.history.symm⟩

/-- A loop that removes the elements of a collection through the iterator. -/
def removing : List Stmt :=
  [.assign (.var "it") (.call (.var "xs") "List" "iterator" []),
    .whileLoop (.call (.var "it") "Iterator" "hasNext" [])
      [.assign (.var "x") (.call (.var "it") "Iterator" "next" []),
        .evaluate (.call (.var "it") "Iterator" "remove" [])]]

/-- The loop over the collection still uses the iterator, and removes from something else. -/
theorem recoverForEach_removing :
    (∃ type name iterable body, recoverForEach removing = [.forEach type name iterable body] ∧
      ¬ EveryIn (Avoids "it") body) ∧
    (∃ τ, oneElement.execEach removing ⟨.text, []⟩ τ .done ∧ τ.history = seen (.call "" "remove") (.text "xs")) ∧
    ∃ τ', oneElement.execEach (recoverForEach removing) ⟨.text, []⟩ τ' .done ∧
      τ'.history = seen (.call "" "remove") (.text "it") := by
  refine ⟨⟨_, _, _, _, rfl, fun h => ?_⟩, ?_, ?_⟩
  · have hmentions := h.1.self.exprs _ List.mem_cons_self
    simp [Expr.mentions] at hmentions
  · let found := Function.update Datum.text "it" (.text "xs")
    let taken := Function.update found "x" (.text "xs")
    let events := seen (.call "" "remove") (.text "xs")
    refine ⟨⟨taken, events⟩, ⟨⟨found, events.take 1⟩, .done, ⟨rfl, rfl⟩, ⟨taken, events⟩, .done,
      run_of_one_round (υ := ⟨taken, events.take 4⟩) ?_ ⟨rfl, rfl⟩, rfl, rfl⟩, rfl⟩
    exact ⟨⟨taken, events.take 4⟩, .done, ⟨⟨taken, events.take 3⟩, .done, ⟨rfl, rfl⟩, ⟨taken, events.take 4⟩, .done,
      ⟨rfl, rfl⟩, rfl, rfl⟩, rfl, rfl⟩
  · let taken := Function.update Datum.text "x" (.text "xs")
    let events := seen (.call "" "remove") (.text "it")
    refine ⟨⟨taken, events⟩, ⟨⟨taken, events⟩, .done,
      run_of_one_round (υ := ⟨taken, events.take 4⟩) ?_ ⟨rfl, rfl⟩, rfl, rfl⟩, rfl⟩
    exact ⟨⟨taken, events.take 4⟩, .done, ⟨⟨taken, events.take 3⟩, .done, ⟨rfl, rfl⟩, ⟨taken, events.take 4⟩, .done,
      ⟨rfl, rfl⟩, rfl, rfl⟩, rfl, rfl⟩


end JvmLift.Idiom
