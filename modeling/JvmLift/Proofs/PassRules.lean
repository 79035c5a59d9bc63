import Mathlib
import JvmLift.Proofs.JumpScopes

/-!
# What passes keep

Rules for properties of statements that the passes for monitors and for loops keep. A pass leaves a statement as it was
or makes a new one, so a property has to be known only of what is made.
-/

namespace JvmLift.Idiom

open Source Stmt

variable {P : Stmt → Prop}

/-! ### Monitors -/

lemma exists_of_monitorCall? {which : String} {s : Stmt} {monitor : Expr} (h : monitorCall? which s = some monitor) :
    s = .evaluate (.staticCall "" which [monitor]) := by
  unfold monitorCall? at h
  split at h <;> simp_all

/-- A property that `synchronized` blocks have if the statements have it from which they are made. -/
structure KeptBySections (P : Stmt → Prop) : Prop where
  /-- A block that is closed by an exit. -/
  closed : ∀ {enter : Stmt} {monitor : Expr} {body : List Stmt}, monitorCall? "monitorenter" enter = some monitor →
    P enter → (∀ s ∈ body, P s) → P (.synchronized monitor body)
  /-- A block that is closed by a `try`. -/
  guarded : ∀ {enter s : Stmt} {monitor : Expr} {body : List Stmt}, monitorCall? "monitorenter" enter = some monitor →
    P enter → guardedBody? s = some body → P s → P (.synchronized monitor (dropMonitorExits body))

namespace Sections

/-- All statements in the state of the pass have the property. -/
structure All (P : Stmt → Prop) (state : Sections) : Prop where
  done : ∀ s ∈ state.done, P s
  current : ∀ current ∈ state.current, monitorCall? "monitorenter" current.enter = some current.monitor ∧
    P current.enter ∧ ∀ s ∈ current.body, P s

lemma All.push (hP : KeptBySections P) {state : Sections} {s : Stmt} (h : state.All P) (hs : P s) :
    (state.push s).All P := by
  obtain ⟨done, current⟩ := state
  obtain ⟨hdone, hcurrent⟩ := h
  cases current with
  | none =>
    simp only [Sections.push, next]
    split
    · next monitor henter =>
      exact ⟨fun x hx => hdone x (dropCopy_subset _ _ hx), by simpa using ⟨henter, hs⟩⟩
    · exact ⟨List.forall_mem_cons.mpr ⟨hs, hdone⟩, by simp⟩
  | some current =>
    obtain ⟨hmonitor, henter, hbody⟩ := hcurrent current rfl
    simp only [Sections.push, extend]
    split
    · next body hguarded =>
      split_ifs at hguarded
      exact ⟨List.forall_mem_cons.mpr ⟨hP.guarded hmonitor henter hguarded hs, hdone⟩, by simp⟩
    · split_ifs
      · have hblock := hP.closed hmonitor henter fun x hx => hbody x (List.mem_reverse.mp hx)
        exact ⟨List.forall_mem_cons.mpr ⟨hblock, hdone⟩, by simp⟩
      · exact ⟨hdone, by simpa using ⟨hmonitor, henter, hs, hbody⟩⟩

lemma All.foldl (hP : KeptBySections P) {body : List Stmt} {state : Sections} (h : state.All P)
    (hbody : ∀ s ∈ body, P s) : (body.foldl Sections.push state).All P := by
  induction body generalizing state with
  | nil => exact h
  | cons s body ih =>
    rw [List.forall_mem_cons] at hbody
    exact ih (h.push hP hbody.1) hbody.2

lemma All.finish {state : Sections} (h : state.All P) : ∀ s ∈ state.finish, P s := by
  obtain ⟨done, current⟩ := state
  obtain ⟨hdone, hcurrent⟩ := h
  cases current with
  | none => simpa [Sections.finish] using hdone
  | some current =>
    obtain ⟨-, henter, hbody⟩ := hcurrent current rfl
    simp only [Sections.finish, List.forall_mem_append, List.forall_mem_cons, List.mem_reverse]
    exact ⟨hdone, henter, hbody⟩

end Sections

lemma forall_mem_recoverSynchronized (hP : KeptBySections P) {body : List Stmt} (h : ∀ s ∈ body, P s) :
    ∀ s ∈ recoverSynchronized body, P s :=
  (Sections.All.foldl hP ⟨by simp, by simp⟩ h).finish

/-! ### Loops -/

/-- A call without arguments on a variable. -/
lemma of_isCallOn {var method : String} {e : Expr} (h : isCallOn var method e = true) :
    ∃ owner, e = .call (.var var) owner method [] := by
  unfold isCallOn at h
  split at h
  · simp only [Bool.and_eq_true, beq_iff_eq] at h
    exact ⟨_, by rw [h.1, h.2]⟩
  · cases h

/-- An iterator is set up by a call on the collection. -/
lemma of_iteratorSetup? {setup : Stmt} {it : String} {iterable : Expr}
    (h : iteratorSetup? setup = some (it, iterable)) :
    ∃ owner, setup = .assign (.var it) (.call iterable owner "iterator" []) := by
  unfold iteratorSetup? at h
  split at h
  · split_ifs at h with hmethod
    obtain ⟨rfl, rfl⟩ := Prod.mk.inj (Option.some.inj h)
    exact ⟨_, by rw [beq_iff_eq.mp hmethod]⟩
  · cases h

/-- An element is the next one of the iterator, and an object if it is not cast. -/
lemma of_element? {it type name : String} {first : Stmt} (h : element? it first = some (type, name)) :
    ∃ owner, first = .assign (.var name) (.cast type (.call (.var it) owner "next" [])) ∨
      type = "Object" ∧ first = .assign (.var name) (.call (.var it) owner "next" []) := by
  unfold element? at h
  split at h
  · split_ifs at h with hcall
    obtain ⟨owner, rfl⟩ := of_isCallOn hcall
    obtain ⟨rfl, rfl⟩ := Prod.mk.inj (Option.some.inj h)
    exact ⟨owner, .inl rfl⟩
  · split_ifs at h with hcall
    obtain ⟨owner, rfl⟩ := of_isCallOn hcall
    obtain ⟨rfl, rfl⟩ := Prod.mk.inj (Option.some.inj h)
    exact ⟨owner, .inr ⟨rfl, rfl⟩⟩
  · cases h

lemma forall_mem_joinHeads {head? : Stmt → Expr → List Stmt → Option Stmt}
    (hP : ∀ {setup cond inner loop}, head? setup cond inner = some loop → P setup → P (.whileLoop cond inner) → P loop)
    {body : List Stmt} (h : ∀ s ∈ body, P s) : ∀ s ∈ joinHeads head? body, P s := by
  have hpush {done : List Stmt} {s : Stmt} (hdone : ∀ x ∈ s :: done, P x) : ∀ x ∈ pushLoop head? done s, P x := by
    unfold pushLoop
    split
    · split
      · next loop hloop =>
        rw [List.forall_mem_cons, List.forall_mem_cons] at hdone
        exact List.forall_mem_cons.mpr ⟨hP hloop hdone.2.1 hdone.1, hdone.2.2⟩
      · exact hdone
    · exact hdone
  intro s hs
  exact forall_mem_foldl hpush h (List.forall_mem_nil _) s (List.mem_reverse.mp hs)

end JvmLift.Idiom
