import Mathlib
import JvmLift.Proofs.PassRules

/-!
# Locking order

The order in which a body enters and leaves monitors, and what the recovery of `synchronized` blocks makes of it. A
block ends at the first exit behind its enter, on whatever monitor, and reads as leaving the monitor of its own head.
So the order is kept exactly where every such exit leaves the monitor that was entered first.
-/

namespace JvmLift.Idiom

open Source

/-! ### Events -/

/-- What a body does, as far as monitors are concerned. -/
inductive LockEvent
  | acquire (monitor : Expr)
  | release (monitor : Expr)
  | other (s : Stmt)

/-- The event of a statement that is no `synchronized` block. -/
def callEvent (s : Stmt) : LockEvent :=
  match monitorCall? "monitorenter" s with
  | some monitor => .acquire monitor
  | none =>
    match monitorCall? "monitorexit" s with
    | some monitor => .release monitor
    | none => .other s

mutual

/-- The events of a statement. A `synchronized` block enters its monitor, does what is inside, and leaves it. -/
def lockEvents : Stmt → List LockEvent
  | .synchronized monitor body => .acquire monitor :: (lockEventsEach body ++ [.release monitor])
  | s => [callEvent s]

def lockEventsEach : List Stmt → List LockEvent
  | [] => []
  | s :: rest => lockEvents s ++ lockEventsEach rest

end

@[simp] lemma lockEventsEach_append (front back : List Stmt) :
    lockEventsEach (front ++ back) = lockEventsEach front ++ lockEventsEach back := by
  induction front with
  | nil => rfl
  | cons s front ih => simp [lockEventsEach, ih]

@[simp] lemma monitorCall?_call (which name : String) (monitor : Expr) :
    monitorCall? which (.evaluate (.staticCall "" name [monitor])) = if name = which then some monitor else none := by
  simp [monitorCall?]

lemma lockEvents_of_enter {s : Stmt} {monitor : Expr} (h : monitorCall? "monitorenter" s = some monitor) :
    lockEvents s = [.acquire monitor] := by
  rw [exists_of_monitorCall? h]
  simp [lockEvents, callEvent]

lemma lockEvents_of_exit {s : Stmt} {monitor : Expr} (h : monitorCall? "monitorexit" s = some monitor) :
    lockEvents s = [.release monitor] := by
  rw [exists_of_monitorCall? h]
  simp [lockEvents, callEvent]

/-! ### Sections -/

/-- A statement at which the recovery of `synchronized` blocks has nothing to do but to look for monitor calls: it keeps
no copy of a monitor, and it is no `try` that guards the body of a section. -/
structure IsInert (s : Stmt) : Prop where
  not_assign : ∀ target value, s ≠ .assign target value
  not_guarded : guardedBody? s = none

/-- The monitor of the section in progress behind a statement. -/
def sectionBehind (current : Option Expr) (s : Stmt) : Option Expr :=
  match current with
  | none => monitorCall? "monitorenter" s
  | some monitor => if isMonitorExit s then none else some monitor

/-- The events of a body in which each exit from a section leaves the monitor of that section. -/
def sectionEvents : Option Expr → List Stmt → List LockEvent
  | _, [] => []
  | current, s :: rest =>
    (match current with
      | some monitor => if isMonitorExit s then [.release monitor] else lockEvents s
      | none => lockEvents s) ++ sectionEvents (sectionBehind current s) rest

namespace Sections

/-- The finished statements keep no copy of a monitor, and a section in progress has entered its monitor. -/
structure Fits (state : Sections) : Prop where
  inert : ∀ s ∈ state.done, ∀ target value, s ≠ .assign target value
  entered : ∀ current ∈ state.current, monitorCall? "monitorenter" current.enter = some current.monitor

lemma dropCopy_eq_self {monitor : Expr} {done : List Stmt} (h : ∀ s ∈ done, ∀ target value, s ≠ .assign target value) :
    dropCopy monitor done = done := by
  unfold dropCopy
  split
  · exact absurd rfl (h _ List.mem_cons_self _ _)
  · rfl

/-- One statement more, and the events of what the pass gives back are those of `sectionEvents`. -/
lemma push_of_fits {state : Sections} {s : Stmt} (hfits : state.Fits) (hs : IsInert s) :
    (state.push s).Fits ∧
      (state.push s).current.map Section.monitor = sectionBehind (state.current.map Section.monitor) s ∧
      lockEventsEach (state.push s).finish =
        lockEventsEach state.finish ++ sectionEvents (state.current.map Section.monitor) [s] := by
  obtain ⟨done, current⟩ := state
  obtain ⟨hdone, hentered⟩ := hfits
  cases current with
  | none =>
    simp only [push, next, finish, Option.map_none, sectionBehind, sectionEvents, List.append_nil]
    cases henter : monitorCall? "monitorenter" s with
    | none => exact ⟨⟨by simpa using ⟨hs.not_assign, hdone⟩, by simp⟩, rfl, by simp [lockEventsEach]⟩
    | some monitor =>
      simp only [dropCopy_eq_self hdone]
      exact ⟨⟨hdone, by simpa using henter⟩, rfl, by simp [lockEventsEach]⟩
  -- a section in progress ends at the next exit, whichever monitor that leaves
  | some current =>
    obtain ⟨enter, monitor, body⟩ := current
    have hevents : lockEvents enter = [.acquire monitor] := lockEvents_of_enter (hentered _ rfl)
    simp only [push, extend, hs.not_guarded, ite_self, finish, Option.map_some, sectionBehind, sectionEvents,
      List.append_nil]
    by_cases hexit : isMonitorExit s = true
    · simp only [hexit, if_true]
      refine ⟨⟨?_, by simp⟩, rfl, by simp [lockEventsEach, lockEvents, hevents]⟩
      simpa using hdone
    · simp only [hexit, Bool.false_eq_true, if_false]
      exact ⟨⟨hdone, by simpa using hentered⟩, rfl, by simp [lockEventsEach, hevents]⟩

lemma lockEventsEach_finish_foldl {body : List Stmt} : ∀ {state : Sections}, state.Fits → (∀ s ∈ body, IsInert s) →
    lockEventsEach (body.foldl push state).finish =
      lockEventsEach state.finish ++ sectionEvents (state.current.map Section.monitor) body := by
  induction body with
  | nil => simp [sectionEvents]
  | cons s body ih =>
    intro state hfits hbody
    obtain ⟨hs, hbody⟩ := List.forall_mem_cons.mp hbody
    obtain ⟨hfits', hcurrent, hevents⟩ := push_of_fits hfits hs
    rw [List.foldl_cons, ih hfits' hbody, hcurrent, hevents]
    simp [sectionEvents]

end Sections

/-- What the recovered body does: every exit from a section leaves the monitor that the section began with. -/
theorem lockEventsEach_recoverSynchronized {body : List Stmt} (h : ∀ s ∈ body, IsInert s) :
    lockEventsEach (recoverSynchronized body) = sectionEvents none body := by
  have hfits : Sections.Fits {} := ⟨by simp, by simp⟩
  rw [recoverSynchronized, Sections.lockEventsEach_finish_foldl hfits h]
  rfl

/-! ### The monitor entered first -/

/-- The monitor that a body enters first behind its last exit. -/
def firstEntered? (body : List Stmt) : Option Expr :=
  (body.rtakeWhile (!isMonitorExit ·)).findSome? (monitorCall? "monitorenter")

lemma monitorCall?_enter_of_isMonitorExit {s : Stmt} (h : isMonitorExit s = true) :
    monitorCall? "monitorenter" s = none := by
  obtain ⟨monitor, hs⟩ := Option.isSome_iff_exists.mp h
  rw [exists_of_monitorCall? hs]
  simp

/-- The section in progress is that of the monitor entered first. -/
lemma foldl_sectionBehind (body : List Stmt) : body.foldl sectionBehind none = firstEntered? body := by
  -- from the end, since only what stands behind the last exit counts
  induction body using List.reverseRecOn with
  | nil => rfl
  | append_singleton body s ih =>
    rw [List.foldl_append, ih, List.foldl_cons, List.foldl_nil]
    by_cases hexit : isMonitorExit s = true
    · have hnone := monitorCall?_enter_of_isMonitorExit hexit
      cases h : firstEntered? body <;> simp [sectionBehind, firstEntered?, hexit, hnone]
    · have hstep : firstEntered? (body ++ [s]) = (firstEntered? body).or (monitorCall? "monitorenter" s) := by
        simp only [firstEntered?]
        rw [List.rtakeWhile_concat_pos _ _ _ (by simpa using hexit), List.findSome?_append]
        simp
      cases h : firstEntered? body <;> simp [sectionBehind, hstep, h, hexit]

/-- The events are the body's own exactly where each exit from a section leaves the monitor of the section. -/
lemma sectionEvents_eq_iff {body : List Stmt} : ∀ {current : Option Expr},
    sectionEvents current body = lockEventsEach body ↔
      ∀ front exit back monitor left, body = front ++ exit :: back → front.foldl sectionBehind current = some monitor →
        monitorCall? "monitorexit" exit = some left → monitor = left := by
  induction body with
  | nil => simp [sectionEvents, lockEventsEach]
  | cons s body ih =>
    intro current
    have hstep : sectionEvents current (s :: body) = lockEventsEach (s :: body) ↔
        (∀ monitor left, current = some monitor → monitorCall? "monitorexit" s = some left → monitor = left) ∧
          sectionEvents (sectionBehind current s) body = lockEventsEach body := by
      cases current with
      | none => simp [sectionEvents, lockEventsEach]
      | some monitor =>
        cases hexit : monitorCall? "monitorexit" s with
        | none => simp [sectionEvents, lockEventsEach, isMonitorExit, hexit]
        | some left => simp [sectionEvents, lockEventsEach, isMonitorExit, hexit, lockEvents_of_exit hexit]
    rw [hstep, ih]
    constructor
    · rintro ⟨hhead, htail⟩ front exit back monitor left hbody hcurrent hexit
      cases front with
      | nil =>
        obtain ⟨rfl, rfl⟩ := List.cons_eq_cons.mp hbody
        exact hhead monitor left hcurrent hexit
      | cons _ front =>
        obtain ⟨rfl, rfl⟩ := List.cons_eq_cons.mp hbody
        exact htail front exit back monitor left rfl hcurrent hexit
    · intro h
      refine ⟨fun monitor left hcurrent hexit => h [] s body monitor left rfl hcurrent hexit, ?_⟩
      intro front exit back monitor left hbody hcurrent hexit
      exact h (s :: front) exit back monitor left (by rw [hbody]; rfl) hcurrent hexit

/-! ### The order kept -/

/-- Bodies whose sections are properly nested: what is entered is left again, by an exit on the same monitor. -/
inductive Nested : List Stmt → Prop
  | nil : Nested []
  | step {s : Stmt} {rest : List Stmt} : monitorCall? "monitorenter" s = none → monitorCall? "monitorexit" s = none →
    Nested rest → Nested (s :: rest)
  | lock {enter exit : Stmt} {monitor : Expr} {inner rest : List Stmt} :
    monitorCall? "monitorenter" enter = some monitor → Nested inner → monitorCall? "monitorexit" exit = some monitor →
    Nested rest → Nested (enter :: (inner ++ exit :: rest))

/-- **When `synchronized` blocks keep the locking order.** The recovered body does what the body does, in the same
order, exactly if each exit leaves the monitor that was entered first since the exit before it. -/
theorem lockEventsEach_recoverSynchronized_eq_iff {body : List Stmt} (h : ∀ s ∈ body, IsInert s) :
    lockEventsEach (recoverSynchronized body) = lockEventsEach body ↔
      ∀ front exit back monitor left, body = front ++ exit :: back → firstEntered? front = some monitor →
        monitorCall? "monitorexit" exit = some left → monitor = left := by
  rw [lockEventsEach_recoverSynchronized h, sectionEvents_eq_iff]
  simp only [foldl_sectionBehind]

/-- The call that enters a variable's monitor. -/
def enterVar (name : String) : Stmt :=
  .evaluate (.staticCall "" "monitorenter" [.var name])

/-- The call that leaves a variable's monitor. -/
def exitVar (name : String) : Stmt :=
  .evaluate (.staticCall "" "monitorexit" [.var name])

/-- A section inside a section on the same monitor, and behind them one on another monitor. -/
theorem lockEventsEach_recoverSynchronized_reentered :
    lockEventsEach (recoverSynchronized
        [enterVar "a", enterVar "a", exitVar "a", exitVar "a", enterVar "b", .comment "work", exitVar "b"]) =
      lockEventsEach
        [enterVar "a", enterVar "a", exitVar "a", exitVar "a", enterVar "b", .comment "work", exitVar "b"] := by
  refine (lockEventsEach_recoverSynchronized_eq_iff ?_).mpr ?_
  · intro s hs
    simp only [enterVar, exitVar, List.mem_cons, List.not_mem_nil, or_false] at hs
    rcases hs with rfl | rfl | rfl | rfl | rfl | rfl | rfl <;> exact ⟨nofun, rfl⟩
  · simp only [← foldl_sectionBehind]
    exact sectionEvents_eq_iff.mp rfl

/-- A section inside a section on another monitor: the outer one ends where the inner one should, and is left under the
wrong monitor. -/
theorem lockEventsEach_recoverSynchronized_nested_ne :
    Nested [enterVar "a", enterVar "b", exitVar "b", exitVar "a"] ∧
      lockEventsEach (recoverSynchronized [enterVar "a", enterVar "b", exitVar "b", exitVar "a"]) ≠
        lockEventsEach [enterVar "a", enterVar "b", exitVar "b", exitVar "a"] := by
  have hinner : Nested ([] ++ enterVar "b" :: ([] ++ exitVar "b" :: [])) := .lock rfl .nil rfl .nil
  refine ⟨.lock rfl hinner rfl .nil, ?_⟩
  have h : lockEventsEach (recoverSynchronized [enterVar "a", enterVar "b", exitVar "b", exitVar "a"]) =
      [.acquire (.var "a"), .acquire (.var "b"), .release (.var "a"), .release (.var "a")] := by rfl
  have h' : lockEventsEach [enterVar "a", enterVar "b", exitVar "b", exitVar "a"] =
      [.acquire (.var "a"), .acquire (.var "b"), .release (.var "b"), .release (.var "a")] := by rfl
  rw [h, h']
  simp

end JvmLift.Idiom
