import Mathlib.Tactic.Lemma
import Mathlib.Tactic.Common
import JvmLift.Structure.Walk

/-!
# Contracts of walks

A part of a walk either fails over an obstacle or ends in a state with a result. A contract says over which obstacles it
may fail and what holds of the result. There is one rule for each way to put parts together.
-/

namespace JvmLift.Structure

variable {α β : Type} {allowed : Obstacle → Prop} {x : Walk α} {f : α → Walk β} {todo todo' : Todo}
variable {post : α → Todo → Prop} {post' : β → Todo → Prop}

/-- An obstacle that lies in the code and not in the walk. -/
def InCode (e : Obstacle) : Prop :=
  e ≠ .budget ∧ ∀ id, e ≠ .missingBlock id

lemma inCode_unexpectedSuccessors (offset : Nat) : InCode (.unexpectedSuccessors offset) :=
  ⟨nofun, nofun⟩

/-- From `todo`, a part of a walk fails only over an allowed obstacle, and otherwise meets its postcondition. -/
def Meets (allowed : Obstacle → Prop) (x : Walk α) (todo : Todo) (post : α → Todo → Prop) : Prop :=
  match x todo with
  | .ok (a, todo') => post a todo'
  | .error e => allowed e

lemma meets_pure {a : α} (h : post a todo) : Meets allowed (pure a) todo post := h

lemma meets_throw {e : Obstacle} (h : allowed e) : Meets allowed (throw e) todo post := h

lemma meets_get {f : Todo → Walk α} (h : Meets allowed (f todo) todo post) : Meets allowed (get >>= f) todo post := h

lemma meets_modify {update : Todo → Todo} {f : PUnit → Walk α} (h : Meets allowed (f ⟨⟩) (update todo) post) :
    Meets allowed (modify update >>= f) todo post := h

lemma meets_bind (hx : Meets allowed x todo post)
    (hf : ∀ a todo', post a todo' → Meets allowed (f a) todo' post') : Meets allowed (x >>= f) todo post' := by
  simp only [Meets, bind, StateT.bind, Except.bind] at hx ⊢
  cases hrun : x todo with
  | error e => simpa [hrun] using hx
  | ok r =>
    rw [hrun] at hx
    exact hf r.1 r.2 hx

lemma meets_map {g : α → β} (hx : Meets allowed x todo fun a => post' (g a)) : Meets allowed (g <$> x) todo post' := by
  simp only [Meets, Functor.map, StateT.map, bind, Except.bind] at hx ⊢
  cases hrun : x todo with
  | error e => simpa [hrun] using hx
  | ok r =>
    rw [hrun] at hx
    exact hx

lemma meets_mono (hx : Meets allowed x todo post) {post₂ : α → Todo → Prop}
    (h : ∀ a todo', post a todo' → post₂ a todo') : Meets allowed x todo post₂ := by
  simp only [Meets] at hx ⊢
  cases hrun : x todo with
  | error e => simpa [hrun] using hx
  | ok r =>
    rw [hrun] at hx
    exact h r.1 r.2 hx

/-! ### Successful parts -/

/-- The contract of a part that may fail over any obstacle. -/
abbrev Yields (x : Walk α) (todo : Todo) (post : α → Todo → Prop) : Prop :=
  Meets (fun _ => True) x todo post

/-- The strongest contract of this kind. -/
lemma yields_run (x : Walk α) (todo : Todo) : Yields x todo fun a todo' => x todo = .ok (a, todo') := by
  simp only [Yields, Meets]
  cases hrun : x todo with
  | error e => trivial
  | ok r => rfl

lemma yields_throw {e : Obstacle} : Yields (throw e) todo post := trivial

lemma of_yields (hx : Yields x todo post) {a : α} (h : x todo = .ok (a, todo')) : post a todo' := by
  simpa [Yields, Meets, h] using hx

end JvmLift.Structure
