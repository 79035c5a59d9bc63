import Mathlib
import JvmLift.Proofs.Run
import JvmLift.Proofs.Trace
import JvmLift.Structure.Walk

/-!
# Traces of graphs

What can be seen of a run through the blocks of a graph: each block performs the statements that it is recovered as,
makes the test of its branch and goes on along the edge that belongs to the outcome. A run is interrupted after a
number of blocks, and everything that holds of runs of any length is shown by induction on that number.
-/

namespace JvmLift.Structure.Setting

open Bytecode JvmLift.Flow Recovery Source Trace Behaviour

lemma tested_fallthrough {c : Condition} (h : c.IsComparison) (A B : Behaviour Ending) :
    tested c.fallthrough A B = tested c.taken B A := by
  obtain ⟨op, op', a, b, hop, htaken, hfall⟩ := h
  rw [htaken, hfall]
  exact tested_of_negated (tests_complement hop a b) A B

/-! ### Runs through blocks -/

/-- How a run goes on behind a block. -/
inductive Way
  | fork (cond : Expr) (taken fall : BlockId)
  | on (next : BlockId)
  /-- There is nowhere to go. -/
  | nowhere
  /-- Nothing tells which edge to take. -/
  | unclear

/-- The way from the end of a block that has been run. A branch makes its test even if both outcomes lead on to one
block. -/
def Way.behind (r : Recovered) (succs : List BlockId) : Way :=
  match r.exit, succs with
  | some (.conditional c), [taken, fall] => .fork c.taken taken fall
  | some (.conditional c), [next] => .fork c.taken next next
  | _, [next] => .on next
  | _, [] => .nowhere
  | _, _ => .unclear

lemma behind_nil (r : Recovered) : Way.behind r [] = .nowhere := by
  rw [Way.behind]

lemma behind_singleton {r : Recovered} (hexit : ∀ c, r.exit ≠ some (.conditional c)) (next : BlockId) :
    Way.behind r [next] = .on next := by
  unfold Way.behind
  rcases hr : r.exit with _ | c | _
  · rfl
  · exact absurd hr (hexit c)
  · rfl

lemma behind_fork {r : Recovered} {c : Condition} (hexit : r.exit = some (.conditional c)) (taken fall : BlockId) :
    Way.behind r [taken, fall] = .fork c.taken taken fall := by
  unfold Way.behind
  rw [hexit]

/-- The runs along a way, of which `V` says what follows from the start of a block. -/
def Way.traces (V : BlockId → Behaviour Ending) : Way → Behaviour Ending
  | fork cond taken fall => tested cond (V taken) (V fall)
  | on next => V next
  | nowhere => ends .done
  | unclear => ends .cut

/-- The runs from the start of a block, of which `V` says what follows behind it. -/
def through (s : Setting) (V : BlockId → Behaviour Ending) (id : BlockId) : Behaviour Ending := fun t x =>
  (t = [] ∧ x = .cut) ∨
  ∃ b r, s.graph.block? id = some b ∧ run s.context b.body [] = .ok r ∧
    ((runsEach r.stmts).andThen (onDone ((Way.behind r b.succs).traces V))) t x

/-- The runs from the start of a block through at most a number of blocks. -/
def flowsFor (s : Setting) : Nat → BlockId → Behaviour Ending
  | 0, _ => ends .cut
  | n + 1, id => s.through (s.flowsFor n) id

/-- The runs from the start of a block. -/
def flows (s : Setting) (id : BlockId) : Behaviour Ending := fun t x =>
  ∃ n, s.flowsFor n id t x

variable {s : Setting}

lemma cut_le_through (V : BlockId → Behaviour Ending) (id : BlockId) : ends .cut ≤ s.through V id :=
  fun _ _ h => .inl h

lemma through_eq {id : BlockId} {b : Block} {r : Recovered} (hb : s.graph.block? id = some b)
    (hr : run s.context b.body [] = .ok r) (V : BlockId → Behaviour Ending) :
    s.through V id = ends .cut ⊔ (runsEach r.stmts).andThen (onDone ((Way.behind r b.succs).traces V)) := by
  refine le_antisymm ?_ (sup_le (cut_le_through V id) fun t x h => .inr ⟨b, r, hb, hr, h⟩)
  rintro t x (hcut | ⟨b', r', hb', hr', h⟩)
  · exact .inl hcut
  · obtain rfl : b = b' := Option.some.inj (hb.symm.trans hb')
    obtain rfl : r = r' := Except.ok.inj (hr.symm.trans hr')
    exact .inr h

lemma cut_le_flowsFor : ∀ (n : Nat) (id : BlockId), ends .cut ≤ s.flowsFor n id
  | 0, _ => le_rfl
  | _ + 1, id => cut_le_through _ id

lemma Way.traces_mono {V V' : BlockId → Behaviour Ending} (h : V ≤ V') : ∀ way : Way, way.traces V ≤ way.traces V'
  | fork .. => tested_mono (h _) (h _)
  | on _ => h _
  | nowhere => le_rfl
  | unclear => le_rfl

lemma through_mono {V V' : BlockId → Behaviour Ending} (h : V ≤ V') (id : BlockId) :
    s.through V id ≤ s.through V' id := by
  rintro t x (hcut | ⟨b, r, hb, hr, htrace⟩)
  · exact .inl hcut
  · refine .inr ⟨b, r, hb, hr, andThen_mono le_rfl (fun y _ _ => ?_) t x htrace⟩
    unfold onDone
    split
    · exact Way.traces_mono h _
    · exact le_rfl

lemma flowsFor_le_succ : ∀ n : Nat, s.flowsFor n ≤ s.flowsFor (n + 1)
  | 0 => fun id => cut_le_flowsFor 1 id
  | n + 1 => fun id => through_mono (flowsFor_le_succ n) id

lemma flowsFor_le_flows (n : Nat) : s.flowsFor n ≤ s.flows :=
  fun _ _ _ h => ⟨n, h⟩

/-- A run goes along one edge, so that a bound for what follows there is one for all of it. -/
lemma exists_traces_flowsFor {t : List Event} {x : Ending} :
    ∀ {way : Way}, way.traces s.flows t x → ∃ n, way.traces (s.flowsFor n) t x
  | .fork .., ⟨t₁, t₂, none, ht, htest, hcut⟩ => ⟨0, t₁, t₂, none, ht, htest, hcut⟩
  | .fork .., ⟨t₁, t₂, some false, ht, htest, n, hn⟩ => ⟨n, t₁, t₂, some false, ht, htest, hn⟩
  | .fork .., ⟨t₁, t₂, some true, ht, htest, n, hn⟩ => ⟨n, t₁, t₂, some true, ht, htest, hn⟩
  | .on _, h => h
  | .nowhere, h => ⟨0, h⟩
  | .unclear, h => ⟨0, h⟩

/-- Runs of any length go through their first block to runs of any length. -/
lemma through_flows (id : BlockId) : s.through s.flows id = s.flows id := by
  refine le_antisymm ?_ ?_
  · rintro t x (hcut | ⟨b, r, hb, hr, t₁, t₂, y, rfl, hstmts, honwards⟩)
    · exact ⟨0, hcut⟩
    · by_cases hy : y = .done
      · simp only [onDone, hy, if_true] at honwards
        obtain ⟨n, hn⟩ := exists_traces_flowsFor honwards
        exact ⟨n + 1, .inr ⟨b, r, hb, hr, t₁, t₂, y, rfl, hstmts, by simpa only [onDone, hy, if_true] using hn⟩⟩
      · simp only [onDone, hy, if_false] at honwards
        exact ⟨1, .inr ⟨b, r, hb, hr, t₁, t₂, y, rfl, hstmts, by simpa only [onDone, hy, if_false] using honwards⟩⟩
  · rintro t x ⟨n, hn⟩
    exact through_mono (flowsFor_le_flows n) id t x (flowsFor_le_succ n id t x hn)

/-- A run from a block that is not interrupted at once begins with the statements of the block. -/
lemma flows_cons {s : Setting} {id : BlockId} {insns : List Instruction} {succs : List BlockId} {stmts : List Stmt}
    {way : Way} (hb : (s.graph.block? id).map (fun b => (b.body, b.succs)) = some (insns, succs))
    (hr : (run s.context insns []).toOption.map (fun r => (r.stmts, Way.behind r succs)) = some (stmts, way))
    {ev : Event} {t : List Event} {x : Ending} (h : s.flows id (ev :: t) x) :
    (runsEach stmts).andThen (onDone (way.traces s.flows)) (ev :: t) x := by
  obtain ⟨b, hblock, hpair⟩ := Option.map_eq_some_iff.mp hb
  cases hpair
  cases hrun : run s.context b.body [] with
  | error e => simp [hrun, Except.toOption] at hr
  | ok r =>
    rw [hrun] at hr
    cases hr
    rw [← through_flows, through_eq hblock hrun] at h
    exact h.resolve_left nofun

/-! ### Endings -/

/-- The endings of a run through the blocks of a method: it leaves the method or is interrupted. -/
def OnlyLeaves (A : Behaviour Ending) : Prop :=
  ∀ t x, A t x → x = .left ∨ x = .cut

lemma onlyLeaves_tested {cond : Expr} {A B : Behaviour Ending} (hA : OnlyLeaves A) (hB : OnlyLeaves B) :
    OnlyLeaves (tested cond A B) := by
  rintro _ x ⟨t₁, t₂, o, rfl, -, hpick⟩
  rcases o with _ | _ | _
  · exact .inr hpick.2
  · exact hB t₂ x hpick
  · exact hA t₂ x hpick

/-- Leaves are performed one behind the other, up to one that leaves the method. -/
lemma ending_of_leaves {ss : List Stmt} (h : ∀ s ∈ ss, s.isLeaf = true) {t : List Event} {x : Ending}
    (hruns : runsEach ss t x) : x = .done ∨ x = .left ∨ x = .cut := by
  induction ss generalizing t with
  | nil => exact .inl hruns.2
  | cons s rest ih =>
    obtain ⟨hs, hrest⟩ := List.forall_mem_cons.mp h
    obtain ⟨t₁, t₂, y, rfl, hrun, hthen⟩ := hruns
    have hy : y = .done ∨ y = .left ∨ y = .cut := by
      cases s <;> first | (rcases hrun with ⟨-, rfl⟩ | ⟨-, rfl⟩ <;> simp) | cases hs
    by_cases hdone : y = .done
    · simp only [onDone, hdone, if_true] at hthen
      exact ih hrest hthen
    · simp only [onDone, hdone, if_false] at hthen
      rw [hthen.2]
      exact hy

/-- Blocks run from an empty stack to an empty one, a branch has two ways to go, and a block without a way to go on
leaves the method. -/
structure Regular (s : Setting) : Prop where
  stack : ∀ {id b r}, s.graph.block? id = some b → run s.context b.body [] = .ok r → r.stack = []
  fork : ∀ {id b r c}, s.graph.block? id = some b → run s.context b.body [] = .ok r →
    r.exit = some (.conditional c) → b.succs.length = 2
  leaves : ∀ {id b r}, s.graph.block? id = some b → run s.context b.body [] = .ok r → b.succs = [] →
    ∀ t, ¬ runsEach r.stmts t .done
  switch : ∀ {id b}, s.graph.block? id = some b → b.switch = none

lemma succs_of_nowhere {r : Recovered} {succs : List BlockId} (h : Way.behind r succs = .nowhere) : succs = [] := by
  unfold Way.behind at h
  split at h <;> first | rfl | cases h

lemma onlyLeaves_traces {V : BlockId → Behaviour Ending} (hV : ∀ id, OnlyLeaves (V id)) :
    ∀ {way : Way}, way ≠ .nowhere → OnlyLeaves (way.traces V)
  | .fork .., _ => onlyLeaves_tested (hV _) (hV _)
  | .on _, _ => hV _
  | .nowhere, h => absurd rfl h
  | .unclear, _ => fun _ _ h => .inr h.2

lemma Regular.onlyLeaves_flowsFor (hs : s.Regular) : ∀ (n : Nat) (id : BlockId), OnlyLeaves (s.flowsFor n id)
  | 0, _ => fun t x h => .inr h.2
  | n + 1, id => by
    rintro t x (hcut | ⟨b, r, hb, hr, t₁, t₂, y, rfl, hstmts, honwards⟩)
    · exact .inr hcut.2
    by_cases hy : y = .done
    · subst hy
      have hway : Way.behind r b.succs ≠ .nowhere := fun h => hs.leaves hb hr (succs_of_nowhere h) t₁ hstmts
      exact onlyLeaves_traces (hs.onlyLeaves_flowsFor n) hway t₂ x (by simpa only [onDone, if_true] using honwards)
    · simp only [onDone, hy, if_false] at honwards
      rw [honwards.2]
      exact (ending_of_leaves (proper_of_run hr).leaf hstmts).resolve_left hy

lemma Regular.onlyLeaves_flows (hs : s.Regular) (id : BlockId) : OnlyLeaves (s.flows id) :=
  fun t x ⟨n, hn⟩ => hs.onlyLeaves_flowsFor n id t x hn

end JvmLift.Structure.Setting
