import Mathlib
import JvmLift.Proofs.Budget
import JvmLift.Proofs.Partition

/-!
# The search for joins

Three rules cut a forward search off: it does not enter a block that has been placed or is a target of a construct
around, it does not go on from a block at which the scope stops, and it takes no edge that does not lead forward. What
it finds is told by paths that keep to these rules, and the join of two blocks is the earliest block to which such paths
lead from both. Since blocks have different starts, there is only one.
-/

namespace JvmLift.Structure

open Bytecode JvmLift.Flow Relation

/-! ### What a search has to find -/

/-- A path that a forward search may take: along edges to later starts, through blocks that are still open and no target
of a construct around, and beyond none at which the scope stops. -/
structure ForwardPath (todo : Todo) (g : FlowGraph) (scope : Scope) (start : BlockId) (path : List BlockId)
    (id : BlockId) : Prop where
  follows : IsPath (fun a b => b ∈ g.successors a ∧ g.startOf a < g.startOf b) start path id
  unvisited : ∀ b ∈ path, b ∈ todo.blocks
  noTarget : ∀ b ∈ path, ∀ frame ∈ scope.frames, frame.exit ≠ some b ∧ frame.header ≠ some b
  goesOn : ∀ b ∈ path.dropLast, scope.stopsAt g b = false

/-- The blocks to which forward paths lead from both of two blocks. -/
def JoinsAt (todo : Todo) (g : FlowGraph) (scope : Scope) (a b id : BlockId) : Prop :=
  (∃ path, ForwardPath todo g scope a path id) ∧ ∃ path, ForwardPath todo g scope b path id

variable {todo : Todo} {g : FlowGraph} {scope : Scope}

/-! ### Searches -/

lemma admits_iff {id : BlockId} : todo.admits scope id = true ↔
    id ∈ todo.blocks ∧ ∀ frame ∈ scope.frames, frame.exit ≠ some id ∧ frame.header ≠ some id := by
  simp [Todo.admits, Todo.isOpen, Scope.isTarget, Frame.hasTarget]

lemma mem_forward_iff {a b : BlockId} : b ∈ todo.forward g scope a ↔
    scope.stopsAt g a = false ∧ (b ∈ g.successors a ∧ g.startOf a < g.startOf b) ∧ todo.admits scope b = true := by
  rw [Todo.forward]
  split
  case isTrue hstops => simp [hstops]
  case isFalse hstops => simp [hstops, FlowGraph.isBackEdge, and_assoc]

/-- The steps of a forward search make up the forward paths. -/
lemma exists_forwardPath_iff {start id : BlockId} : (∃ path, ForwardPath todo g scope start path id) ↔
    todo.admits scope start = true ∧ ReflTransGen (Along (todo.forward g scope)) start id := by
  have hsteps : Along (todo.forward g scope) = fun a b => scope.stopsAt g a = false ∧
      (b ∈ g.successors a ∧ g.startOf a < g.startOf b) ∧ todo.admits scope b = true := by
    funext a b
    exact propext mem_forward_iff
  rw [hsteps, ← exists_path_iff (P := fun b => todo.admits scope b = true)
    (Q := fun b => scope.stopsAt g b = false) (R := fun a b => b ∈ g.successors a ∧ g.startOf a < g.startOf b)]
  refine exists_congr fun path => ?_
  simp only [admits_iff]
  constructor
  · rintro ⟨hpath, hopen, htarget, hgoes⟩
    exact ⟨hpath, fun b hb => ⟨hopen b hb, htarget b hb⟩, hgoes⟩
  · rintro ⟨hpath, hadmits, hgoes⟩
    exact ⟨hpath, fun b hb => (hadmits b hb).1, fun b hb => (hadmits b hb).2, hgoes⟩

/-- A search from a block that the graph does not have finds no other. -/
lemma eq_of_steps_of_size_le {start id : BlockId} (hstart : g.size ≤ start)
    (hsteps : ReflTransGen (Along (todo.forward g scope)) start id) : id = start := by
  have hnone : ∀ b, ¬Along (todo.forward g scope) start b := by
    intro b hb
    have hedge := mem_successors_of_mem_forward hb
    simp [FlowGraph.successors, FlowGraph.block?, Array.getElem?_eq_none hstart] at hedge
  exact (reflTransGen_iff_eq hnone).mp hsteps

lemma mem_forwardReach_iff_forwardPath (hg : g.Closed) {start id : BlockId} :
    id ∈ todo.forwardReach g scope start ↔ ∃ path, ForwardPath todo g scope start path id := by
  rw [exists_forwardPath_iff]
  by_cases hstart : start < g.size
  · exact mem_forwardReach_iff hg hstart
  · rw [Todo.forwardReach]
    split
    case isTrue hadmits =>
      -- there is no edge to go on along
      simp only [hadmits, true_and]
      constructor
      · intro h
        obtain ⟨a, ha, hsteps⟩ := exists_of_mem_reach h
        exact List.mem_singleton.mp ha ▸ hsteps
      · intro hsteps
        rw [eq_of_steps_of_size_le (Nat.le_of_not_lt hstart) hsteps]
        exact subset_spread _ _ _ (by simp)
    case isFalse hadmits => simp [hadmits]

/-- Blocks that searches from both of two blocks find are known by their starts. -/
lemma eq_of_mem_of_startOf_eq {insns : List Instruction} {extra : List Nat} {afterExits : Bool} {start id id' : BlockId}
    (hid : id ∈ todo.forwardReach (.build insns extra afterExits) scope start)
    (hid' : id' ∈ todo.forwardReach (.build insns extra afterExits) scope start)
    (h : (FlowGraph.build insns extra afterExits).startOf id = (FlowGraph.build insns extra afterExits).startOf id') :
    id = id' := by
  have hg := closed_build insns extra afterExits
  by_cases hstart : start < (FlowGraph.build insns extra afterExits).size
  · obtain ⟨b, hb⟩ := FlowGraph.exists_block? (forwardReach_lt hg hstart hid)
    obtain ⟨b', hb'⟩ := FlowGraph.exists_block? (forwardReach_lt hg hstart hid')
    exact FlowGraph.id_eq_of_start_eq hb hb' (by simpa [FlowGraph.startOf, hb, hb'] using h)
  · rw [mem_forwardReach_iff_forwardPath hg, exists_forwardPath_iff] at hid hid'
    have hsize := Nat.le_of_not_lt hstart
    rw [eq_of_steps_of_size_le hsize hid.2, eq_of_steps_of_size_le hsize hid'.2]

/-! ### Main statement -/

/-- **Joins.** A forward search finds exactly the blocks to which forward paths lead, whatever is open, whatever is
around and wherever the scope stops. The earliest join of two blocks is the block with the least start among those that
are found from both, and there is none only if nothing is found from both. -/
theorem join_search_exact (insns : List Instruction) (extra : List Nat) (afterExits : Bool) (todo : Todo)
    (scope : Scope) :
    let g := FlowGraph.build insns extra afterExits
    (∀ start id, id ∈ todo.forwardReach g scope start ↔ ∃ path, ForwardPath todo g scope start path id) ∧
      ∀ a b,
        (∀ id, todo.earliestJoin g scope a b = some id ↔ JoinsAt todo g scope a b id ∧
          ∀ other, JoinsAt todo g scope a b other → other ≠ id → g.startOf id < g.startOf other) ∧
        (todo.earliestJoin g scope a b = none ↔ ¬∃ id, JoinsAt todo g scope a b id) := by
  intro g
  have hg : g.Closed := closed_build insns extra afterExits
  refine ⟨fun start id => mem_forwardReach_iff_forwardPath hg, fun a b => ?_⟩
  let common := (todo.forwardReach g scope a).filter (todo.forwardReach g scope b).contains
  have hjoin : todo.earliestJoin g scope a b = leastBy? g.startOf common := rfl
  have hmem (id : BlockId) : id ∈ common ↔ JoinsAt todo g scope a b id := by
    simp [common, JoinsAt, mem_forwardReach_iff_forwardPath hg]
  have hstarts : ∀ x ∈ common, ∀ y ∈ common, g.startOf x = g.startOf y → x = y :=
    fun x hx y hy => eq_of_mem_of_startOf_eq (List.mem_of_mem_filter hx) (List.mem_of_mem_filter hy)
  constructor
  · intro id
    rw [hjoin, leastBy?_eq_some_iff hstarts]
    simp only [hmem]
  · rw [hjoin, leastBy?_eq_none_iff, List.eq_nil_iff_forall_not_mem, not_exists]
    simp only [hmem]

end JvmLift.Structure
