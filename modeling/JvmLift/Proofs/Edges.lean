import Mathlib
import JvmLift.Flow.Loop
import JvmLift.Flow.Region
import JvmLift.Proofs.Search

/-!
# Edges stay inside

A block is known by its place in the graph, and whatever a block, a loop or a handler refers to is the place of a block.
This holds of every graph that is cut from instructions, whatever the further leaders.
-/

namespace JvmLift.Flow

open Bytecode Relation

/-! ### Blocks of a built graph -/

lemma length_cutAt (insns : List Instruction) : ∀ starts : List Nat, (cutAt insns starts).length = starts.length
  | [] => rfl
  | [_] => rfl
  | _ :: stop :: rest => congrArg (· + 1) (length_cutAt insns (stop :: rest))

lemma mem_of_mem_cutAt {insns : List Instruction} : ∀ {starts : List Nat} {cut : Nat × List Instruction},
    cut ∈ cutAt insns starts → ∀ i ∈ cut.2, i ∈ insns
  | [_], _, h => by
    rw [cutAt, List.mem_singleton] at h
    subst h
    exact fun i hi => List.mem_of_mem_filter hi
  | _ :: stop :: rest, _, h => by
    rw [cutAt, List.mem_cons] at h
    rcases h with rfl | h
    · exact fun i hi => List.mem_of_mem_filter hi
    · exact mem_of_mem_cutAt h

lemma size_build (insns : List Instruction) (extra : List Nat) (afterExits : Bool) :
    (FlowGraph.build insns extra afterExits).size = (blockStarts afterExits extra insns).length := by
  simp [FlowGraph.build, FlowGraph.size, FlowGraph.linkPreds, FlowGraph.blocksOf, length_cutAt]

/-- What is known of a block of a built graph. -/
lemma block?_build {insns : List Instruction} {extra : List Nat} {afterExits : Bool} {id : BlockId} {b : Block}
    (h : (FlowGraph.build insns extra afterExits).block? id = some b) :
    b.id = id ∧ (∀ i ∈ b.body, i ∈ insns) ∧
      (b.succs, b.switch) = edgesOf ((blockStarts afterExits extra insns).idxOf? ·)
        (if id + 1 < (blockStarts afterExits extra insns).length then some (id + 1) else none) b.last? ∧
      ∀ p ∈ b.preds, p < (blockStarts afterExits extra insns).length := by
  generalize hstarts : blockStarts afterExits extra insns = starts at *
  simp only [FlowGraph.block?, FlowGraph.build, hstarts, FlowGraph.linkPreds, List.getElem?_toArray,
    List.getElem?_map, Option.map_eq_some_iff] at h
  obtain ⟨raw, hraw, rfl⟩ := h
  have hblock (k : Nat) (c : Block) (hc : (FlowGraph.blocksOf starts insns)[k]? = some c) :
      k < starts.length ∧ c.id = k ∧ (∀ i ∈ c.body, i ∈ insns) ∧
        (c.succs, c.switch) =
          edgesOf (starts.idxOf? ·) (if k + 1 < starts.length then some (k + 1) else none) c.last? := by
    simp only [FlowGraph.blocksOf, List.getElem?_map, List.getElem?_zipIdx, Option.map_map,
      Option.map_eq_some_iff] at hc
    obtain ⟨cut, hcut, rfl⟩ := hc
    obtain ⟨hlt, -⟩ := List.getElem?_eq_some_iff.mp hcut
    rw [length_cutAt] at hlt
    exact ⟨hlt, by simp, mem_of_mem_cutAt (List.mem_of_getElem? hcut), by simp [Block.last?]⟩
  obtain ⟨-, hid, hbody, hedges⟩ := hblock id raw hraw
  refine ⟨hid, hbody, hedges, fun p hp => ?_⟩
  simp only [List.mem_map, List.mem_filter] at hp
  obtain ⟨_, ⟨⟨c, hc, rfl⟩, -⟩, rfl⟩ := hp
  obtain ⟨k, hk⟩ := List.getElem?_of_mem hc
  obtain ⟨hlt, rfl, -⟩ := hblock k c hk
  exact hlt

lemma mem_insertAscending {a n : Nat} {ns : List Nat} : n ∈ insertAscending a ns ↔ n = a ∨ n ∈ ns := by
  induction ns with
  | nil => simp [insertAscending]
  | cons m ns ih =>
    rw [insertAscending]
    split_ifs with hlt heq
    · simp
    · simp [heq]
    · simp [ih, or_left_comm]

lemma mem_ascending {n : Nat} {ns : List Nat} : n ∈ ascending ns ↔ n ∈ ns := by
  induction ns with
  | nil => simp [ascending]
  | cons m ns ih =>
    simp only [ascending, List.foldr_cons] at ih ⊢
    rw [mem_insertAscending, ih, List.mem_cons]

lemma pairwise_insertAscending {a : Nat} {ns : List Nat} (h : ns.Pairwise (· < ·)) :
    (insertAscending a ns).Pairwise (· < ·) := by
  induction ns with
  | nil => simp [insertAscending]
  | cons m ns ih =>
    obtain ⟨hm, hns⟩ := List.pairwise_cons.mp h
    rw [insertAscending]
    split_ifs with hlt heq
    · refine List.pairwise_cons.mpr ⟨fun n hn => ?_, h⟩
      rcases List.mem_cons.mp hn with rfl | hn
      · exact hlt
      · exact hlt.trans (hm n hn)
    · exact h
    · refine List.pairwise_cons.mpr ⟨fun n hn => ?_, ih hns⟩
      rcases mem_insertAscending.mp hn with rfl | hn
      · omega
      · exact hm n hn

lemma pairwise_ascending (ns : List Nat) : (ascending ns).Pairwise (· < ·) := by
  induction ns with
  | nil => exact .nil
  | cons m ns ih => exact pairwise_insertAscending ih

lemma nodup_ascending (ns : List Nat) : (ascending ns).Nodup :=
  (pairwise_ascending ns).imp Nat.ne_of_lt

/-- An edge leads to the next block or to one that `resolve` has found. -/
lemma edgesOf_lt {resolve : Nat → Option BlockId} {next : Option BlockId} {last : Option Instruction} {n : Nat}
    (hresolve : ∀ o id, resolve o = some id → id < n) (hnext : ∀ id, next = some id → id < n) :
    (∀ id ∈ (edgesOf resolve next last).1, id < n) ∧
      ∀ e, (edgesOf resolve next last).2 = some e → ∀ id ∈ e.targets, id < n := by
  have hn : ∀ id ∈ next.toList, id < n := fun id h => hnext id (Option.mem_toList.mp h)
  have hr (o : Option Nat) : ∀ id ∈ (o.bind resolve).toList, id < n := by
    intro id h
    obtain ⟨a, -, ha⟩ := Option.bind_eq_some_iff.mp (Option.mem_toList.mp h)
    exact hresolve a id ha
  cases last with
  | none => exact ⟨hn, nofun⟩
  | some i =>
    simp only [edgesOf]
    split_ifs
    · exact ⟨hr _, nofun⟩
    · refine ⟨fun id h => ?_, nofun⟩
      rcases List.mem_append.mp (List.mem_eraseDups.mp h) with h | h
      · exact hr _ id h
      · exact hn id h
    · exact ⟨nofun, nofun⟩
    · refine ⟨nofun, fun e he id hid => ?_⟩
      obtain ⟨table, -, rfl⟩ := Option.map_eq_some_iff.mp he
      simp only [SwitchEdges.targets, List.mem_eraseDups, List.mem_append, Option.mem_toList, List.mem_map,
        List.mem_filterMap, Option.map_eq_some_iff] at hid
      rcases hid with hid | ⟨_, ⟨⟨key, target⟩, -, block, hb, rfl⟩, rfl⟩
      · exact hresolve _ id hid
      · exact hresolve target block hb
    · exact ⟨hn, nofun⟩

/-- Only a multi-way branch has its edges. -/
lemma isSwitch_of_edgesOf {resolve : Nat → Option BlockId} {next : Option BlockId} {last : Option Instruction}
    {e : SwitchEdges} (h : (edgesOf resolve next last).2 = some e) : ∃ i, last = some i ∧ i.isSwitch = true := by
  cases last with
  | none => cases h
  | some i =>
    simp only [edgesOf] at h
    split_ifs at h with _ _ _ hswitch
    exact ⟨i, rfl, hswitch⟩

/-! ### Closed graphs -/

/-- Blocks are known by their places, and refer to places of blocks. -/
structure FlowGraph.Closed (g : FlowGraph) : Prop where
  id_eq : ∀ {id b}, g.block? id = some b → b.id = id
  succs_lt : ∀ {id b}, g.block? id = some b → ∀ n ∈ b.succs, n < g.size
  switch_lt : ∀ {id b}, g.block? id = some b → ∀ e, b.switch = some e → ∀ n ∈ e.targets, n < g.size
  preds_lt : ∀ {id b}, g.block? id = some b → ∀ n ∈ b.preds, n < g.size

lemma closed_build (insns : List Instruction) (extra : List Nat) (afterExits : Bool) :
    (FlowGraph.build insns extra afterExits).Closed := by
  have hresolve (o : Nat) (id : BlockId) (h : (blockStarts afterExits extra insns).idxOf? o = some id) :
      id < (blockStarts afterExits extra insns).length := (List.findIdx?_eq_some_iff_findIdx_eq.mp h).1
  have hnext (k id : BlockId)
      (h : (if k + 1 < (blockStarts afterExits extra insns).length then some (k + 1) else none) = some id) :
      id < (blockStarts afterExits extra insns).length := by
    split at h
    · cases h; assumption
    · cases h
  refine ⟨fun h => (block?_build h).1, ?_, ?_, ?_⟩
  · intro id b h
    obtain ⟨-, -, hedges, -⟩ := block?_build h
    have hsuccs : b.succs = _ := congrArg Prod.fst hedges
    rw [size_build, hsuccs]
    exact (edgesOf_lt hresolve (hnext id)).1
  · intro id b h e he
    obtain ⟨-, -, hedges, -⟩ := block?_build h
    rw [size_build]
    exact (edgesOf_lt hresolve (hnext id)).2 e ((congrArg Prod.snd hedges).symm.trans he)
  · intro id b h
    rw [size_build]
    exact (block?_build h).2.2.2

namespace FlowGraph

lemma lt_size_of_block? {g : FlowGraph} {id : BlockId} {b : Block} (h : g.block? id = some b) : id < g.size :=
  (Array.getElem?_eq_some_iff.mp h).1

lemma exists_block? {g : FlowGraph} {id : BlockId} (h : id < g.size) : ∃ b, g.block? id = some b :=
  ⟨_, Array.getElem?_eq_some_iff.mpr ⟨h, rfl⟩⟩

lemma successors_of_block? {g : FlowGraph} {id : BlockId} {b : Block} (h : g.block? id = some b) :
    g.successors id = b.successors := by
  rw [successors, h]
  rfl

/-- An edge is an ordinary one or belongs to a multi-way branch. -/
lemma mem_successors_iff {b : Block} {n : BlockId} :
    n ∈ b.successors ↔ n ∈ b.succs ∨ ∃ e, b.switch = some e ∧ n ∈ e.targets := by
  cases hs : b.switch with
  | none => simp [Block.successors, outgoing, hs]
  | some e =>
    simp only [Block.successors, outgoing, hs, List.mem_append, List.mem_filter, Option.some.injEq, exists_eq_left']
    by_cases h : n ∈ b.succs <;> simp [h]

namespace Closed

variable {g : FlowGraph} (hg : g.Closed)
include hg

lemma successors_lt (id : BlockId) : ∀ n ∈ g.successors id, n < g.size := by
  intro n hn
  cases hb : g.block? id with
  | none => simp [successors, hb] at hn
  | some b =>
    rw [successors_of_block? hb] at hn
    rcases mem_successors_iff.mp hn with h | ⟨e, he, h⟩
    · exact hg.succs_lt hb n h
    · exact hg.switch_lt hb e he n h

lemma predecessors_lt (id : BlockId) : ∀ n ∈ g.preds id, n < g.size := by
  intro n hn
  cases hb : g.block? id with
  | none => simp [preds, hb] at hn
  | some b => exact hg.preds_lt hb n (by simpa [preds, hb] using hn)

lemma startingAt?_lt {offset : Nat} {id : BlockId} (h : g.startingAt? offset = some id) : id < g.size := by
  obtain ⟨b, hb, rfl⟩ := Option.map_eq_some_iff.mp h
  obtain ⟨k, hk⟩ := Array.getElem?_of_mem (Array.mem_of_find?_eq_some hb)
  rw [hg.id_eq hk]
  exact lt_size_of_block? hk

/-! ### Loops and handlers -/

lemma bodyOf_lt {header : BlockId} (hh : header < g.size) : ∀ b ∈ Loop.bodyOf g header, b < g.size := by
  refine fun b hb => lt_of_mem_reach ?_ ?_ hb
  · intro a _ c hc
    split at hc
    · cases hc
    · exact hg.predecessors_lt a c hc
  · intro a ha
    rcases List.mem_cons.mp ha with rfl | ha
    · exact hh
    · exact List.mem_range.mp (List.mem_of_mem_filter ha)

lemma exitOf_lt {header id : BlockId} {body : List BlockId} {stop : Nat}
    (h : Loop.exitOf g header body stop = some id) : id < g.size := by
  rcases Option.or_eq_some_iff.mp h with h | ⟨-, h⟩
  · obtain ⟨b, hb, h⟩ := Option.bind_eq_some_iff.mp h
    split at h
    · exact hg.succs_lt hb id (List.mem_of_find?_eq_some h)
    · cases h
  · obtain ⟨c, -, hc⟩ := List.mem_flatMap.mp (List.mem_of_mem_filter (mem_of_leastBy? h))
    exact hg.successors_lt c id hc

/-- Every part of a loop is inside the graph. -/
lemma loop_lt {loop : Loop} (h : loop ∈ Loop.all g) :
    loop.header < g.size ∧ (∀ b ∈ loop.body, b < g.size) ∧ ∀ id, loop.exit = some id → id < g.size := by
  obtain ⟨header, hh, rfl⟩ := List.mem_map.mp h
  have hlt : header < g.size := List.mem_range.mp (List.mem_of_mem_filter hh)
  exact ⟨hlt, hg.bodyOf_lt hlt, fun id => hg.exitOf_lt⟩

/-- Every handler starts at a block. -/
lemma handler_lt {rows : List HandlerRow} {region : Region} (h : region ∈ Region.ofTable g rows) :
    ∀ handler ∈ region.handlers, handler.block < g.size := by
  intro handler hh
  obtain ⟨range, -, rfl⟩ := List.mem_map.mp (List.mem_of_mem_filter h)
  obtain ⟨row, -, hrow⟩ := List.mem_filterMap.mp hh
  obtain ⟨id, hid, rfl⟩ := Option.map_eq_some_iff.mp hrow
  exact hg.startingAt?_lt hid

end Closed

end FlowGraph

end JvmLift.Flow
