import Mathlib
import JvmLift.Proofs.Blocks

/-!
# Natural loops

Which blocks belong to a loop is told by the edges of the graph alone: an edge that does not lead forward closes a loop
at its target, and whatever leads to the source of such an edge without passing the target is part of the loop. The
search starts from the sources and goes along the lists of predecessors, which are the edges read backwards. It needs no
order on the graph: there may be several sources, loops that share blocks, and blocks that are entered from outside.
-/

namespace JvmLift.Flow

open Bytecode Relation

/-! ### What a loop is -/

namespace FlowGraph

/-- An edge that does not lead to a later start closes a loop at its target, the header. -/
def Closes (g : FlowGraph) (source header : BlockId) : Prop :=
  header ∈ g.successors source ∧ g.startOf header ≤ g.startOf source

/-- Some path leads from a block to the source of an edge that closes a loop at `header`, and does not pass the
header. -/
def LoopsBack (g : FlowGraph) (header b : BlockId) : Prop :=
  ∃ source path, g.Closes source header ∧ IsPath (Along g.successors) b path source ∧ header ∉ path

end FlowGraph

/-- A loop that is what the edges of its graph make of its header. -/
structure Loop.IsNatural (g : FlowGraph) (loop : Loop) : Prop where
  mem_body_iff : ∀ b, b ∈ loop.body ↔ b = loop.header ∨ g.LoopsBack loop.header b
  stop_greatest : IsGreatest {n | ∃ b ∈ loop.body, g.stopOf b = n} loop.stop
  exit_leaves : ∀ id, loop.exit = some id → id ∉ loop.body ∧ ∃ b ∈ loop.body, id ∈ g.successors b

namespace Loop

open FlowGraph

variable {g : FlowGraph} {header b : BlockId}

lemma mem_latches_iff : b ∈ latches g header ↔ g.Closes b header := by
  simp only [latches, List.mem_filter, List.mem_range, Bool.and_eq_true, List.contains_iff_mem, isBackEdge,
    decide_eq_true_eq, Closes, and_iff_right_iff_imp]
  rintro ⟨hedge, -⟩
  cases hb : g.block? b with
  | none => simp [successors, hb] at hedge
  | some _ => exact lt_size_of_block? hb

/-! ### Bodies -/

lemma header_mem_bodyOf : header ∈ bodyOf g header :=
  subset_spread _ _ _ (List.mem_eraseDups.mpr List.mem_cons_self)

section Body

variable (hpreds : ∀ id p, p ∈ g.preds id ↔ id ∈ g.successors p)
include hpreds

/-- **Minimality.** The search goes backwards from the sources and never on from the header. -/
lemma loopsBack_of_mem_bodyOf (h : b ∈ bodyOf g header) : b = header ∨ g.LoopsBack header b := by
  obtain ⟨source, hstart, hsteps⟩ := exists_of_mem_reach h
  clear h
  induction hsteps with
  | refl =>
    by_cases heq : source = header
    · exact .inl heq
    · have hcloses := mem_latches_iff.mp ((List.mem_cons.mp hstart).resolve_left heq)
      exact .inr ⟨source, [source], hcloses, .here source, by simpa using Ne.symm heq⟩
  | @tail c d _ hstep ih =>
    by_cases hheader : c = header
    · simp [Along, hheader] at hstep
    · have hedge : c ∈ g.successors d := (hpreds c d).mp (by simpa [Along, hheader] using hstep)
      obtain ⟨source, path, hcloses, hpath, havoids⟩ := ih.resolve_left hheader
      by_cases heq : d = header
      · exact .inl heq
      · exact .inr ⟨source, d :: path, hcloses, .step hedge hpath, by simp [Ne.symm heq, havoids]⟩

/-- **Closure.** What leads to a source without passing the header is met on the way back from there. -/
lemma exists_steps_of_path {source : BlockId} {path : List BlockId} (hpath : IsPath (Along g.successors) b path source)
    (havoids : header ∉ path) : ReflTransGen (Along fun a => if a = header then [] else g.preds a) source b := by
  induction hpath with
  | here a => exact .refl
  | @step a c _ path hedge hrest ih =>
    rw [List.mem_cons, not_or] at havoids
    have hc : c ≠ header := fun heq => havoids.2 (heq ▸ hrest.first_mem)
    have hpred : a ∈ g.preds c := (hpreds c a).mpr hedge
    exact (ih havoids.2).tail (by simpa [Along, hc] using hpred)

lemma mem_bodyOf_iff (hg : g.Closed) (hheader : header < g.size) :
    b ∈ bodyOf g header ↔ b = header ∨ g.LoopsBack header b := by
  refine ⟨loopsBack_of_mem_bodyOf hpreds, ?_⟩
  rintro (rfl | ⟨source, path, hcloses, hpath, havoids⟩)
  · exact header_mem_bodyOf
  · refine (mem_reach_iff (fun a _ p hp => ?_) fun a ha => ?_).mpr
      ⟨source, List.mem_cons_of_mem _ (mem_latches_iff.mpr hcloses), exists_steps_of_path hpreds hpath havoids⟩
    · split at hp
      · cases hp
      · exact hg.predecessors_lt a p hp
    · rcases List.mem_cons.mp ha with rfl | ha
      · exact hheader
      · exact List.mem_range.mp (List.mem_of_mem_filter ha)

end Body

/-! ### Ends and exits -/

lemma stop_ofHeader : IsGreatest {n | ∃ b ∈ bodyOf g header, g.stopOf b = n} (ofHeader g header).stop := by
  have hne : bodyOf g header ≠ [] := List.ne_nil_of_mem header_mem_bodyOf
  obtain ⟨first, rest, hbody⟩ := List.exists_cons_of_ne_nil hne
  have hmax : ((bodyOf g header).map g.stopOf).max? = some (ofHeader g header).stop := by
    simp only [ofHeader, hbody, List.map_cons, List.max?_cons', List.foldl_cons, Nat.zero_max]
  obtain ⟨hmem, hle⟩ := List.max?_eq_some_iff.mp hmax
  refine ⟨List.mem_map.mp hmem, ?_⟩
  rintro n ⟨b, hb, rfl⟩
  exact hle _ (List.mem_map_of_mem hb)

/-- Both ways to find an exit look for a block outside of the body that the body leads to. -/
lemma exit_ofHeader {id : BlockId} (h : (ofHeader g header).exit = some id) :
    id ∉ bodyOf g header ∧ ∃ b ∈ bodyOf g header, id ∈ g.successors b := by
  rcases Option.or_eq_some_iff.mp h with h | ⟨-, h⟩
  · obtain ⟨head, hhead, h⟩ := Option.bind_eq_some_iff.mp h
    split at h
    · refine ⟨by simpa using List.find?_some h, header, header_mem_bodyOf, ?_⟩
      rw [successors_of_block? hhead]
      exact mem_successors_iff.mpr (.inl (List.mem_of_find?_eq_some h))
    · cases h
  · obtain ⟨hmem, hleaves⟩ := List.mem_filter.mp (mem_of_leastBy? h)
    rw [Bool.and_eq_true] at hleaves
    exact ⟨by simpa using hleaves.1, List.mem_flatMap.mp hmem⟩

/-! ### Headers -/

lemma map_header_all :
    (all g).map Loop.header = (List.range g.size).filter fun header => !(latches g header).isEmpty := by
  rw [all, List.map_map]
  exact List.map_id _

lemma mem_headers_iff (hg : g.Closed) : header ∈ (all g).map Loop.header ↔ ∃ source, g.Closes source header := by
  have hlatches : (!(latches g header).isEmpty) = true ↔ ∃ source, g.Closes source header := by
    rw [Bool.not_eq_true', List.isEmpty_eq_false_iff_exists_mem]
    exact exists_congr fun _ => mem_latches_iff
  rw [map_header_all, List.mem_filter, hlatches, List.mem_range, and_iff_right_iff_imp]
  rintro ⟨source, hedge, -⟩
  exact hg.successors_lt source header hedge

end Loop

/-! ### Main statement -/

/-- **Natural loops.** In the graph of any instructions, cut at any further offsets, there is one loop for each block to
which an edge leads that does not go forward. Its body is that block with all blocks from which the source of such an
edge is reached without passing the block, it ends with the last block of the body, and it is left, if it has an exit,
from its body to a block outside. -/
theorem loops_natural (insns : List Instruction) (extra : List Nat) (afterExits : Bool) :
    let g := FlowGraph.build insns extra afterExits
    ((Loop.all g).map Loop.header).Nodup ∧
      (∀ header, header ∈ (Loop.all g).map Loop.header ↔ ∃ source, g.Closes source header) ∧
      ∀ loop ∈ Loop.all g, loop.IsNatural g := by
  intro g
  have hg : g.Closed := closed_build insns extra afterExits
  have hpreds (id p : BlockId) := (FlowGraph.preds_build insns extra afterExits id).2 p
  refine ⟨?_, fun header => Loop.mem_headers_iff hg, fun loop hloop => ?_⟩
  · rw [Loop.map_header_all]
    exact List.nodup_range.filter _
  · have hheader := (hg.loop_lt hloop).1
    obtain ⟨header, -, rfl⟩ := List.mem_map.mp hloop
    exact ⟨fun b => Loop.mem_bodyOf_iff hpreds hg hheader, Loop.stop_ofHeader, fun id => Loop.exit_ofHeader⟩

end JvmLift.Flow
