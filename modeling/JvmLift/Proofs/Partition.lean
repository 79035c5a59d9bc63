import Mathlib
import JvmLift.Proofs.InstructionFlow

/-!
# Blocks partition the code

Where instructions touch, blocks touch too: each ends where the next one starts. So an offset lies in one block at most,
and the two ways to look a block up find the one that begins there and the one whose bytes contain the offset. The first
instructions of the blocks are the leaders and no others.
-/

namespace JvmLift.Flow

open Bytecode

/-- What makes an instruction the first of a block: it is the first of all, it is asked for, a transfer may lead to it,
or it stands behind a transfer. With `afterExits`, it may also stand behind an exit. -/
inductive IsLeader (insns : List Instruction) (extra : List Nat) (afterExits : Bool) (j : Instruction) : Prop
  | first (h : insns.head? = some j)
  | extra (h : j.offset ∈ extra)
  | target {i : Instruction} (hi : i ∈ insns) (transfer : i.isTransfer = true) (named : j.offset ∈ i.targets)
  | behind {i : Instruction} (adjacent : [i, j] <:+: insns)
      (leaves : i.isTransfer = true ∨ afterExits = true ∧ i.isExit = true)

namespace FlowGraph

/-- The blocks of a graph are the code cut at its leaders, and they are found by their offsets. -/
structure Partitions (g : FlowGraph) (insns : List Instruction) (extra : List Nat) (afterExits : Bool) : Prop where
  id_eq : ∀ {id b}, g.block? id = some b → b.id = id
  start_lt : ∀ {id id' b b'}, g.block? id = some b → g.block? id' = some b' → id < id' → b.start < b'.start
  flatten_body : (g.blocks.toList.map Block.body).flatten = insns
  /-- No block is empty. Its bytes are those of its instructions, from the first to the last. -/
  bounds : ∀ {id b}, g.block? id = some b →
    ∃ first last, b.body.head? = some first ∧ b.body.getLast? = some last ∧ b.start = first.offset ∧ b.stop = last.next
  stop_eq : ∀ {id b b'}, g.block? id = some b → g.block? (id + 1) = some b' → b.stop = b'.start
  /-- Only the last instruction of a block transfers control, and only the last one leaves if blocks end at exits. -/
  interior : ∀ {id b}, g.block? id = some b →
    ∀ i ∈ b.body.dropLast, i.isTransfer = false ∧ (afterExits = true → i.isExit = false)
  head?_iff : ∀ {id b}, g.block? id = some b →
    ∀ j ∈ b.body, b.body.head? = some j ↔ IsLeader insns extra afterExits j
  startingAt?_iff : ∀ {offset id}, g.startingAt? offset = some id ↔
    ∃ b first, g.block? id = some b ∧ b.body.head? = some first ∧ first.offset = offset
  containing?_iff : ∀ {offset id}, g.containing? offset = some id ↔
    ∃ b, g.block? id = some b ∧ b.start ≤ offset ∧ offset < b.stop

variable {insns : List Instruction} {extra : List Nat} {afterExits : Bool}

/-! ### Order -/

lemma pairwise_start_build (insns : List Instruction) (extra : List Nat) (afterExits : Bool) :
    (build insns extra afterExits).blocks.toList.Pairwise fun b b' => b.start < b'.start := by
  have hstarts : (build insns extra afterExits).blocks.toList.map Block.start = blockStarts afterExits extra insns := by
    rw [← map_fst_cutAt insns (blockStarts afterExits extra insns), ← map_build, List.map_map]
    rfl
  exact List.pairwise_map.mp (hstarts ▸ pairwise_blockStarts afterExits extra insns)

lemma start_lt_of_lt {id id' : BlockId} {b b' : Block} (hb : (build insns extra afterExits).block? id = some b)
    (hb' : (build insns extra afterExits).block? id' = some b') (hlt : id < id') : b.start < b'.start := by
  obtain ⟨h₁, rfl⟩ := Array.getElem?_eq_some_iff.mp hb
  obtain ⟨h₂, rfl⟩ := Array.getElem?_eq_some_iff.mp hb'
  exact List.pairwise_iff_getElem.mp (pairwise_start_build insns extra afterExits) id id' h₁ h₂ hlt

/-- The order of the starts is that of the blocks. -/
lemma lt_of_start_lt {id id' : BlockId} {b b' : Block} (hb : (build insns extra afterExits).block? id = some b)
    (hb' : (build insns extra afterExits).block? id' = some b') (hlt : b.start < b'.start) : id < id' := by
  rcases Nat.lt_trichotomy id id' with hid | rfl | hid
  · exact hid
  · rw [Option.some.inj (hb.symm.trans hb')] at hlt
    exact absurd hlt (Nat.lt_irrefl _)
  · exact absurd (start_lt_of_lt hb' hb hid) (Nat.lt_asymm hlt)

/-- Blocks with one start are one block. -/
lemma id_eq_of_start_eq {id id' : BlockId} {b b' : Block} (hb : (build insns extra afterExits).block? id = some b)
    (hb' : (build insns extra afterExits).block? id' = some b') (hstart : b.start = b'.start) : id = id' := by
  rcases Nat.lt_trichotomy id id' with hlt | heq | hlt
  · have := start_lt_of_lt hb hb' hlt
    omega
  · exact heq
  · have := start_lt_of_lt hb' hb hlt
    omega

lemma stop_of_block?_build {id : BlockId} {b : Block} (hb : (build insns extra afterExits).block? id = some b) :
    b.stop = (b.last?.map Instruction.next).getD b.start := by
  simp only [block?, build, linkPreds, List.getElem?_toArray, List.getElem?_map, Option.map_eq_some_iff, blocksOf,
    List.getElem?_zipIdx] at hb
  obtain ⟨_, ⟨cut, -, rfl⟩, rfl⟩ := hb
  rfl

section Ascending

variable (h : Ascending insns)
include h

lemma bounds_of_block?_build {id : BlockId} {b : Block} (hb : (build insns extra afterExits).block? id = some b) :
    ∃ first last, b.body.head? = some first ∧ b.body.getLast? = some last ∧
      b.start = first.offset ∧ b.stop = last.next := by
  have hg : (build insns extra afterExits).Cuts insns := cuts_build h
  obtain ⟨first, hhead, hstart⟩ := hg.head?_body hb
  have hlast := List.getLast?_eq_some_getLast (hg.body_ne_nil hb)
  refine ⟨first, _, hhead, hlast, hstart.symm, ?_⟩
  rw [stop_of_block?_build hb, Block.last?, hlast]
  rfl

lemma head?_iff_isLeader {id : BlockId} {b : Block} (hb : (build insns extra afterExits).block? id = some b)
    {j : Instruction} (hj : j ∈ b.body) : b.body.head? = some j ↔ IsLeader insns extra afterExits j := by
  have hg : (build insns extra afterExits).Cuts insns := cuts_build h
  have hmem : j ∈ insns := hg.mem_of_mem_body hb hj
  constructor
  · intro hhead
    obtain ⟨first, hfirst, hstart⟩ := hg.head?_body hb
    obtain rfl := Option.some.inj (hfirst.symm.trans hhead)
    have hleader := mem_blockStarts.mp (hstart ▸ List.mem_of_getElem? (start_of_block?_build hb))
    rcases hleader.2 with hzero | hextra | hinherent
    · obtain ⟨i, hi, hoffset⟩ := Option.map_eq_some_iff.mp hzero
      rw [h.eq_of_offset (List.mem_of_mem_head? hi) hmem hoffset] at hi
      exact .first hi
    · exact .extra hextra
    · rcases cases_of_mem_inherentLeaders hinherent with ⟨i, hi, htransfer, hnamed⟩ | ⟨i, k, hpair, hleaves, hoffset⟩
      · exact .target hi htransfer hnamed
      · rw [h.eq_of_offset (hpair.subset (by simp)) hmem hoffset] at hpair
        exact .behind hpair hleaves
  · intro hleader
    refine head?_of_mem_blockStarts h hmem (mem_blockStarts.mpr ⟨List.mem_map_of_mem hmem, ?_⟩) hb hj
    cases hleader with
    | first hfirst => exact .inl (Option.map_eq_some_iff.mpr ⟨j, hfirst, rfl⟩)
    | extra hextra => exact .inr (.inl hextra)
    | target hi htransfer hnamed => exact .inr (.inr (mem_inherentLeaders_of_target hi htransfer hnamed))
    | behind hpair hleaves => exact .inr (.inr (mem_inherentLeaders_of_next hpair hleaves))

lemma startingAt?_build_iff {offset : Nat} {id : BlockId} :
    (build insns extra afterExits).startingAt? offset = some id ↔
      ∃ b first, (build insns extra afterExits).block? id = some b ∧ b.body.head? = some first ∧
        first.offset = offset := by
  have hg : (build insns extra afterExits).Cuts insns := cuts_build h
  have hid {k : BlockId} {c : Block} (hc : (build insns extra afterExits).block? k = some c) : c.id = k :=
    (closed_build insns extra afterExits).id_eq hc
  constructor
  · intro hfind
    obtain ⟨b, hb, rfl⟩ := Option.map_eq_some_iff.mp hfind
    obtain ⟨k, hk⟩ := Array.getElem?_of_mem (Array.mem_of_find?_eq_some hb)
    obtain ⟨first, hhead, hstart⟩ := hg.head?_body hk
    have hoffset : b.start = offset := by simpa using Array.find?_some hb
    exact ⟨b, first, (hid hk).symm ▸ hk, hhead, hstart.trans hoffset⟩
  · rintro ⟨b, first, hb, hhead, rfl⟩
    obtain ⟨i, hi, hstart⟩ := hg.head?_body hb
    obtain rfl := Option.some.inj (hi.symm.trans hhead)
    cases hfind : (build insns extra afterExits).blocks.find? (·.start == i.offset) with
    | none =>
      have := Array.find?_eq_none.mp hfind b (Array.mem_of_getElem? hb)
      simp [hstart] at this
    | some c =>
      obtain ⟨k, hk⟩ := Array.getElem?_of_mem (Array.mem_of_find?_eq_some hfind)
      have hc : c.start = i.offset := by simpa using Array.find?_some hfind
      rw [startingAt?, hfind, Option.map_some, hid hk, id_eq_of_start_eq hk hb (hc.trans hstart)]

/-! ### Touching -/

variable {first : Nat} (hcontiguous : Contiguous first insns)
include hcontiguous

lemma stop_eq_start {id : BlockId} {b b' : Block} (hb : (build insns extra afterExits).block? id = some b)
    (hb' : (build insns extra afterExits).block? (id + 1) = some b') : b.stop = b'.start := by
  obtain ⟨-, i, -, hlast, -, hstop⟩ := bounds_of_block?_build h hb
  obtain ⟨j, -, hhead, -, hstart, -⟩ := bounds_of_block?_build h hb'
  have hpair : [i, j] <:+: insns := (cuts_build h).pair_infix_iff.mpr (.inr ⟨id, b, b', hb, hb', hlast, hhead⟩)
  rw [hstop, hstart, offset_of_pair_infix hcontiguous hpair]

/-- A block ends before all later ones. -/
lemma stop_le_start {id id' : BlockId} {b b' : Block} (hb : (build insns extra afterExits).block? id = some b)
    (hb' : (build insns extra afterExits).block? id' = some b') (hlt : id < id') : b.stop ≤ b'.start := by
  obtain ⟨c, hc⟩ := exists_block? (Nat.lt_of_le_of_lt hlt (lt_size_of_block? hb'))
  rw [stop_eq_start h hcontiguous hb hc]
  rcases Nat.lt_or_eq_of_le hlt with hlt | rfl
  · exact (start_lt_of_lt hc hb' hlt).le
  · rw [Option.some.inj (hc.symm.trans hb')]

/-- The block with the greatest start not above an offset is the last one that the offset is not before. -/
lemma containing?_build_iff {offset : Nat} {id : BlockId} :
    (build insns extra afterExits).containing? offset = some id ↔
      ∃ b, (build insns extra afterExits).block? id = some b ∧ b.start ≤ offset ∧ offset < b.stop := by
  let g := build insns extra afterExits
  have hid {k : BlockId} {c : Block} (hc : g.block? k = some c) : c.id = k :=
    (closed_build insns extra afterExits).id_eq hc
  have hfound {c : Block} (hc : c ∈ (g.blocks.filter (·.start ≤ offset)).toList) :
      ∃ k, g.block? k = some c ∧ c.start ≤ offset := by
    obtain ⟨hmem, hle⟩ := by simpa using hc
    obtain ⟨k, hk⟩ := Array.getElem?_of_mem hmem
    exact ⟨k, hk, hle⟩
  change g.containing? offset = some id ↔ ∃ b, g.block? id = some b ∧ _
  simp only [containing?, Option.map_eq_some_iff, Option.filter_eq_some_iff, decide_eq_true_eq]
  constructor
  · rintro ⟨b, ⟨hback, hlt⟩, rfl⟩
    rw [← Array.getLast?_toList] at hback
    obtain ⟨k, hk, hle⟩ := hfound (List.mem_of_getLast? hback)
    exact ⟨b, (hid hk).symm ▸ hk, hle, hlt⟩
  · rintro ⟨b, hb, hle, hlt⟩
    refine ⟨b, ⟨?_, hlt⟩, hid hb⟩
    have hmem : b ∈ (g.blocks.filter (·.start ≤ offset)).toList := by
      simpa using ⟨Array.mem_of_getElem? hb, hle⟩
    rw [← Array.getLast?_toList]
    rcases getLast?_or_pair_infix hmem with hlast | ⟨c, hpair⟩
    · exact hlast
    · -- a later block that starts no later than the offset ends the one before it
      obtain ⟨k, hk, hle'⟩ := hfound (c := c) (hpair.subset (by simp))
      have hsorted := (pairwise_start_build insns extra afterExits).sublist
        (hpair.sublist.trans (by rw [Array.toList_filter]; exact List.filter_sublist))
      have hstart : b.start < c.start := by simpa using hsorted
      have := stop_le_start h hcontiguous hb hk (lt_of_start_lt hb hk hstart)
      omega

/-- **Partition.** Every way to build a graph cuts touching instructions at their leaders. -/
lemma partitions_build : (build insns extra afterExits).Partitions insns extra afterExits where
  id_eq := (closed_build insns extra afterExits).id_eq
  start_lt := start_lt_of_lt
  flatten_body := (cuts_build h).flatten_body
  bounds := bounds_of_block?_build h
  stop_eq := stop_eq_start h hcontiguous
  interior hb i hi := by
    obtain ⟨j, hpair⟩ := exists_pair_infix_of_mem_dropLast hi
    exact stays_of_interior h hb hpair
  head?_iff hb _ := head?_iff_isLeader h hb
  startingAt?_iff := startingAt?_build_iff h
  containing?_iff := containing?_build_iff h hcontiguous

end Ascending

/-- **Basic blocks.** Without further leaders blocks end at transfers, with them at exits too, and either way they
partition the code. -/
theorem blocks_partition_code {insns : List Instruction} (h : Ascending insns) {first : Nat}
    (hcontiguous : Contiguous first insns) :
    (ofInstructions insns).Partitions insns [] false ∧
      ∀ extra, (withLeaders insns extra).Partitions insns extra true :=
  ⟨partitions_build h hcontiguous, fun _ => partitions_build h hcontiguous⟩

/-- Returns the absolute value of its argument. -/
def absoluteValue : List Instruction :=
  [⟨0, ⟨0x1a⟩, .slot 0, 1⟩, ⟨1, ⟨0x9c⟩, .branch 7, 3⟩, ⟨4, ⟨0x1a⟩, .slot 0, 1⟩, ⟨5, ⟨0x74⟩, .none, 1⟩,
    ⟨6, ⟨0xac⟩, .none, 1⟩, ⟨7, ⟨0x1a⟩, .slot 0, 1⟩, ⟨8, ⟨0xac⟩, .none, 1⟩]

/-- Of the further leaders, the first is no offset of an instruction. -/
theorem absoluteValue_blocks_partition :
    Ascending absoluteValue ∧ Contiguous 0 absoluteValue ∧
      (ofInstructions absoluteValue).Partitions absoluteValue [] false ∧
      (withLeaders absoluteValue [2, 8]).Partitions absoluteValue [2, 8] true ∧
      (withLeaders absoluteValue [2, 8]).blocks.toList.map Block.start = [0, 4, 7, 8] := by
  have hasc : Ascending absoluteValue := by decide
  have hcontiguous : Contiguous 0 absoluteValue := by simp [absoluteValue, Contiguous, Instruction.next]
  obtain ⟨hplain, hleaders⟩ := blocks_partition_code hasc hcontiguous
  exact ⟨hasc, hcontiguous, hplain, hleaders [2, 8], by decide +kernel⟩

end FlowGraph

end JvmLift.Flow
