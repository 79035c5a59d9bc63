import Mathlib
import JvmLift.Proofs.Partition
import JvmLift.Proofs.Protection

/-!
# Regions of an exception table

The regions of a method say what its exception table says. Rows of one range make one region, at the place where the range
first occurs; its handlers are the rows with a handler at an instruction, and each of them has become a block that starts
there, since the table asks for block boundaries at its handlers. It asks for them at the ends of its ranges too, so a
region covers a block as a whole or not at all.
-/

namespace JvmLift.Bytecode

/-- Instructions lie inside of the bytes that they tile. -/
lemma Tiles.offset_lt {offset : Nat} {bytes : List UInt8} {insns : List Instruction} (h : Tiles offset bytes insns) :
    ∀ i ∈ insns, i.offset < offset + bytes.length := by
  induction h with
  | done => exact nofun
  | @instruction i slack rest insns encodable length_slack behind ih =>
    have hsize := encodable.size_eq length_slack
    have hpos := encodable.size_pos
    refine List.forall_mem_cons.mpr ⟨?_, fun j hj => ?_⟩
    · rw [List.length_append]
      omega
    · have := ih j hj
      rw [Instruction.next] at this
      rw [List.length_append]
      omega
  | tail nonempty =>
    have := List.length_pos_iff.mpr nonempty
    simpa using this

end JvmLift.Bytecode

namespace JvmLift.Flow

open Bytecode

/-! ### First occurrences -/

section FirstOccurrences

variable {α : Type} [BEq α] [LawfulBEq α]

lemma idxOf_lt_of_filter {p : α → Bool} {a b : α} (ha : p a = true) (hb : p b = true) {xs : List α}
    (h : (xs.filter p).idxOf a < (xs.filter p).idxOf b) : xs.idxOf a < xs.idxOf b := by
  induction xs with
  | nil => simp at h
  | cons x xs ih =>
    by_cases hx : p x = true
    · rw [List.filter_cons_of_pos hx] at h
      by_cases hxb : x = b
      · simp [hxb] at h
      · by_cases hxa : x = a
        · subst hxa
          simp [List.idxOf_cons_ne _ hxb]
        · rw [List.idxOf_cons_ne _ hxa, List.idxOf_cons_ne _ hxb] at h ⊢
          exact Nat.succ_lt_succ (ih (Nat.lt_of_succ_lt_succ h))
    · have hxa : x ≠ a := fun heq => hx (heq ▸ ha)
      have hxb : x ≠ b := fun heq => hx (heq ▸ hb)
      rw [List.filter_cons_of_neg hx] at h
      rw [List.idxOf_cons_ne _ hxa, List.idxOf_cons_ne _ hxb]
      exact Nat.succ_lt_succ (ih h)

/-- Elements are kept in the order of their first occurrences. -/
lemma pairwise_idxOf_eraseDups : ∀ xs : List α, xs.eraseDups.Pairwise fun a b => xs.idxOf a < xs.idxOf b
  | [] => by simp
  | x :: xs => by
    let p : α → Bool := fun b => !b == x
    have hkept {a : α} (ha : a ∈ (xs.filter p).eraseDups) : p a = true ∧ (x :: xs).idxOf a = xs.idxOf a + 1 := by
      have hp : p a = true := (List.mem_filter.mp (List.mem_eraseDups.mp ha)).2
      have hxa : x ≠ a := by
        rintro rfl
        simp [p] at hp
      exact ⟨hp, List.idxOf_cons_ne _ hxa⟩
    rw [List.eraseDups_cons, List.pairwise_cons]
    constructor
    · intro a ha
      rw [(hkept ha).2, List.idxOf_cons_self]
      omega
    · refine (pairwise_idxOf_eraseDups (xs.filter p)).imp_of_mem fun ha hb hlt => ?_
      have := idxOf_lt_of_filter (hkept ha).1 (hkept hb).1 hlt
      rw [(hkept ha).2, (hkept hb).2]
      omega
termination_by xs => xs.length
decreasing_by exact Nat.lt_succ_of_le (List.length_filter_le _ _)

end FirstOccurrences

/-! ### Rows -/

/-- The handler of a row is at an instruction, be it an undecoded tail. -/
def IsLive (code : Code) (row : HandlerRow) : Prop :=
  ∃ i ∈ decode code.bytes, i.offset = row.handler.toNat

instance (code : Code) (row : HandlerRow) : Decidable (IsLive code row) :=
  inferInstanceAs (Decidable (∃ i ∈ decode code.bytes, _))

/-- The rows of a range with a handler at an instruction, in table order. -/
def liveRows (code : Code) (range : Nat × Nat) : List HandlerRow :=
  code.handlers.filter fun row => Region.rangeOf row = range ∧ IsLive code row

/-- A handler catches what a row says, in the block whose first instruction is the one that the row names. -/
def Handler.Resolves (g : FlowGraph) (row : HandlerRow) (handler : Handler) : Prop :=
  handler.catchType = .ofIndex row.catchType ∧
    ∃ b first, g.block? handler.block = some b ∧ b.body.head? = some first ∧ first.offset = row.handler.toNat

/-- An offset of an instruction, or one behind the code. -/
def IsBoundary (code : Code) (offset : Nat) : Prop :=
  (∃ i ∈ decode code.bytes, i.offset = offset) ∨ code.bytes.length ≤ offset

/-- Regions that say what the exception table of a code says. -/
structure CodeShape.Faithful (shape : CodeShape) (code : Code) : Prop where
  nodup : (shape.regions.map Region.range).Nodup
  /-- Regions are in the order of the rows in which their ranges occur first. -/
  order : shape.regions.Pairwise fun region region' =>
    (code.handlers.map Region.rangeOf).idxOf region.range < (code.handlers.map Region.rangeOf).idxOf region'.range
  exists_iff : ∀ range, (∃ region ∈ shape.regions, region.range = range) ↔
    ∃ row ∈ code.handlers, Region.rangeOf row = range ∧ IsLive code row
  handlers : ∀ region ∈ shape.regions,
    List.Forall₂ (Handler.Resolves shape.graph) (liveRows code region.range) region.handlers
  covers_eq : ∀ region ∈ shape.regions, IsBoundary code region.start → IsBoundary code region.stop →
    ∀ id b, shape.graph.block? id = some b → ∀ i ∈ b.body, ∀ j ∈ b.body, region.covers i.offset = region.covers j.offset

lemma mem_tableLeaders {rows : List HandlerRow} {row : HandlerRow} (h : row ∈ rows) :
    row.handler.toNat ∈ tableLeaders rows ∧ row.start.toNat ∈ tableLeaders rows ∧ row.stop.toNat ∈ tableLeaders rows := by
  simp only [tableLeaders, List.mem_flatMap]
  exact ⟨⟨row, h, by simp⟩, ⟨row, h, by simp⟩, ⟨row, h, by simp⟩⟩

section OfCode

variable {code : Code} {row : HandlerRow}

lemma mem_liveRows {range : Nat × Nat} :
    row ∈ liveRows code range ↔ row ∈ code.handlers ∧ Region.rangeOf row = range ∧ IsLive code row := by
  simp [liveRows]

lemma cuts_ofCode (code : Code) : (CodeShape.ofCode code).graph.Cuts (decode code.bytes) :=
  FlowGraph.cuts_withLeaders (coherent_decode code.bytes) (tableLeaders code.handlers)

/-- An instruction at which the table asks for a boundary is the first of its block. -/
lemma head?_of_mem_tableLeaders {id : BlockId} {b : Block} (hb : (CodeShape.ofCode code).graph.block? id = some b)
    {i : Instruction} (hi : i ∈ b.body) (hleader : i.offset ∈ tableLeaders code.handlers) : b.body.head? = some i :=
  (FlowGraph.head?_iff_isLeader (coherent_decode code.bytes).ascending hb hi).mpr (.extra hleader)

/-- A row has a handler exactly when an instruction is there. -/
lemma isSome_handler? (hrow : row ∈ code.handlers) :
    (Region.handler? (CodeShape.ofCode code).graph row).isSome = true ↔ IsLive code row := by
  rw [Region.handler?, Option.isSome_map, Option.isSome_iff_exists]
  constructor
  · rintro ⟨id, hid⟩
    obtain ⟨b, first, hb, hhead, hoffset⟩ :=
      (FlowGraph.startingAt?_build_iff (coherent_decode code.bytes).ascending).mp hid
    exact ⟨first, (cuts_ofCode code).mem_of_mem_body hb (List.mem_of_mem_head? hhead), hoffset⟩
  · rintro ⟨i, hi, hoffset⟩
    obtain ⟨id, b, hb, hmem⟩ := (cuts_ofCode code).exists_block hi
    have hhead := head?_of_mem_tableLeaders hb hmem (hoffset ▸ (mem_tableLeaders hrow).1)
    exact ⟨id, (FlowGraph.startingAt?_build_iff (coherent_decode code.bytes).ascending).mpr ⟨b, i, hb, hhead, hoffset⟩⟩

lemma resolves_of_handler? {handler : Handler}
    (h : Region.handler? (CodeShape.ofCode code).graph row = some handler) :
    handler.Resolves (CodeShape.ofCode code).graph row := by
  obtain ⟨id, hid, rfl⟩ := Option.map_eq_some_iff.mp h
  exact ⟨rfl, (FlowGraph.startingAt?_build_iff (coherent_decode code.bytes).ascending).mp hid⟩

/-- The handlers of a range are its rows with a handler at an instruction, one for one. -/
lemma forall₂_filterMap_handler? {rows : List HandlerRow} (h : rows ⊆ code.handlers) :
    List.Forall₂ (Handler.Resolves (CodeShape.ofCode code).graph) (rows.filter fun row => IsLive code row)
      (rows.filterMap (Region.handler? (CodeShape.ofCode code).graph)) := by
  induction rows with
  | nil => exact .nil
  | cons row rows ih =>
    obtain ⟨hrow, hrows⟩ := List.cons_subset.mp h
    have hlive := isSome_handler? hrow
    cases hhandler : Region.handler? (CodeShape.ofCode code).graph row with
    | none =>
      have hdead : ¬ IsLive code row := by simpa [hhandler] using hlive
      rw [List.filterMap_cons_none hhandler, List.filter_cons_of_neg (by simpa using hdead)]
      exact ih hrows
    | some handler =>
      have hlive : IsLive code row := by simpa [hhandler] using hlive
      rw [List.filterMap_cons_some hhandler, List.filter_cons_of_pos (by simpa using hlive)]
      exact .cons (resolves_of_handler? hhandler) (ih hrows)

lemma handlers_ofRange (code : Code) (range : Nat × Nat) :
    List.Forall₂ (Handler.Resolves (CodeShape.ofCode code).graph) (liveRows code range)
      (Region.ofRange (CodeShape.ofCode code).graph code.handlers range).handlers := by
  have hrows : liveRows code range =
      (code.handlers.filter (Region.rangeOf · == range)).filter fun row => IsLive code row := by
    rw [liveRows, List.filter_filter]
    exact List.filter_congr fun row _ => by simp [Bool.and_comm, Bool.beq_eq_decide_eq]
  rw [hrows]
  exact forall₂_filterMap_handler? (List.filter_subset_self _)

lemma mem_regions_iff {region : Region} : region ∈ (CodeShape.ofCode code).regions ↔
    region = Region.ofRange (CodeShape.ofCode code).graph code.handlers region.range ∧
      liveRows code region.range ≠ [] := by
  have hempty : region = Region.ofRange (CodeShape.ofCode code).graph code.handlers region.range →
      (region.handlers = [] ↔ liveRows code region.range = []) := by
    intro heq
    have hlength := (handlers_ofRange code region.range).length_eq
    rw [← heq] at hlength
    rw [← List.length_eq_zero_iff, ← List.length_eq_zero_iff, hlength]
  constructor
  · intro h
    have heq := Region.eq_ofRange h
    exact ⟨heq, mt (hempty heq).mpr (by simpa using (List.mem_filter.mp h).2)⟩
  · rintro ⟨heq, hrows⟩
    obtain ⟨row, hrow⟩ := List.exists_mem_of_ne_nil _ hrows
    obtain ⟨hmem, hrange, -⟩ := mem_liveRows.mp hrow
    refine List.mem_filter.mpr ⟨List.mem_map.mpr ⟨region.range, ?_, heq.symm⟩, ?_⟩
    · exact List.mem_eraseDups.mpr (List.mem_map.mpr ⟨row, hmem, hrange⟩)
    · simpa using mt (hempty heq).mp hrows

/-- A range has a region exactly when one of its rows has a handler at an instruction. -/
lemma exists_region_iff (range : Nat × Nat) : (∃ region ∈ (CodeShape.ofCode code).regions, region.range = range) ↔
    ∃ row ∈ code.handlers, Region.rangeOf row = range ∧ IsLive code row := by
  constructor
  · rintro ⟨region, hregion, rfl⟩
    obtain ⟨row, hrow⟩ := List.exists_mem_of_ne_nil _ (mem_regions_iff.mp hregion).2
    exact ⟨row, mem_liveRows.mp hrow⟩
  · rintro ⟨row, hrow⟩
    have hmem : row ∈ liveRows code range := mem_liveRows.mpr hrow
    exact ⟨Region.ofRange _ code.handlers range, mem_regions_iff.mpr ⟨rfl, List.ne_nil_of_mem hmem⟩, rfl⟩

/-- Regions stand in the order in which their ranges first occur. -/
lemma pairwise_idxOf_regions (code : Code) : (CodeShape.ofCode code).regions.Pairwise fun region region' =>
    (code.handlers.map Region.rangeOf).idxOf region.range < (code.handlers.map Region.rangeOf).idxOf region'.range := by
  have hranges := pairwise_idxOf_eraseDups (code.handlers.map Region.rangeOf)
  refine List.Pairwise.filter _ (List.pairwise_map.mpr ?_)
  exact hranges

/-- Where the table asks for a boundary, the instructions of a block are all before it or all behind it. -/
lemma le_offset_of_boundary {offset : Nat} (hleader : offset ∈ tableLeaders code.handlers)
    (hboundary : IsBoundary code offset) {id : BlockId} {b : Block}
    (hb : (CodeShape.ofCode code).graph.block? id = some b) {i j : Instruction} (hi : i ∈ b.body) (hj : j ∈ b.body)
    (hle : offset ≤ i.offset) : offset ≤ j.offset := by
  have hasc := (coherent_decode code.bytes).ascending
  have hcuts := cuts_ofCode code
  rcases hboundary with ⟨k, hk, rfl⟩ | hend
  · obtain ⟨id', b', hb', hk'⟩ := hcuts.exists_block hk
    rcases Nat.lt_trichotomy id' id with hlt | rfl | hlt
    · exact (hcuts.offset_lt_of_lt hasc hb' hb hlt hk' hj).le
    · obtain rfl := Option.some.inj (hb.symm.trans hb')
      -- the instruction at the boundary is the first of the block
      have hhead := head?_of_mem_tableLeaders hb hk' hleader
      exact (hcuts.ascending_body hasc hb).first_le hhead j hj
    · exact absurd (hcuts.offset_lt_of_lt hasc hb hb' hlt hi hk') (by omega)
  · have := (tiles_decode code.bytes).offset_lt i (hcuts.mem_of_mem_body hb hi)
    omega

/-- A region covers a block as a whole or not at all, if its ends are boundaries. -/
lemma covers_eq_of_boundary {region : Region} (hregion : region ∈ (CodeShape.ofCode code).regions)
    (hstart : IsBoundary code region.start) (hstop : IsBoundary code region.stop) {id : BlockId} {b : Block}
    (hb : (CodeShape.ofCode code).graph.block? id = some b) {i j : Instruction} (hi : i ∈ b.body) (hj : j ∈ b.body) :
    region.covers i.offset = region.covers j.offset := by
  obtain ⟨row, hmem, hrange, -⟩ := (exists_region_iff region.range).mp ⟨region, hregion, rfl⟩
  obtain ⟨-, hstart', hstop'⟩ := mem_tableLeaders hmem
  rw [show row.start.toNat = region.start from congrArg Prod.fst hrange] at hstart'
  rw [show row.stop.toNat = region.stop from congrArg Prod.snd hrange] at hstop'
  have hside {offset : Nat} (hleader : offset ∈ tableLeaders code.handlers) (hoffset : IsBoundary code offset) :
      offset ≤ i.offset ↔ offset ≤ j.offset :=
    ⟨le_offset_of_boundary hleader hoffset hb hi hj, le_offset_of_boundary hleader hoffset hb hj hi⟩
  have hfrom := hside hstart' hstart
  have hto : i.offset < region.stop ↔ j.offset < region.stop := by
    have := hside hstop' hstop
    omega
  simp only [Region.covers, hfrom, hto]

end OfCode

/-- **Exception regions.** The regions of a method have different ranges and stand in the order in which the table names
these first. Their handlers are the rows of the range with a handler at an instruction, in table order and each with the
block that starts there, and a range without such a row has no region. A region whose ends are offsets of instructions, or
lie behind the code, covers all instructions of a block or none. -/
theorem regions_faithful (code : Code) : (CodeShape.ofCode code).Faithful code where
  nodup := List.pairwise_map.mpr ((pairwise_idxOf_regions code).imp fun hlt heq => by
    rw [heq] at hlt
    exact Nat.lt_irrefl _ hlt)
  order := pairwise_idxOf_regions code
  exists_iff := exists_region_iff
  handlers := by
    intro region hregion
    rw [(mem_regions_iff.mp hregion).1]
    exact handlers_ofRange code region.range
  covers_eq := fun _ hregion hstart hstop _ _ hb _ hi _ hj => covers_eq_of_boundary hregion hstart hstop hb hi hj

/-- Ranges are repeated and overlap, the handler of the third row is inside of an instruction, and so is the only one of
the last range. -/
example : (CodeShape.ofCode
      { bytes := [0x1a, 0x1b, 0x6c, 0x3b, 0xa7, 0x00, 0x06, 0x4d, 0x03, 0x3b, 0x1a, 0xac]
        handlers := [⟨2, 9, 7, 0⟩, ⟨0, 4, 7, 1⟩, ⟨2, 9, 5, 3⟩, ⟨0, 4, 10, 2⟩, ⟨2, 9, 10, 4⟩, ⟨0, 7, 6, 0⟩] }).regions =
    [⟨2, 9, [⟨.any, 3⟩, ⟨.named 4, 5⟩]⟩, ⟨0, 4, [⟨.named 1, 3⟩, ⟨.named 2, 5⟩]⟩] := by decide +kernel

end JvmLift.Flow
