import Mathlib
import JvmLift.Proofs.Edges

/-!
# Blocks cut the code in pieces

The bodies of the blocks, one behind the other, are the instructions from the first to the last. No body is empty, and
each begins at the start of its block. This holds whenever the instructions have ascending offsets.
-/

namespace JvmLift.Flow

open Bytecode

/-! ### Neighbours in a list -/

section Neighbours

variable {α : Type} {x y : α}

lemma pair_infix_cons {a : α} {xs : List α} :
    [x, y] <:+: a :: xs ↔ (a = x ∧ xs.head? = some y) ∨ [x, y] <:+: xs := by
  rw [List.infix_cons_iff, List.cons_prefix_cons]
  cases xs with
  | nil => simp
  | cons b xs => simp [List.cons_prefix_cons, eq_comm]

/-- Neighbours in two lists are neighbours in one of them, or they stand where the two meet. -/
lemma pair_infix_append {xs ys : List α} :
    [x, y] <:+: xs ++ ys ↔ [x, y] <:+: xs ∨ (xs.getLast? = some x ∧ ys.head? = some y) ∨ [x, y] <:+: ys := by
  induction xs with
  | nil => simp
  | cons a xs ih =>
    rw [List.cons_append, pair_infix_cons, ih, pair_infix_cons]
    cases xs with
    | nil => simp
    | cons b xs => simp [or_assoc]

lemma pair_infix_iff_getElem? {xs : List α} : [x, y] <:+: xs ↔ ∃ k, xs[k]? = some x ∧ xs[k + 1]? = some y := by
  rw [List.infix_iff_getElem?]
  constructor
  · rintro ⟨k, -, h⟩
    exact ⟨k, by simpa using h 0 (by simp), by simpa [Nat.add_comm] using h 1 (by simp)⟩
  · rintro ⟨k, hx, hy⟩
    refine ⟨k, ?_, fun i hi => ?_⟩
    · have := (List.getElem?_eq_some_iff.mp hy).1
      simp only [List.length_cons, List.length_nil]
      omega
    · obtain rfl | rfl : i = 0 ∨ i = 1 := by simp at hi; omega
      · simpa using hx
      · simpa [Nat.add_comm] using hy

/-- Neighbours in pieces that are not empty are neighbours in a piece, or the last of a piece and the first of the
next. -/
lemma pair_infix_flatten {pieces : List (List α)} (hne : ∀ piece ∈ pieces, piece ≠ []) :
    [x, y] <:+: pieces.flatten ↔ (∃ piece ∈ pieces, [x, y] <:+: piece) ∨
      ∃ piece next, [piece, next] <:+: pieces ∧ piece.getLast? = some x ∧ next.head? = some y := by
  induction pieces with
  | nil => simp
  | cons piece pieces ih =>
    obtain ⟨-, hne'⟩ := List.forall_mem_cons.mp hne
    rw [List.flatten_cons, pair_infix_append, ih hne']
    simp only [pair_infix_cons, List.mem_cons, exists_eq_or_imp]
    have hmeet : (piece.getLast? = some x ∧ pieces.flatten.head? = some y) ↔
        ∃ front next, (piece = front ∧ pieces.head? = some next) ∧ front.getLast? = some x ∧ next.head? = some y := by
      cases pieces with
      | nil => simp
      | cons next pieces =>
        obtain ⟨b, bs, rfl⟩ := List.exists_cons_of_ne_nil (hne' next List.mem_cons_self)
        simp
    rw [hmeet]
    simp only [or_and_right, exists_or]
    exact (or_congr_right or_left_comm).trans or_assoc.symm

/-- An element is the last, or another stands behind it. -/
lemma getLast?_or_pair_infix {xs : List α} (hx : x ∈ xs) : xs.getLast? = some x ∨ ∃ y, [x, y] <:+: xs := by
  obtain ⟨front, back, rfl⟩ := List.append_of_mem hx
  cases back with
  | nil => simp
  | cons y back => exact .inr ⟨y, front, back, by simp⟩

/-- Another element stands behind each one before the last. -/
lemma exists_pair_infix_of_mem_dropLast {xs : List α} (hx : x ∈ xs.dropLast) : ∃ y, [x, y] <:+: xs := by
  induction xs with
  | nil => cases hx
  | cons a xs ih =>
    cases xs with
    | nil => cases hx
    | cons b xs =>
      rcases List.mem_cons.mp hx with rfl | hx
      · exact ⟨b, pair_infix_cons.mpr (.inl ⟨rfl, rfl⟩)⟩
      · obtain ⟨y, hy⟩ := ih hx
        exact ⟨y, pair_infix_cons.mpr (.inr hy)⟩

/-- What every neighbour leads to is led to from the first. -/
lemma reflTransGen_of_pair_infix {R : α → α → Prop} {xs : List α} (hR : ∀ x y, [x, y] <:+: xs → R x y) {first : α}
    (hfirst : xs.head? = some first) (hx : x ∈ xs) : Relation.ReflTransGen R first x := by
  induction xs generalizing first with
  | nil => cases hx
  | cons a xs ih =>
    obtain rfl : a = first := by simpa using hfirst
    rcases List.mem_cons.mp hx with rfl | hx
    · exact .refl
    · obtain ⟨b, xs, rfl⟩ := List.exists_cons_of_ne_nil (List.ne_nil_of_mem hx)
      refine .head (hR a b (pair_infix_cons.mpr (.inl ⟨rfl, rfl⟩))) (ih (fun x y hpair => ?_) rfl hx)
      exact hR x y (pair_infix_cons.mpr (.inr hpair))

end Neighbours

/-! ### Cutting -/

/-- Instructions with ascending offsets. -/
abbrev Ascending (insns : List Instruction) : Prop :=
  insns.Pairwise fun i j => i.offset < j.offset

/-- An instruction is known by its offset. -/
lemma Ascending.eq_of_offset {insns : List Instruction} (h : Ascending insns) {i j : Instruction} (hi : i ∈ insns)
    (hj : j ∈ insns) (heq : i.offset = j.offset) : i = j := by
  have hnodup : (insns.map Instruction.offset).Nodup := List.pairwise_map.mpr (h.imp Nat.ne_of_lt)
  exact List.inj_on_of_nodup_map hnodup hi hj heq

lemma Ascending.lt_of_pair_infix {insns : List Instruction} (h : Ascending insns) {i j : Instruction}
    (hpair : [i, j] <:+: insns) : i.offset < j.offset := by
  have := h.sublist hpair.sublist
  simpa using this

/-- The first instruction has the least offset. -/
lemma Ascending.first_le {first : Instruction} {insns : List Instruction} (h : Ascending insns)
    (hfirst : insns.head? = some first) : ∀ i ∈ insns, first.offset ≤ i.offset := by
  obtain ⟨rest, rfl⟩ := List.head?_eq_some_iff.mp hfirst
  exact List.forall_mem_cons.mpr ⟨le_refl _, fun i hi => ((List.pairwise_cons.mp h).1 i hi).le⟩

/-- Nothing stands behind the last. -/
lemma Ascending.not_pair_infix_of_getLast? {insns : List Instruction} (h : Ascending insns) {i j : Instruction}
    (hlast : insns.getLast? = some i) : ¬[i, j] <:+: insns := by
  intro hpair
  have hlt := h.lt_of_pair_infix hpair
  have hj : j ∈ insns := hpair.subset (by simp)
  obtain ⟨front, rfl⟩ := List.getLast?_eq_some_iff.mp hlast
  rcases List.mem_append.mp hj with hj | hj
  · have := (List.pairwise_append.mp h).2.2 j hj i (by simp)
    omega
  · obtain rfl := List.mem_singleton.mp hj
    omega

/-- Nothing stands before the first. -/
lemma Ascending.not_pair_infix_of_head? {insns : List Instruction} (h : Ascending insns) {i j : Instruction}
    (hhead : insns.head? = some j) : ¬[i, j] <:+: insns := by
  intro hpair
  have hlt := h.lt_of_pair_infix hpair
  have hle := h.first_le hhead i (hpair.subset (by simp))
  omega

/-- Only one instruction stands behind another. -/
lemma Ascending.eq_of_pair_infix {insns : List Instruction} (h : Ascending insns) {i j k : Instruction}
    (hj : [i, j] <:+: insns) (hk : [i, k] <:+: insns) : j = k := by
  have hnodup : insns.Nodup := h.imp fun hlt heq => absurd (congrArg Instruction.offset heq) (Nat.ne_of_lt hlt)
  obtain ⟨m, hm, hm'⟩ := pair_infix_iff_getElem?.mp hj
  obtain ⟨n, hn, hn'⟩ := pair_infix_iff_getElem?.mp hk
  obtain rfl : m = n := by
    obtain ⟨hlt, hget⟩ := List.getElem?_eq_some_iff.mp hm
    obtain ⟨hlt', hget'⟩ := List.getElem?_eq_some_iff.mp hn
    exact hnodup.getElem_inj_iff.mp (hget.trans hget'.symm)
  exact Option.some.inj (hm'.symm.trans hn')

/-- What lies between two bounds and what lies behind them is what lies behind the lower one. -/
lemma Ascending.filter_append_filter {insns : List Instruction} (h : Ascending insns) {start stop : Nat}
    (hle : start ≤ stop) :
    (insns.filter fun i => start ≤ i.offset && i.offset < stop) ++ insns.filter (fun i => stop ≤ i.offset) =
      insns.filter fun i => start ≤ i.offset := by
  induction insns with
  | nil => rfl
  | cons i insns ih =>
    by_cases hstop : stop ≤ i.offset
    · -- from here on everything lies behind both bounds
      have hfirst : ∀ j ∈ i :: insns, i.offset ≤ j.offset := h.first_le rfl
      have hnone : (i :: insns).filter (fun j => start ≤ j.offset && j.offset < stop) = [] := by
        refine List.filter_eq_nil_iff.mpr fun j hj => ?_
        have := hfirst j hj
        simp only [Bool.and_eq_true, decide_eq_true_eq]
        omega
      rw [hnone, List.nil_append]
      refine List.filter_congr fun j hj => ?_
      have := hfirst j hj
      simp only [decide_eq_decide]
      omega
    · have hlt : i.offset < stop := by omega
      simp [List.filter_cons, hstop, hlt, ← ih (List.pairwise_cons.mp h).2]
      split_ifs <;> simp

lemma flatten_cutAt {insns : List Instruction} (h : Ascending insns) {start : Nat} {starts : List Nat}
    (hstarts : (start :: starts).Pairwise (· < ·)) :
    ((cutAt insns (start :: starts)).map Prod.snd).flatten = insns.filter fun i => start ≤ i.offset := by
  induction starts generalizing start with
  | nil => simp [cutAt]
  | cons stop starts ih =>
    obtain ⟨hlt, hrest⟩ := List.pairwise_cons.mp hstarts
    rw [cutAt, List.map_cons, List.flatten_cons, ih hrest]
    exact h.filter_append_filter (hlt stop List.mem_cons_self).le

/-- A selection begins with the least offset that it allows, if an instruction starts there. -/
lemma Ascending.head?_filter {insns : List Instruction} (h : Ascending insns) {start : Nat} {p : Instruction → Bool}
    (hp : ∀ i, p i = true → start ≤ i.offset) {i : Instruction} (hi : i ∈ insns) (hstart : i.offset = start)
    (hpi : p i = true) : (insns.filter p).head? = some i := by
  have hmem : i ∈ insns.filter p := List.mem_filter.mpr ⟨hi, hpi⟩
  have hsorted : Ascending (insns.filter p) := h.filter p
  cases hfilter : insns.filter p with
  | nil => simp [hfilter] at hmem
  | cons j rest =>
    rw [hfilter] at hmem hsorted
    have hj : p j = true := (List.mem_filter.mp (hfilter ▸ List.mem_cons_self)).2
    rcases List.mem_cons.mp hmem with rfl | hrest
    · rfl
    · have := (List.pairwise_cons.mp hsorted).1 i hrest
      have := hp j hj
      omega

/-- A piece begins where it was cut, if an instruction starts there. -/
lemma head?_of_mem_cutAt {insns : List Instruction} (h : Ascending insns) : ∀ {starts : List Nat},
    starts.Pairwise (· < ·) → (∀ start ∈ starts, start ∈ insns.map Instruction.offset) →
    ∀ cut ∈ cutAt insns starts, ∃ i, cut.2.head? = some i ∧ i.offset = cut.1
  | [], _, _, _, hcut => by cases hcut
  | [start], _, hoffset, cut, hcut => by
    obtain rfl := List.mem_singleton.mp hcut
    obtain ⟨i, hi, rfl⟩ := List.mem_map.mp (hoffset _ List.mem_cons_self)
    exact ⟨i, h.head?_filter (by simp) hi rfl (by simp), rfl⟩
  | start :: stop :: starts, hstarts, hoffset, cut, hcut => by
    obtain ⟨hlt, hrest⟩ := List.pairwise_cons.mp hstarts
    rcases List.mem_cons.mp hcut with rfl | hcut
    · obtain ⟨i, hi, rfl⟩ := List.mem_map.mp (hoffset _ List.mem_cons_self)
      exact ⟨i, h.head?_filter (by simp +contextual) hi rfl (by simpa using hlt stop List.mem_cons_self), rfl⟩
    · exact head?_of_mem_cutAt h hrest (fun start hstart => hoffset start (List.mem_cons_of_mem _ hstart)) cut hcut

lemma map_fst_cutAt (insns : List Instruction) : ∀ starts : List Nat, (cutAt insns starts).map Prod.fst = starts
  | [] => rfl
  | [_] => rfl
  | start :: stop :: rest => congrArg (start :: ·) (map_fst_cutAt insns (stop :: rest))

/-! ### Starts -/

lemma mem_blockStarts {afterExits : Bool} {extra : List Nat} {insns : List Instruction} {n : Nat} :
    n ∈ blockStarts afterExits extra insns ↔ n ∈ insns.map Instruction.offset ∧
      (n ∈ (insns.head?.map Instruction.offset) ∨ n ∈ extra ∨ n ∈ inherentLeaders afterExits insns) := by
  simp [blockStarts, mem_ascending]

/-- A target of a transfer is a leader. -/
lemma mem_inherentLeaders_of_target {afterExits : Bool} {insns : List Instruction} {i : Instruction} (hi : i ∈ insns)
    (htransfer : i.isTransfer = true) {n : Nat} (hn : n ∈ i.targets) : n ∈ inherentLeaders afterExits insns := by
  induction insns with
  | nil => cases hi
  | cons j insns ih =>
    rw [inherentLeaders]
    rcases List.mem_cons.mp hi with rfl | hi
    · simp [htransfer, hn]
    · simp [ih hi]

/-- What stands behind a transfer is a leader, and what stands behind an exit if it is asked for. -/
lemma mem_inherentLeaders_of_next {afterExits : Bool} {insns : List Instruction} {i j : Instruction}
    (hnext : [i, j] <:+: insns) (hleaves : i.isTransfer = true ∨ afterExits = true ∧ i.isExit = true) :
    j.offset ∈ inherentLeaders afterExits insns := by
  induction insns with
  | nil => simp at hnext
  | cons k insns ih =>
    rw [inherentLeaders]
    rcases pair_infix_cons.mp hnext with ⟨rfl, hhead⟩ | hnext
    · simp [hleaves, hhead]
    · simp [ih hnext]

/-- There are no other leaders. -/
lemma cases_of_mem_inherentLeaders {afterExits : Bool} {insns : List Instruction} {n : Nat}
    (h : n ∈ inherentLeaders afterExits insns) :
    (∃ i ∈ insns, i.isTransfer = true ∧ n ∈ i.targets) ∨
      ∃ i j, [i, j] <:+: insns ∧ (i.isTransfer = true ∨ afterExits = true ∧ i.isExit = true) ∧ j.offset = n := by
  induction insns with
  | nil => cases h
  | cons k insns ih =>
    rw [inherentLeaders, List.mem_append, List.mem_append] at h
    rcases h with (htarget | hnext) | hrest
    · split at htarget
      · next htransfer => exact .inl ⟨k, List.mem_cons_self, htransfer, htarget⟩
      · cases htarget
    · split at hnext
      · next hleaves =>
        obtain ⟨j, hj, rfl⟩ := Option.map_eq_some_iff.mp (Option.mem_toList.mp hnext)
        exact .inr ⟨k, j, pair_infix_cons.mpr (.inl ⟨rfl, hj⟩), by simpa using hleaves, rfl⟩
      · cases hnext
    · rcases ih hrest with ⟨i, hi, htarget⟩ | ⟨i, j, hpair, hleaves⟩
      · exact .inl ⟨i, List.mem_cons_of_mem _ hi, htarget⟩
      · exact .inr ⟨i, j, pair_infix_cons.mpr (.inr hpair), hleaves⟩

lemma pairwise_blockStarts (afterExits : Bool) (extra : List Nat) (insns : List Instruction) :
    (blockStarts afterExits extra insns).Pairwise (· < ·) :=
  pairwise_ascending _

/-- The pieces between the starts are all of the code. -/
lemma flatten_cutAt_blockStarts {insns : List Instruction} (h : Ascending insns) (afterExits : Bool)
    (extra : List Nat) :
    ((cutAt insns (blockStarts afterExits extra insns)).map Prod.snd).flatten = insns := by
  cases insns with
  | nil => rfl
  | cons i insns =>
    have hfirst : i.offset ∈ blockStarts afterExits extra (i :: insns) := mem_blockStarts.mpr (by simp)
    have hsorted := pairwise_blockStarts afterExits extra (i :: insns)
    cases hstarts : blockStarts afterExits extra (i :: insns) with
    | nil => simp [hstarts] at hfirst
    | cons start starts =>
      rw [hstarts] at hfirst hsorted
      have hstart : start ≤ i.offset :=
        (List.mem_cons.mp hfirst).elim (fun h => h.ge) fun h => ((List.pairwise_cons.mp hsorted).1 _ h).le
      rw [flatten_cutAt h hsorted, List.filter_eq_self]
      exact fun j hj => decide_eq_true (hstart.trans (h.first_le rfl j hj))

/-! ### Blocks -/

namespace FlowGraph

/-- The bodies of the blocks are the instructions, cut at the starts of the blocks. -/
structure Cuts (g : FlowGraph) (insns : List Instruction) : Prop where
  flatten_body : (g.blocks.toList.map Block.body).flatten = insns
  head?_body : ∀ {id b}, g.block? id = some b → ∃ i, b.body.head? = some i ∧ i.offset = b.start

lemma map_build (insns : List Instruction) (extra : List Nat) (afterExits : Bool) :
    (build insns extra afterExits).blocks.toList.map (fun b => (b.start, b.body)) =
      cutAt insns (blockStarts afterExits extra insns) := by
  simp [build, linkPreds, blocksOf, Function.comp_def]

variable {insns : List Instruction} {extra : List Nat} {afterExits : Bool}

/-- The places of the blocks are those of the starts. -/
lemma start_of_block?_build {id : BlockId} {b : Block} (h : (build insns extra afterExits).block? id = some b) :
    (blockStarts afterExits extra insns)[id]? = some b.start := by
  rw [← map_fst_cutAt insns (blockStarts afterExits extra insns), ← map_build, List.map_map, List.getElem?_map]
  have hlist : (build insns extra afterExits).blocks.toList[id]? = some b := by simpa [block?] using h
  rw [hlist]
  rfl

lemma cuts_build (h : Ascending insns) : (build insns extra afterExits).Cuts insns where
  flatten_body := by
    have hbodies : (build insns extra afterExits).blocks.toList.map Block.body =
        (cutAt insns (blockStarts afterExits extra insns)).map Prod.snd := by
      rw [← map_build, List.map_map, Function.comp_def]
    rw [hbodies, flatten_cutAt_blockStarts h]
  head?_body := by
    intro id b hb
    refine head?_of_mem_cutAt h (pairwise_blockStarts afterExits extra insns)
      (fun start hstart => (mem_blockStarts.mp hstart).1) (b.start, b.body) ?_
    rw [← map_build]
    exact List.mem_map.mpr ⟨b, Array.mem_toList_iff.mpr (Array.mem_of_getElem? hb), rfl⟩

/-- The predecessors of a block are the blocks that lead to it, each once. -/
lemma preds_linkPreds {raw : List Block} (hids : raw.map Block.id = List.range raw.length) {id : BlockId} {b : Block}
    (h : (linkPreds raw)[id]? = some b) :
    b.preds.Nodup ∧ ∀ p, p ∈ b.preds ↔ ∃ c, raw[p]? = some c ∧ id ∈ c.successors := by
  have hid {k : Nat} {c : Block} (hc : raw[k]? = some c) : c.id = k := by
    have hk : (raw.map Block.id)[k]? = some c.id := by rw [List.getElem?_map, hc, Option.map_some]
    rw [hids, List.getElem?_range (List.getElem?_eq_some_iff.mp hc).1] at hk
    exact (Option.some.inj hk).symm
  simp only [linkPreds, List.getElem?_map, Option.map_eq_some_iff] at h
  obtain ⟨c, hc, rfl⟩ := h
  constructor
  · refine List.Nodup.sublist (List.filter_sublist.map Prod.fst) ?_
    rw [List.map_map]
    exact hids ▸ List.nodup_range
  · intro p
    simp only [List.mem_map, List.mem_filter, List.contains_iff_mem, hid hc]
    constructor
    · rintro ⟨_, ⟨⟨d, hd, rfl⟩, hmem⟩, rfl⟩
      obtain ⟨k, hk⟩ := List.getElem?_of_mem hd
      exact ⟨d, (hid hk).symm ▸ hk, hmem⟩
    · rintro ⟨d, hd, hmem⟩
      exact ⟨_, ⟨⟨d, List.mem_of_getElem? hd, rfl⟩, hmem⟩, hid hd⟩

lemma preds_of_block?_build {id : BlockId} {b : Block} (h : (build insns extra afterExits).block? id = some b) :
    b.preds.Nodup ∧ ∀ p, p ∈ b.preds ↔ id ∈ (build insns extra afterExits).successors p := by
  let raw := blocksOf (blockStarts afterExits extra insns) insns
  have hids : raw.map Block.id = List.range raw.length := by
    refine List.ext_getElem (by simp) fun k hk hk' => ?_
    simp [raw, blocksOf]
  have hsuccessors (p : BlockId) : (build insns extra afterExits).successors p =
      ((raw[p]?).map Block.successors).getD [] := by
    simp only [successors, block?, build, linkPreds, List.getElem?_toArray, List.getElem?_map, Option.map_map]
    rfl
  obtain ⟨hnodup, hmem⟩ := preds_linkPreds hids (by simpa [block?, build] using h)
  refine ⟨hnodup, fun p => ?_⟩
  rw [hmem, hsuccessors]
  cases raw[p]? <;> simp

/-- **Predecessors.** They are the edges read backwards, each once. -/
lemma preds_build (insns : List Instruction) (extra : List Nat) (afterExits : Bool) (id : BlockId) :
    ((build insns extra afterExits).preds id).Nodup ∧
      ∀ p, p ∈ (build insns extra afterExits).preds id ↔ id ∈ (build insns extra afterExits).successors p := by
  cases hb : (build insns extra afterExits).block? id with
  | none =>
    have hout : ∀ p, id ∉ (build insns extra afterExits).successors p := by
      intro p hmem
      obtain ⟨b, hb'⟩ := exists_block? ((closed_build insns extra afterExits).successors_lt p id hmem)
      simp [hb] at hb'
    simp [preds, hb, hout]
  | some b =>
    rw [preds, hb]
    exact preds_of_block?_build hb

namespace Cuts

variable {g : FlowGraph} (hg : g.Cuts insns)
include hg

lemma body_ne_nil {id : BlockId} {b : Block} (hb : g.block? id = some b) : b.body ≠ [] := by
  obtain ⟨i, hi, -⟩ := hg.head?_body hb
  rintro hnil
  simp [hnil] at hi

omit hg in
lemma getElem?_bodies {id : BlockId} {b : Block} (hb : g.block? id = some b) :
    (g.blocks.toList.map Block.body)[id]? = some b.body := by
  have hlist : g.blocks.toList[id]? = some b := by simpa [block?] using hb
  rw [List.getElem?_map, hlist, Option.map_some]

omit hg in
lemma exists_of_getElem?_bodies {id : BlockId} {body : List Instruction}
    (h : (g.blocks.toList.map Block.body)[id]? = some body) : ∃ b, g.block? id = some b ∧ b.body = body := by
  rw [List.getElem?_map, Option.map_eq_some_iff] at h
  obtain ⟨b, hb, rfl⟩ := h
  exact ⟨b, by simpa [block?] using hb, rfl⟩

lemma mem_of_mem_body {id : BlockId} {b : Block} (hb : g.block? id = some b) {i : Instruction} (hi : i ∈ b.body) :
    i ∈ insns := by
  rw [← hg.flatten_body]
  exact List.mem_flatten.mpr ⟨b.body, List.mem_of_getElem? (getElem?_bodies hb), hi⟩

/-- Every instruction is in a block. -/
lemma exists_block {i : Instruction} (hi : i ∈ insns) : ∃ id b, g.block? id = some b ∧ i ∈ b.body := by
  rw [← hg.flatten_body] at hi
  obtain ⟨body, hbody, hi⟩ := List.mem_flatten.mp hi
  obtain ⟨id, hid⟩ := List.getElem?_of_mem hbody
  obtain ⟨b, hb, rfl⟩ := exists_of_getElem?_bodies hid
  exact ⟨id, b, hb, hi⟩

/-- Neighbours in the code are neighbours in a block, or the last of a block and the first of the next. -/
lemma pair_infix_iff {i j : Instruction} :
    [i, j] <:+: insns ↔ (∃ id b, g.block? id = some b ∧ [i, j] <:+: b.body) ∨
      ∃ id b b', g.block? id = some b ∧ g.block? (id + 1) = some b' ∧ b.last? = some i ∧ b'.body.head? = some j := by
  have hne : ∀ body ∈ g.blocks.toList.map Block.body, body ≠ [] := by
    intro body hbody
    obtain ⟨id, hid⟩ := List.getElem?_of_mem hbody
    obtain ⟨b, hb, rfl⟩ := exists_of_getElem?_bodies hid
    exact hg.body_ne_nil hb
  rw [← hg.flatten_body, pair_infix_flatten hne]
  refine or_congr ⟨?_, ?_⟩ ⟨?_, ?_⟩
  · rintro ⟨body, hbody, hpair⟩
    obtain ⟨id, hid⟩ := List.getElem?_of_mem hbody
    obtain ⟨b, hb, rfl⟩ := exists_of_getElem?_bodies hid
    exact ⟨id, b, hb, hpair⟩
  · rintro ⟨id, b, hb, hpair⟩
    exact ⟨b.body, List.mem_of_getElem? (getElem?_bodies hb), hpair⟩
  · rintro ⟨body, next, hpair, hlast, hhead⟩
    obtain ⟨id, hid, hid'⟩ := pair_infix_iff_getElem?.mp hpair
    obtain ⟨b, hb, rfl⟩ := exists_of_getElem?_bodies hid
    obtain ⟨b', hb', rfl⟩ := exists_of_getElem?_bodies hid'
    exact ⟨id, b, b', hb, hb', hlast, hhead⟩
  · rintro ⟨id, b, b', hb, hb', hlast, hhead⟩
    exact ⟨b.body, b'.body, pair_infix_iff_getElem?.mpr ⟨id, getElem?_bodies hb, getElem?_bodies hb'⟩, hlast, hhead⟩

variable (h : Ascending insns)
include h

lemma ascending_body {id : BlockId} {b : Block} (hb : g.block? id = some b) : Ascending b.body := by
  rw [← hg.flatten_body] at h
  exact (List.pairwise_flatten.mp h).1 b.body (List.mem_of_getElem? (getElem?_bodies hb))

/-- Blocks keep the order of the code. -/
lemma offset_lt_of_lt {id id' : BlockId} {b b' : Block} (hb : g.block? id = some b) (hb' : g.block? id' = some b')
    (hlt : id < id') {i j : Instruction} (hi : i ∈ b.body) (hj : j ∈ b'.body) : i.offset < j.offset := by
  rw [← hg.flatten_body] at h
  have hpieces := (List.pairwise_flatten.mp h).2
  obtain ⟨hlt₁, hget⟩ := List.getElem?_eq_some_iff.mp (getElem?_bodies hb)
  obtain ⟨hlt₂, hget'⟩ := List.getElem?_eq_some_iff.mp (getElem?_bodies hb')
  have hall := List.pairwise_iff_getElem.mp hpieces id id' hlt₁ hlt₂ hlt
  rw [hget, hget'] at hall
  exact hall i hi j hj

/-- No instruction is in two blocks. -/
lemma id_eq_of_mem {id id' : BlockId} {b b' : Block} (hb : g.block? id = some b) (hb' : g.block? id' = some b')
    {i : Instruction} (hi : i ∈ b.body) (hi' : i ∈ b'.body) : id = id' := by
  rcases Nat.lt_trichotomy id id' with hlt | heq | hlt
  · exact absurd (hg.offset_lt_of_lt h hb hb' hlt hi hi') (Nat.lt_irrefl _)
  · exact heq
  · exact absurd (hg.offset_lt_of_lt h hb' hb hlt hi' hi) (Nat.lt_irrefl _)

/-- What stands behind the last instruction of a block is the first of the next block. -/
lemma exists_next_of_last {id : BlockId} {b : Block} (hb : g.block? id = some b) {i j : Instruction}
    (hlast : b.last? = some i) (hpair : [i, j] <:+: insns) :
    ∃ b', g.block? (id + 1) = some b' ∧ b'.body.head? = some j := by
  have hi : i ∈ b.body := List.mem_of_getLast? hlast
  rcases hg.pair_infix_iff.mp hpair with ⟨k, c, hc, hinside⟩ | ⟨k, c, c', hc, hc', hlast', hhead'⟩
  · obtain rfl := hg.id_eq_of_mem h hb hc hi (hinside.subset (by simp))
    obtain rfl := Option.some.inj (hb.symm.trans hc)
    exact absurd hinside ((hg.ascending_body h hb).not_pair_infix_of_getLast? hlast)
  · obtain rfl := hg.id_eq_of_mem h hb hc hi (List.mem_of_getLast? hlast')
    exact ⟨c', hc', hhead'⟩

/-- The first block begins with the first instruction. -/
lemma id_eq_zero_of_first {first : Instruction} (hfirst : insns.head? = some first) {id : BlockId} {b : Block}
    (hb : g.block? id = some b) (hmem : first ∈ b.body) : id = 0 := by
  by_contra hne
  have hpos : 0 < id := Nat.pos_of_ne_zero hne
  obtain ⟨c, hc⟩ := exists_block? (hpos.trans (lt_size_of_block? hb))
  obtain ⟨i, hi⟩ := List.exists_mem_of_ne_nil _ (hg.body_ne_nil hc)
  have hlt := hg.offset_lt_of_lt h hc hb hpos hi hmem
  have hle := h.first_le hfirst i (hg.mem_of_mem_body hc hi)
  omega

end Cuts

/-! ### Firsts and lasts of blocks -/

section Firsts

variable (h : Ascending insns)
include h

/-- The block that starts at an instruction begins with it. -/
lemma head?_of_start_eq {id : BlockId} {b : Block} (hb : (build insns extra afterExits).block? id = some b)
    {j : Instruction} (hj : j ∈ insns) (hstart : b.start = j.offset) : b.body.head? = some j := by
  have hg : (build insns extra afterExits).Cuts insns := cuts_build h
  obtain ⟨i, hhead, hi⟩ := hg.head?_body hb
  have hmem := hg.mem_of_mem_body hb (List.mem_of_mem_head? hhead)
  rw [hhead, h.eq_of_offset hmem hj (hi.trans hstart)]

/-- A leader that an instruction starts at is the first of its block. -/
lemma head?_of_mem_blockStarts {j : Instruction} (hj : j ∈ insns)
    (hstart : j.offset ∈ blockStarts afterExits extra insns) {id : BlockId} {b : Block}
    (hb : (build insns extra afterExits).block? id = some b) (hmem : j ∈ b.body) : b.body.head? = some j := by
  obtain ⟨k, hk⟩ := List.getElem?_of_mem hstart
  have hlt : k < (build insns extra afterExits).size := by
    rw [size_build]
    exact (List.getElem?_eq_some_iff.mp hk).1
  obtain ⟨c, hc⟩ := exists_block? hlt
  have hcstart : c.start = j.offset := Option.some.inj ((start_of_block?_build hc).symm.trans hk)
  have hhead := head?_of_start_eq h hc hj hcstart
  obtain rfl := (cuts_build h).id_eq_of_mem h hb hc hmem (List.mem_of_mem_head? hhead)
  rwa [Option.some.inj (hb.symm.trans hc)]

/-- An instruction with another one behind it in its block does not transfer control, nor leave if blocks end at
exits. -/
lemma stays_of_interior {id : BlockId} {b : Block} (hb : (build insns extra afterExits).block? id = some b)
    {i j : Instruction} (hpair : [i, j] <:+: b.body) :
    i.isTransfer = false ∧ (afterExits = true → i.isExit = false) := by
  have hg : (build insns extra afterExits).Cuts insns := cuts_build h
  have hcode : [i, j] <:+: insns := hg.pair_infix_iff.mpr (.inl ⟨id, b, hb, hpair⟩)
  have hj : j ∈ insns := hcode.subset (by simp)
  by_contra hleaves
  have hleader : j.offset ∈ inherentLeaders afterExits insns := mem_inherentLeaders_of_next hcode (by grind)
  have hstart : j.offset ∈ blockStarts afterExits extra insns :=
    mem_blockStarts.mpr ⟨List.mem_map_of_mem hj, .inr (.inr hleader)⟩
  exact (hg.ascending_body h hb).not_pair_infix_of_head?
    (head?_of_mem_blockStarts h hj hstart hb (hpair.subset (by simp))) hpair

end Firsts

end FlowGraph

end JvmLift.Flow
