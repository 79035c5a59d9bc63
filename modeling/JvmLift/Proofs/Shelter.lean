import Mathlib
import JvmLift.Proofs.Protection

/-!
# Shelter

While a walk goes on, some regions are around it, some are still open, and the others have been left behind. A walk
comes to a block only when every region that covers the block is around or starts there, and it places a block only when
all of them are around. This needs that no block is left at the start of a region that has been entered, and that the
handlers of an open region are open too. All parts of a walk keep this, and the joins at which they end are blocks that
a walk may come to: a way into a range passes its start, and a join is the earliest of the blocks on two ways.
-/

namespace JvmLift.Structure.Setting

open Bytecode JvmLift.Flow Recovery Source Relation

variable {s : Setting} {ranges : List (Nat × Nat)} {a b id n : BlockId} {todo todo₁ todo' : Todo} {scope : Scope}
  {region : Region}

/-! ### Blocks -/

/-- All regions that cover a block are around. -/
def Sheltered (s : Setting) (ranges : List (Nat × Nat)) (id : BlockId) : Prop :=
  ∀ region ∈ s.regions, region.covers (s.graph.startOf id) = true → region.range ∈ ranges

/-- A region that covers a block is around or starts there. -/
def Ready (s : Setting) (ranges : List (Nat × Nat)) (id : BlockId) : Prop :=
  ∀ region ∈ s.regions, region.covers (s.graph.startOf id) = true →
    region.range ∈ ranges ∨ region.start = s.graph.startOf id

/-- A walk from a block may go on to another one, which is no handler. -/
structure Onward (s : Setting) (ranges : List (Nat × Nat)) (id n : BlockId) : Prop where
  ready : s.Ready ranges n
  ordinary : ¬ s.IsHandler n
  lt : n < s.graph.size
  reaches : s.Reaches id n

lemma Sheltered.ready (h : s.Sheltered ranges id) : s.Ready ranges id :=
  fun region hregion hcovers => .inl (h region hregion hcovers)

lemma Ready.mono {ranges' : List (Nat × Nat)} (h : s.Ready ranges id) (hsub : ranges ⊆ ranges') :
    s.Ready ranges' id :=
  fun region hregion hcovers => (h region hregion hcovers).imp_left (hsub ·)

lemma Onward.trans (h : s.Onward ranges a n) (hid : s.Reaches id a) : s.Onward ranges id n :=
  ⟨h.ready, h.ordinary, h.lt, hid.trans h.reaches⟩

lemma covers_iff {offset : Nat} : region.covers offset = true ↔ region.start ≤ offset ∧ offset < region.stop := by
  simp [Region.covers]

variable (hs : s.Orderly) (hbuilt : s.Built)

include hbuilt in
lemma GoesOn.lt (h : s.GoesOn a b) : b < s.graph.size := by
  rcases h with h | ⟨loop, hloop, -, hexit⟩
  · exact hbuilt.inBounds.closed.successors_lt a b h
  · exact hbuilt.inBounds.exit_lt loop hloop b hexit

include hs

lemma Orderly.not_isHandler_of_mem (h : b ∈ s.graph.successors a) : ¬ s.IsHandler b := by
  rintro ⟨region, hregion, handler, hhandler, rfl⟩
  have ha : a < s.graph.size := by
    cases hblock : s.graph.block? a with
    | none => simp [FlowGraph.successors, hblock] at h
    | some c => exact FlowGraph.lt_size_of_block? hblock
  exact (hs.thrown region hregion handler hhandler).2 a ha h

include hbuilt

/-- Control comes to a handler by an exception only. -/
lemma GoesOn.ordinary (h : s.GoesOn a b) : ¬ s.IsHandler b := by
  rcases h with h | ⟨loop, hloop, -, hexit⟩
  · exact hs.not_isHandler_of_mem h
  · obtain ⟨c, hc⟩ := hbuilt.exits loop hloop b hexit
    exact hs.not_isHandler_of_mem hc

lemma Leads.ordinary (h : s.Leads a b) (ha : ¬ s.IsHandler a) : ¬ s.IsHandler b := by
  induction h with
  | refl => exact ha
  | tail _ hstep _ => exact GoesOn.ordinary hs hbuilt hstep

/-- From a sheltered block a walk may go on to its successors. -/
lemma Sheltered.onward (h : s.Sheltered ranges a) (ha : a < s.graph.size) (hid : s.Reaches id a)
    (hstep : s.GoesOn a b) : s.Onward ranges id b where
  ready region hregion hcovers := by
    have hentry := hs.entry a ha b (hstep.lt hbuilt) (.inl hstep) region hregion hcovers
    exact hentry.imp_left (h region hregion)
  ordinary := hstep.ordinary hs hbuilt
  lt := hstep.lt hbuilt
  reaches := hid.tail (.inl hstep)

omit hs hbuilt

/-! ### Scopes -/

lemma stopsAt_eq_false_iff {g : FlowGraph} : scope.stopsAt g id = false ↔
    id ∉ scope.stops ∧ ∀ range ∈ scope.ranges, range.1 ≤ g.startOf id ∧ g.startOf id < range.2 := by
  simp [Scope.stopsAt]

/-- The bounds of a scope are blocks that a walk may come to. -/
structure Framed (s : Setting) (scope : Scope) : Prop where
  ranges : ∀ range ∈ scope.ranges, ∃ region ∈ s.regions, region.range = range
  stops : ∀ n ∈ scope.stops, s.Ready scope.ranges n ∧ ¬ s.IsHandler n
  targets : ∀ n, scope.isTarget n = true → ¬ s.IsHandler n

namespace Framed

variable (h : s.Framed scope)
include h

lemma withStop {join : Option BlockId} (hjoin : ∀ n, join = some n → s.Onward scope.ranges id n) :
    s.Framed (scope.withStop join) where
  ranges := h.ranges
  stops n hn := by
    rcases List.mem_append.mp hn with hn | hn
    · have honward := hjoin n (Option.mem_toList.mp hn)
      exact ⟨honward.ready, honward.ordinary⟩
    · exact h.stops n hn
  targets := h.targets

lemma enterLoop {loop : Loop} (hheader : ¬ s.IsHandler loop.header)
    (hexit : ∀ n, loop.exit = some n → ¬ s.IsHandler n) (stack : Stack) : s.Framed (scope.enterLoop loop stack) where
  ranges := h.ranges
  stops := nofun
  targets n hn := by
    have hcases : (Frame.hasTarget (.loop loop.header loop.exit stack) n || scope.isTarget n) = true := hn
    simp only [Bool.or_eq_true, Frame.hasTarget, Frame.exit, Frame.header, beq_iff_eq, Option.some.injEq] at hcases
    rcases hcases with (hn | rfl) | hn
    · exact hexit n hn
    · exact hheader
    · exact h.targets n hn

lemma enterArm {exit nextArm : Option BlockId} (hexit : ∀ n, exit = some n → ¬ s.IsHandler n)
    (hnext : ∀ n, nextArm = some n → s.Onward scope.ranges id n) (stack : Stack) :
    s.Framed (scope.enterArm exit nextArm stack) where
  ranges := h.ranges
  stops n hn := by
    rcases List.mem_append.mp hn with hn | hn
    · have honward := hnext n (Option.mem_toList.mp hn)
      exact ⟨honward.ready, honward.ordinary⟩
    · exact h.stops n (List.mem_of_mem_filter hn)
  targets n hn := by
    have hcases : (Frame.hasTarget (.switch exit stack) n || scope.isTarget n) = true := hn
    simp only [Bool.or_eq_true, Frame.hasTarget, Frame.exit, Frame.header, beq_iff_eq, reduceCtorEq, or_false] at hcases
    rcases hcases with hn | hn
    · exact hexit n hn
    · exact h.targets n hn

lemma within (hregion : region ∈ s.regions) : s.Framed (scope.within region) where
  ranges := List.forall_mem_cons.mpr ⟨⟨region, hregion, rfl⟩, h.ranges⟩
  stops n hn := ⟨(h.stops n hn).1.mono (List.subset_cons_self _ _), (h.stops n hn).2⟩
  targets := h.targets

end Framed

/-! ### What is open -/

/-- What is open fits to the regions around. -/
structure Standing (s : Setting) (ranges : List (Nat × Nat)) (todo : Todo) : Prop where
  nodup : todo.blocks.Nodup
  bound : ∀ n ∈ todo.blocks, n < s.graph.size
  regions : todo.regions.Sublist s.regions
  handlers : ∀ region ∈ todo.regions, ∀ handler ∈ region.handlers, handler.block ∈ todo.blocks
  /-- No block is left at the start of a region that has been entered and is not around. -/
  entered : ∀ region ∈ s.regions, region ∉ todo.regions →
    region.range ∈ ranges ∨ ∀ n ∈ todo.blocks, s.graph.startOf n ≠ region.start
  /-- A region that is around another one with the same start has been entered first. -/
  outer : ∀ region ∈ todo.regions, ∀ range ∈ ranges, range.1 = region.start → region.stop < range.2
  captured : ∀ n ∈ todo.captured, s.IsHandler n

/-- No open region has a block as its handler. -/
def Unclaimed (todo : Todo) (id : BlockId) : Prop :=
  ∀ region ∈ todo.regions, ∀ handler ∈ region.handlers, handler.block ≠ id

namespace Standing

variable (h : s.Standing ranges todo)
include h

lemma unclaimed (hid : ¬ s.IsHandler id) : Unclaimed todo id := by
  rintro region hregion handler hhandler rfl
  exact hid ⟨region, h.regions.subset hregion, handler, hhandler, rfl⟩

/-- An open block at which no region is to be entered is sheltered. -/
lemma sheltered (hready : s.Ready ranges id) (hopen : id ∈ todo.blocks) (hnone : todo.regionAt? s.graph id = none) :
    s.Sheltered ranges id := by
  intro region hregion hcovers
  rcases hready region hregion hcovers with hin | hstart
  · exact hin
  · have hclosed : region ∉ todo.regions := fun hmem => regionAt?_eq_none hnone hmem hstart
    exact (h.entered region hregion hclosed).resolve_right fun hall => hall id hopen hstart.symm

/-- A block is recovered as it was run: the store at its start is left out only if it is a handler. -/
lemma recovers {stack : Stack} {b : Block} {r : Recovered} (hrun : s.RunsTo todo id stack b r) : s.Recovers id r := by
  refine ⟨b, stack, _, hrun.block, hrun.run, ?_⟩
  split
  · rename_i hcaptured
    exact .inr ⟨rfl, h.captured id (by simpa using hcaptured)⟩
  · exact .inl rfl

lemma visit (hid : Unclaimed todo id) : s.Standing ranges (todo.visit id) where
  nodup := h.nodup.erase id
  bound n hn := h.bound n (List.mem_of_mem_erase hn)
  regions := h.regions
  handlers region hregion handler hhandler :=
    (List.mem_erase_of_ne (hid region hregion handler hhandler)).mpr (h.handlers region hregion handler hhandler)
  entered region hregion hclosed :=
    (h.entered region hregion hclosed).imp_right fun hall n hn => hall n (List.mem_of_mem_erase hn)
  outer := h.outer
  captured := h.captured

lemma capture (hid : s.IsHandler id) : s.Standing ranges (todo.capture id) :=
  ⟨h.nodup, h.bound, h.regions, h.handlers, h.entered, h.outer, List.forall_mem_cons.mpr ⟨hid, h.captured⟩⟩

/-- The outermost open region at a block may be entered. -/
lemma enter (hbuilt : s.Built) (hregion : todo.regionAt? s.graph id = some region) :
    s.Standing (region.range :: ranges) (todo.enter region) := by
  obtain ⟨hmem, hstart, hmax⟩ := regionAt?_eq_some hregion
  have hnodup : todo.regions.Nodup := hbuilt.nodup.sublist h.regions
  refine ⟨h.nodup, h.bound, List.erase_sublist.trans h.regions, ?_, fun region' hregion' hclosed => ?_,
    fun region' hregion' range hrange heq => ?_, h.captured⟩
  · exact fun region' hregion' => h.handlers region' (List.mem_of_mem_erase hregion')
  · by_cases hsame : region' = region
    · exact .inl (hsame ▸ List.mem_cons_self)
    · have hclosed' : region' ∉ todo.regions := fun hmem' => hclosed ((List.mem_erase_of_ne hsame).mpr hmem')
      exact (h.entered region' hregion' hclosed').imp_left (List.mem_cons_of_mem _)
  · obtain ⟨hne, hmem'⟩ := hnodup.mem_erase_iff.mp hregion'
    rcases List.mem_cons.mp hrange with rfl | hrange
    · -- the other region starts here too, and is not the same
      have hle : region'.stop ≤ region.stop := hmax region' hmem' (heq.symm.trans hstart)
      refine lt_of_le_of_ne hle fun hstop => hne ?_
      exact hbuilt.ranges region' (h.regions.subset hmem') region (h.regions.subset hmem)
        (Prod.ext heq.symm hstop)
    · exact h.outer region' hmem' range hrange heq

end Standing

/-- A region may be left when its start has been placed. -/
lemma Standing.leave (hbuilt : s.Built) (hregion : region ∈ s.regions)
    (h : s.Standing (region.range :: ranges) todo) (hplaced : ∀ n ∈ todo.blocks, s.graph.startOf n ≠ region.start) :
    s.Standing ranges todo where
  nodup := h.nodup
  bound := h.bound
  regions := h.regions
  handlers := h.handlers
  entered region' hregion' hclosed := by
    rcases h.entered region' hregion' hclosed with hin | hall
    · rcases List.mem_cons.mp hin with heq | hin
      · rw [hbuilt.ranges region' hregion' region hregion heq]
        exact .inr hplaced
      · exact .inl hin
    · exact .inr hall
  outer region' hregion' range hrange := h.outer region' hregion' range (List.mem_cons_of_mem _ hrange)
  captured := h.captured

/-! ### What a part of a walk does -/

/-- A part of a walk that comes to the handlers in `starts` by itself. It places blocks, each of them where all handlers
of the regions that cover it are offered, and leaves the other handlers of regions that are not open to others. -/
structure Grows (s : Setting) (ranges : List (Nat × Nat)) (starts : List BlockId) (todo todo' : Todo)
    (l : List (BlockId × List (String × List Part))) : Prop where
  standing : s.Standing ranges todo'
  blocks : todo'.blocks ⊆ todo.blocks
  regions : todo'.regions ⊆ todo.regions
  handlers : ∀ region ∈ s.regions, region ∉ todo.regions → ∀ handler ∈ region.handlers,
    handler.block ∈ todo.blocks → handler.block ∉ starts → handler.block ∈ todo'.blocks
  placed : ∀ n ∈ todo.blocks, n ∈ todo'.blocks ∨ n ∈ l.map Prod.fst
  covered : ∀ place ∈ l, ∀ region ∈ s.regions, region.covers (s.graph.startOf place.1) = true →
    region.range ∈ ranges ∨ s.Offers place.2 region

namespace Grows

variable {starts starts' : List BlockId} {l l' : List (BlockId × List (String × List Part))}

lemma refl (h : s.Standing ranges todo) (starts : List BlockId) : s.Grows ranges starts todo todo [] :=
  ⟨h, fun _ hn => hn, fun _ hr => hr, fun _ _ _ _ _ hopen _ => hopen, fun _ hn => .inl hn, nofun⟩

lemma visit (h : s.Standing ranges todo) (hshelter : s.Sheltered ranges id) (hid : Unclaimed todo id) :
    s.Grows ranges [id] todo (todo.visit id) [(id, [])] where
  standing := h.visit hid
  blocks := fun _ hn => List.mem_of_mem_erase hn
  regions := fun _ hr => hr
  handlers _ _ _ handler _ hopen hne := (List.mem_erase_of_ne (by simpa using hne)).mpr hopen
  placed n hn := by
    by_cases heq : n = id
    · exact .inr (by simp [heq])
    · exact .inl ((List.mem_erase_of_ne heq).mpr hn)
  covered := by
    rintro _ hplace region hregion hcovers
    rw [List.mem_singleton.mp hplace] at hcovers
    exact .inl (hshelter region hregion hcovers)

lemma trans (h : s.Grows ranges starts todo todo₁ l) (h' : s.Grows ranges starts' todo₁ todo' l')
    (hstarts : ∀ n ∈ starts', n ∈ starts ∨ ¬ s.IsHandler n) : s.Grows ranges starts todo todo' (l ++ l') where
  standing := h'.standing
  blocks := fun _ hn => h.blocks (h'.blocks hn)
  regions := fun _ hr => h.regions (h'.regions hr)
  handlers region hregion hclosed handler hhandler hopen hne := by
    have hopen₁ := h.handlers region hregion hclosed handler hhandler hopen hne
    refine h'.handlers region hregion (fun hmem => hclosed (h.regions hmem)) handler hhandler hopen₁ fun hin => ?_
    rcases hstarts _ hin with hin | hordinary
    · exact hne hin
    · exact hordinary ⟨region, hregion, handler, hhandler, rfl⟩
  placed n hn := by
    rw [List.map_append, List.mem_append]
    rcases h.placed n hn with hn | hn
    · rcases h'.placed n hn with hn | hn
      · exact .inl hn
      · exact .inr (.inr hn)
    · exact .inr (.inl hn)
  covered := List.forall_mem_append.mpr ⟨h.covered, h'.covered⟩

/-- Only which blocks are placed where matters, and handlers that are named in vain do not. -/
lemma congr (h : s.Grows ranges starts todo todo' l) (hstarts : ∀ n ∈ starts, n ∈ starts' ∨ ¬ s.IsHandler n)
    (hl : ∀ place, place ∈ l' ↔ place ∈ l) : s.Grows ranges starts' todo todo' l' where
  standing := h.standing
  blocks := h.blocks
  regions := h.regions
  handlers region hregion hclosed handler hhandler hopen hne := by
    refine h.handlers region hregion hclosed handler hhandler hopen fun hin => ?_
    rcases hstarts _ hin with hin | hordinary
    · exact hne hin
    · exact hordinary ⟨region, hregion, handler, hhandler, rfl⟩
  placed n hn := by
    refine (h.placed n hn).imp_right fun hmem => ?_
    obtain ⟨place, hplace, rfl⟩ := List.mem_map.mp hmem
    exact List.mem_map_of_mem ((hl place).mpr hplace)
  covered place hplace := h.covered place ((hl place).mp hplace)

/-- Of the first state only what is open matters. -/
lemma of_eq {todo₀ : Todo} (h : s.Grows ranges starts todo todo' l) (hblocks : todo.blocks = todo₀.blocks)
    (hregions : todo.regions = todo₀.regions) : s.Grows ranges starts todo₀ todo' l where
  standing := h.standing
  blocks := hblocks ▸ h.blocks
  regions := hregions ▸ h.regions
  handlers := hblocks ▸ hregions ▸ h.handlers
  placed := hblocks ▸ h.placed
  covered := h.covered

/-- Notes on strays and stacks do not matter. -/
lemma noted {todo'' : Todo} (h : s.Grows ranges starts todo todo' l) (hblocks : todo''.blocks = todo'.blocks)
    (hregions : todo''.regions = todo'.regions) (hcaptured : todo''.captured = todo'.captured) :
    s.Grows ranges starts todo todo'' l := by
  obtain ⟨blocks, regions, captured, strays, meetings⟩ := todo''
  dsimp only at hblocks hregions hcaptured
  subst hblocks hregions hcaptured
  obtain ⟨⟨hnodup, hbound, hregions, hhandlers, hentered, houter, hcaptured⟩, hblocks, hsub, hrest, hplaced,
    hcovered⟩ := h
  exact ⟨⟨hnodup, hbound, hregions, hhandlers, hentered, houter, hcaptured⟩, hblocks, hsub, hrest, hplaced, hcovered⟩

/-- A sheltered block may stand in further places. -/
lemma shelter (h : s.Grows ranges starts todo todo' l) (hshelter : s.Sheltered ranges id) :
    s.Grows ranges starts todo todo' ((id, []) :: l) where
  standing := h.standing
  blocks := h.blocks
  regions := h.regions
  handlers := h.handlers
  placed n hn := (h.placed n hn).imp_right (List.mem_cons_of_mem _)
  covered := List.forall_mem_cons.mpr ⟨fun region hregion hcovers => .inl (hshelter region hregion hcovers), h.covered⟩

/-- The body of a `try` whose clauses offer the handlers of a region is no longer inside the region. -/
lemma leave (hbuilt : s.Built) (hregion : region ∈ s.regions) {clauses : List (String × List Part)}
    (h : s.Grows (region.range :: ranges) starts todo todo' l) (hoffers : s.Offers clauses region)
    (hplaced : ∀ n ∈ todo'.blocks, s.graph.startOf n ≠ region.start) :
    s.Grows ranges starts todo todo' (l.map fun place => (place.1, place.2 ++ clauses)) where
  standing := h.standing.leave hbuilt hregion hplaced
  blocks := h.blocks
  regions := h.regions
  handlers := h.handlers
  placed n hn := by simpa [Function.comp_def] using h.placed n hn
  covered := by
    rintro _ hplace region' hregion' hcovers
    obtain ⟨place, hmem, rfl⟩ := List.mem_map.mp hplace
    rcases h.covered place hmem region' hregion' hcovers with hin | hoffered
    · rcases List.mem_cons.mp hin with heq | hin
      · rw [hbuilt.ranges region' hregion' region hregion heq]
        exact .inr (hoffers.mono (List.subset_append_right _ _))
      · exact .inl hin
    · exact .inr (hoffered.mono (List.subset_append_left _ _))

/-- The handlers of a region are nobody else's. -/
lemma of_enter (hs : s.Orderly) (h : s.Grows ranges (starts ++ region.handlers.map Handler.block) (todo.enter region)
    todo' l) (hregion : region ∈ todo.regions) (hsub : todo.regions ⊆ s.regions) :
    s.Grows ranges starts todo todo' l where
  standing := h.standing
  blocks := h.blocks
  regions := fun _ hr => List.mem_of_mem_erase (h.regions hr)
  handlers region' hregion' hclosed handler hhandler hopen hne := by
    have hclosed' : region' ∉ (todo.enter region).regions := fun hmem => hclosed (List.mem_of_mem_erase hmem)
    refine h.handlers region' hregion' hclosed' handler hhandler hopen fun hin => ?_
    rcases List.mem_append.mp hin with hin | hin
    · exact hne hin
    · obtain ⟨handler', hhandler', heq⟩ := List.mem_map.mp hin
      obtain rfl := hs.owner region (hsub hregion) region' hregion' handler' hhandler' handler hhandler heq
      exact hclosed hregion
  placed := h.placed
  covered := h.covered

end Grows

/-! ### Joins -/

include hs hbuilt

/-- A forward search that comes into a region which is not around passes the start of the region. -/
lemma exists_entry (hregion : region ∈ s.regions) (hrange : region.range ∉ ranges) (hready : s.Ready ranges a)
    (ha : a < s.graph.size) (hpath : ReflTransGen (Along (todo.forward s.graph scope)) a n)
    (hcovers : region.covers (s.graph.startOf n) = true) :
    ∃ entry, ReflTransGen (Along (todo.forward s.graph scope)) a entry ∧ entry < s.graph.size ∧
      s.graph.startOf entry = region.start := by
  have hnext : ∀ c < s.graph.size, ∀ d ∈ todo.forward s.graph scope c, d < s.graph.size :=
    fun c _ d hd => hbuilt.inBounds.closed.successors_lt c d (mem_successors_of_mem_forward hd)
  induction hpath with
  | refl => exact ⟨a, .refl, ha, ((hready region hregion hcovers).resolve_left hrange).symm⟩
  | @tail c d hpath hstep ih =>
    by_cases hbefore : region.covers (s.graph.startOf c) = true
    · exact ih hbefore
    · have hc : c < s.graph.size := lt_of_path hnext ha hpath
      have hd : d < s.graph.size := hnext c hc d hstep
      have hsteps : s.Steps c d := .inl (.inl (mem_successors_of_mem_forward hstep))
      have hstart := (hs.entry c hc d hd hsteps region hregion hcovers).resolve_left hbefore
      exact ⟨d, hpath.tail hstep, hd, hstart.symm⟩

/-- All ways to a block in a region that is not around pass the start of the region. -/
lemma exists_shared_entry (hregion : region ∈ s.regions) (hrange : region.range ∉ ranges)
    (hcovers : region.covers (s.graph.startOf n) = true) (ha : s.Onward ranges id a)
    (hn : n ∈ todo.forwardReach s.graph scope a) :
    ∃ entry < s.graph.size, s.graph.startOf entry = region.start ∧
      ∀ b, s.Onward ranges id b → n ∈ todo.forwardReach s.graph scope b →
        entry ∈ todo.forwardReach s.graph scope b := by
  have hclosed := hbuilt.inBounds.closed
  have hpass {b : BlockId} (hb : s.Onward ranges id b) (hn : n ∈ todo.forwardReach s.graph scope b) :
      ∃ entry ∈ todo.forwardReach s.graph scope b, entry < s.graph.size ∧ s.graph.startOf entry = region.start := by
    obtain ⟨hadmits, hpath⟩ := (mem_forwardReach_iff hclosed hb.lt).mp hn
    obtain ⟨entry, hentry, hlt, heq⟩ := exists_entry hs hbuilt hregion hrange hb.ready hb.lt hpath hcovers
    exact ⟨entry, (mem_forwardReach_iff hclosed hb.lt).mpr ⟨hadmits, hentry⟩, hlt, heq⟩
  obtain ⟨entry, -, hlt, heq⟩ := hpass ha hn
  refine ⟨entry, hlt, heq, fun b hb hn => ?_⟩
  obtain ⟨entry', hmem, hlt', heq'⟩ := hpass hb hn
  rwa [hbuilt.starts hlt hlt' (heq.trans heq'.symm)]

/-- A walk may go on to where two ways meet. -/
lemma onward_earliestJoin (ha : s.Onward ranges id a) (hb : s.Onward ranges id b)
    (h : todo.earliestJoin s.graph scope a b = some n) : s.Onward ranges id n := by
  obtain ⟨hfromA, hfromB⟩ := List.mem_filter.mp (mem_of_leastBy? h)
  have hfromB : n ∈ todo.forwardReach s.graph scope b := by simpa using hfromB
  have hleads := leads_of_forwardReach hfromA
  refine ⟨fun region hregion hcovers => ?_, hleads.ordinary hs hbuilt ha.ordinary,
    forwardReach_lt hbuilt.inBounds.closed ha.lt hfromA, ha.reaches.trans hleads.reaches⟩
  by_contra hnot
  obtain ⟨hrange, hstart⟩ := not_or.mp hnot
  -- both ways pass the start of the region, so that they meet there already
  obtain ⟨entry, -, heq, hpass⟩ := exists_shared_entry hs hbuilt hregion hrange hcovers ha hfromA
  have hmemB := hpass b hb hfromB
  have hle := le_of_leastBy? h (List.mem_filter.mpr ⟨hpass a ha hfromA, by simpa using hmemB⟩)
  have hcovers := covers_iff.mp hcovers
  omega

omit hs in
/-- What a forward search finds behind its start has an edge from a block that is open. -/
lemma exists_open_of_forwardReach (ha : a < s.graph.size) (h : n ∈ todo.forwardReach s.graph scope a) (hne : n ≠ a) :
    ∃ c ∈ todo.blocks, c < s.graph.size ∧ n ∈ s.graph.successors c := by
  have hclosed := hbuilt.inBounds.closed
  have hadmits {c : BlockId} (h : todo.admits scope c = true) : c ∈ todo.blocks := by
    simp only [Todo.admits, Todo.isOpen, Bool.and_eq_true, List.contains_iff_mem] at h
    exact h.1
  obtain ⟨hstart, hpath⟩ := (mem_forwardReach_iff hclosed ha).mp h
  obtain ⟨c, hpath, hstep⟩ := (ReflTransGen.cases_tail hpath).resolve_left hne
  have hopen : c ∈ todo.blocks := by
    rcases ReflTransGen.cases_tail hpath with rfl | ⟨d, -, hd⟩
    · exact hadmits hstart
    · rw [Along, Todo.forward] at hd
      split at hd
      · cases hd
      · have hd := (List.mem_filter.mp hd).2
        simp only [Bool.and_eq_true] at hd
        exact hadmits hd.2
  have hlt : c < s.graph.size := forwardReach_lt hclosed ha ((mem_forwardReach_iff hclosed ha).mpr ⟨hstart, hpath⟩)
  exact ⟨c, hopen, hlt, mem_successors_of_mem_forward hstep⟩

omit hs hbuilt in
/-- Of two elements with a property, one is not a given one. -/
lemma exists_ne_of_two_le_countP {ns : List BlockId} {p : BlockId → Bool} (hnodup : ns.Nodup) (h : 2 ≤ ns.countP p)
    (other : BlockId) : ∃ n ∈ ns, n ≠ other ∧ p n = true := by
  by_contra hnot
  push Not at hnot
  have hsub : ns.filter p ⊆ [other] := fun n hn => by
    obtain ⟨hmem, hp⟩ := List.mem_filter.mp hn
    by_contra hne
    exact hnot n hmem (by simpa using hne) hp
  have hlen := ((hnodup.filter p).subperm hsub).length_le
  rw [List.countP_eq_length_filter] at h
  simp only [List.length_singleton] at hlen
  omega

section Switch

variable {c : Block} {edges : SwitchEdges} (hc : s.graph.block? id = some c) (hswitch : c.switch = some edges)
include hc hswitch

omit hs hbuilt in
lemma mem_successors_of_mem_targets {target : BlockId} (htarget : target ∈ ascending edges.targets) :
    target ∈ s.graph.successors id := by
  rw [FlowGraph.successors_of_block? hc]
  exact FlowGraph.mem_successors_iff.mpr (.inr ⟨edges, hswitch, mem_ascending.mp htarget⟩)

lemma onward_target (hshelter : s.Sheltered ranges id) {target : BlockId}
    (htarget : target ∈ ascending edges.targets) : s.Onward ranges id target := by
  have hedge := mem_successors_of_mem_targets hc hswitch htarget
  exact hshelter.onward hs hbuilt (FlowGraph.lt_size_of_block? hc) .refl (.inl hedge)

/-- A region that the switch is not in and that is entered from two of its targets starts behind them: were its start a
target, then nothing but the switch would lead there. -/
lemma startOf_lt_entry (hplaced : id ∉ todo.blocks) (hregion : region ∈ s.regions)
    (houtside : region.covers (s.graph.startOf id) = false) {entry : BlockId} (hentry : entry < s.graph.size)
    (heq : s.graph.startOf entry = region.start)
    (hcount : 2 ≤ (ascending edges.targets).countP fun target =>
      (todo.forwardReach s.graph scope target).contains entry)
    {target : BlockId} (htarget : target ∈ ascending edges.targets) (hstop : s.graph.startOf target < region.stop) :
    s.graph.startOf target < s.graph.startOf entry := by
  by_contra hle
  have hclosed := hbuilt.inBounds.closed
  have hedge {target : BlockId} (h : target ∈ ascending edges.targets) := mem_successors_of_mem_targets hc hswitch h
  have hlt := hclosed.successors_lt id target (hedge htarget)
  have hin : region.covers (s.graph.startOf target) = true := covers_iff.mpr ⟨by omega, hstop⟩
  have hsteps : s.Steps id target := .inl (.inl (hedge htarget))
  have hstart : region.start = s.graph.startOf target :=
    (hs.entry id (FlowGraph.lt_size_of_block? hc) target hlt hsteps region hregion hin).resolve_left
      (by simp [houtside])
  obtain rfl := hbuilt.starts hentry hlt (heq.trans hstart)
  -- another target leads there, through an open block
  obtain ⟨other, hother, hne, hfound⟩ := exists_ne_of_two_le_countP (nodup_ascending _) hcount entry
  obtain ⟨d, hopen, hd, hedge'⟩ := exists_open_of_forwardReach hbuilt
    (hclosed.successors_lt id other (hedge hother)) (List.contains_iff_mem.mp hfound) hne.symm
  have hstart' : s.graph.startOf id = c.start := by simp [FlowGraph.startOf, hc]
  have hsame : d = c.id := hs.switches c (Array.mem_of_getElem? hc) edges hswitch entry (mem_ascending.mp htarget)
    region hregion hstart (hstart' ▸ houtside) d hd hedge'
  rw [hclosed.id_eq hc] at hsame
  exact hplaced (hsame ▸ hopen)

/-- A walk may go on to where a switch ends. -/
lemma onward_switchExit (hshelter : s.Sheltered ranges id) (hplaced : id ∉ todo.blocks)
    (h : todo.switchExit s.graph scope edges (ascending edges.targets) = some n) : s.Onward ranges id n := by
  have htargets {target : BlockId} (h : target ∈ ascending edges.targets) : s.Onward ranges id target :=
    onward_target hs hbuilt hc hswitch hshelter h
  have hleads := leads_of_switchExit hc hswitch h
  rcases Option.or_eq_some_iff.mp h with hdefault | ⟨-, hleast⟩
  · have hdefault := (Option.filter_eq_some_iff.mp hdefault).1
    exact htargets (mem_ascending.mpr (mem_targets_iff.mpr (.inl hdefault)))
  obtain ⟨hn, hbehind⟩ := List.mem_filter.mp (mem_of_leastBy? hleast)
  simp only [Bool.and_eq_true, List.all_eq_true, decide_eq_true_eq] at hbehind
  obtain ⟨hlast, hcount⟩ := hbehind
  have hcount : 2 ≤ (ascending edges.targets).countP fun target =>
      (todo.forwardReach s.graph scope target).contains n := by
    simpa [List.countP_map, Function.comp_def] using hcount
  obtain ⟨target, htarget, -, hfound⟩ := exists_ne_of_two_le_countP (nodup_ascending _) hcount id
  have hfound := List.contains_iff_mem.mp hfound
  have hordinary := (leads_of_forwardReach hfound).ordinary hs hbuilt (htargets htarget).ordinary
  refine ⟨fun region hregion hcovers => ?_, hordinary, List.mem_range.mp hn, hleads.reaches⟩
  by_contra hnot
  obtain ⟨hrange, hstart⟩ := not_or.mp hnot
  have houtside : region.covers (s.graph.startOf id) = false :=
    Bool.eq_false_iff.mpr fun hin => hrange (hshelter region hregion hin)
  -- the start of the region is an earlier end
  obtain ⟨entry, hentry, heq, hpass⟩ := exists_shared_entry hs hbuilt hregion hrange hcovers (htargets htarget) hfound
  have hcount' := hcount.trans (List.countP_mono_left fun target htarget hfound =>
    List.contains_iff_mem.mpr (hpass target (htargets htarget) (List.contains_iff_mem.mp hfound)))
  have hcovers := covers_iff.mp hcovers
  have hbehind (target : BlockId) (htarget : target ∈ ascending edges.targets) :
      s.graph.startOf target < s.graph.startOf entry :=
    startOf_lt_entry hs hbuilt hc hswitch hplaced hregion houtside hentry heq hcount' htarget
      ((hlast target htarget).trans hcovers.2)
  have hle := le_of_leastBy? hleast (y := entry) (List.mem_filter.mpr ⟨List.mem_range.mpr hentry, by
    simpa [List.countP_map, Function.comp_def, -List.contains_eq_mem] using ⟨hbehind, hcount'⟩⟩)
  omega

end Switch

end JvmLift.Structure.Setting
