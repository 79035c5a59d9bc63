import Mathlib
import JvmLift.Proofs.Layout
import JvmLift.Proofs.Shelter

/-!
# Coverage

Where the protected ranges of a method are orderly, no handler is lost when the method is written as a tree. Every
reachable block has its place in the tree, and at each place of a block the `try` statements around it offer all
handlers of all regions that cover it, each in a clause of its type whose body is the code of the handler. Where two
rows of the exception table share a handler, the second of them is dropped.
-/

namespace JvmLift.Structure

open Bytecode JvmLift.Flow Recovery Source Relation

/-! ### Arms of a switch -/

namespace Cases

variable {edges : SwitchEdges} {arms : List (BlockId × List Part)}

lemma places_ofList (default : Option (BlockId × List Part)) (cases : List (Int32 × BlockId × List Part)) :
    (ofList default cases).places =
      cases.flatMap (fun x => JvmLift.Structure.places x.2.2) ++
        default.elim [] fun arm => JvmLift.Structure.places arm.2 := by
  induction cases with
  | nil => cases default <;> rfl
  | cons x rest ih => simp only [ofList, Cases.places, ih, List.flatMap_cons, List.append_assoc]

/-- The blocks of a switch are those of its arms. -/
lemma mem_places_ofArms (hnodup : (arms.map Prod.fst).Nodup) (htargets : ∀ arm ∈ arms, arm.1 ∈ edges.targets)
    {place : BlockId × List (String × List Part)} :
    place ∈ (ofArms edges arms).places ↔ place ∈ arms.flatMap fun arm => JvmLift.Structure.places arm.2 := by
  rw [ofArms, places_ofList, List.mem_append]
  simp only [List.mem_flatMap]
  constructor
  · rintro (⟨x, ⟨arm, harm, hx⟩, hplace⟩ | hplace)
    · rcases List.mem_append.mp hx with hx | hx
      · obtain ⟨key, -, rfl⟩ := List.mem_map.mp hx
        cases hplace
      · obtain ⟨key, -, rfl⟩ := List.mem_map.mp hx
        exact ⟨arm, harm, hplace⟩
    · cases hfind : arms.find? fun arm => edges.default == some arm.1 with
      | none => simp [hfind] at hplace
      | some arm => exact ⟨arm, List.mem_of_find?_eq_some hfind, by simpa [hfind] using hplace⟩
  · rintro ⟨arm, harm, hplace⟩
    rcases Setting.mem_targets_iff.mp (htargets arm harm) with hdefault | hcase
    · -- the arm of the default is the one that is found
      obtain ⟨arm', hfind⟩ : ∃ arm', (arms.find? fun arm => edges.default == some arm.1) = some arm' := by
        rw [← Option.isSome_iff_exists, List.find?_isSome]
        exact ⟨arm, harm, by simp [hdefault]⟩
      have hsame : arm.1 = arm'.1 := by simpa [hdefault] using List.find?_some hfind
      obtain rfl := List.inj_on_of_nodup_map hnodup harm (List.mem_of_find?_eq_some hfind) hsame
      exact .inr (by simpa [hfind] using hplace)
    · obtain ⟨x, hx, htarget⟩ := List.any_eq_true.mp hcase
      have hne : (edges.cases.filter (·.2 == arm.1)).map Prod.fst ≠ [] := by
        have hmem : x ∈ edges.cases.filter (·.2 == arm.1) := List.mem_filter.mpr ⟨hx, htarget⟩
        exact List.ne_nil_of_mem (List.mem_map_of_mem hmem)
      obtain ⟨key, hkey⟩ : ∃ key, ((edges.cases.filter (·.2 == arm.1)).map Prod.fst).getLast? = some key :=
        ⟨_, List.getLast?_eq_some_getLast hne⟩
      have hin : (key, arm) ∈ ofTarget edges arm :=
        List.mem_append_right _ (List.mem_map_of_mem (Option.mem_toList.mpr hkey))
      exact .inl ⟨(key, arm), ⟨arm, harm, hin⟩, hplace⟩

end Cases

namespace Setting

variable {s : Setting} {ranges : List (Nat × Nat)} {a b id n : BlockId} {todo todo₁ todo' : Todo} {scope : Scope}
  {stack : Stack} {p : Progress} {w : Walker} {region : Region}

/-! ### Outlines of parts of a walk -/

/-- An outline of what a part of a walk from a block has placed. -/
structure Houses (s : Setting) (ranges : List (Nat × Nat)) (id : BlockId) (todo todo' : Todo) (o : List Part) :
    Prop where
  valid : ValidEach s o
  grows : s.Grows ranges [id] todo todo' (places o)
  reached : ∀ place ∈ places o, s.Reaches id place.1

/-- An outline of what a part of a walk from a block has written, and a block to which the walk may go on. -/
structure Emits (s : Setting) (ranges : List (Nat × Nat)) (id : BlockId) (todo : Todo) (p : Progress) (todo' : Todo)
    (o : List Part) : Prop where
  stmts : p.stmts = written o
  houses : s.Houses ranges id todo todo' o
  next : ∀ n, p.next = some n → s.Onward ranges id n

namespace Houses

variable {o o' : List Part}

lemma refl (h : s.Standing ranges todo) (id : BlockId) : s.Houses ranges id todo todo [] :=
  ⟨trivial, .refl h _, nofun⟩

lemma append (h : s.Houses ranges id todo todo₁ o) (h' : s.Houses ranges n todo₁ todo' o')
    (hn : n = id ∨ ¬ s.IsHandler n) (hid : s.Reaches id n) : s.Houses ranges id todo todo' (o ++ o') where
  valid := validEach_append.mpr ⟨h.valid, h'.valid⟩
  grows := by
    rw [places_append]
    exact h.grows.trans h'.grows (by simpa using hn)
  reached := by
    rw [places_append]
    exact List.forall_mem_append.mpr ⟨h.reached, fun place hplace => hid.trans (h'.reached place hplace)⟩

lemma noted {todo'' : Todo} (h : s.Houses ranges id todo todo' o) (hblocks : todo''.blocks = todo'.blocks)
    (hregions : todo''.regions = todo'.regions) (hcaptured : todo''.captured = todo'.captured) :
    s.Houses ranges id todo todo'' o :=
  ⟨h.valid, h.grows.noted hblocks hregions hcaptured, h.reached⟩

end Houses

/-- A block that is placed by itself. -/
lemma houses_block (h : s.Standing ranges todo) (hshelter : s.Sheltered ranges id) (hid : Unclaimed todo id)
    {r : Recovered} (hr : s.Recovers id r) {stmts : List Stmt} (hstmts : r.stmts = stmts) :
    s.Houses ranges id todo (todo.visit id) [.block id stmts] where
  valid := ⟨⟨r, hr, hstmts⟩, trivial⟩
  grows := .visit h hshelter hid
  reached := by
    rintro _ hplace
    rw [List.mem_singleton.mp hplace]

/-- A jump to a construct around places nothing. -/
lemma exists_jumpPart {jump : Stmt} (h : scope.jump? s.graph id = .ok (some jump)) :
    ∃ part : Part, part.stmts = [jump] ∧ part.Valid s ∧ part.places = [] := by
  simp only [Scope.jump?] at h
  split_ifs at h <;> cases h
  · exact ⟨.breakOut, rfl, trivial, rfl⟩
  · exact ⟨.continueLoop, rfl, trivial, rfl⟩

lemma isTarget_of_jump? {jump : Stmt} {g : FlowGraph} (h : scope.jump? g id = .ok (some jump)) :
    scope.isTarget id = true := by
  simp only [Scope.jump?] at h
  split_ifs at h with hbreak hcontinue
  · cases hframes : scope.frames with
    | nil => simp [hframes] at hbreak
    | cons frame rest => simp_all [Scope.isTarget, Frame.hasTarget]
  · obtain ⟨frame, hframe, hheader⟩ := List.exists_of_findSome?_eq_some (beq_iff_eq.mp hcontinue)
    exact List.any_eq_true.mpr ⟨frame, hframe, by simp [Frame.hasTarget, hheader]⟩
  · cases h

/-! ### Walks -/

/-- A walk in a scope may come to a block. -/
structure Comes (s : Setting) (scope : Scope) (todo : Todo) (id : BlockId) : Prop where
  framed : s.Framed scope
  standing : s.Standing scope.ranges todo
  ready : s.Ready scope.ranges id
  lt : id < s.graph.size
  unclaimed : Unclaimed todo id
  free : s.IsHandler id → scope.stopsAt s.graph id = false ∧ scope.isTarget id = false

/-- The walks of a walker place blocks under shelter. They end where their scope stops, and unless they stop or jump at
once they begin with the block that they come to. -/
def Shelters (s : Setting) (w : Walker) : Prop :=
  ∀ scope entering id stack todo p todo', w scope entering id stack todo = .ok (p, todo') → s.Comes scope todo id →
    (entering = true → todo.regionAt? s.graph id = none) →
      ∃ o, s.Emits scope.ranges id todo p todo' o ∧ (∀ n, p.next = some n → scope.stopsAt s.graph n = true) ∧
        (scope.stopsAt s.graph id = false → (entering = true ∨ scope.isTarget id = false) →
          id ∉ todo'.blocks ∧ entry? o = some id)

lemma Onward.comes (h : s.Onward scope.ranges a n) (hframed : s.Framed scope)
    (hstanding : s.Standing scope.ranges todo) : s.Comes scope todo n :=
  ⟨hframed, hstanding, h.ready, h.lt, hstanding.unclaimed h.ordinary, fun hhandler => absurd hhandler h.ordinary⟩

variable (hs : s.Orderly) (hbuilt : s.Built) (hw : s.Shelters w)

include hw in
/-- A walk to a block that is no handler. -/
lemma Onward.walk (h : s.Onward ranges a n) (hframed : s.Framed scope) (hranges : scope.ranges = ranges)
    (hstanding : s.Standing ranges todo) (hwalk : w scope false n stack todo = .ok (p, todo')) :
    ∃ o, s.Emits ranges n todo p todo' o := by
  subst hranges
  obtain ⟨o, hemits, -⟩ := hw _ _ _ _ _ _ _ hwalk (h.comes hframed hstanding) nofun
  exact ⟨o, hemits⟩

/-! ### Branches -/

/-- A condition with the blocks that make its tests has been placed, and leads to blocks to which the walk may go on. -/
structure Tested (s : Setting) (ranges : List (Nat × Nat)) (id : BlockId) (todo todo' : Todo) (fork : Fork)
    (cond : Guard) : Prop where
  expr : cond.expr = fork.cond
  valid : cond.Valid s
  grows : s.Grows ranges [id] todo todo' (cond.blocks.map (·, []))
  reached : ∀ n ∈ cond.blocks, s.Reaches id n
  taken : s.Onward ranges id fork.taken
  fall : s.Onward ranges id fork.fall

variable {fork : Fork} {cond : Guard}

include hs hbuilt in
lemma Tested.merge {fork' : Fork} {left : Stack} (h : s.Tested ranges id todo todo₁ fork cond)
    (hmerges : s.Merges stack todo₁ fork fork' left) :
    ∃ cond', s.Tested ranges id todo ((todo₁.visit fork.fall).meet stack left) fork' cond' := by
  have hopen : fork.fall ∈ todo₁.blocks := by simpa [Todo.isOpen] using hmerges.isOpen
  have hshelter := h.grows.standing.sheltered h.fall.ready hopen hmerges.noRegion
  have hvisit := Grows.visit h.grows.standing hshelter (h.grows.standing.unclaimed h.fall.ordinary)
  have hgrows := h.grows.trans hvisit (by simpa using .inr h.fall.ordinary)
  -- the second test holds with the outcome `sense`
  have hmerge (sense : Bool) {c : Condition} {b : Block} {r : Recovered} (hr : s.RunsTo todo₁ fork.fall stack b r)
      (hmem : fork'.fall ∈ b.succs) (hexit : r.exit = some (.conditional c)) (hstmts : r.stmts = [])
      (hcond : fork'.cond = .binary .or fork.cond (c.on sense)) :
      ∃ cond', s.Tested ranges id todo ((todo₁.visit fork.fall).meet stack left) fork' cond' := by
    have hblocks : (Guard.orElse cond fork.fall c sense).blocks = cond.blocks ++ [fork.fall] := rfl
    have hstep : s.GoesOn fork.fall fork'.fall := by
      refine .inl ?_
      rw [FlowGraph.successors_of_block? hr.block]
      exact FlowGraph.mem_successors_iff.mpr (.inl hmem)
    refine ⟨.orElse cond fork.fall c sense, ?_, ⟨h.valid, r, h.grows.standing.recovers hr, hexit, hstmts⟩, ?_, ?_, ?_,
      hshelter.onward hs hbuilt h.fall.lt h.fall.reaches hstep⟩
    · rw [Guard.expr, h.expr, hcond]
    · rw [hblocks, List.map_append]
      exact hgrows.noted rfl rfl rfl
    · rw [hblocks]
      exact List.forall_mem_append.mpr ⟨h.reached, by simpa using h.fall.reaches⟩
    · exact hmerges.taken ▸ h.taken
  obtain ⟨c, ⟨⟨b, r, hr, hsuccs, hexit, hstmts, -⟩, hcond⟩ | ⟨⟨b, r, hr, hsuccs, hexit, hstmts, -⟩, hcond⟩⟩ :=
    hmerges.test
  · exact hmerge true hr (by simp [hsuccs]) hexit hstmts hcond
  · exact hmerge false hr (by simp [hsuccs]) hexit hstmts hcond

include hs hbuilt in
lemma MergesAll.tested {fork' : Fork} (h : s.MergesAll stack todo₁ fork todo' fork')
    (htested : s.Tested ranges id todo todo₁ fork cond) : ∃ cond', s.Tested ranges id todo todo' fork' cond' := by
  induction h generalizing cond with
  | done todo₁ fork => exact ⟨cond, htested⟩
  | next head _ ih =>
    obtain ⟨cond', htested'⟩ := htested.merge hs hbuilt head
    exact ih htested'

/-- A condition with an arm for one outcome. -/
lemma Tested.ifThen (h : s.Tested ranges id todo todo₁ fork cond) {o : List Part} (sense : Bool)
    (hn : s.Onward ranges id n) (hbody : s.Houses ranges n todo₁ todo' o) :
    s.Houses ranges id todo todo' [.ifThen cond sense o] where
  valid := ⟨⟨h.valid, hbody.valid⟩, trivial⟩
  grows := by simpa [Part.places] using h.grows.trans hbody.grows (by simpa using .inr hn.ordinary)
  reached := by
    have hmap : ∀ place ∈ cond.blocks.map (·, ([] : List (String × List Part))), s.Reaches id place.1 := by
      simpa using h.reached
    have harm : ∀ place ∈ places o, s.Reaches id place.1 :=
      fun place hplace => hn.reaches.trans (hbody.reached place hplace)
    simpa [Part.places] using List.forall_mem_append.mpr ⟨hmap, harm⟩

/-- A condition with arms for both outcomes. -/
lemma Tested.arms (h : s.Tested ranges id todo todo₁ fork cond) {todo₂ : Todo} {taken fall : List Part}
    (hfall : s.Houses ranges fork.fall todo₁ todo₂ fall) (htaken : s.Houses ranges fork.taken todo₂ todo' taken)
    {part : Part} (hplaces : part.places = cond.blocks.map (·, []) ++ (places fall ++ places taken))
    (hvalid : part.Valid s) : s.Houses ranges id todo todo' [part] where
  valid := ⟨hvalid, trivial⟩
  grows := by
    have harms := h.grows.trans hfall.grows (by simpa using .inr h.fall.ordinary)
    simpa [hplaces] using harms.trans htaken.grows (by simpa using .inr h.taken.ordinary)
  reached := by
    have hmap : ∀ place ∈ cond.blocks.map (·, ([] : List (String × List Part))), s.Reaches id place.1 := by
      simpa using h.reached
    have hfall' : ∀ place ∈ places fall, s.Reaches id place.1 :=
      fun place hplace => h.fall.reaches.trans (hfall.reached place hplace)
    have htaken' : ∀ place ∈ places taken, s.Reaches id place.1 :=
      fun place hplace => h.taken.reaches.trans (htaken.reached place hplace)
    rw [places_cons, hplaces, places_nil, List.append_nil]
    exact List.forall_mem_append.mpr ⟨hmap, List.forall_mem_append.mpr ⟨hfall', htaken'⟩⟩

include hw in
lemma emits_emitArm (h : s.Tested scope.ranges id todo todo₁ fork cond) (hframed : s.Framed scope) (sense : Bool)
    (hemit : emitArm w scope stack (if sense then fork.cond else fork.cond.negate)
      (if sense then fork.taken else fork.fall) (if sense then fork.fall else fork.taken) todo₁ = .ok (p, todo')) :
    ∃ o, s.Emits scope.ranges id todo p todo' o := by
  have harm : s.Onward scope.ranges id (if sense then fork.taken else fork.fall) := by
    cases sense
    · exact h.fall
    · exact h.taken
  have hjoin : s.Onward scope.ranges id (if sense then fork.fall else fork.taken) := by
    cases sense
    · exact h.taken
    · exact h.fall
  obtain ⟨body, todo₂, hbody, rfl, rfl⟩ := of_yields yields_emitArm hemit
  have hframed' : s.Framed (scope.withStop (some (if sense then fork.fall else fork.taken))) :=
    hframed.withStop fun n hn => Option.some.inj hn ▸ hjoin
  obtain ⟨o, hemits⟩ := harm.walk hw hframed' rfl h.grows.standing hbody
  refine ⟨[.ifThen cond sense o], ?_, (h.ifThen sense harm hemits.houses).noted rfl rfl rfl, ?_⟩
  · simp [Part.stmts, h.expr, hemits.stmts]
  · rintro _ ⟨⟩
    exact hjoin

include hw in
lemma emits_emitArms (h : s.Tested scope.ranges id todo todo₁ fork cond) (hframed : s.Framed scope)
    {join : Option BlockId} (hjoin : ∀ n, join = some n → s.Onward scope.ranges id n)
    (hemit : emitArms w scope stack fork join todo₁ = .ok (p, todo')) :
    ∃ o, s.Emits scope.ranges id todo p todo' o := by
  obtain ⟨thenArm, todo₂, elseArm, todo₃, hthen, helse, hchoice⟩ := of_yields yields_emitArms hemit
  have hframed' := hframed.withStop hjoin
  obtain ⟨fall, hfall⟩ := h.fall.walk hw hframed' rfl h.grows.standing hthen
  obtain ⟨taken, htaken⟩ := h.taken.walk hw hframed' rfl hfall.houses.grows.standing helse
  obtain ⟨j, merged, rfl, hmerged, rfl, rfl⟩ | ⟨next, kept, rfl, rfl, rfl, rfl⟩ := hchoice
  · obtain ⟨v, below, v', below', rfl, rfl, rfl⟩ := choice?_eq_some hmerged
    have hvalid : (Part.choice cond taken fall).Valid s :=
      ⟨h.valid, htaken.houses.valid, hfall.houses.valid, htaken.stmts.symm, hfall.stmts.symm⟩
    exact ⟨_, rfl, (h.arms hfall.houses htaken.houses (by rw [Part.places]) hvalid).noted rfl rfl rfl, hjoin⟩
  · have hvalid : (Part.ifElse cond taken fall).Valid s := ⟨h.valid, htaken.houses.valid, hfall.houses.valid⟩
    refine ⟨_, ?_, (h.arms hfall.houses htaken.houses (by rw [Part.places]) hvalid).noted rfl rfl rfl, fun n hn => ?_⟩
    · simp [Part.stmts, h.expr, hfall.stmts, htaken.stmts]
    · rcases Option.or_eq_some_iff.mp hn with hn | ⟨-, hn⟩
      · exact hjoin n hn
      · rcases Option.or_eq_some_iff.mp hn with hn | ⟨-, hn⟩
        · exact (hfall.next n hn).trans h.fall.reaches
        · exact (htaken.next n hn).trans h.taken.reaches

include hs hbuilt hw in
lemma emits_forked (h : s.Tested scope.ranges id todo todo₁ fork cond) (hframed : s.Framed scope)
    (hforked : s.Forked w scope stack fork todo₁ p todo') : ∃ o, s.Emits scope.ranges id todo p todo' o := by
  -- an arm that only jumps
  have hjump (sense : Bool) {target : BlockId} {jump : Stmt} (htarget : s.Onward scope.ranges id target)
      (h' : scope.jump? s.graph target = .ok (some jump)) : ∃ part, part.stmts = [jump] ∧
        s.Houses scope.ranges id todo todo₁ [.ifThen cond sense [part]] := by
    obtain ⟨part, hstmts, hvalid, hplaces⟩ := exists_jumpPart h'
    have hbody : s.Houses scope.ranges target todo₁ todo₁ [part] :=
      ⟨⟨hvalid, trivial⟩, by simpa [hplaces] using .refl h.grows.standing _, by simp [hplaces]⟩
    exact ⟨part, hstmts, h.ifThen sense htarget hbody⟩
  cases hforked with
  | bothJump taken fall htaken hfall =>
    obtain ⟨part, hstmts, hhouses⟩ := hjump true h.taken htaken
    obtain ⟨part', hstmts', hvalid', hplaces'⟩ := exists_jumpPart hfall
    have hlast : s.Houses scope.ranges id todo₁ todo₁ [part'] :=
      ⟨⟨hvalid', trivial⟩, by simpa [hplaces'] using .refl h.grows.standing _, by simp [hplaces']⟩
    refine ⟨_, ?_, (hhouses.append hlast (.inl rfl) .refl).noted rfl rfl rfl, nofun⟩
    simp [Part.stmts, h.expr, hstmts, hstmts']
  | takenJumps taken htaken =>
    obtain ⟨part, hstmts, hhouses⟩ := hjump true h.taken htaken
    refine ⟨_, by simp [Part.stmts, h.expr, hstmts], hhouses.noted rfl rfl rfl, ?_⟩
    rintro _ ⟨⟩
    exact h.fall
  | fallJumps fall hfall =>
    obtain ⟨part, hstmts, hhouses⟩ := hjump false h.fall hfall
    refine ⟨_, by simp [Part.stmts, h.expr, hstmts], hhouses.noted rfl rfl rfl, ?_⟩
    rintro _ ⟨⟩
    exact h.taken
  | thenOnly hemit => exact emits_emitArm hw h hframed false hemit
  | elseOnly hemit => exact emits_emitArm hw h hframed true hemit
  | arms hemit =>
    exact emits_emitArms hw h hframed (fun n hn => onward_earliestJoin hs hbuilt h.fall h.taken hn) hemit

/-! ### Switches -/

include hw in
lemma exists_arms (hframed : s.Framed scope) {exit : Option BlockId} (hexit : ∀ n, exit = some n → ¬ s.IsHandler n)
    {targets : List BlockId} (htargets : ∀ target ∈ targets, s.Onward scope.ranges id target)
    (hstanding : s.Standing scope.ranges todo) {bodies : List (BlockId × List Stmt)}
    (h : emitBodies w scope exit stack targets todo = .ok (bodies, todo')) :
    ∃ arms : List (BlockId × List Part), arms.map Prod.fst = targets ∧
      bodies = arms.map (fun arm => (arm.1, written arm.2)) ∧ (∀ arm ∈ arms, ValidEach s arm.2) ∧
      s.Grows scope.ranges [id] todo todo' (arms.flatMap fun arm => places arm.2) ∧
      ∀ place ∈ arms.flatMap fun arm => places arm.2, s.Reaches id place.1 := by
  induction targets generalizing todo bodies with
  | nil =>
    cases h
    exact ⟨[], rfl, rfl, nofun, .refl hstanding _, nofun⟩
  | cons target rest ih =>
    obtain ⟨htarget, hrest⟩ := List.forall_mem_cons.mp htargets
    obtain ⟨body, todo₁, bodies', hbody, hbodies, rfl⟩ := of_yields yields_emitBodies_cons h
    have hframed' : s.Framed (scope.enterArm exit rest.head? stack) :=
      hframed.enterArm hexit (fun n hn => hrest n (List.mem_of_mem_head? hn)) stack
    obtain ⟨o, hemits⟩ := htarget.walk hw hframed' rfl hstanding hbody
    have hfirst : s.Houses scope.ranges target todo (todo₁.noteStop body.next rest.head?) o :=
      hemits.houses.noted rfl rfl rfl
    obtain ⟨arms, hfst, rfl, hvalid, hgrows, hreached⟩ := ih hrest hfirst.grows.standing hbodies
    have hgrows' : s.Grows scope.ranges [id] todo (todo₁.noteStop body.next rest.head?) (places o) :=
      hfirst.grows.congr (by simpa using .inr htarget.ordinary) fun _ => Iff.rfl
    refine ⟨(target, o) :: arms, by simp [hfst], by simp [hemits.stmts],
      List.forall_mem_cons.mpr ⟨hfirst.valid, hvalid⟩, ?_, ?_⟩
    · rw [List.flatMap_cons]
      exact hgrows'.trans hgrows fun n hn => .inl hn
    · rw [List.flatMap_cons]
      refine List.forall_mem_append.mpr ⟨fun place hplace => ?_, hreached⟩
      exact htarget.reaches.trans (hfirst.reached place hplace)

include hs hbuilt hw in
lemma emits_emitSwitch {selector : Expr} (hframed : s.Framed scope) (hstanding : s.Standing scope.ranges todo)
    (hshelter : s.Sheltered scope.ranges id) (hplaced : id ∉ todo.blocks) {r : Recovered} (hr : s.Recovers id r)
    (hselector : r.exit = some (.switch selector))
    (h : s.emitSwitch w scope id selector stack todo = .ok (p, todo')) :
    ∃ o, s.Emits scope.ranges id todo p todo' o := by
  obtain ⟨b, edges, bodies, exit, hb, hswitch, hexit, hbodies, rfl⟩ := of_yields yields_emitSwitch h
  have hend (n : BlockId) (hn : exit = some n) : s.Onward scope.ranges id n :=
    onward_switchExit hs hbuilt hb hswitch hshelter hplaced (hexit.symm.trans hn)
  obtain ⟨arms, hfst, rfl, hvalid, hgrows, hreached⟩ := exists_arms hw hframed (fun n hn => (hend n hn).ordinary)
    (fun target htarget => onward_target hs hbuilt hb hswitch hshelter (List.mem_of_mem_filter htarget)) hstanding
    hbodies
  have hmem {place : BlockId × List (String × List Part)} :
      place ∈ places [.switch id selector (.ofArms edges arms)] ↔
        place ∈ (id, []) :: arms.flatMap fun arm => places arm.2 := by
    have hnodup : (arms.map Prod.fst).Nodup := hfst ▸ (nodup_ascending _).filter _
    have htargets (arm : BlockId × List Part) (harm : arm ∈ arms) : arm.1 ∈ edges.targets := by
      have htarget : arm.1 ∈ arms.map Prod.fst := List.mem_map_of_mem harm
      rw [hfst] at htarget
      exact mem_ascending.mp (List.mem_of_mem_filter htarget)
    rw [places_cons, places_nil, List.append_nil, Part.places, List.mem_cons, List.mem_cons,
      Cases.mem_places_ofArms hnodup htargets]
  refine ⟨[.switch id selector (.ofArms edges arms)], ?_, ⟨?_, ?_, fun place hplace => ?_⟩, hend⟩
  · simp [Part.stmts, Cases.arms_ofArms]
  · exact ⟨⟨⟨r, hr, hselector⟩, Cases.valid_ofArms hvalid⟩, trivial⟩
  · exact (hgrows.shelter hshelter).congr (fun n hn => .inl hn) fun place => hmem
  · rcases List.mem_cons.mp (hmem.mp hplace) with rfl | hplace
    · exact .refl
    · exact hreached place hplace

/-! ### Blocks and loops -/

include hs hbuilt hw in
lemma emits_emitBlock (hcomes : s.Comes scope todo id) (hopen : id ∈ todo.blocks)
    (hnone : todo.regionAt? s.graph id = none) (h : s.emitBlock w scope id stack todo = .ok (p, todo')) :
    ∃ o, s.Emits scope.ranges id todo p todo' o ∧ id ∉ todo'.blocks ∧ entry? o = some id := by
  obtain ⟨b, r, tail, hrun, hexited, rfl⟩ := of_yields yields_emitBlock h
  have hshelter := hcomes.standing.sheltered hcomes.ready hopen hnone
  have hstanding := hcomes.standing.visit hcomes.unclaimed
  have hr := hstanding.recovers hrun
  have hblock := houses_block hcomes.standing hshelter hcomes.unclaimed hr rfl
  have hplaced : id ∉ (todo.visit id).blocks := hcomes.standing.nodup.not_mem_erase
  have hid : id < s.graph.size := FlowGraph.lt_size_of_block? hrun.block
  have hedge {n : BlockId} (hn : n ∈ b.succs) : s.Onward scope.ranges id n := by
    refine hshelter.onward hs hbuilt hid .refl (.inl ?_)
    rw [FlowGraph.successors_of_block? hrun.block]
    exact FlowGraph.mem_successors_iff.mpr (.inl hn)
  obtain ⟨o, htail⟩ : ∃ o, s.Emits scope.ranges id (todo.visit id) tail todo' o := by
    cases hexited with
    | switch hemit hexit => exact emits_emitSwitch hs hbuilt hw hcomes.framed hstanding hshelter hplaced hr hexit hemit
    | @fork cond taken fall fork p todo₁ todo' hexit hsuccs hmerges hforked =>
      have htested : s.Tested scope.ranges id (todo.visit id) (todo.visit id) ⟨cond.taken, taken, fall⟩
          (.test id cond) :=
        ⟨rfl, ⟨r, hr, hexit⟩, (Grows.refl hstanding [id]).shelter hshelter, by simp [Guard.blocks, Guard.first,
          Guard.merged, ReflTransGen.refl], hedge (by simp [hsuccs]), hedge (by simp [hsuccs])⟩
      obtain ⟨cond', htested'⟩ := hmerges.tested hs hbuilt htested
      exact emits_forked hs hbuilt hw htested' hcomes.framed hforked
    | leave hsuccs hexit => exact ⟨[], rfl, .refl hstanding id, nofun⟩
    | goOn hsuccs =>
      refine ⟨[], rfl, .refl hstanding id, ?_⟩
      rintro _ ⟨⟩
      exact hedge (by simp [hsuccs])
  refine ⟨.block id r.stmts :: o, ⟨?_, hblock.append htail.houses (.inl rfl) .refl, htail.next⟩, ?_, rfl⟩
  · simp [Part.stmts, htail.stmts]
  · exact fun hmem => hplaced (htail.houses.grows.blocks hmem)

include hs hbuilt hw in
lemma emits_emitLoop {loop : Loop} (hloop : loop ∈ s.loops) (hcomes : s.Comes scope todo loop.header)
    (hopen : loop.header ∈ todo.blocks) (hnone : todo.regionAt? s.graph loop.header = none)
    (hstop : scope.stopsAt s.graph loop.header = false) (h : s.emitLoop w scope loop stack todo = .ok (p, todo')) :
    ∃ o, s.Emits scope.ranges loop.header todo p todo' o ∧ loop.header ∉ todo'.blocks ∧
      entry? o = some loop.header := by
  have hshelter := hcomes.standing.sheltered hcomes.ready hopen hnone
  have hid : loop.header < s.graph.size := hcomes.standing.bound _ hopen
  have hexit (n : BlockId) (hn : loop.exit = some n) : s.Onward scope.ranges loop.header n :=
    hshelter.onward hs hbuilt hid .refl (.inr ⟨loop, hloop, rfl, hn⟩)
  have hheader : ¬ s.IsHandler loop.header := by
    obtain ⟨latch, hlatch⟩ := hbuilt.headers loop hloop
    exact hs.not_isHandler_of_mem hlatch
  have hframed := hcomes.framed.enterLoop hheader (fun n hn => (hexit n hn).ordinary) stack
  obtain ⟨cond, entry, left, body, ⟨c, exit, -, htest⟩, hbody, rfl⟩ | ⟨body, hbody, rfl⟩ :=
    of_yields yields_emitLoop h
  · -- the body is entered with the outcome `sense` of the test
    have hwhile (sense : Bool) {taken fall : BlockId} (htest : s.IsBareTest todo loop.header stack c taken fall left)
        (hentry : entry = taken ∨ entry = fall) (hcond : cond = c.on sense) : ∃ o, s.Emits scope.ranges loop.header todo
          { stmts := [.whileLoop cond (dropContinue body.stmts)], next := loop.exit, stack } todo' o ∧
          loop.header ∉ todo'.blocks ∧ entry? o = some loop.header := by
      obtain ⟨b, r, hr, hsuccs, hexit', hstmts, -⟩ := htest.runs
      have hstep : s.GoesOn loop.header entry := by
        refine .inl ?_
        rw [FlowGraph.successors_of_block? hr.block]
        exact FlowGraph.mem_successors_iff.mpr (.inl (by simpa [hsuccs] using hentry))
      have honward := hshelter.onward hs hbuilt hid .refl hstep
      have hgrows : s.Grows scope.ranges [loop.header] todo ((todo.visit loop.header).meet stack left)
          [(loop.header, [])] :=
        (Grows.visit hcomes.standing hshelter hcomes.unclaimed).noted rfl rfl rfl
      obtain ⟨o, hemits⟩ := honward.walk hw hframed rfl hgrows.standing hbody
      have hbody := hemits.houses
      refine ⟨[.whileTest loop.header c sense o], ⟨?_, ⟨?_, ?_, ?_⟩, hexit⟩, ?_, rfl⟩
      · simp [Part.stmts, hemits.stmts, hcond]
      · exact ⟨⟨⟨r, hcomes.standing.recovers hr, hexit', hstmts⟩, hbody.valid⟩, trivial⟩
      · simpa [Part.places] using hgrows.trans hbody.grows (by simpa using .inr honward.ordinary)
      · rw [places_cons, places_nil, List.append_nil, Part.places]
        exact List.forall_mem_cons.mpr ⟨.refl, fun place hplace => honward.reaches.trans (hbody.reached place hplace)⟩
      · exact fun hmem => hcomes.standing.nodup.not_mem_erase (hbody.grows.blocks hmem)
    rcases htest with ⟨htest, hcond⟩ | ⟨htest, hcond⟩
    · exact hwhile true htest (.inl rfl) hcond
    · exact hwhile false htest (.inr rfl) hcond
  · have hcomes' : s.Comes (scope.enterLoop loop stack) todo loop.header :=
      ⟨hframed, hcomes.standing, hcomes.ready, hcomes.lt, hcomes.unclaimed, fun h => absurd h hheader⟩
    have hstop' : (scope.enterLoop loop stack).stopsAt s.graph loop.header = false := by
      rw [stopsAt_eq_false_iff] at hstop ⊢
      exact ⟨nofun, hstop.2⟩
    obtain ⟨o, hemits, -, hbegins⟩ := hw _ _ _ _ _ _ _ hbody hcomes' fun _ => hnone
    obtain ⟨hplaced, hentry⟩ := hbegins hstop' (.inl rfl)
    have hbody : s.Houses scope.ranges loop.header todo todo' o := hemits.houses
    refine ⟨[.forever o], ⟨by simp [Part.stmts, hemits.stmts], ⟨⟨hbody.valid, trivial⟩, ?_, ?_⟩, hexit⟩, hplaced,
      hentry⟩
    · simpa [Part.places] using hbody.grows
    · simpa [Part.places] using hbody.reached

/-! ### Protected ranges -/

include hs in
/-- The regions around a region that is entered are around its handlers too. -/
lemma Comes.inside (hcomes : s.Comes scope todo id) (hstop : scope.stopsAt s.graph id = false)
    (hregion : todo.regionAt? s.graph id = some region) : ∀ range ∈ scope.ranges,
      range.1 ≤ region.start ∧ region.stop ≤ range.2 ∧
        ∀ handler ∈ region.handlers,
          range.1 ≤ s.graph.startOf handler.block ∧ s.graph.startOf handler.block < range.2 := by
  intro range hrange
  obtain ⟨hmem, hstart, -⟩ := regionAt?_eq_some hregion
  obtain ⟨outer, houter, rfl⟩ := hcomes.framed.ranges range hrange
  have hin := (stopsAt_eq_false_iff.mp hstop).2 _ hrange
  rw [← hstart] at hin
  have hlarger : outer.start < region.start ∨ region.stop < outer.stop := by
    rcases Nat.lt_or_ge outer.start region.start with hlt | hge
    · exact .inl hlt
    · exact .inr (hcomes.standing.outer region hmem outer.range hrange (Nat.le_antisymm hin.1 hge))
  obtain ⟨hle, hhandlers⟩ :=
    hs.nested region (hcomes.standing.regions.subset hmem) outer houter (covers_iff.mpr hin) hlarger
  exact ⟨hin.1, hle, fun handler hhandler => covers_iff.mp (hhandlers handler hhandler)⟩

include hs hbuilt in
/-- Where the body of a `try` ends, the walk may go on behind it. -/
lemma Onward.leave (hcomes : s.Comes scope todo id) (hstop : scope.stopsAt s.graph id = false)
    (hregion : todo.regionAt? s.graph id = some region) (h : s.Onward (region.range :: scope.ranges) id n)
    (hn : (scope.within region).stopsAt s.graph n = true) : s.Onward scope.ranges id n := by
  refine ⟨fun region' hregion' hcovers => ?_, h.ordinary, h.lt, h.reaches⟩
  rcases h.ready region' hregion' hcovers with hin | hstart
  · rcases List.mem_cons.mp hin with heq | hin
    · -- the region itself covers the block, so that the walk did not stop there because of a range
      have hmem := (regionAt?_eq_some hregion).1
      obtain rfl := hbuilt.ranges region' hregion' region (hcomes.standing.regions.subset hmem) heq
      have hstops : n ∈ scope.stops := by
        by_contra hout
        have hcovers := covers_iff.mp hcovers
        have hfree : (scope.within region').stopsAt s.graph n = false := by
          refine stopsAt_eq_false_iff.mpr ⟨hout, List.forall_mem_cons.mpr ⟨hcovers, fun range hrange => ?_⟩⟩
          obtain ⟨hle, hle', -⟩ := hcomes.inside hs hstop hregion range hrange
          exact ⟨hle.trans hcovers.1, hcovers.2.trans_le hle'⟩
        exact Bool.false_ne_true (hfree.symm.trans hn)
      exact (hcomes.framed.stops n hstops).1 region' hregion' hcovers
    · exact .inl hin
  · exact .inr hstart

include hs in
/-- A walk may come to the handlers of a region that is entered. -/
lemma Comes.ready_handler (hcomes : s.Comes scope todo id) (hopen : id ∈ todo.blocks)
    (hregion : todo.regionAt? s.graph id = some region)
    (hthrows : ∀ handler ∈ region.handlers, s.Throws id handler.block)
    (hlt : ∀ handler ∈ region.handlers, handler.block < s.graph.size) {handler : Handler}
    (hhandler : handler ∈ region.handlers) : s.Ready scope.ranges handler.block := by
  obtain ⟨hmem, hstart, hmax⟩ := regionAt?_eq_some hregion
  intro region' hregion' hcovers
  have hentry := hs.entry id (hcomes.standing.bound id hopen) handler.block (hlt handler hhandler)
    (.inr (hthrows handler hhandler)) region' hregion' hcovers
  rcases hentry with hin | hstart'
  · rcases hcomes.ready region' hregion' hin with hin | hstart'
    · exact .inl hin
    · by_cases hmem' : region' ∈ todo.regions
      · -- the other region lies inside, and the handler outside
        have hle := hmax region' hmem' hstart'
        have hcovers := covers_iff.mp hcovers
        have hout := hs.outside region (hcomes.standing.regions.subset hmem) handler hhandler
        have hin : region.covers (s.graph.startOf handler.block) = true := covers_iff.mpr ⟨by omega, by omega⟩
        exact absurd (hin.symm.trans hout) Bool.noConfusion
      · refine .inl ((hcomes.standing.entered region' hregion' hmem').resolve_right fun hall => ?_)
        exact hall id hopen hstart'.symm
  · exact .inr hstart'

include hs hw in
/-- The clauses of handlers that are open, in a scope that does not stop at them. -/
lemma exists_catches (hframed : s.Framed scope) (hregion : region ∈ s.regions) {handlers : List Handler}
    (hsub : handlers ⊆ region.handlers) (hnodup : (handlers.map Handler.block).Nodup)
    (hready : ∀ handler ∈ handlers, s.Ready scope.ranges handler.block)
    (hinside : ∀ handler ∈ handlers, ∀ range ∈ scope.ranges,
      range.1 ≤ s.graph.startOf handler.block ∧ s.graph.startOf handler.block < range.2)
    (hreaches : ∀ handler ∈ handlers, s.Reaches id handler.block) {cont : Option BlockId}
    (hcont : ∀ n, cont = some n → s.Onward scope.ranges id n) (hstanding : s.Standing scope.ranges todo)
    (hclosed : region ∉ todo.regions) (hopen : ∀ handler ∈ handlers, handler.block ∈ todo.blocks)
    {r : List CatchClause × Option BlockId}
    (h : s.emitHandlers w scope cont handlers todo = .ok (r, todo')) :
    ∃ catches : Catches, catches.clauses = .ofCatches none r.1 ∧ catches.Valid s ∧
      s.Grows scope.ranges (handlers.map Handler.block) todo todo' catches.places ∧
      (∀ place ∈ catches.places, s.Reaches id place.1) ∧
      (∀ handler ∈ handlers, ∃ clause ∈ catches.offers, clause.1 = s.catchTypeName handler.catchType ∧
        entry? clause.2 = some handler.block ∧ ∀ place ∈ places clause.2, s.Reaches handler.block place.1) ∧
      ∀ n, r.2 = some n → s.Onward scope.ranges id n := by
  induction handlers generalizing cont todo r with
  | nil =>
    cases h
    exact ⟨.done, rfl, trivial, .refl hstanding _, by simp [Catches.places], by simp, hcont⟩
  | cons handler rest ih =>
    obtain ⟨hmem, hsub⟩ := List.cons_subset.mp hsub
    obtain ⟨hfresh, hnodup⟩ := List.nodup_cons.mp hnodup
    obtain ⟨hready₁, hready⟩ := List.forall_mem_cons.mp hready
    obtain ⟨hinside₁, hinside⟩ := List.forall_mem_cons.mp hinside
    obtain ⟨hreaches₁, hreaches⟩ := List.forall_mem_cons.mp hreaches
    obtain ⟨hopen₁, hopen⟩ := List.forall_mem_cons.mp hopen
    have hhandler : s.IsHandler handler.block := ⟨region, hregion, handler, hmem, rfl⟩
    obtain ⟨hnot, -⟩ | ⟨binding, entry, todo₁, body, todo₂, clauses, hbinding, hbody, hrest, hclauses⟩ :=
      of_yields yields_emitHandlers_cons h
    · simp [Todo.isOpen, hopen₁] at hnot
    have hsame : todo₁.blocks = todo.blocks ∧ todo₁.regions = todo.regions ∧ s.Standing scope.ranges todo₁ := by
      rcases todo_of_catchBinding hbinding with rfl | rfl
      · exact ⟨rfl, rfl, hstanding⟩
      · exact ⟨rfl, rfl, hstanding.capture hhandler⟩
    obtain ⟨hblocks, hregions, hstanding₁⟩ := hsame
    -- nothing in the scope is a handler, so that the walk begins with this one
    have hstop : (scope.withStop cont).stopsAt s.graph handler.block = false := by
      refine stopsAt_eq_false_iff.mpr ⟨fun hin => ?_, hinside₁⟩
      rcases List.mem_append.mp hin with hin | hin
      · exact (hcont _ (Option.mem_toList.mp hin)).ordinary hhandler
      · exact (hframed.stops _ hin).2 hhandler
    have htarget : (scope.withStop cont).isTarget handler.block = false :=
      Bool.eq_false_iff.mpr fun htarget => hframed.targets _ htarget hhandler
    have hunclaimed : Unclaimed todo₁ handler.block := by
      intro region' hregion' handler' hhandler' heq
      have hmem' : region' ∈ s.regions := hstanding₁.regions.subset hregion'
      obtain rfl := hs.owner region' hmem' region hregion handler' hhandler' handler hmem heq
      exact hclosed (hregions ▸ hregion')
    have hcomes : s.Comes (scope.withStop cont) todo₁ handler.block :=
      ⟨hframed.withStop hcont, hstanding₁, hready₁, hstanding.bound _ hopen₁, hunclaimed, fun _ => ⟨hstop, htarget⟩⟩
    obtain ⟨o, hemits, -, hbegins⟩ := hw _ _ _ _ _ _ _ hbody hcomes (by simp)
    obtain ⟨-, hentry⟩ := hbegins hstop (.inr htarget)
    have hbody : s.Houses scope.ranges handler.block todo₁ todo₂ o := hemits.houses
    have hgrows : s.Grows scope.ranges [handler.block] todo todo₂ (places o) := hbody.grows.of_eq hblocks hregions
    have hcont' (n : BlockId) (hn : cont.or body.next = some n) : s.Onward scope.ranges id n := by
      rcases Option.or_eq_some_iff.mp hn with hn | ⟨-, hn⟩
      · exact hcont n hn
      · exact (hemits.next n hn).trans hreaches₁
    have hopen' (handler' : Handler) (hhandler' : handler' ∈ rest) : handler'.block ∈ todo₂.blocks := by
      have hne : handler'.block ≠ handler.block := fun heq => hfresh (heq ▸ List.mem_map_of_mem hhandler')
      exact hgrows.handlers region hregion hclosed handler' (hsub hhandler') (hopen handler' hhandler') (by simpa)
    have hclosed' : region ∉ todo₂.regions := fun hin => hclosed (hgrows.regions hin)
    obtain ⟨catches, heq, hvalid, hgrows', hreached, hoffers, hnext⟩ :=
      ih hsub hnodup hready hinside hreaches hcont' hbody.grows.standing hclosed' hopen' hrest
    refine ⟨.clause (s.catchTypeName handler.catchType) binding o catches, ?_, ⟨hbody.valid, hvalid⟩, ?_, ?_, ?_, hnext⟩
    · rw [hclauses, Catches.clauses, Clauses.ofCatches, heq, hemits.stmts]
    · have hgrows : s.Grows scope.ranges ((handler :: rest).map Handler.block) todo todo₂ (places o) :=
        hgrows.congr (fun n hn => .inl (List.mem_singleton.mp hn ▸ List.mem_cons_self)) fun _ => Iff.rfl
      exact hgrows.trans hgrows' fun n hn => .inl (List.mem_cons_of_mem _ hn)
    · refine List.forall_mem_append.mpr ⟨fun place hplace => ?_, hreached⟩
      exact hreaches₁.trans (hbody.reached place hplace)
    · refine List.forall_mem_cons.mpr
        ⟨⟨_, List.mem_cons_self, rfl, hentry, hbody.reached⟩, fun handler' hhandler' => ?_⟩
      obtain ⟨clause, hclause, hoffer⟩ := hoffers handler' hhandler'
      exact ⟨clause, List.mem_cons_of_mem _ hclause, hoffer⟩

/-- The statements of a `try`, which is only its body if there are no clauses. -/
lemma stmts_tryCatch {body : List Part} {catches : Catches} {clauses : List CatchClause}
    (h : catches.clauses = .ofCatches none clauses) : (Part.tryCatch body catches).stmts =
      if clauses.isEmpty then written body else [.tryCatch (written body) (.ofCatches none clauses)] := by
  rw [← h]
  cases catches with
  | done =>
    cases clauses with
    | nil => rfl
    | cons clause rest => cases h
  | clause type binding handler rest =>
    cases clauses with
    | nil => cases h
    | cons clause rest' => rfl

section Try

variable (hcomes : s.Comes scope todo id) (hopen : id ∈ todo.blocks)
  (hregion : todo.regionAt? s.graph id = some region) (hstop : scope.stopsAt s.graph id = false)
include hcomes hregion hstop

include hs in
lemma stopsAt_within : (scope.within region).stopsAt s.graph id = false := by
  obtain ⟨hmem, hstart, -⟩ := regionAt?_eq_some hregion
  have hlt := hs.nonempty region (hcomes.standing.regions.subset hmem)
  obtain ⟨hout, hranges⟩ := stopsAt_eq_false_iff.mp hstop
  exact stopsAt_eq_false_iff.mpr ⟨hout, List.forall_mem_cons.mpr ⟨⟨hstart.le, hstart ▸ hlt⟩, hranges⟩⟩

include hs hbuilt in
/-- A walk comes to the body of a `try`. -/
lemma Comes.within (htarget : scope.isTarget id = false) : s.Comes (scope.within region) (todo.enter region) id :=
  ⟨hcomes.framed.within (hcomes.standing.regions.subset (regionAt?_eq_some hregion).1),
    hcomes.standing.enter hbuilt hregion, hcomes.ready.mono (List.subset_cons_self _ _), hcomes.lt,
    fun region' hregion' => hcomes.unclaimed region' (List.mem_of_mem_erase hregion'),
    fun _ => ⟨stopsAt_within hs hcomes hregion hstop, htarget⟩⟩

end Try

include hs hbuilt in
/-- A lone jump behind the body of a `try` is placed behind the `try`. -/
lemma exists_goto {cont next : Option BlockId} {todo₂ : Todo} (hstanding : s.Standing ranges todo₁)
    (hnext : ∀ n, next = some n → s.Onward ranges id n)
    (h : (cont = next ∧ todo₂ = todo₁) ∨ ∃ last target, next = some last ∧ cont = some target ∧
      s.IsLoneGoto todo₁ last target ∧ todo₂ = todo₁.visit last) :
    ∃ o, s.Houses ranges id todo₁ todo₂ o ∧ written o = [] ∧ ∀ n, cont = some n → s.Onward ranges id n := by
  rcases h with ⟨rfl, rfl⟩ | ⟨last, target, hlast, rfl, hgoto, rfl⟩
  · exact ⟨[], .refl hstanding id, rfl, hnext⟩
  · obtain ⟨b, i, hb, hbody, hopcode, hsuccs⟩ := hgoto.block
    obtain ⟨r, hr, hempty⟩ := hbuilt.gotos hb hbody hopcode hsuccs
    have honward := hnext last hlast
    have hopen : last ∈ todo₁.blocks := by simpa [Todo.isOpen] using hgoto.isOpen
    have hshelter := hstanding.sheltered honward.ready hopen hgoto.noRegion
    have hblock := houses_block hstanding hshelter (hstanding.unclaimed honward.ordinary) hr hempty
    have hstep : s.GoesOn last target := by
      refine .inl ?_
      rw [FlowGraph.successors_of_block? hb]
      exact FlowGraph.mem_successors_iff.mpr (.inl (by simp [hsuccs]))
    refine ⟨[] ++ [.block last []], ?_, by simp [Part.stmts], fun n hn => ?_⟩
    · exact (Houses.refl hstanding id).append hblock (.inr honward.ordinary) honward.reaches
    · exact Option.some.inj hn ▸ hshelter.onward hs hbuilt honward.lt honward.reaches hstep

include hs hbuilt hw in
lemma emits_emitTry (hcomes : s.Comes scope todo id) (hopen : id ∈ todo.blocks)
    (hregion : todo.regionAt? s.graph id = some region) (hstop : scope.stopsAt s.graph id = false)
    (htarget : scope.isTarget id = false) (h : s.emitTry w scope region id stack todo = .ok (p, todo')) :
    ∃ o, s.Emits scope.ranges id todo p todo' o ∧ id ∉ todo'.blocks ∧ entry? o = some id := by
  obtain ⟨hmem, hstart, -⟩ := regionAt?_eq_some hregion
  have hin : region ∈ s.regions := hcomes.standing.regions.subset hmem
  obtain ⟨body, todo₁, cont, todo₂, clauses, next, hbody, hcont, hhandlers, hstmts, rfl⟩ := of_yields yields_emitTry h
  -- the body, with the region around
  obtain ⟨o, hemits, hends, hbegins⟩ :=
    hw _ _ _ _ _ _ _ hbody (hcomes.within hs hbuilt hregion hstop htarget) nofun
  obtain ⟨hplaced, hentry⟩ := hbegins (stopsAt_within hs hcomes hregion hstop) (.inr htarget)
  have hinner : s.Houses (region.range :: scope.ranges) id (todo.enter region) todo₁ o := hemits.houses
  have hleft : ∀ n ∈ todo₁.blocks, s.graph.startOf n ≠ region.start := by
    intro n hn heq
    have hlt : n < s.graph.size := hinner.grows.standing.bound n hn
    obtain rfl := hbuilt.starts hlt (hcomes.standing.bound id hopen) (heq.trans hstart)
    exact hplaced hn
  have hnext (n : BlockId) (hn : body.next = some n) : s.Onward scope.ranges id n :=
    (hemits.next n hn).leave hs hbuilt hcomes hstop hregion (hends n hn)
  obtain ⟨last, hlast, hwritten, hentered⟩ :=
    exists_goto hs hbuilt (hinner.grows.standing.leave hbuilt hin hleft) hnext hcont
  -- the handlers, which the body leaves open
  have hclosed : region ∉ (todo.enter region).regions :=
    (hbuilt.nodup.sublist hcomes.standing.regions).not_mem_erase
  have hopen' (handler : Handler) (hhandler : handler ∈ region.handlers) : handler.block ∈ todo₂.blocks := by
    have hne : handler.block ≠ id := hcomes.unclaimed region hmem handler hhandler
    have hopen₁ := hinner.grows.handlers region hin hclosed handler hhandler
      (hcomes.standing.handlers region hmem handler hhandler) (by simpa using hne)
    exact hlast.grows.handlers region hin (fun h => hclosed (hinner.grows.regions h)) handler hhandler hopen₁
      (by simpa using hne)
  have hthrows (handler : Handler) (hhandler : handler ∈ region.handlers) : s.Throws id handler.block :=
    ⟨region, hin, covers_iff.mpr ⟨hstart.le, hstart ▸ hs.nonempty region hin⟩, handler, hhandler, rfl⟩
  obtain ⟨catches, heq, hvalid, hgrows, hreached, hoffers, hgoes⟩ :=
    exists_catches hs hw hcomes.framed hin (fun _ h => h) (hs.distinct region hin)
      (fun handler hhandler => hcomes.ready_handler hs hopen hregion hthrows (hbuilt.inBounds.handler_lt region hin)
        hhandler)
      (fun handler hhandler range hrange => (hcomes.inside hs hstop hregion range hrange).2.2 handler hhandler)
      (fun handler hhandler => .single (.inr (hthrows handler hhandler))) hentered hlast.grows.standing
      (fun h => hclosed (hinner.grows.regions (hlast.grows.regions h))) hopen' hhandlers
  have hall : s.Grows scope.ranges ([id] ++ region.handlers.map Handler.block) (todo.enter region) todo'
      (places (.tryCatch o catches :: last)) := by
    have hbody : s.Grows scope.ranges ([id] ++ region.handlers.map Handler.block) (todo.enter region) todo₁
        ((places o).map fun place => (place.1, place.2 ++ catches.offers)) :=
      (hinner.grows.leave hbuilt hin hoffers hleft).congr (fun n hn => .inl (List.mem_append_left _ hn))
        fun _ => Iff.rfl
    have hbehind := hbody.trans hlast.grows fun n hn => .inl (List.mem_append_left _ hn)
    have hall := hbehind.trans hgrows fun n hn => .inl (List.mem_append_right _ hn)
    refine hall.congr (fun n hn => .inl hn) fun place => ?_
    simp only [places_cons, Part.places, List.mem_append]
    exact or_right_comm
  refine ⟨.tryCatch o catches :: last, ⟨?_, ⟨?_, ?_, ?_⟩, hgoes⟩, ?_, hentry⟩
  · rw [hstmts, written_cons, stmts_tryCatch heq, hwritten, List.append_nil, hemits.stmts]
  · exact ⟨⟨hinner.valid, hvalid⟩, hlast.valid⟩
  · exact hall.of_enter hs hmem hcomes.standing.regions.subset
  · have hbody : ∀ place ∈ (places o).map fun place => (place.1, place.2 ++ catches.offers), s.Reaches id place.1 := by
      intro _ hplace
      obtain ⟨place, hmem, rfl⟩ := List.mem_map.mp hplace
      exact hinner.reached place hmem
    rw [places_cons, Part.places]
    exact List.forall_mem_append.mpr ⟨List.forall_mem_append.mpr ⟨hbody, hreached⟩, hlast.reached⟩
  · exact fun h => hplaced (hlast.grows.blocks (hgrows.blocks h))

/-! ### The walk -/

include hs hbuilt hw in
lemma emits_emitConstruct (hcomes : s.Comes scope todo id) (hopen : id ∈ todo.blocks) {entering : Bool}
    (hentering : entering = true → todo.regionAt? s.graph id = none) (hstop : scope.stopsAt s.graph id = false)
    (htarget : entering = true ∨ scope.isTarget id = false)
    (h : s.emitConstruct w scope id stack todo = .ok (p, todo')) :
    ∃ o, s.Emits scope.ranges id todo p todo' o ∧ id ∉ todo'.blocks ∧ entry? o = some id := by
  obtain ⟨region, -, hregion, h⟩ | ⟨loop, hloop, rfl, -, hwithin, h⟩ | ⟨hnone, h⟩ := of_yields yields_emitConstruct h
  · have htarget := htarget.resolve_left fun h => by simp [hentering h] at hregion
    exact emits_emitTry hs hbuilt hw hcomes hopen hregion hstop htarget h
  · have hnone : todo.regionAt? s.graph loop.header = none := by
      cases hregion : todo.regionAt? s.graph loop.header with
      | none => rfl
      | some region =>
        obtain ⟨hmem, hstart, -⟩ := regionAt?_eq_some hregion
        have hlt := hs.loops region (hcomes.standing.regions.subset hmem) loop hloop hstart
        have hle := hwithin region hregion
        omega
    exact emits_emitLoop hs hbuilt hw hloop hcomes hopen hnone hstop h
  · exact emits_emitBlock hs hbuilt hw hcomes hopen hnone h

include hs hbuilt in
/-- **Every walk places blocks under shelter.** By induction on the number of its steps. -/
lemma shelters_walk (fuel : Nat) : s.Shelters (s.walk fuel) := by
  induction fuel with
  | zero => exact fun _ _ _ _ _ _ _ h => by cases h
  | succ fuel ih =>
    intro scope entering id stack todo p todo' h hcomes hentering
    cases of_yields yields_walk h with
    | jump hnot hjump =>
      obtain ⟨part, hstmts, hvalid, hplaces⟩ := exists_jumpPart hjump
      have hgrows : s.Grows scope.ranges [id] todo (todo.land scope id stack) [] :=
        (Grows.refl hcomes.standing _).noted rfl rfl rfl
      have hhouses : s.Houses scope.ranges id todo (todo.land scope id stack) [part] :=
        ⟨⟨hvalid, trivial⟩, by simpa [hplaces] using hgrows, by simp [hplaces]⟩
      refine ⟨[part], ⟨by simp [hstmts], hhouses, by simp⟩, by simp, fun _ hfree => ?_⟩
      simp [hnot, isTarget_of_jump? hjump] at hfree
    | stop hstop =>
      have hordinary : ¬ s.IsHandler id := fun hhandler => by
        cases (hcomes.free hhandler).1.symm.trans hstop
      have honward : s.Onward scope.ranges id id := ⟨hcomes.ready, hordinary, hcomes.lt, .refl⟩
      refine ⟨[], ⟨rfl, .refl hcomes.standing id, ?_⟩, ?_, fun hfree => ?_⟩
      · rintro _ ⟨⟩
        exact honward
      · rintro _ ⟨⟩
        exact hstop
      · cases hfree.symm.trans hstop
    | last hopen hfirst hnext hstop htarget =>
      have hopen : id ∈ todo.blocks := by simpa [Todo.isOpen] using hopen
      obtain ⟨o, hemits, hbegins⟩ := emits_emitConstruct hs hbuilt ih hcomes hopen hentering hstop htarget hfirst
      exact ⟨o, hemits, by simp [hnext], fun _ _ => hbegins⟩
    | @more first rest next todo₁ todo' hopen hfirst hnext hrest hstop htarget =>
      have hopen : id ∈ todo.blocks := by simpa [Todo.isOpen] using hopen
      obtain ⟨o, hemits, hplaced, hentry⟩ :=
        emits_emitConstruct hs hbuilt ih hcomes hopen hentering hstop htarget hfirst
      have honward := hemits.next next hnext
      have hcomes' := honward.comes hcomes.framed hemits.houses.grows.standing
      obtain ⟨o', hemits', hends, -⟩ := ih _ _ _ _ _ _ _ hrest hcomes' (by simp)
      refine ⟨o ++ o', ⟨?_, ?_, fun n hn => (hemits'.next n hn).trans honward.reaches⟩, hends, fun _ _ => ⟨?_, ?_⟩⟩
      · simp [hemits.stmts, hemits'.stmts]
      · exact hemits.houses.append hemits'.houses (.inr honward.ordinary) honward.reaches
      · exact fun hmem => hplaced (hemits'.houses.grows.blocks hmem)
      · cases o with
        | nil => cases hentry
        | cons part o => exact hentry

end Setting

/-! ### Main statement -/

/-- **Coverage.** When the code of a method with orderly protected ranges is written as a tree, the tree has an outline
in which every block that is reachable, be it by an exception, has a place. At each place of a block, the clauses of the
`try` statements around it offer the handlers of all regions that cover the block. -/
theorem structureBody_offers_handlers {ctx : Context} {code : Code}
    (hs : (Setting.ofShape ctx (CodeShape.ofCode code)).Orderly) {body : List Stmt}
    (h : structureBody ctx (CodeShape.ofCode code) = .ok body) :
    let s := Setting.ofShape ctx (CodeShape.ofCode code)
    ∃ o : List Part, written o = body ∧ ValidEach s o ∧
      (∀ id < s.graph.size, ReflTransGen s.Flows 0 id → id ∈ (places o).map Prod.fst) ∧
      ∀ place ∈ places o, ∀ region ∈ s.regions, region.covers (s.graph.startOf place.1) = true →
        s.Offers place.2 region := by
  intro s
  have hbuilt : s.Built := built_ofCode ctx code
  obtain ⟨todo, h⟩ := structureBody_ok h
  obtain ⟨hsize, rfl⟩ | ⟨fuel, p, hwalk, rfl, hpos, hplaced⟩ := structureWalk_ok h
  · exact ⟨[], rfl, trivial, fun id hid => absurd hid (by simp [s, Setting.ofShape, hsize]), by simp⟩
  have hfirst : ¬ s.IsHandler 0 := by
    rintro ⟨region, hregion, handler, hhandler, hzero⟩
    exact (hs.thrown region hregion handler hhandler).1 hzero
  have hready : s.Ready [] 0 := by
    intro region hregion hcovers
    have hcovers := Setting.covers_iff.mp hcovers
    rw [hbuilt.first] at hcovers ⊢
    exact .inr (by omega)
  have hstanding : s.Standing [] (Todo.ofShape (CodeShape.ofCode code)) :=
    ⟨List.nodup_range, fun n hn => List.mem_range.mp hn, List.Sublist.refl _,
      fun region hregion handler hhandler =>
        List.mem_range.mpr (hbuilt.inBounds.handler_lt region hregion handler hhandler),
      fun region hregion hclosed => absurd hregion hclosed, by simp, by simp [Todo.ofShape]⟩
  have hcomes : s.Comes {} (Todo.ofShape (CodeShape.ofCode code)) 0 :=
    ⟨⟨by simp, by simp, by simp [Scope.isTarget]⟩, hstanding, hready, hpos, hstanding.unclaimed hfirst, fun h => absurd h hfirst⟩
  obtain ⟨o, hemits, -⟩ := Setting.shelters_walk hs hbuilt fuel _ _ _ _ _ _ _ hwalk hcomes (by simp)
  have hhouses := hemits.houses
  refine ⟨o, hemits.stmts.symm, hhouses.valid, fun id hid hpath => ?_, fun place hplace region hregion hcovers => ?_⟩
  · have hopen : id ∈ (Todo.ofShape (CodeShape.ofCode code)).blocks := List.mem_range.mpr hid
    refine (hhouses.grows.placed id hopen).resolve_left fun hleft => ?_
    have hreach := Setting.mem_reachable hbuilt.inBounds hpos hpath
    simpa [Todo.isOpen, hleft] using hplaced id hreach
  · exact (hhouses.grows.covered place hplace region hregion hcovers).resolve_left (by simp)

/-- Code with a `try` in a loop in a `try`. In the ranges: `0: iload_0; ifle 18`, `4: iconst_1; iload_0; idiv; istore_0`
(the inner one), `8: goto 0`, the handler `11: astore_1; iinc 0, -1; goto 0` of the inner one, `18: iinc 0, 1`. Behind
them: `21: iload_0; ireturn`, and the handlers `23: pop; iconst_2; ireturn` and `26: pop; iconst_3; ireturn` of the
outer one. -/
def nestedTries : Code :=
  { bytes := [0x1a, 0x9e, 0x00, 0x11, 0x04, 0x1a, 0x6c, 0x3b, 0xa7, 0xff, 0xf8, 0x4c, 0x84, 0x00, 0xff,
      0xa7, 0xff, 0xf1, 0x84, 0x00, 0x01, 0x1a, 0xac, 0x57, 0x05, 0xac, 0x57, 0x06, 0xac]
    handlers := [⟨4, 8, 11, 1⟩, ⟨0, 21, 23, 2⟩, ⟨0, 21, 26, 3⟩] }

lemma orderly_nestedTries : (Setting.ofShape numberedContext (CodeShape.ofCode nestedTries)).Orderly := by
  decide +kernel

/-- The theorem at a `try` in a loop in a `try`: all three clauses are written. -/
theorem nestedTries_offer_handlers :
    let s := Setting.ofShape numberedContext (CodeShape.ofCode nestedTries)
    s.Orderly ∧ ∃ body, structureBody numberedContext (CodeShape.ofCode nestedTries) = .ok body ∧
      catchTypesEach body = ["class#1", "class#2", "class#3"] ∧
      ∃ o : List Part, written o = body ∧ ValidEach s o ∧
        (∀ id < s.graph.size, ReflTransGen s.Flows 0 id → id ∈ (places o).map Prod.fst) ∧
        ∀ place ∈ places o, ∀ region ∈ s.regions, region.covers (s.graph.startOf place.1) = true →
          s.Offers place.2 region := by
  intro s
  have hwritten : (structureBody numberedContext (CodeShape.ofCode nestedTries)).toOption.any
      (fun body => catchTypesEach body == ["class#1", "class#2", "class#3"]) = true := by decide +kernel
  obtain ⟨body, hbody, htypes⟩ := exists_ok_of_any hwritten
  exact ⟨orderly_nestedTries, body, hbody, beq_iff_eq.mp htypes,
    structureBody_offers_handlers orderly_nestedTries hbody⟩

/-- Code in which two rows of the exception table share a handler, as for `catch (A | B e)`:
`0: iload_0; iload_1; idiv; istore_0`, `4: goto 10`, `7: astore_2; iconst_0; istore_0`, `10: iload_0; ireturn`. -/
def sharedHandler : Code :=
  { bytes := [0x1a, 0x1b, 0x6c, 0x3b, 0xa7, 0x00, 0x06, 0x4d, 0x03, 0x3b, 0x1a, 0xac]
    handlers := [⟨0, 4, 7, 1⟩, ⟨0, 4, 7, 2⟩] }

/-- The second of two rows that share a handler is lost: no outline of the body of `sharedHandler` offers a clause of
its type, although the first block is in the range of the row. -/
theorem sharedHandler_not_offered :
    let s := Setting.ofShape numberedContext (CodeShape.ofCode sharedHandler)
    (∀ row ∈ sharedHandler.handlers, row.start < row.stop ∧ (row.handler < row.start ∨ row.stop ≤ row.handler) ∧
      [row.start.toNat, row.stop.toNat, row.handler.toNat] ⊆ (decode sharedHandler.bytes).map Instruction.offset) ∧
    ∃ body, structureBody numberedContext (CodeShape.ofCode sharedHandler) = .ok body ∧
      ¬ ∃ o : List Part, written o = body ∧ ValidEach s o ∧
        (∀ id < s.graph.size, ReflTransGen s.Flows 0 id → id ∈ (places o).map Prod.fst) ∧
        ∀ place ∈ places o, ∀ region ∈ s.regions, region.covers (s.graph.startOf place.1) = true →
          s.Offers place.2 region := by
  intro s
  obtain ⟨hlost, hrow, hpos⟩ : (structureBody numberedContext (CodeShape.ofCode sharedHandler)).toOption.any
        (fun body => !(catchTypesEach body).contains "class#2") = true ∧
      (∃ region ∈ s.regions, region.covers (s.graph.startOf 0) = true ∧
        ∃ handler ∈ region.handlers, s.catchTypeName handler.catchType = "class#2") ∧ 0 < s.graph.size := by
    decide +kernel
  refine ⟨by decide +kernel, ?_⟩
  obtain ⟨body, hbody, hlost⟩ := exists_ok_of_any hlost
  refine ⟨body, hbody, ?_⟩
  rintro ⟨o, rfl, hvalid, hplaced, hoffers⟩
  obtain ⟨place, hplace, hfirst⟩ := List.mem_map.mp (hplaced 0 hpos .refl)
  obtain ⟨region, hregion, hcovers, handler, hhandler, htype⟩ := hrow
  obtain ⟨clause, hclause, htype', -⟩ := hoffers place hplace region hregion (hfirst ▸ hcovers) handler hhandler
  have hmem := offersOnly_of_valid hvalid place hplace clause hclause
  rw [htype', htype] at hmem
  simp [hmem] at hlost

end JvmLift.Structure
