import Mathlib
import JvmLift.Proofs.WalkCases

/-!
# The budget of the walk

A walk ends with statements or with an obstacle in the code, never because its budget is used up or because it looks
for a block that is not there. The blocks and regions that are still open bound what is left to do: every construct
takes one of them into the tree before it walks on, except a loop, which first enters its body at the same header. A
loop whose frame is around is not entered again, so twice the number of open blocks and regions is enough, with one
step more where a loop may still be entered.
-/

namespace JvmLift.Structure

open Bytecode JvmLift.Flow Recovery Source

/-! ### What is still to do -/

/-- How many blocks and regions are still open. -/
def Todo.load (todo : Todo) : Nat :=
  todo.blocks.length + todo.regions.length

@[simp] lemma blocks_meet (todo : Todo) (kept dropped : Stack) : (todo.meet kept dropped).blocks = todo.blocks := rfl

@[simp] lemma load_meet (todo : Todo) (kept dropped : Stack) : (todo.meet kept dropped).load = todo.load := rfl

lemma length_visit {todo : Todo} {id : BlockId} (h : todo.isOpen id = true) :
    (todo.visit id).blocks.length + 1 = todo.blocks.length := by
  have hmem : id ∈ todo.blocks := by simpa [Todo.isOpen] using h
  have hpos := List.length_pos_of_mem hmem
  rw [Todo.visit, List.length_erase_of_mem hmem]
  omega

lemma load_visit {todo : Todo} {id : BlockId} (h : todo.isOpen id = true) : (todo.visit id).load + 1 = todo.load := by
  have hlen := length_visit h
  simp only [Todo.load, show (todo.visit id).regions = todo.regions from rfl]
  omega

lemma load_enter {todo : Todo} {region : Region} (h : region ∈ todo.regions) :
    (todo.enter region).load + 1 = todo.load := by
  have hpos := List.length_pos_of_mem h
  simp only [Todo.load, Todo.enter, List.length_erase_of_mem h]
  omega

/-! ### Forward searches -/

section

variable {todo : Todo} {g : FlowGraph} {scope : Scope}

/-- A forward search goes along edges. -/
lemma mem_successors_of_mem_forward {a b : BlockId} (h : b ∈ todo.forward g scope a) : b ∈ g.successors a := by
  rw [Todo.forward] at h
  split at h
  · cases h
  · exact List.mem_of_mem_filter h

/-- A forward search from an admitted block finds exactly what it leads to. -/
lemma mem_forwardReach_iff (hg : g.Closed) {start id : BlockId} (hstart : start < g.size) :
    id ∈ todo.forwardReach g scope start ↔
      todo.admits scope start = true ∧ Relation.ReflTransGen (Along (todo.forward g scope)) start id := by
  have hnext : ∀ a < g.size, ∀ b ∈ todo.forward g scope a, b < g.size :=
    fun a _ b hb => hg.successors_lt a b (mem_successors_of_mem_forward hb)
  rw [Todo.forwardReach]
  split
  · rename_i hadmits
    rw [mem_reach_iff hnext (by simpa using hstart)]
    simp [hadmits]
  · rename_i hadmits
    simp [hadmits]

lemma forwardReach_lt (hg : g.Closed) {start id : BlockId} (hstart : start < g.size)
    (h : id ∈ todo.forwardReach g scope start) : id < g.size := by
  refine lt_of_path (fun a _ b hb => ?_) hstart ((mem_forwardReach_iff hg hstart).mp h).2
  exact hg.successors_lt a b (mem_successors_of_mem_forward hb)

end

namespace Setting

variable {s : Setting}

/-- What the setting refers to are blocks of its graph. -/
structure InBounds (s : Setting) : Prop where
  closed : s.graph.Closed
  exit_lt : ∀ loop ∈ s.loops, ∀ id, loop.exit = some id → id < s.graph.size
  handler_lt : ∀ region ∈ s.regions, ∀ handler ∈ region.handlers, handler.block < s.graph.size

/-- What is open belongs to the setting. -/
structure Fits (s : Setting) (todo : Todo) : Prop where
  blocks : todo.blocks.length ≤ s.graph.size
  regions : todo.regions ⊆ s.regions

lemma Fits.visit {todo : Todo} (h : s.Fits todo) (id : BlockId) : s.Fits (todo.visit id) :=
  ⟨(List.length_erase_le).trans h.blocks, h.regions⟩

lemma Fits.enter {todo : Todo} (h : s.Fits todo) (region : Region) : s.Fits (todo.enter region) :=
  ⟨h.blocks, fun _ hr => h.regions (List.mem_of_mem_erase hr)⟩

lemma Fits.noteStop {todo : Todo} (h : s.Fits todo) (stop next : Option BlockId) : s.Fits (todo.noteStop stop next) :=
  ⟨h.blocks, h.regions⟩

lemma Fits.meet {todo : Todo} (h : s.Fits todo) (kept dropped : Stack) : s.Fits (todo.meet kept dropped) :=
  ⟨h.blocks, h.regions⟩

lemma Fits.land {todo : Todo} (h : s.Fits todo) (scope : Scope) (id : BlockId) (stack : Stack) :
    s.Fits (todo.land scope id stack) :=
  ⟨h.blocks, h.regions⟩

lemma Fits.capture {todo : Todo} (h : s.Fits todo) (id : BlockId) : s.Fits (todo.capture id) :=
  ⟨h.blocks, h.regions⟩

/-- A block of the graph, where there is one. -/
def Inside (s : Setting) (next : Option BlockId) : Prop :=
  ∀ id, next = some id → id < s.graph.size

lemma inside_none : s.Inside none := nofun

lemma inside_some {id : BlockId} (h : id < s.graph.size) : s.Inside (some id) := by
  rintro _ ⟨⟩
  exact h

lemma inside_or {a b : Option BlockId} (ha : s.Inside a) (hb : s.Inside b) : s.Inside (a.or b) := by
  intro id h
  rcases Option.or_eq_some_iff.mp h with h | ⟨-, h⟩
  · exact ha id h
  · exact hb id h

/-- What a part of a walk leaves behind when at most `load` blocks and regions are to stay open. -/
structure Leaves (s : Setting) (load : Nat) (p : Progress) (todo : Todo) : Prop where
  fits : s.Fits todo
  load_le : todo.load ≤ load
  inside : s.Inside p.next

/-- The contract of a walk with `fuel` steps to go. -/
def Contract (s : Setting) (fuel : Nat) (w : Walker) : Prop :=
  ∀ scope entering id stack todo, s.Fits todo → id < s.graph.size →
    (entering = true → scope.isInLoop id = true ∧ scope.stopsAt s.graph id = false) →
    2 * todo.load + (if entering then 0 else 1) < fuel →
    Meets InCode (w scope entering id stack) todo (s.Leaves (if entering then todo.load - 1 else todo.load))

/-! ### Tests -/

variable (hs : s.InBounds)
include hs

lemma IsBareTest.lt {todo : Todo} {id : BlockId} {stack : Stack} {cond : Condition} {taken fall : BlockId}
    {left : Stack} (h : s.IsBareTest todo id stack cond taken fall left) :
    taken < s.graph.size ∧ fall < s.graph.size := by
  obtain ⟨b, r, hr, hsuccs, -⟩ := h.runs
  have hlt := hs.closed.succs_lt hr.block
  rw [hsuccs] at hlt
  exact ⟨hlt taken (by simp), hlt fall (by simp)⟩

lemma Merges.lt {stack left : Stack} {todo : Todo} {fork fork' : Fork} (h : s.Merges stack todo fork fork' left) :
    fork'.taken < s.graph.size ∧ fork'.fall < s.graph.size := by
  obtain ⟨cond, ⟨htest, -⟩ | ⟨htest, -⟩⟩ := h.test
  · exact h.taken ▸ htest.lt hs
  · exact h.taken ▸ (htest.lt hs).symm

/-- Fewer open blocks than tests that may be taken in are enough. -/
lemma meets_mergeTests (scope : Scope) (stack : Stack) (n : Nat) {fork : Fork} (htaken : fork.taken < s.graph.size)
    (hfall : fork.fall < s.graph.size) {todo : Todo} (hfits : s.Fits todo) (hn : todo.blocks.length < n) :
    Meets InCode (s.mergeTests scope stack n fork) todo fun fork' todo' =>
      fork'.taken < s.graph.size ∧ fork'.fall < s.graph.size ∧ s.Fits todo' ∧ todo'.load ≤ todo.load := by
  induction n generalizing fork todo with
  | zero => omega
  | succ n ih =>
    refine meets_bind (meets_mergeNext? (fun _ h => h) scope stack (.inl hfall) todo) ?_
    rintro merged _ (⟨rfl, rfl⟩ | ⟨fork', left, rfl, rfl, hmerges⟩)
    · exact meets_pure ⟨htaken, hfall, hfits, le_rfl⟩
    · have hlen := length_visit hmerges.isOpen
      have hload := load_visit hmerges.isOpen
      obtain ⟨htaken', hfall'⟩ := hmerges.lt hs
      refine meets_mono (ih htaken' hfall' ((hfits.visit _).meet stack left) (by rw [blocks_meet]; omega)) ?_
      rintro fork'' todo' ⟨ht, hf, hfits', hle⟩
      rw [load_meet] at hle
      exact ⟨ht, hf, hfits', by omega⟩

omit hs in
/-- The contract, where the walk is not to enter a loop. -/
lemma Contract.walk {fuel : Nat} {w : Walker} (hw : s.Contract fuel w) {load : Nat} (hfuel : 2 * load + 1 < fuel)
    (scope : Scope) {id : BlockId} (hid : id < s.graph.size) (stack : Stack) {todo : Todo} (hfits : s.Fits todo)
    (hle : todo.load ≤ load) : Meets InCode (w scope false id stack) todo (s.Leaves load) := by
  refine meets_mono (hw scope false id stack todo hfits hid nofun (by simp; omega)) fun p todo' h => ?_
  exact ⟨h.fits, h.load_le.trans (by simpa using hle), h.inside⟩

/-! ### Branches -/

variable {fuel : Nat} {w : Walker} (hw : s.Contract fuel w) {load : Nat} (hfuel : 2 * load + 1 < fuel)

lemma inside_earliestJoin (todo : Todo) (scope : Scope) {a : BlockId} (ha : a < s.graph.size) (b : BlockId) :
    s.Inside (todo.earliestJoin s.graph scope a b) := fun _ hid =>
  forwardReach_lt hs.closed ha (List.mem_of_mem_filter (mem_of_leastBy? hid))

include hw hfuel

omit hs in
lemma meets_emitArm (scope : Scope) (stack : Stack) (cond : Expr) {arm join : BlockId} (harm : arm < s.graph.size)
    (hjoin : join < s.graph.size) {todo : Todo} (hfits : s.Fits todo) (hle : todo.load ≤ load) :
    Meets InCode (emitArm w scope stack cond arm join) todo (s.Leaves load) := by
  refine meets_bind (hw.walk hfuel _ harm stack hfits hle) fun body todo' h => ?_
  exact meets_modify (meets_pure ⟨(h.fits.noteStop _ _).meet _ _, h.load_le, inside_some hjoin⟩)

omit hs in
lemma meets_emitArms (scope : Scope) (stack : Stack) {fork : Fork} (htaken : fork.taken < s.graph.size)
    (hfall : fork.fall < s.graph.size) {join : Option BlockId} (hjoin : s.Inside join) {todo : Todo}
    (hfits : s.Fits todo) (hle : todo.load ≤ load) :
    Meets InCode (emitArms w scope stack fork join) todo (s.Leaves load) := by
  refine meets_bind (hw.walk hfuel _ hfall stack hfits hle) fun thenArm todo₁ h₁ => ?_
  refine meets_bind (hw.walk hfuel _ htaken stack h₁.fits h₁.load_le) fun elseArm todo₂ h₂ => ?_
  split
  · exact meets_modify (meets_pure ⟨h₂.fits.meet _ _, h₂.load_le, hjoin⟩)
  · refine meets_modify (meets_pure ⟨((h₂.fits.noteStop _ _).noteStop _ _).meet _ _, h₂.load_le, ?_⟩)
    exact inside_or hjoin (inside_or h₁.inside h₂.inside)

lemma meets_emitFork (scope : Scope) (stack : Stack) {fork : Fork} (htaken : fork.taken < s.graph.size)
    (hfall : fork.fall < s.graph.size) {todo : Todo} (hfits : s.Fits todo) (hle : todo.load ≤ load) :
    Meets InCode (s.emitFork w scope stack fork) todo (s.Leaves load) := by
  refine meets_bind (meets_jump? (fun _ h => h) scope fork.taken todo) ?_
  rintro takenJump todo ⟨rfl, -⟩
  refine meets_bind (meets_jump? (fun _ h => h) scope fork.fall todo) ?_
  rintro fallJump todo ⟨rfl, -⟩
  split
  · exact meets_modify (meets_pure ⟨(hfits.land _ _ _).land _ _ _, hle, inside_none⟩)
  · exact meets_modify (meets_pure ⟨hfits.land _ _ _, hle, inside_some hfall⟩)
  · exact meets_modify (meets_pure ⟨hfits.land _ _ _, hle, inside_some htaken⟩)
  · refine meets_get ?_
    dsimp only
    split_ifs
    · exact meets_emitArm hw hfuel scope stack _ hfall htaken hfits hle
    · exact meets_emitArm hw hfuel scope stack _ htaken hfall hfits hle
    · exact meets_emitArms hw hfuel scope stack htaken hfall (inside_earliestJoin hs _ scope hfall _) hfits hle

/-! ### Switches and loops -/

omit hs in
lemma meets_emitBodies (scope : Scope) (exit : Option BlockId) (stack : Stack) {targets : List BlockId}
    (htargets : ∀ target ∈ targets, target < s.graph.size) {todo : Todo} (hfits : s.Fits todo)
    (hle : todo.load ≤ load) :
    Meets InCode (emitBodies w scope exit stack targets) todo fun _ todo' => s.Fits todo' ∧ todo'.load ≤ load := by
  induction targets generalizing todo with
  | nil => exact meets_pure ⟨hfits, hle⟩
  | cons target rest ih =>
    obtain ⟨htarget, hrest⟩ := List.forall_mem_cons.mp htargets
    refine meets_bind (hw.walk hfuel _ htarget stack hfits hle) fun body todo' h => ?_
    refine meets_modify (meets_bind (ih hrest (h.fits.noteStop _ _) h.load_le) ?_)
    exact fun bodies todo'' h => meets_pure h

omit hw hfuel hs in
/-- A switch ends at its default or at a block that some search has found. -/
lemma inside_switchExit (todo : Todo) (scope : Scope) {edges : SwitchEdges} (targets : List BlockId)
    (hedges : ∀ n ∈ edges.targets, n < s.graph.size) : s.Inside (todo.switchExit s.graph scope edges targets) := by
  intro id hid
  rcases Option.or_eq_some_iff.mp hid with hid | ⟨-, hid⟩
  · have hdefault := (Option.filter_eq_some_iff.mp hid).1
    exact hedges id (by simp [SwitchEdges.targets, List.mem_eraseDups, hdefault])
  · exact List.mem_range.mp (List.mem_of_mem_filter (mem_of_leastBy? hid))

lemma meets_emitSwitch (scope : Scope) {id : BlockId} (hid : id < s.graph.size) (selector : Expr) (stack : Stack)
    {todo : Todo} (hfits : s.Fits todo) (hle : todo.load ≤ load) :
    Meets InCode (s.emitSwitch w scope id selector stack) todo (s.Leaves load) := by
  refine meets_bind (meets_block (.inl hid) todo) ?_
  rintro b _ ⟨rfl, hb⟩
  split
  · exact meets_throw ⟨nofun, nofun⟩
  · rename_i edges hedges
    have hlt := hs.closed.switch_lt hb edges hedges
    refine meets_get ?_
    split
    · exact meets_throw ⟨nofun, nofun⟩
    · refine meets_bind (meets_emitBodies hw hfuel scope _ stack ?_ hfits hle) fun bodies todo' h => ?_
      · exact fun target h => hlt target (mem_ascending.mp (List.mem_of_mem_filter h))
      · exact meets_pure ⟨h.1, h.2, inside_switchExit _ scope _ hlt⟩

omit hw hfuel in
lemma meets_loopTest? {loop : Loop} (hheader : loop.header < s.graph.size) (stack : Stack) (todo : Todo) :
    Meets InCode (s.loopTest? loop stack) todo fun test todo' => todo' = todo ∧
      ∀ cond entry left, test = some (cond, entry, left) → entry < s.graph.size := by
  refine meets_get ?_
  split
  · exact meets_pure ⟨rfl, nofun⟩
  · refine meets_bind (meets_bareTest? (fun _ h => h) (.inl hheader) stack todo) ?_
    rintro test todo ⟨rfl, htest⟩
    split
    · exact meets_pure ⟨rfl, nofun⟩
    · rename_i cond taken fall left
      obtain ⟨ht, hf⟩ := (htest cond taken fall left rfl).lt hs
      split_ifs
      · exact meets_pure ⟨rfl, by rintro _ _ _ ⟨⟩; exact ht⟩
      · exact meets_pure ⟨rfl, by rintro _ _ _ ⟨⟩; exact hf⟩
      · exact meets_pure ⟨rfl, nofun⟩

omit hw hfuel in
/-- A loop takes its header into the tree at the latest when its body is walked. -/
lemma meets_emitLoop (hw : s.Contract fuel w) (scope : Scope) {loop : Loop} (hloop : loop ∈ s.loops)
    (hheader : loop.header < s.graph.size) (hstop : scope.stopsAt s.graph loop.header = false) (stack : Stack)
    {todo : Todo} (hfits : s.Fits todo) (hopen : todo.isOpen loop.header = true) (hfuel : 2 * todo.load < fuel) :
    Meets InCode (s.emitLoop w scope loop stack) todo (s.Leaves (todo.load - 1)) := by
  have hload := load_visit hopen
  refine meets_bind (meets_loopTest? hs hheader stack todo) ?_
  rintro test todo ⟨rfl, htest⟩
  split
  · rename_i cond entry left
    have hfuel' : 2 * (todo.visit loop.header).load + 1 < fuel := by omega
    refine meets_modify ?_
    refine meets_bind (hw.walk hfuel' _ (htest cond entry left rfl) stack ((hfits.visit _).meet stack left) le_rfl)
      fun body todo' h => ?_
    exact meets_pure ⟨h.fits, h.load_le.trans (by omega), hs.exit_lt loop hloop⟩
  · -- the frame of the loop is around, so that the walk of its body is not to enter it again
    have hinner : (scope.enterLoop loop stack).isInLoop loop.header = true ∧
        (scope.enterLoop loop stack).stopsAt s.graph loop.header = false := by
      refine ⟨by simp [Scope.enterLoop, Scope.isInLoop, Frame.header], ?_⟩
      rw [Scope.stopsAt, Bool.or_eq_false_iff] at hstop ⊢
      exact ⟨rfl, hstop.2⟩
    refine meets_bind (hw _ true loop.header stack todo hfits hheader (fun _ => hinner) (by simpa using hfuel))
      fun body todo' h => ?_
    exact meets_pure ⟨h.fits, h.load_le, hs.exit_lt loop hloop⟩

/-! ### Protected ranges -/

omit hs in
lemma meets_emitHandlers (scope : Scope) {handlers : List Handler}
    (hhandlers : ∀ handler ∈ handlers, handler.block < s.graph.size) {continuation : Option BlockId}
    (hcont : s.Inside continuation) {todo : Todo} (hfits : s.Fits todo) (hle : todo.load ≤ load) :
    Meets InCode (s.emitHandlers w scope continuation handlers) todo fun r todo' =>
      s.Fits todo' ∧ todo'.load ≤ load ∧ s.Inside r.2 := by
  induction handlers generalizing continuation todo with
  | nil => exact meets_pure ⟨hfits, hle, hcont⟩
  | cons handler rest ih =>
    obtain ⟨hhandler, hrest⟩ := List.forall_mem_cons.mp hhandlers
    refine meets_bind (meets_isOpen (.inl hhandler) todo) ?_
    rintro _ todo ⟨rfl, rfl⟩
    split
    · exact ih hrest hcont hfits hle
    · refine meets_bind (meets_catchBinding (fun _ h => h) (.inl hhandler) todo) fun binding todo₁ hbinding => ?_
      have h₁ : s.Fits todo₁ ∧ todo₁.load = todo.load := by
        rcases hbinding with rfl | rfl
        · exact ⟨hfits, rfl⟩
        · exact ⟨hfits.capture _, rfl⟩
      refine meets_bind (hw.walk hfuel _ hhandler _ h₁.1 (h₁.2.le.trans hle)) fun body todo₂ h₂ => ?_
      refine meets_bind (ih hrest (inside_or hcont h₂.inside) h₂.fits h₂.load_le) fun r todo₃ h₃ => ?_
      exact meets_pure h₃

omit hfuel in
lemma meets_emitTry (scope : Scope) {region : Region} {id : BlockId} (hid : id < s.graph.size) (stack : Stack)
    {todo : Todo} (hfits : s.Fits todo) (hregion : region ∈ todo.regions) (hfuel : 2 * todo.load ≤ fuel) :
    Meets InCode (s.emitTry w scope region id stack) todo (s.Leaves (todo.load - 1)) := by
  have hload := load_enter hregion
  have hfuel' : 2 * (todo.load - 1) + 1 < fuel := by omega
  refine meets_modify ?_
  refine meets_bind (hw.walk hfuel' _ hid stack (hfits.enter region) (by omega)) fun body todo₁ h₁ => ?_
  have hcontinue : Meets InCode (body.next.mapM (s.throughGoto scope)) todo₁ fun next todo' =>
      s.Inside next ∧ s.Fits todo' ∧ todo'.load ≤ todo.load - 1 := by
    cases hnext : body.next with
    | none => exact meets_pure ⟨inside_none, h₁.fits, h₁.load_le⟩
    | some next =>
      have hlt := h₁.inside next hnext
      refine meets_map (meets_mono (meets_throughGoto scope (.inl hlt) todo₁) fun target todo' h => ?_)
      rcases h with ⟨rfl, rfl⟩ | ⟨hgoto, rfl⟩
      · exact ⟨inside_some hlt, h₁.fits, h₁.load_le⟩
      · obtain ⟨b, i, hb, -, -, hsuccs⟩ := hgoto.block
        have hvisit := load_visit hgoto.isOpen
        have hle := h₁.load_le
        exact ⟨inside_some (hs.closed.succs_lt hb target (by simp [hsuccs])), h₁.fits.visit next, by omega⟩
  refine meets_bind hcontinue fun continuation todo₂ h₂ => ?_
  have hhandlers := hs.handler_lt region (hfits.regions hregion)
  refine meets_bind (meets_emitHandlers hw hfuel' scope hhandlers h₂.1 h₂.2.1 h₂.2.2) fun r todo₃ h₃ => ?_
  exact meets_pure ⟨h₃.1, h₃.2.1, h₃.2.2⟩

/-! ### The walk -/

lemma meets_emitExit (scope : Scope) {id : BlockId} {b : Block} (hb : s.graph.block? id = some b)
    (recovery : Recovered) {todo : Todo} (hfits : s.Fits todo) (hlen : todo.blocks.length < s.graph.size)
    (hle : todo.load ≤ load) : Meets InCode (s.emitExit w scope b id recovery) todo (s.Leaves load) := by
  have hsuccs := hs.closed.succs_lt hb
  rw [emitExit]
  split
  · exact meets_emitSwitch hs hw hfuel scope (FlowGraph.lt_size_of_block? hb) _ _ hfits hle
  · rename_i cond taken fall _ htargets
    rw [htargets] at hsuccs
    refine meets_bind (meets_mergeTests hs scope recovery.stack s.graph.size (hsuccs taken (by simp))
      (hsuccs fall (by simp)) hfits hlen) ?_
    rintro fork todo₁ ⟨htaken, hfall, hfits₁, hle₁⟩
    exact meets_emitFork hs hw hfuel scope recovery.stack htaken hfall hfits₁ (hle₁.trans hle)
  · exact meets_pure ⟨hfits, hle, inside_none⟩
  · rename_i next htargets _
    rw [htargets] at hsuccs
    exact meets_pure ⟨hfits, hle, inside_some (hsuccs next (by simp))⟩
  · exact meets_throw (inCode_unexpectedSuccessors b.start)

omit hfuel in
lemma meets_emitBlock (scope : Scope) {id : BlockId} (hid : id < s.graph.size) (stack : Stack) {todo : Todo}
    (hfits : s.Fits todo) (hopen : todo.isOpen id = true) (hfuel : 2 * todo.load ≤ fuel) :
    Meets InCode (s.emitBlock w scope id stack) todo (s.Leaves (todo.load - 1)) := by
  have hload := load_visit hopen
  have hlen : (todo.visit id).blocks.length < s.graph.size := by
    have := length_visit hopen
    have := hfits.blocks
    omega
  have hfuel' : 2 * (todo.load - 1) + 1 < fuel := by omega
  refine meets_bind (meets_block (.inl hid) todo) ?_
  rintro b todo ⟨rfl, hb⟩
  refine meets_modify (meets_bind (meets_runBlock (fun _ h => h) hb stack _) ?_)
  rintro recovery _ ⟨rfl, -⟩
  refine meets_bind (meets_emitExit hs hw hfuel' scope hb recovery (hfits.visit id) hlen (by omega))
    fun tail todo' h => ?_
  exact meets_pure ⟨h.fits, h.load_le, h.inside⟩

omit hfuel in
/-- A construct takes a block or a region into the tree. -/
lemma meets_emitConstruct (scope : Scope) {id : BlockId} (hid : id < s.graph.size) (stack : Stack) {todo : Todo}
    (hfits : s.Fits todo) (hopen : todo.isOpen id = true) (hstop : scope.stopsAt s.graph id = false)
    (hfuel : 2 * todo.load ≤ fuel) (henter : scope.isInLoop id = true ∨ 2 * todo.load < fuel) :
    Meets InCode (s.emitConstruct w scope id stack) todo (s.Leaves (todo.load - 1)) := by
  refine meets_get ?_
  dsimp only
  split
  · rename_i region hregion
    exact meets_emitTry hs hw scope hid stack hfits (regionAt?_eq_some (Option.filter_eq_some_iff.mp hregion).1).1 hfuel
  · rename_i loop _ hloop
    split_ifs at hloop with hin
    have hheader : loop.header = id := by simpa using List.find?_some hloop
    subst hheader
    exact meets_emitLoop hs hw scope (List.mem_of_find?_eq_some hloop) hid hstop stack hfits hopen
      (henter.resolve_left hin)
  · exact meets_emitBlock hs hw scope hid stack hfits hopen hfuel

omit hw hfuel in
/-- **The contract of the walk.** It holds for any number of steps, by induction on that number. -/
lemma contract_walk (fuel : Nat) : s.Contract fuel (s.walk fuel) := by
  induction fuel with
  | zero => exact fun _ _ _ _ _ _ _ _ h => absurd h (Nat.not_lt_zero _)
  | succ fuel ih =>
    intro scope entering id stack todo hfits hid henter hfuel
    refine meets_bind (meets_block (.inl hid) todo) ?_
    rintro b todo ⟨rfl, -⟩
    have hjump : Meets InCode (s.entryJump? scope entering id) todo fun jump todo' =>
        todo' = todo ∧ (entering = true → jump = none) := by
      cases entering with
      | true => exact meets_pure ⟨rfl, fun _ => rfl⟩
      | false => exact meets_mono (meets_jump? (fun _ h => h) scope id todo) fun _ _ h => ⟨h.1, nofun⟩
    refine meets_bind hjump ?_
    rintro jump todo ⟨rfl, hjump⟩
    have hout (h : entering ≠ true) : (if entering then todo.load - 1 else todo.load) = todo.load := if_neg h
    split
    · refine meets_modify (meets_pure ⟨hfits.land _ _ _, (hout fun he => ?_).ge, inside_none⟩)
      cases hjump he
    refine meets_get ?_
    split
    · rename_i hstop
      refine meets_pure ⟨hfits, (hout fun he => ?_).ge, inside_some hid⟩
      rw [(henter he).2] at hstop
      cases hstop
    rename_i hstop
    split
    · exact meets_throw ⟨nofun, nofun⟩
    rename_i hopen
    have hopen : todo.isOpen id = true := by simpa using hopen
    have hload := load_visit hopen
    have hbound : todo.load - 1 ≤ if entering then todo.load - 1 else todo.load := by split <;> omega
    have henter' : scope.isInLoop id = true ∨ 2 * todo.load < fuel := by
      cases entering with
      | true => exact .inl (henter rfl).1
      | false => exact .inr (by simpa using hfuel)
    have hfuel' : 2 * todo.load ≤ fuel := by omega
    refine meets_bind (meets_emitConstruct hs ih scope hid stack hfits hopen (by simpa using hstop) hfuel' henter')
      fun first todo₁ h₁ => ?_
    split
    · exact meets_pure ⟨h₁.fits, h₁.load_le.trans hbound, h₁.inside⟩
    · rename_i next hnext
      have hrest : 2 * (todo.load - 1) + 1 < fuel := by omega
      refine meets_bind (ih.walk hrest scope (h₁.inside next hnext) _ h₁.fits h₁.load_le) fun rest todo₂ h₂ => ?_
      exact meets_pure ⟨h₂.fits, h₂.load_le.trans hbound, h₂.inside⟩

omit hw hfuel in
/-- The blocks from which a search over the whole method goes on are inside the graph. -/
lemma reachable_lt (hpos : 0 < s.graph.size) : ∀ id ∈ s.reachable, id < s.graph.size := by
  refine fun id hid => lt_of_mem_reach (fun a _ b hb => ?_) (by simpa using hpos) hid
  rcases List.mem_append.mp hb with hb | hb
  · exact hs.closed.successors_lt a b hb
  · obtain ⟨region, hregion, hb⟩ := List.mem_flatMap.mp hb
    obtain ⟨handler, hhandler, rfl⟩ := List.mem_map.mp hb
    exact hs.handler_lt region (List.mem_of_mem_filter hregion) handler hhandler

omit hw hfuel in
lemma meets_structured (hpos : 0 < s.graph.size) {todo : Todo} (hfits : s.Fits todo)
    (hregions : todo.regions.length ≤ s.regions.length) : Meets InCode s.structured todo fun _ _ => True := by
  have hload : 2 * (s.graph.size + s.regions.length) + 1 < 2 * (s.graph.size + s.regions.length) + 2 := by omega
  have hle : todo.load ≤ s.graph.size + s.regions.length := Nat.add_le_add hfits.blocks hregions
  refine meets_bind ((contract_walk hs _).walk hload {} hpos [] hfits hle) fun body todo' h => ?_
  refine meets_get ?_
  split
  · exact meets_throw ⟨nofun, nofun⟩
  · exact meets_pure trivial

end Setting

/-! ### Main statement -/

/-- The setting of a graph that is cut from instructions, with the regions of a table. -/
lemma inBounds_ofShape (ctx : Context) (insns : List Instruction) {g : FlowGraph} (hg : g.Closed)
    (rows : List HandlerRow) : (Setting.ofShape ctx ⟨insns, g, Region.ofTable g rows⟩).InBounds :=
  ⟨hg, fun _ h => (hg.loop_lt h).2.2, fun _ h => hg.handler_lt h⟩

/-- **The walk is total.** Whatever the instructions, the further leaders, the exception table and the context: the walk
does not use up its budget, which is twice the number of blocks and regions and two, and does not look for a block
outside the graph. What it reads on the way (edges of blocks, loops, handlers, what searches find) are blocks of the
graph too, and no search ends before it has found all that can be reached. -/
theorem structureBody_total (ctx : Context) (insns : List Instruction) (extra : List Nat) (rows : List HandlerRow) :
    let g := FlowGraph.withLeaders insns extra
    let shape : CodeShape := ⟨insns, g, Region.ofTable g rows⟩
    let s := Setting.ofShape ctx shape
    structureBody ctx shape ≠ .error .budget ∧ (∀ id, structureBody ctx shape ≠ .error (.missingBlock id)) ∧
    g.Closed ∧
    (∀ loop ∈ s.loops, loop.header < g.size ∧ (∀ b ∈ loop.body, b < g.size) ∧ ∀ id, loop.exit = some id → id < g.size) ∧
    (∀ region ∈ s.regions, ∀ handler ∈ region.handlers, handler.block < g.size) ∧
    (0 < g.size → ∀ id ∈ s.reachable, id < g.size) ∧
    ∀ (todo : Todo) (scope : Scope) (start id : BlockId), start < g.size →
      (id ∈ todo.forwardReach g scope start → id < g.size) ∧
      (id ∈ todo.forwardReach g scope start ↔
        todo.admits scope start = true ∧ Relation.ReflTransGen (Along (todo.forward g scope)) start id) := by
  intro g shape s
  have hg : g.Closed := closed_build insns extra true
  have hs : s.InBounds := inBounds_ofShape ctx insns hg rows
  have hwalk : ∀ e, structureBody ctx shape = .error e → InCode e := by
    intro e he
    rw [structureBody, structureWalk] at he
    split at he
    · cases he
    · rename_i hsize
      have hfits : s.Fits (Todo.ofShape shape) := ⟨List.length_range.le, List.Subset.refl _⟩
      have hmeets := Setting.meets_structured hs (Nat.pos_of_ne_zero hsize) hfits le_rfl
      rw [Meets] at hmeets
      split at hmeets
      · rename_i hrun
        simp [StateT.run, s, hrun, Except.map] at he
      · rename_i hrun
        simp only [StateT.run, s, hrun, Except.map, Except.error.injEq] at he
        exact he ▸ hmeets
  refine ⟨fun h => (hwalk _ h).1 rfl, fun id h => (hwalk _ h).2 id rfl, hg, fun loop h => hg.loop_lt h, hs.handler_lt,
    Setting.reachable_lt hs, fun todo scope start id hstart => ?_⟩
  exact ⟨forwardReach_lt hg hstart, mem_forwardReach_iff hg hstart⟩

end JvmLift.Structure
