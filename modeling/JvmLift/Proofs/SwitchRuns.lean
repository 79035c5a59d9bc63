import Mathlib
import JvmLift.Proofs.InstructionFlow
import JvmLift.Proofs.Layout
import JvmLift.Proofs.TextOrder

/-!
# Switches run like graphs

When code without handlers is written as a tree without strays, and control does not run out of it, the tree has the
runs of the graph: it visits the same blocks in the same order, for every value of every selector. The one condition on
switches is that a default which is not the last target stands apart from the other arms, because its arm is written
last.

Without loops, statements are performed in the order in which they are written. So there is code whose tree misses a run
whatever its statements are taken for: a default in front of a case, which falls through to it.
-/

namespace JvmLift.Structure

open Bytecode JvmLift.Flow Recovery Source Stmt

/-! ### Control stays in the graph -/

/-- A graph that control does not run out of: it has a first block, a block without edges ends with a return or a throw,
and the default of every multi-way branch leads to a block. -/
@[mk_iff]
structure CompleteGraph (g : FlowGraph) : Prop where
  first : 0 < g.size
  leaves : ∀ b ∈ g.blocks, b.succs = [] → b.switch = none →
    b.last?.any (fun i => i.role = .methodReturn ∨ i.role = .throw) = true
  defaults : ∀ b ∈ g.blocks, b.switch.all (·.default.isSome) = true

instance (g : FlowGraph) : Decidable (CompleteGraph g) :=
  decidable_of_iff' _ (completeGraph_iff g)

lemma edgesOf_exit {resolve : Nat → Option BlockId} {next : Option BlockId} {i : Instruction} (h : i.isExit = true) :
    edgesOf resolve next (some i) = ([], none) := by
  have hrole : i.isJump = false ∧ i.isConditional = false := by
    revert h
    unfold Instruction.isExit Instruction.isJump Instruction.isConditional
    cases i.role <;> decide
  simp [edgesOf, h, hrole.1, hrole.2]

lemma edgesOf_switch {resolve : Nat → Option BlockId} {next : Option BlockId} {i : Instruction}
    (h : i.isSwitch = true) : (edgesOf resolve next (some i)).1 = [] := by
  have hrole : i.isJump = false ∧ i.isConditional = false := by
    revert h
    unfold Instruction.isSwitch Instruction.isJump Instruction.isConditional
    cases i.role <;> decide
  simp only [edgesOf, h, hrole.1, hrole.2, Bool.false_eq_true, if_false, if_true]
  split_ifs <;> rfl

/-- A block with edges holds no instruction that leaves the method. -/
lemma isExit_eq_false {insns : List Instruction} (hinsns : Coherent insns) {extra : List Nat} {id : BlockId} {b : Block}
    (hb : (FlowGraph.withLeaders insns extra).block? id = some b) (hedges : b.succs ≠ [] ∨ b.switch.isSome = true) :
    ∀ i ∈ b.body, i.isExit = false := by
  intro i hi
  obtain ⟨front, back, hbody⟩ := List.append_of_mem hi
  cases back with
  | nil =>
    refine Bool.eq_false_iff.mpr fun hexit => ?_
    have hnone := FlowGraph.edges_withLeaders hb (i := i) (by simp [Block.last?, hbody])
    rw [edgesOf_exit hexit] at hnone
    obtain ⟨hsuccs, hswitch⟩ := Prod.mk.inj hnone
    simp [hsuccs, hswitch] at hedges
  | cons j back => exact (FlowGraph.plain_of_interior hinsns hb (j := j) ⟨front, back, by simp [hbody]⟩).2

/-- Without handlers, a block is recovered from all its instructions. -/
lemma Setting.Recovers.run {s : Setting} {id : BlockId} {r : Recovered} (h : s.Recovers id r)
    (hregions : s.regions = []) {insns : List Instruction} (hbody : (s.graph.block? id).map Block.body = some insns) :
    ∃ stack, run s.context insns stack = .ok r := by
  obtain ⟨b, stack, skip, hb, hrun, rfl | ⟨-, region, hregion, -⟩⟩ := h
  · rw [hb] at hbody
    cases hbody
    exact ⟨stack, hrun⟩
  · rw [hregions] at hregion
    cases hregion

lemma flowing_ofCode {ctx : Context} {code : Code} (hcode : code.handlers = [])
    (hcomplete : CompleteGraph (CodeShape.ofCode code).graph) :
    (Setting.ofShape ctx (CodeShape.ofCode code)).Flowing := by
  have hregions := regions_ofCode hcode
  have hrecovers {id : BlockId} {b : Block} {r : Recovered} (hb : (CodeShape.ofCode code).graph.block? id = some b)
      (hr : (Setting.ofShape ctx (CodeShape.ofCode code)).Recovers id r) : ∃ stack, run ctx b.body stack = .ok r :=
    hr.run hregions (congrArg (Option.map Block.body) hb)
  have hlast {id : BlockId} {b : Block} {edges : SwitchEdges} (hb : (CodeShape.ofCode code).graph.block? id = some b)
      (hswitch : b.switch = some edges) : ∃ i, b.last? = some i ∧ i.isSwitch = true := by
    exact isSwitch_of_edgesOf ((congrArg Prod.snd (block?_build hb).2.2.1).symm.trans hswitch)
  refine ⟨fun hb hsuccs hswitch hr => ?_, fun hb hedges hr => ?_, fun hb hswitch hr => ?_, fun hb hswitch => ?_⟩
  · obtain ⟨stack, hrun⟩ := hrecovers hb hr
    obtain ⟨i, hlast, hi⟩ :=
      (Option.any_eq_true _ _).mp (hcomplete.leaves _ (Array.mem_of_getElem? hb) hsuccs hswitch)
    obtain ⟨last, hlast, hexit⟩ := exit_of_run (by simpa using hi) hrun hlast
    exact List.any_eq_true.mpr ⟨last, List.mem_of_getLast? hlast, hexit⟩
  · obtain ⟨stack, hrun⟩ := hrecovers hb hr
    have hpassable := passable_of_run hrun (isExit_eq_false (coherent_decode _) hb hedges)
    exact List.any_eq_false.mpr fun stmt hstmt => by simp [hpassable stmt hstmt]
  · obtain ⟨stack, hrun⟩ := hrecovers hb hr
    obtain ⟨edges, hedges⟩ := Option.isSome_iff_exists.mp hswitch
    obtain ⟨i, hlast, hi⟩ := hlast hb hedges
    exact switch_of_run hi hrun hlast
  · obtain ⟨i, hlast, hi⟩ := hlast hb hswitch
    refine ⟨?_, by simpa [hswitch] using hcomplete.defaults _ (Array.mem_of_getElem? hb)⟩
    exact (congrArg Prod.fst (FlowGraph.edges_withLeaders hb hlast)).trans (edgesOf_switch hi)

/-! ### Main statement -/

/-- **Switches.** When code without handlers that control does not run out of is written as a tree without strays, and
the defaults of its multi-way branches stand apart, the tree is written for an outline with the runs of the graph: for
every value of every selector it visits the blocks that the graph visits, in the same order, and goes on behind a switch
where the graph goes on. What the outline says of its blocks is so. -/
theorem structureWalk_runs {ctx : Context} {code : Code} (hcode : code.handlers = [])
    (hcomplete : CompleteGraph (CodeShape.ofCode code).graph)
    (hapart : (Setting.ofShape ctx (CodeShape.ofCode code)).DefaultsApart) {body : List Stmt} {todo : Todo}
    (h : structureWalk ctx (CodeShape.ofCode code) = .ok (body, todo)) (hstrays : todo.strays = []) :
    ∃ o : List Part, written o = body ∧ ValidEach (Setting.ofShape ctx (CodeShape.ofCode code)) o ∧
      ∀ K, Part.runsEach o K = runsFrom (CodeShape.ofCode code).graph 0 := by
  have hs : (Setting.ofShape ctx (CodeShape.ofCode code)).Flowing := flowing_ofCode hcode hcomplete
  have hregions := regions_ofCode hcode
  obtain ⟨hsize, -⟩ | ⟨fuel, p, hwalk, rfl, -⟩ := structureWalk_ok h
  · exact absurd hcomplete.first (by omega)
  have hnodup : (Todo.ofShape (CodeShape.ofCode code)).blocks.Nodup := List.nodup_range
  obtain ⟨k, o, hlaid, hnext⟩ := Setting.lays_walk hs hapart fuel hwalk ⟨rfl, hregions, rfl⟩ hnodup hstrays
  have hfollows := hlaid.follows
  rw [(hnext rfl).1] at hfollows
  exact ⟨o, hlaid.stmts.symm, hlaid.valid, hfollows.runsEach_eq⟩

lemma defaultsApart_of_last {s : Setting} (h : ∀ b ∈ s.graph.blocks, b.switch.all (fun edges =>
    edges.default.all fun d => edges.targets.all (· ≤ d)) = true) : s.DefaultsApart := by
  intro id b edges d hb hswitch hd
  exact .inl (by simpa [hswitch, hd] using h b (Array.mem_of_getElem? hb))

/-- A loop around a switch whose first case falls through to the second:
`0: iload_0; ifeq 46`, `4: iload_1; tableswitch 0 to 1: 28, 31, default: 37`, `28: iinc 2, 1`, `31: iinc 3, 1; goto 40`,
`37: iinc 4, 1`, `40: iinc 0, -1; goto 0`, `46: return`. -/
def switchLoop : Code :=
  { bytes := [0x1a, 0x99, 0x00, 0x2d, 0x1b, 0xaa, 0x00, 0x00, 0, 0, 0, 0x20, 0, 0, 0, 0, 0, 0, 0, 1, 0, 0, 0, 0x17,
      0, 0, 0, 0x1a, 0x84, 0x02, 0x01, 0x84, 0x03, 0x01, 0xa7, 0x00, 0x06, 0x84, 0x04, 0x01, 0x84, 0x00, 0xff,
      0xa7, 0xff, 0xd5, 0xb1] }

/-- A loop that holds a switch with two cases and a default, and the first case falls through. -/
def loopsOverSwitch : List Stmt → Bool
  | .whileLoop _ (.switch _ (.case _ [.assign ..] (.case _ [.assign .., .breakOut]
      (.default [.assign .., .breakOut]))) :: _) :: _ => true
  | _ => false

/-- The theorem at a switch in a loop. -/
theorem switchLoop_runs :
    ∃ body todo, structureWalk numberedContext (CodeShape.ofCode switchLoop) = .ok (body, todo) ∧ todo.strays = [] ∧
      loopsOverSwitch body = true ∧ ∃ o : List Part, written o = body ∧
        ValidEach (Setting.ofShape numberedContext (CodeShape.ofCode switchLoop)) o ∧
        ∀ K, Part.runsEach o K = runsFrom (CodeShape.ofCode switchLoop).graph 0 := by
  obtain ⟨hcomplete, hlast, hwritten⟩ : CompleteGraph (CodeShape.ofCode switchLoop).graph ∧
      (∀ b ∈ (Setting.ofShape numberedContext (CodeShape.ofCode switchLoop)).graph.blocks, b.switch.all (fun edges =>
        edges.default.all fun d => edges.targets.all (· ≤ d)) = true) ∧
      (structureWalk numberedContext (CodeShape.ofCode switchLoop)).toOption.any
        (fun r => r.2.strays == [] && loopsOverSwitch r.1) = true := by decide +kernel
  obtain ⟨⟨body, todo⟩, hwalk, h⟩ := exists_ok_of_any hwritten
  simp only [Bool.and_eq_true, beq_iff_eq] at h
  exact ⟨body, todo, hwalk, h.1, h.2, structureWalk_runs rfl hcomplete (defaultsApart_of_last hlast) hwalk h.1⟩

/-! ### A default in front of a case -/

/-- Code whose default stands in front of a case and falls through to it:
`0: iload_0; lookupswitch 1: 23, default: 20`, `20: iinc 1, 1`, `23: iinc 2, 1; return`. -/
def defaultFirst : Code :=
  { bytes := [0x1a, 0xab, 0x00, 0x00, 0, 0, 0, 0x13, 0, 0, 0, 1, 0, 0, 0, 1, 0, 0, 0, 0x16, 0x84, 0x01, 0x01,
      0x84, 0x02, 0x01, 0xb1] }

def defaultFirstSetting : Setting :=
  Setting.ofShape numberedContext (CodeShape.ofCode defaultFirst)

/-- What the blocks are recovered as. -/
def defaultFirstStmts : BlockId → List Stmt
  | 1 => [increment 1 20]
  | 2 => [increment 2 23, .returnVoid]
  | _ => []

lemma recoversAs_defaultFirst : defaultFirstSetting.RecoversAs defaultFirstStmts := by
  obtain ⟨hsize, hbody₀, hbody₁, hbody₂⟩ : defaultFirstSetting.graph.size = 3 ∧
      (defaultFirstSetting.graph.block? 0).map Block.body =
        some [⟨0, ⟨0x1a⟩, .slot 0, 1⟩, ⟨1, ⟨0xab⟩, .switch ⟨20, [(1, 23)]⟩, 19⟩] ∧
      (defaultFirstSetting.graph.block? 1).map Block.body = some [⟨20, ⟨0x84⟩, .increment 1 1, 3⟩] ∧
      (defaultFirstSetting.graph.block? 2).map Block.body =
        some [⟨23, ⟨0x84⟩, .increment 2 1, 3⟩, ⟨26, ⟨0xb1⟩, .none, 1⟩] := by decide +kernel
  rintro (id : Nat) r hr
  have hlt : id < 3 := by
    obtain ⟨b, -, -, hb, -⟩ := hr
    exact hsize ▸ FlowGraph.lt_size_of_block? hb
  obtain rfl | rfl | rfl : id = 0 ∨ id = 1 ∨ id = 2 := by omega
  · obtain ⟨stack, hrun⟩ := hr.run rfl hbody₀
    cases hrun
    rfl
  · obtain ⟨stack, hrun⟩ := hr.run rfl hbody₁
    cases hrun
    rfl
  · obtain ⟨stack, hrun⟩ := hr.run rfl hbody₂
    cases hrun
    rfl

/-- With another selector than the key of the case, the code runs through its default to the case. -/
lemma runsFrom_defaultFirst :
    runsFrom (CodeShape.ofCode defaultFirst).graph 0 [.visit 0, .select 0 2, .visit 1, .visit 2] := by
  obtain ⟨hedges₀, hedges₁, hedges₂⟩ :
      ((CodeShape.ofCode defaultFirst).graph.block? 0).map (fun b => (b.succs, b.switch)) =
        some ([], some ⟨some 1, [(1, 2)]⟩) ∧
      ((CodeShape.ofCode defaultFirst).graph.block? 1).map (fun b => (b.succs, b.switch)) = some ([2], none) ∧
      ((CodeShape.ofCode defaultFirst).graph.block? 2).map (fun b => (b.succs, b.switch)) = some ([], none) := by
    decide +kernel
  obtain ⟨b₀, hb₀, h₀⟩ := Option.map_eq_some_iff.mp hedges₀
  obtain ⟨b₁, hb₁, h₁⟩ := Option.map_eq_some_iff.mp hedges₁
  obtain ⟨b₂, hb₂, h₂⟩ := Option.map_eq_some_iff.mp hedges₂
  obtain ⟨-, hswitch₀⟩ := Prod.mk.inj h₀
  obtain ⟨hsuccs₁, hswitch₁⟩ := Prod.mk.inj h₁
  rw [runsFrom_eq hb₀, onward_switch hswitch₀]
  refine ⟨rfl, 2, rfl, .inr ⟨by decide, 1, rfl, ?_⟩⟩
  rw [runsFrom_eq hb₁, onward_single hswitch₁ hsuccs₁]
  refine ⟨rfl, ?_⟩
  rw [runsFrom_eq hb₂]
  refine ⟨rfl, ?_⟩
  rw [onward_nowhere (Prod.mk.inj h₂).2 (Prod.mk.inj h₂).1]
  trivial

/-- Two statements before another one, of which the second is a return. -/
def returnsInMiddle : List Stmt → Bool
  | [_, .returnVoid, _] => true
  | _ => false

/-- The tree of `defaultFirst` misses a run of the code, whatever its statements are taken for: no statement of the case
is performed behind the default, which is written last. -/
theorem defaultFirst_not_run : CompleteGraph (CodeShape.ofCode defaultFirst).graph ∧
    ∃ body todo, structureWalk numberedContext (CodeShape.ofCode defaultFirst) = .ok (body, todo) ∧ todo.strays = [] ∧
      ¬ ∃ o : List Part, written o = body ∧ ValidEach defaultFirstSetting o ∧
        ∀ K, Part.runsEach o K = runsFrom (CodeShape.ofCode defaultFirst).graph 0 := by
  obtain ⟨hcomplete, hwritten⟩ : CompleteGraph (CodeShape.ofCode defaultFirst).graph ∧
      (structureWalk numberedContext (CodeShape.ofCode defaultFirst)).toOption.any
        (fun r => r.2.strays == [] && isStraightEach r.1 && returnsInMiddle (leavesEach r.1)) = true := by
    decide +kernel
  obtain ⟨⟨body, todo⟩, hwalk, h⟩ := exists_ok_of_any hwritten
  simp only [Bool.and_eq_true, beq_iff_eq] at h
  obtain ⟨⟨hstrays, hstraight⟩, hleaves⟩ := h
  refine ⟨hcomplete, body, todo, hwalk, hstrays, ?_⟩
  rintro ⟨o, rfl, hvalid, hruns⟩
  have hexits : (Exits.mk .halt .halt .halt).Within defaultFirstStmts [] := ⟨within_halt, within_halt, within_halt⟩
  have hwithin := Part.withinEach recoversAs_defaultFirst hvalid hstraight hexits
  rw [hruns] at hwithin
  have hsub : [increment 1 20, increment 2 23, .returnVoid].Sublist (leavesEach (written o) ++ []) :=
    hwithin _ runsFrom_defaultFirst
  rw [List.append_nil] at hsub
  generalize leavesEach (written o) = leaves at *
  unfold returnsInMiddle at hleaves
  split at hleaves
  · cases hsub.eq_of_length rfl
  · cases hleaves

end JvmLift.Structure
