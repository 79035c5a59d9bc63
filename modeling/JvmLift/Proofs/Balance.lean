import Mathlib
import JvmLift.Lift
import JvmLift.Proofs.InstructionFlow
import JvmLift.Proofs.StackShape

/-!
# Balanced code

Code is balanced if every instruction has a shape that the stack has there on all ways. Along these ways a symbolic run
never lacks a value. Lifting runs the code in another order, from the first byte to the last with one stack, and this
may lack a value: behind an instruction that control does not pass on from, the stack is what that instruction has left.
Where what is left has the shape that is needed on its top, lifting succeeds.
-/

namespace JvmLift.Recovery

open Bytecode JvmLift.Flow Relation

/-- Code that is reached from its first instruction, with a shape for every instruction that the machine accepts and
that is the same on all ways. -/
structure Balanced (insns : List Instruction) (shape : Instruction → Shape) : Prop where
  decoded : ∀ i ∈ insns, i.isUndecoded = false
  reached : ∀ {first}, insns.head? = some first → ∀ i ∈ insns, ReflTransGen (Passes insns) first i
  entry : ∀ {first}, insns.head? = some first → shape first = []
  accepted : ∀ i ∈ insns, (actOn? i (shape i)).isSome
  consistent : ∀ {i j}, Passes insns i j → actOn? i (shape i) = some (shape j)

/-- Where control does not pass from an instruction to the one behind it, the machine that has run the code up to there
has the shape that is needed on top of its stack. -/
def Resumes (insns : List Instruction) (shape : Instruction → Shape) : Prop :=
  ∀ k < insns.length, ∀ i ∈ insns[k]?, ∀ j ∈ insns[k + 1]?, ¬Passes insns i j →
    ∀ s ∈ actAll? (insns.take (k + 1)) [], shape j <+: s

instance (insns : List Instruction) (shape : Instruction → Shape) : Decidable (Resumes insns shape) :=
  inferInstanceAs (Decidable (∀ k < insns.length, _))

namespace Balanced

variable {insns : List Instruction} {shape : Instruction → Shape} (h : Balanced insns shape)
include h

/-- Along every way of control the machine accepts the instructions, and it has the shape of the next one. -/
lemma actAll?_of_isChain {i : Instruction} {path : List Instruction} (hi : i ∈ insns)
    (hchain : (i :: path).IsChain (Passes insns)) :
    ∃ s, actAll? (i :: path) (shape i) = some s ∧
      ∀ k j, (i :: path).getLast? = some k → Passes insns k j → s = shape j := by
  induction path generalizing i with
  | nil =>
    obtain ⟨s, hact⟩ := Option.isSome_iff_exists.mp (h.accepted i hi)
    refine ⟨s, by simp [actAll?, hact], fun k j hlast hpasses => ?_⟩
    obtain rfl : i = k := by simpa using hlast
    exact Option.some.inj (hact.symm.trans (h.consistent hpasses))
  | cons j path ih =>
    obtain ⟨hpasses, hchain⟩ := List.isChain_cons_cons.mp hchain
    obtain ⟨s, hall, hlast⟩ := ih hpasses.destination_mem hchain
    refine ⟨s, ?_, by simpa using hlast⟩
    rw [actAll?, h.consistent hpasses, Option.bind_some, hall]

/-- In the order of the code the machine accepts the instructions, and it has the shape of the next one on its top. -/
lemma actAll?_of_resumes (hresumes : Resumes insns shape) (k : Nat) :
    ∃ s, actAll? (insns.take k) [] = some s ∧ ∀ j, insns[k]? = some j → shape j <+: s := by
  induction k with
  | zero =>
    refine ⟨[], by simp [actAll?], fun j hj => ?_⟩
    rw [h.entry (by rw [List.head?_eq_getElem?, hj])]
  | succ k ih =>
    obtain ⟨s, hall, hprefix⟩ := ih
    cases hk : insns[k]? with
    | none =>
      have hle : insns.length ≤ k := List.getElem?_eq_none_iff.mp hk
      rw [List.take_of_length_le hle] at hall
      refine ⟨s, by rw [List.take_of_length_le (by omega), hall], fun j hj => ?_⟩
      rw [List.getElem?_eq_none_iff.mpr (by omega)] at hj
      cases hj
    | some i =>
      obtain ⟨below, rfl⟩ := hprefix i hk
      obtain ⟨after, hact⟩ := Option.isSome_iff_exists.mp (h.accepted i (List.mem_of_getElem? hk))
      have hall' : actAll? (insns.take (k + 1)) [] = some (after ++ below) := by
        rw [List.take_add_one, hk, actAll?_append, hall]
        simp [actAll?, actOn?_append hact]
      refine ⟨after ++ below, hall', fun j hj => ?_⟩
      by_cases hpasses : Passes insns i j
      · obtain rfl : after = shape j := Option.some.inj (hact.symm.trans (h.consistent hpasses))
        exact List.prefix_append _ _
      · exact hresumes k (List.getElem?_eq_some_iff.mp hk).1 i hk j hj hpasses _ hall'

end Balanced

/-! ### Lifting -/

lemma run_append (ctx : Context) (front back : List Instruction) (stack : Stack) :
    run ctx (front ++ back) stack = do
      let first ← run ctx front stack
      let second ← run ctx back first.stack
      return first.andThen second := by
  induction front generalizing stack with
  | nil =>
    simp only [List.nil_append, run, bind, Except.bind, pure, Except.pure]
    cases run ctx back stack with
    | error e => rfl
    | ok r => simp [Recovered.andThen]
  | cons i front ih =>
    simp only [List.cons_append, run, ih, bind, Except.bind, pure, Except.pure]
    cases step ctx i stack with
    | error e => rfl
    | ok r₁ =>
      simp only
      cases run ctx front r₁.stack with
      | error e => rfl
      | ok r₂ =>
        simp only [Recovered.andThen]
        cases run ctx back r₂.stack with
        | error e => rfl
        | ok r₃ => simp [Option.or_assoc]

end JvmLift.Recovery

namespace JvmLift

open Bytecode JvmLift.Flow Recovery

/-- Without handlers, the statements in code order are those of one run over all instructions. -/
lemma runBlocks_eq (ctx : Recovery.Context) (blocks : List Block) (stack : Stack) :
    Lift.runBlocks ctx [] blocks stack = (run ctx (blocks.map Block.body).flatten stack).map Recovered.stmts := by
  induction blocks generalizing stack with
  | nil => rfl
  | cons b blocks ih =>
    rw [List.map_cons, List.flatten_cons, run_append]
    simp only [Lift.runBlocks, List.contains_nil, Bool.false_eq_true, if_false, ih, bind, Except.bind, pure,
      Except.pure]
    cases run ctx b.body stack with
    | error e => rfl
    | ok r =>
      simp only
      cases run ctx (blocks.map Block.body).flatten r.stack <;> rfl

lemma flatStatements_eq {code : Code} (hrows : code.handlers = []) (ctx : Recovery.Context) :
    Lift.flatStatements ctx (CodeShape.ofCode code) = (run ctx (decode code.bytes) []).map Recovered.stmts := by
  have hcuts := FlowGraph.cuts_withLeaders (coherent_decode code.bytes) (tableLeaders code.handlers)
  have hregions : (CodeShape.ofCode code).regions = [] := by simp [CodeShape.ofCode, hrows, Region.ofTable]
  rw [Lift.flatStatements, hregions, List.flatMap_nil, runBlocks_eq]
  exact congrArg (fun insns => (run ctx insns []).map Recovered.stmts) hcuts.flatten_body

/-- A method without handlers is lifted if and only if a run over its code in code order succeeds. -/
lemma lift_eq {m : Method} {code : Code} (hcode : m.code = some code) (hrows : code.handlers = []) (pool : Option Pool)
    (options : Options) :
    ∃ finish : Recovered → Lifted, m.lift pool options =
      (run { method := m.name, names := Naming.ofMethod m, pool, options } (decode code.bytes) []).map finish := by
  simp only [Method.lift, hcode, flatStatements_eq hrows]
  cases run { method := m.name, names := Naming.ofMethod m, pool, options } (decode code.bytes) [] with
  | error e => exact ⟨fun _ => ⟨⟨"", "", []⟩, .flat⟩, rfl⟩
  | ok r => exact ⟨fun _ => _, rfl⟩

/-- **Balance.** Along every way of control through balanced code a symbolic run succeeds, and it has the shape of the
next instruction. In the order of the code it succeeds too, and the method is lifted, where every instruction that
control does not pass on to from the one before it finds the shape that it needs. -/
theorem lift_of_balanced {m : Method} {code : Code} (hcode : m.code = some code) (hrows : code.handlers = [])
    {shape : Instruction → Shape} (hbalanced : Balanced (decode code.bytes) shape) :
    (∀ (ctx : Recovery.Context) (path : List Instruction), path.head? = (decode code.bytes).head? →
      path.IsChain (Passes (decode code.bytes)) → ∃ r, run ctx path [] = .ok r ∧
        ∀ i j, path.getLast? = some i → Passes (decode code.bytes) i j → r.stack.shape = shape j) ∧
    (Resumes (decode code.bytes) shape → ∀ pool options, ∃ lifted, m.lift pool options = .ok lifted) := by
  have hencodable : ∀ i ∈ decode code.bytes, i.Encodable := fun i hi =>
    (tiles_decode code.bytes).encodable i hi (hbalanced.decoded i hi)
  constructor
  · intro ctx path hhead hchain
    cases path with
    | nil => exact ⟨{ stack := [] }, rfl, nofun⟩
    | cons first path =>
      have hfirst : (decode code.bytes).head? = some first := hhead.symm
      have hmem := List.mem_of_mem_head? hfirst
      obtain ⟨s, hall, hlast⟩ := hbalanced.actAll?_of_isChain hmem hchain
      rw [hbalanced.entry hfirst] at hall
      have hpath : ∀ i ∈ first :: path, i ∈ decode code.bytes :=
        hchain.induction (· ∈ decode code.bytes) _ (fun _ _ hpasses _ => hpasses.destination_mem) fun _ => hmem
      obtain ⟨r, hrun, rfl⟩ := run_of_actAll? (fun i hi => hencodable i (hpath i hi)) [] hall
      exact ⟨r, hrun, hlast⟩
  · intro hresumes pool options
    obtain ⟨s, hall, -⟩ := hbalanced.actAll?_of_resumes hresumes (decode code.bytes).length
    rw [List.take_length] at hall
    obtain ⟨finish, hlift⟩ := lift_eq hcode hrows pool options
    obtain ⟨r, hrun, -⟩ := run_of_actAll? hencodable [] hall
    exact ⟨finish r, by rw [hlift, hrun]; rfl⟩

/-! ### Two methods -/

/-- A check that shows code to be balanced where every instruction but the first is passed on to from an earlier one. -/
lemma balanced_of_check {insns : List Instruction} {shape : Instruction → Shape}
    (h : ∀ i ∈ insns, i.isUndecoded = false ∧ (actOn? i (shape i)).isSome ∧
      (∀ j ∈ insns, Passes insns i j → actOn? i (shape i) = some (shape j)) ∧
      (insns.head? = some i ∧ shape i = [] ∨
        insns.head? ≠ some i ∧ ∃ k ∈ insns, k.offset < i.offset ∧ Passes insns k i)) : Balanced insns shape where
  decoded := fun i hi => (h i hi).1
  reached := by
    intro first hfirst i hi
    induction hoffset : i.offset using Nat.strong_induction_on generalizing i with
    | h n ih =>
      rcases (h i hi).2.2.2 with ⟨hhead, -⟩ | ⟨-, k, hk, hlt, hpasses⟩
      · obtain rfl := Option.some.inj (hfirst.symm.trans hhead)
        exact .refl
      · exact (ih k.offset (hoffset ▸ hlt) k hk rfl).tail hpasses
  entry := by
    intro first hfirst
    rcases (h first (List.mem_of_mem_head? hfirst)).2.2.2 with ⟨-, hshape⟩ | ⟨hhead, -⟩
    · exact hshape
    · exact absurd hfirst hhead
  accepted := fun i hi => (h i hi).2.1
  consistent := fun hpasses => (h _ hpasses.source_mem).2.2.1 _ hpasses.destination_mem hpasses

/-- A static method `int m(int, int)` with the given code and no tables. -/
def methodOf (bytes : List UInt8) : Method :=
  ⟨"m", "(II)I", ⟨8⟩, some { bytes }⟩

/-- The shape that a list gives for the offset of an instruction. -/
def shapeAt (shapes : List Shape) (i : Instruction) : Shape :=
  shapes.getD i.offset []

/-- `return b + (a != 0 ? 1 : 2)`: while the choice is made, `b` waits on the stack. -/
def chosenSummand : List UInt8 :=
  [0x1b, 0x1a, 0x99, 0, 7, 0x04, 0xa7, 0, 4, 0x05, 0x60, 0xac]

def chosenSummandShape : Instruction → Shape :=
  shapeAt [[], [false], [false, false], [], [], [false], [false, false], [], [], [false], [false, false], [false]]

/-- The theorem at a method that leaves a value on the stack across a jump. -/
theorem chosenSummand_lifted :
    Balanced (decode chosenSummand) chosenSummandShape ∧ Resumes (decode chosenSummand) chosenSummandShape ∧
      ∀ pool options, ∃ lifted, (methodOf chosenSummand).lift pool options = .ok lifted := by
  have hbalanced : Balanced (decode chosenSummand) chosenSummandShape := balanced_of_check (by decide +kernel)
  have hresumes : Resumes (decode chosenSummand) chosenSummandShape := by decide +kernel
  exact ⟨hbalanced, hresumes, (lift_of_balanced (m := methodOf chosenSummand) rfl rfl hbalanced).2 hresumes⟩

/-- `return b` on both sides of a choice: `b` is on the stack before the choice, and each side returns it from there. -/
def returnTwice : List UInt8 :=
  [0x1b, 0x1a, 0x99, 0, 4, 0xac, 0xac]

def returnTwiceShape : Instruction → Shape :=
  shapeAt [[], [false], [false, false], [], [], [false], [false]]

/-- Balance alone is not enough. In code order the first return takes the value that is there for the second. -/
theorem returnTwice_not_lifted :
    Balanced (decode returnTwice) returnTwiceShape ∧
      ∀ pool options, (methodOf returnTwice).lift pool options = .error (.stackUnderflow "m" 6) := by
  refine ⟨balanced_of_check (by decide +kernel), fun pool options => ?_⟩
  have hdecode : decode returnTwice =
      [⟨0, ⟨0x1b⟩, .slot 1, 1⟩, ⟨1, ⟨0x1a⟩, .slot 0, 1⟩, ⟨2, ⟨0x99⟩, .branch 6, 3⟩, ⟨5, ⟨0xac⟩, .none, 1⟩,
        ⟨6, ⟨0xac⟩, .none, 1⟩] := by decide +kernel
  obtain ⟨finish, hlift⟩ := lift_eq (m := methodOf returnTwice) rfl rfl pool options
  rw [hlift, hdecode]
  rfl

end JvmLift
