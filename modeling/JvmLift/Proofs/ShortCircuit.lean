import Mathlib
import JvmLift.Proofs.Blocks
import JvmLift.Proofs.Conservation
import JvmLift.Proofs.TestCode
import JvmLift.Proofs.WalkCases

/-!
# Tests that share a target

A condition takes in the test behind it when that test is entered from here only and shares a target, and then the next
one, so that a whole chain of tests becomes one condition. It holds if and only if the machine, from the first block of
the chain on, comes to the shared target; otherwise the machine comes to the block behind the last test, and then the
negation of the condition holds. This is so for every chain in which the machine does no `long` arithmetic on converted
numbers alone.
-/

namespace JvmLift.Structure.Setting

open Bytecode JvmLift.Flow Recovery Source TestCode

variable {s : Setting} {scope : Scope} {todo todo' : Todo} {fork fork₁ fork' : Fork} {id first : BlockId}
  {chain captured : List BlockId} {I : Interpretation} {locals : UInt16 → Value}

/-! ### The machine on blocks -/

section Machine

variable (s : Setting) (I : Interpretation) (locals : UInt16 → Value)

/-- Where control goes from a block that does nothing but compute and test, if nothing is thrown. -/
def next? (id : BlockId) : Option BlockId := do
  let b ← s.graph.block? id
  match b.succs with
  | [taken, fall] => return if ← test? I locals s.context.pool b.body [] then taken else fall
  | _ => none

/-- What the tests of a chain come to from a block: the first block outside the chain, or nothing where one throws. -/
inductive ComesTo (chain : List BlockId) : BlockId → Option BlockId → Prop
  | throws {id : BlockId} (next : s.next? I locals id = none) : ComesTo chain id none
  | out {id target : BlockId} (next : s.next? I locals id = some target) (isOut : target ∉ chain) :
      ComesTo chain id (some target)
  | on {id target : BlockId} {result : Option BlockId} (next : s.next? I locals id = some target)
      (isIn : target ∈ chain) (rest : ComesTo chain target result) : ComesTo chain id result

/-- A block whose variables are the locals of the machine, and which does no `long` arithmetic on converted numbers
alone. -/
structure Computes (id : BlockId) (b : Block) : Prop where
  block : s.graph.block? id = some b
  names : ∀ i ∈ b.body, ∀ slot, i.operand = .slot slot → I.vars (s.context.names slot i.offset) = locals slot
  keepsWidths : keepsWidths I locals s.context.pool b.body [] = true

end Machine

section ComesTo

variable {target : BlockId} {result : Option BlockId}

lemma comesTo_of_none (hnext : s.next? I locals id = none) : s.ComesTo I locals chain id result ↔ result = none := by
  constructor
  · rintro (_ | ⟨hnext', -⟩ | ⟨hnext', -⟩)
    · rfl
    · cases hnext.symm.trans hnext'
    · cases hnext.symm.trans hnext'
  · rintro rfl
    exact .throws hnext

lemma comesTo_of_out (hnext : s.next? I locals id = some target) (hout : target ∉ chain) :
    s.ComesTo I locals chain id result ↔ result = some target := by
  constructor
  · rintro (hnext' | ⟨hnext', -⟩ | ⟨hnext', hin, -⟩)
    · cases hnext.symm.trans hnext'
    · cases hnext.symm.trans hnext'
      rfl
    · cases hnext.symm.trans hnext'
      exact absurd hin hout
  · rintro rfl
    exact .out hnext hout

lemma comesTo_of_in (hnext : s.next? I locals id = some target) (hin : target ∈ chain) :
    s.ComesTo I locals chain id result ↔ s.ComesTo I locals chain target result := by
  constructor
  · rintro (hnext' | ⟨hnext', hout⟩ | ⟨hnext', -, hrest⟩)
    · cases hnext.symm.trans hnext'
    · cases hnext.symm.trans hnext'
      exact absurd hin hout
    · cases hnext.symm.trans hnext'
      exact hrest
  · exact .on hnext hin

end ComesTo

/-- The block of a test goes where its condition tells. -/
lemma next?_tells {b : Block} (hb : s.Computes I locals id b) {taken fall : BlockId} (hsuccs : b.succs = [taken, fall])
    {r : Recovered} (hrun : run s.context b.body [] = .ok r) {c : Condition} (hexit : r.exit = some (.conditional c)) :
    s.next? I locals id = none ∨ ∃ t, s.next? I locals id = some (if t then taken else fall) ∧ I.Tells c t := by
  cases htest : test? I locals s.context.pool b.body [] with
  | none => exact .inl (by simp [next?, hb.block, hsuccs, htest])
  | some t =>
    obtain ⟨r', c', hrun', hexit', htells⟩ := run_tells htest hb.keepsWidths hb.names .nil
    obtain rfl : r = r' := Except.ok.inj (hrun.symm.trans hrun')
    obtain rfl : c = c' := by simpa using hexit.symm.trans hexit'
    exact .inr ⟨t, by simp [next?, hb.block, hsuccs, htest], htells⟩

/-! ### Chains -/

/-- The test behind a condition, on an empty stack, is taken into the condition. -/
structure Link (s : Setting) (captured : List BlockId) (fork fork' : Fork) : Prop where
  taken : fork'.taken = fork.taken
  test : ∃ b r c, s.graph.block? fork.fall = some b ∧ b.preds.length = 1 ∧
    (fork.fall ∉ captured → run s.context b.body [] = .ok r) ∧ r.exit = some (.conditional c) ∧
    ((b.succs = [fork.taken, fork'.fall] ∧ fork'.cond = .binary .or fork.cond c.taken) ∨
      (b.succs = [fork'.fall, fork.taken] ∧ fork'.cond = .binary .or fork.cond c.fallthrough))

/-- The tests of the blocks of a chain are taken into a condition, one after the other. -/
inductive Chained (s : Setting) (captured : List BlockId) : Fork → List BlockId → Fork → Prop
  | done (fork : Fork) : Chained s captured fork [] fork
  | next {fork fork₁ fork' : Fork} {chain : List BlockId} (head : s.Link captured fork fork₁)
      (rest : Chained s captured fork₁ chain fork') : Chained s captured fork (fork.fall :: chain) fork'

namespace Chained

lemma taken_eq (h : s.Chained captured fork chain fork') : fork'.taken = fork.taken := by
  induction h with
  | done => rfl
  | next head _ ih => exact ih.trans head.taken

/-- A condition that holds still holds when further tests are taken in. -/
lemma value?_true (h : s.Chained captured fork chain fork') (hcond : I.value? fork.cond = some (.bool true)) :
    I.value? fork'.cond = some (.bool true) := by
  induction h with
  | done => exact hcond
  | next head _ ih =>
    obtain ⟨b, r, c, -, -, -, -, ⟨-, hmerged⟩ | ⟨-, hmerged⟩⟩ := head.test
    all_goals exact ih (hmerged ▸ Interpretation.value?_or.mpr (.inl ⟨hcond, rfl⟩))

end Chained

/-! ### The way out of a chain -/

section Graph

variable {insns : List Instruction} {extra : List Nat} {afterExits : Bool}

lemma nodup_succs {b : Block} (hb : (FlowGraph.build insns extra afterExits).block? id = some b) : b.succs.Nodup := by
  obtain ⟨-, -, hedges, -⟩ := block?_build hb
  have hone (o : Option BlockId) : o.toList.Nodup := by cases o <;> simp
  unfold edgesOf at hedges
  split at hedges
  · exact (Prod.mk.inj hedges).1 ▸ hone _
  · split_ifs at hedges <;> rw [(Prod.mk.inj hedges).1] <;> first
      | exact .nil
      | exact hone _
      | exact nodup_eraseDups _

variable (hs : s.graph = FlowGraph.build insns extra afterExits)
include hs

/-- A test that is taken in is entered from one block only, and leads to the shared target and to another block. -/
lemma Link.edges (h : s.Link captured fork fork₁) {p : BlockId} (hp : fork.fall ∈ s.graph.successors p) :
    (∀ q, fork.fall ∈ s.graph.successors q → q = p) ∧ fork₁.taken ∈ s.graph.successors fork.fall ∧
      fork₁.fall ∈ s.graph.successors fork.fall ∧ fork₁.taken ≠ fork₁.fall := by
  obtain ⟨b, r, c, hb, hsingle, -, -, hsuccs⟩ := h.test
  have hnodup : b.succs.Nodup := nodup_succs (hs ▸ hb)
  obtain ⟨-, hpreds⟩ := FlowGraph.preds_of_block?_build (hs ▸ hb)
  obtain ⟨p', hp'⟩ := List.length_eq_one_iff.mp hsingle
  have hsole (q : BlockId) (hq : fork.fall ∈ s.graph.successors q) : q = p' := by
    simpa [hp'] using (hpreds q).mpr (hs ▸ hq)
  refine ⟨fun q hq => (hsole q hq).trans (hsole p hp).symm, ?_⟩
  rw [h.taken, FlowGraph.successors_of_block? hb, FlowGraph.mem_successors_iff, FlowGraph.mem_successors_iff]
  rcases hsuccs with ⟨hsuccs, -⟩ | ⟨hsuccs, -⟩
  · rw [hsuccs] at hnodup ⊢
    simpa using hnodup
  · rw [hsuccs] at hnodup ⊢
    simpa [eq_comm] using hnodup

/-- No block of a chain is the shared target, or the block behind the last test. -/
lemma Chained.outside (h : s.Chained captured fork chain fork') {p : BlockId}
    (hnodup : (p :: chain).Nodup) (htaken : fork.taken ∈ s.graph.successors p)
    (hfall : fork.fall ∈ s.graph.successors p) (hne : fork.taken ≠ fork.fall) :
    fork.taken ∉ chain ∧ fork'.fall ∉ chain ∧ fork.taken ≠ fork'.fall ∧
      ∃ last ∈ p :: chain, fork'.fall ∈ s.graph.successors last := by
  induction h generalizing p with
  | done fork => exact ⟨by simp, by simp, hne, p, by simp, hfall⟩
  | @next fork fork₁ fork' chain head rest ih =>
    obtain ⟨hsole, htaken₁, hfall₁, hne₁⟩ := head.edges hs hfall
    rw [List.nodup_cons] at hnodup
    obtain ⟨hout, hout', hne', last, hlast, hedge⟩ := ih hnodup.2 htaken₁ hfall₁ hne₁
    rw [head.taken] at hout hne'
    have hfirst : fork'.fall ≠ fork.fall := by
      -- the block before the last one would be the one before the first
      rintro heq
      exact hnodup.1 (hsole last (heq ▸ hedge) ▸ hlast)
    exact ⟨by simp [hne, hout], by simp [hfirst, hout'], hne', last, by simp [List.mem_cons.mp hlast], hedge⟩

end Graph

/-! ### Running a chain -/

/-- The machine goes from a block where a condition tells, unless something is thrown. -/
def Obeys (s : Setting) (I : Interpretation) (locals : UInt16 → Value) (id : BlockId) (fork : Fork) : Prop :=
  s.next? I locals id = none ∨
    ∃ t, s.next? I locals id = some (if t then fork.taken else fork.fall) ∧ I.value? fork.cond = some (.bool t)

/-- **Steps.** Where a condition does not hold, the one with the next test is that of the next test, whichever of its
edges leads to the shared target. -/
lemma Link.obeys (h : s.Link captured fork fork₁) (hcaptured : fork.fall ∉ captured) {b : Block}
    (hb : s.Computes I locals fork.fall b) (hcond : I.value? fork.cond = some (.bool false)) :
    s.Obeys I locals fork.fall fork₁ := by
  obtain ⟨b', r, c, hb', -, hrun, hexit, hsuccs⟩ := h.test
  obtain rfl : b = b' := Option.some.inj (hb.block.symm.trans hb')
  rw [Obeys, h.taken]
  rcases hsuccs with ⟨hsuccs, hmerged⟩ | ⟨hsuccs, hmerged⟩
  · refine (next?_tells hb hsuccs (hrun hcaptured) hexit).imp_right fun ⟨t, hnext, htells⟩ => ⟨t, hnext, ?_⟩
    exact hmerged ▸ Interpretation.value?_or.mpr (.inr ⟨hcond, htells.1⟩)
  · refine (next?_tells hb hsuccs (hrun hcaptured) hexit).imp_right fun ⟨t, hnext, htells⟩ => ⟨!t, ?_, ?_⟩
    · rw [hnext]
      cases t <;> rfl
    · exact hmerged ▸ Interpretation.value?_or.mpr (.inr ⟨hcond, htells.2⟩)

/-- **Runs.** From a block that goes where a condition tells, the machine goes where the condition with all the tests of
the chain tells. -/
lemma Chained.comesTo {fs : List BlockId} (h : s.Chained captured fork fs fork') (hchain : ∀ id ∈ fs, id ∈ chain)
    (htaken : fork.taken ∉ chain) (hfall : fork'.fall ∉ chain)
    (hcomputes : ∀ id ∈ fs, id ∉ captured ∧ ∃ b, s.Computes I locals id b) (hid : s.Obeys I locals id fork) :
    (∃ result, s.ComesTo I locals chain id result) ∧
    ∀ target, s.ComesTo I locals chain id (some target) →
      ∃ t, target = (if t then fork.taken else fork'.fall) ∧ I.value? fork'.cond = some (.bool t) := by
  induction h generalizing id with
  | done fork =>
    obtain hnone | ⟨t, hnext, hcond⟩ := hid
    · simp [comesTo_of_none hnone]
    · have hout : (if t then fork.taken else fork.fall) ∉ chain := by cases t <;> simpa
      simp only [comesTo_of_out hnext hout, Option.some.injEq]
      exact ⟨⟨_, rfl⟩, fun target heq => ⟨t, heq, hcond⟩⟩
  | @next fork fork₁ fork' fs head rest ih =>
    obtain hnone | ⟨_ | _, hnext, hcond⟩ := hid
    · simp [comesTo_of_none hnone]
    · -- the machine goes on with the next test, and the condition is that of the test
      have hin : fork.fall ∈ chain := hchain _ (by simp)
      obtain ⟨hcaptured, b, hb⟩ := hcomputes fork.fall (by simp)
      simp only [comesTo_of_in hnext hin, ← head.taken]
      exact ih (fun id hid => hchain id (by simp [hid])) (head.taken ▸ htaken) hfall
        (fun id hid => hcomputes id (by simp [hid])) (head.obeys hcaptured hb hcond)
    · -- the machine comes to the shared target, and no further test matters
      have htrue := (Chained.next head rest).value?_true hcond
      simp only [comesTo_of_out hnext htaken, Option.some.injEq]
      exact ⟨⟨_, rfl⟩, fun target heq => ⟨true, heq, htrue⟩⟩

/-! ### What is taken in -/

/-- A test is taken in only if it is entered from one block. -/
lemma yields_single_mergeNext? (scope : Scope) (stack : Stack) (fork : Fork) (todo : Todo) :
    Yields (s.mergeNext? scope stack fork) todo fun merged _ => ∀ fork', merged = some fork' →
      ∃ b, s.graph.block? fork.fall = some b ∧ b.preds.length = 1 := by
  refine meets_bind (meets_block (.inr trivial) todo) ?_
  rintro b todo ⟨rfl, hb⟩
  refine meets_bind (yields_run _ todo) fun plain todo₁ _ => ?_
  split
  · exact meets_pure nofun
  · rename_i hcond
    have hsingle : b.preds.length = 1 := by simp_all
    exact meets_mono (yields_run _ todo₁) fun merged _ _ fork' _ => ⟨b, hb, hsingle⟩

lemma Merges.link {left : Stack} (h : s.Merges [] todo fork fork₁ left) {b : Block}
    (hb : s.graph.block? fork.fall = some b) (hsingle : b.preds.length = 1) : s.Link todo.captured fork fork₁ := by
  have hrun {c : Condition} {taken fall : BlockId} (htest : s.IsBareTest todo fork.fall [] c taken fall left) :
      ∃ r, b.succs = [taken, fall] ∧ (fork.fall ∉ todo.captured → run s.context b.body [] = .ok r) ∧
        r.exit = some (.conditional c) := by
    obtain ⟨b', r, hruns, hsuccs, hexit, -, -⟩ := htest.runs
    obtain rfl : b = b' := Option.some.inj (hb.symm.trans hruns.block)
    exact ⟨r, hsuccs, fun hcaptured => by simpa [hcaptured] using hruns.run, hexit⟩
  obtain ⟨c, ⟨htest, hcond⟩ | ⟨htest, hcond⟩⟩ := h.test
  · obtain ⟨r, hsuccs, hrun, hexit⟩ := hrun htest
    exact ⟨h.taken, b, r, c, hb, hsingle, hrun, hexit, .inl ⟨hsuccs, hcond⟩⟩
  · obtain ⟨r, hsuccs, hrun, hexit⟩ := hrun htest
    exact ⟨h.taken, b, r, c, hb, hsingle, hrun, hexit, .inr ⟨hsuccs, hcond⟩⟩

lemma yields_chained_mergeTests (scope : Scope) (n : Nat) (fork : Fork) (todo : Todo) :
    Yields (s.mergeTests scope [] n fork) todo fun fork' todo' =>
      ∃ chain, s.Chained todo.captured fork chain fork' ∧ todo.blocks.Perm (chain ++ todo'.blocks) := by
  induction n generalizing fork todo with
  | zero => exact yields_throw
  | succ n ih =>
    refine meets_bind (yields_run _ todo) fun merged todo₁ hmerged => ?_
    have hsingle := of_yields (yields_single_mergeNext? scope [] fork todo) hmerged
    obtain ⟨rfl, rfl⟩ | ⟨fork₁, left, rfl, rfl, hmerges⟩ :=
      of_yields (meets_mergeNext? (fun _ _ => trivial) scope [] (.inr trivial) todo) hmerged
    · exact meets_pure ⟨[], .done fork, .rfl⟩
    · obtain ⟨b, hb, hsingle⟩ := hsingle fork₁ rfl
      refine meets_mono (ih fork₁ _) ?_
      rintro fork' todo' ⟨chain, hchain, hperm⟩
      have hopen : fork.fall ∈ todo.blocks := by simpa [Todo.isOpen] using hmerges.isOpen
      exact ⟨fork.fall :: chain, .next (hmerges.link hb hsingle) hchain,
        (List.perm_cons_erase hopen).trans (hperm.cons _)⟩

/-- The blocks that have been taken into the tree from one point of a walk to a later one. -/
def takenBetween (todo todo' : Todo) : List BlockId :=
  todo.blocks.filter fun id => !todo'.isOpen id

lemma mem_takenBetween (hnodup : todo.blocks.Nodup) (hperm : todo.blocks.Perm (chain ++ todo'.blocks)) :
    id ∈ takenBetween todo todo' ↔ id ∈ chain := by
  have hdisjoint := List.disjoint_of_nodup_append (hperm.nodup_iff.mp hnodup)
  simp only [takenBetween, Todo.isOpen, List.mem_filter, hperm.mem_iff, List.mem_append, Bool.not_eq_true',
    List.contains_eq_mem, decide_eq_false_iff_not]
  constructor
  · rintro ⟨hmem, hout⟩
    exact hmem.resolve_right hout
  · exact fun hmem => ⟨.inl hmem, hdisjoint hmem⟩

/-- **Short circuits.** A condition that is recovered for a chain of tests tells where the machine goes from the first
block of the chain: it holds if and only if the machine comes to the target that the tests share, and its negation holds
if and only if the machine comes to the block behind the last test. The machine comes to one of the two unless a test
throws. -/
theorem mergeTests_exact {insns : List Instruction} {extra : List Nat} {afterExits : Bool}
    (hs : s.graph = FlowGraph.build insns extra afterExits) {b : Block} (hb : s.Computes I locals first b)
    {taken fall : BlockId} (hsuccs : b.succs = [taken, fall]) {c : Condition}
    (hrun : run s.context b.body [] = .ok { stack := [], exit := some (.conditional c) })
    (hopen : todo.blocks.Nodup) (hfirst : todo.isOpen first = false) {n : Nat}
    (hmerge : s.mergeTests scope [] n ⟨c.taken, taken, fall⟩ todo = .ok (fork, todo'))
    (hchain : ∀ id ∈ takenBetween todo todo', id ∉ todo.captured ∧ ∃ b, s.Computes I locals id b) :
    fork.taken = taken ∧ fork.fall ≠ taken ∧
    (∃ result, s.ComesTo I locals (takenBetween todo todo') first result) ∧
    ∀ target, s.ComesTo I locals (takenBetween todo todo') first (some target) →
      (target = fork.taken ∨ target = fork.fall) ∧
      I.value? fork.cond = some (.bool (target = fork.taken)) ∧
      I.value? fork.cond.negate = some (.bool (target = fork.fall)) := by
  obtain ⟨chain, hchained, hperm⟩ := of_yields (yields_chained_mergeTests scope n ⟨c.taken, taken, fall⟩ todo) hmerge
  have hmem (id : BlockId) : id ∈ takenBetween todo todo' ↔ id ∈ chain := mem_takenBetween hopen hperm
  have hedges (id : BlockId) (hid : id ∈ b.succs) : id ∈ s.graph.successors first := by
    rw [FlowGraph.successors_of_block? hb.block, FlowGraph.mem_successors_iff]
    exact .inl hid
  have hnodup : (first :: chain).Nodup := by
    refine List.nodup_cons.mpr ⟨fun hin => ?_, (List.nodup_append.mp (hperm.nodup_iff.mp hopen)).1⟩
    simp [Todo.isOpen, hperm.mem_iff, hin] at hfirst
  have hne : taken ≠ fall := by
    have hpair : b.succs.Nodup := nodup_succs (hs ▸ hb.block)
    simpa [hsuccs] using hpair
  obtain ⟨htaken, hfall, hne', -⟩ :=
    hchained.outside hs hnodup (hedges taken (by simp [hsuccs])) (hedges fall (by simp [hsuccs])) hne
  have hobeys : s.Obeys I locals first ⟨c.taken, taken, fall⟩ :=
    (next?_tells hb hsuccs hrun rfl).imp_right (.imp fun _ => .imp_right And.left)
  obtain ⟨hresult, hcomes⟩ := hchained.comesTo (fun id hid => (hmem id).mpr hid) (mt (hmem _).mp htaken)
    (mt (hmem _).mp hfall) (fun id hid => hchain id ((hmem id).mpr hid)) hobeys
  refine ⟨hchained.taken_eq, hne'.symm, hresult, fun target htarget => ?_⟩
  obtain ⟨t, rfl, hcond⟩ := hcomes target htarget
  have hnegate := Interpretation.value?_negate hcond
  rw [hchained.taken_eq, hcond, hnegate]
  cases t <;> simp [hne', hne'.symm]

/-! ### Two chains -/

/-- Three numbers in the variables of three slots. -/
def threeInts (a b c : Int32) : Interpretation where
  vars name := .int (if name = "v0" then a else if name = "v1" then b else c)
  strings _ := .ref none
  gives _ _ := none

/-- The slots of the variables of an interpretation. -/
def numberedLocals (I : Interpretation) (slot : UInt16) : Value :=
  I.vars (Naming.numbered slot 0)

/-- Code with the condition `a > 0 || b < 0 || c != 0`:
`0: iload_0; ifgt 12`, `4: iload_1; iflt 12`, `8: iload_2; ifeq 14`, `12: iconst_1; ireturn`,
`14: iconst_0; ireturn`. -/
def threeTests : Code where
  maxStack := 1
  maxLocals := 3
  bytes := [0x1a, 0x9d, 0x00, 0x0b, 0x1b, 0x9b, 0x00, 0x07, 0x1c, 0x99, 0x00, 0x05, 0x04, 0xac, 0x03, 0xac]
  handlers := []

/-- The first two tests share their target by the edges on which they jump, the third one by the other edge. With −1, 3
and 7 the machine comes there by the third test. -/
theorem mergeTests_exact_threeTests :
    let s := Setting.ofShape numberedContext (CodeShape.ofCode threeTests)
    let todo := (Todo.ofShape (CodeShape.ofCode threeTests)).visit 0
    let I := threeInts (-1) 3 7
    ∃ fork todo', s.mergeTests {} [] s.graph.size ⟨.binary .gt (.var "v0") (.int 0), 3, 1⟩ todo = .ok (fork, todo') ∧
      takenBetween todo todo' = [1, 2] ∧ s.ComesTo I (numberedLocals I) [1, 2] 0 (some fork.taken) ∧
      I.value? fork.cond = some (.bool true) ∧ I.value? fork.cond.negate = some (.bool false) := by
  intro s todo I
  obtain ⟨hmerged, hblock, hkeeps, hnext, hopen, hvisited⟩ :
      (s.mergeTests {} [] s.graph.size ⟨.binary .gt (.var "v0") (.int 0), 3, 1⟩ todo).toOption.any
        (fun r => r.1.taken == 3 && r.1.fall == 4 && takenBetween todo r.2 == [1, 2]) = true ∧
      s.graph.block? 0 =
        some ⟨0, 0, 4, [⟨0, ⟨0x1a⟩, .slot 0, 1⟩, ⟨1, ⟨0x9d⟩, .branch 12, 3⟩], [3, 1], none, []⟩ ∧
      (∀ id ∈ [1, 2], ∃ b ∈ s.graph.block? id, keepsWidths I (numberedLocals I) none b.body [] = true) ∧
      (s.next? I (numberedLocals I) 0 = some 1 ∧ s.next? I (numberedLocals I) 1 = some 2 ∧
        s.next? I (numberedLocals I) 2 = some 3) ∧
      todo.blocks.Nodup ∧ todo.isOpen 0 = false := by decide +kernel
  obtain ⟨⟨fork, todo'⟩, hmerge, h⟩ := exists_ok_of_any hmerged
  simp only [Bool.and_eq_true, beq_iff_eq] at h
  obtain ⟨⟨htaken, hfall⟩, hbetween⟩ := h
  have hfirst : s.Computes I (numberedLocals I) 0
      ⟨0, 0, 4, [⟨0, ⟨0x1a⟩, .slot 0, 1⟩, ⟨1, ⟨0x9d⟩, .branch 12, 3⟩], [3, 1], none, []⟩ :=
    ⟨hblock, fun _ _ _ _ => rfl, by decide +kernel⟩
  have hrun : run s.context [⟨0, ⟨0x1a⟩, .slot 0, 1⟩, ⟨1, ⟨0x9d⟩, .branch 12, 3⟩] [] =
      .ok { stack := [], exit := some (.conditional
        ⟨.binary .gt (.var "v0") (.int 0), .binary .le (.var "v0") (.int 0)⟩) } := rfl
  have hchain : ∀ id ∈ takenBetween todo todo', id ∉ todo.captured ∧ ∃ b, s.Computes I (numberedLocals I) id b := by
    intro id hid
    obtain ⟨b, hb, hb'⟩ := hkeeps id (hbetween ▸ hid)
    exact ⟨nofun, b, hb, fun _ _ _ _ => rfl, hb'⟩
  have hcomes : s.ComesTo I (numberedLocals I) [1, 2] 0 (some 3) :=
    .on hnext.1 (by simp) (.on hnext.2.1 (by simp) (.out hnext.2.2 (by simp)))
  obtain ⟨-, -, -, htells⟩ := mergeTests_exact rfl hfirst rfl hrun hopen hvisited hmerge hchain
  obtain ⟨-, hcond, hnegate⟩ := htells 3 (hbetween ▸ hcomes)
  refine ⟨fork, todo', hmerge, hbetween, htaken ▸ hcomes, ?_, ?_⟩
  · simpa [htaken] using hcond
  · simpa [hfall] using hnegate

/-- Code with the condition `(long) a * (long) b > 0L && c != 0`:
`0: iload_0; i2l; iload_1; i2l; lmul; lconst_0; lcmp; ifle 16`, `10: iload_2; ifeq 16`, `14: iconst_1; ireturn`,
`16: iconst_0; ireturn`. -/
def longProduct : Code where
  maxStack := 4
  maxLocals := 3
  bytes := [0x1a, 0x85, 0x1b, 0x85, 0x69, 0x09, 0x94, 0x9e, 0x00, 0x09, 0x1c, 0x99, 0x00, 0x05, 0x04, 0xac, 0x03, 0xac]
  handlers := []

/-- The recovered condition multiplies `int` numbers. With 65536 twice and 1, the machine's product is positive, so that
the machine comes to the block behind the last test; the product in the condition is zero, and the condition holds. -/
theorem mergeTests_inexact :
    let s := Setting.ofShape numberedContext (CodeShape.ofCode longProduct)
    let todo := (Todo.ofShape (CodeShape.ofCode longProduct)).visit 0
    let I := threeInts 65536 65536 1
    let product : Expr := .binary .mul (.var "v0") (.var "v1")
    (∃ b, s.graph.block? 0 = some b ∧ b.succs = [3, 1] ∧ run s.context b.body [] = .ok
      { stack := [],
        exit := some (.conditional ⟨.binary .le product (.long 0), .binary .gt product (.long 0)⟩) }) ∧
    ∃ fork todo', s.mergeTests {} [] s.graph.size ⟨.binary .le product (.long 0), 3, 1⟩ todo = .ok (fork, todo') ∧
      takenBetween todo todo' = [1] ∧ s.ComesTo I (numberedLocals I) [1] 0 (some fork.fall) ∧ fork.fall ≠ fork.taken ∧
      I.value? fork.cond = some (.bool true) ∧ I.value? fork.cond.negate = some (.bool false) := by
  intro s todo I product
  obtain ⟨hmerged, hnext, hfirst⟩ :
      (s.mergeTests {} [] s.graph.size ⟨.binary .le product (.long 0), 3, 1⟩ todo).toOption.any
        (fun r => r.1.taken == 3 && r.1.fall == 2 && takenBetween todo r.2 == [1] &&
          I.value? r.1.cond == some (.bool true)) = true ∧
      (s.next? I (numberedLocals I) 0 = some 1 ∧ s.next? I (numberedLocals I) 1 = some 2) ∧
      s.graph.block? 0 = some
        ⟨0, 0, 10, [⟨0, ⟨0x1a⟩, .slot 0, 1⟩, ⟨1, ⟨0x85⟩, .none, 1⟩, ⟨2, ⟨0x1b⟩, .slot 1, 1⟩, ⟨3, ⟨0x85⟩, .none, 1⟩,
          ⟨4, ⟨0x69⟩, .none, 1⟩, ⟨5, ⟨0x09⟩, .none, 1⟩, ⟨6, ⟨0x94⟩, .none, 1⟩, ⟨7, ⟨0x9e⟩, .branch 16, 3⟩],
          [3, 1], none, []⟩ := by decide +kernel
  obtain ⟨⟨fork, todo'⟩, hmerge, h⟩ := exists_ok_of_any hmerged
  simp only [Bool.and_eq_true, beq_iff_eq] at h
  obtain ⟨⟨⟨htaken, hfall⟩, hbetween⟩, hcond⟩ := h
  refine ⟨⟨_, hfirst, rfl, rfl⟩, fork, todo', hmerge, hbetween, ?_, by simp [htaken, hfall], hcond,
    Interpretation.value?_negate hcond⟩
  exact hfall ▸ .on hnext.1 (by simp) (.out hnext.2 (by simp))

end JvmLift.Structure.Setting
