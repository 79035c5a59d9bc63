import Mathlib
import JvmLift.Proofs.Balance
import JvmLift.Proofs.Underneath

/-!
# Ways through code and the order of the code

A run over instructions takes no notice of what lies below the values that it takes, as long as no constructor call looks
for the object that it makes. So two runs over the same instructions recover the same, if one starts with the top of the
stack of the other. A way of control through code skips instructions that a run in code order goes through; where it
jumps, the two runs have to meet with stacks of this kind.
-/

namespace JvmLift.Recovery

open Bytecode JvmLift.Flow Source

variable {ctx : Context} {i : Instruction} {stack : Stack} {r : Recovered}

/-! ### Deeper stacks -/

/-- Whether an instruction refers to the pool. -/
def usesPool (i : Instruction) : Bool :=
  match effectOf i.opcode with
  | .pooled _ => true
  | _ => false

lemma step_over (hpool : usesPool i = false) (h : step ctx i stack = .ok r) (below : Stack) :
    step ctx i (stack ++ below) = .ok (r.above below) :=
  step_above h (.inl fun use huse => by simp [usesPool, huse] at hpool)

lemma run_over {insns : List Instruction} (hpool : ∀ i ∈ insns, usesPool i = false) (h : run ctx insns stack = .ok r)
    (below : Stack) : run ctx insns (stack ++ below) = .ok (r.above below) := by
  induction insns generalizing stack r with
  | nil =>
    cases h
    rfl
  | cons i rest ih =>
    rw [List.forall_mem_cons] at hpool
    obtain ⟨first, second, hfirst, hsecond, rfl⟩ := run_cons_ok h
    exact run_cons_of_ok (step_over hpool.1 hfirst below) (ih hpool.2 hsecond)

/-- One stack is the top of the other. -/
def SameTop (s t : Stack) : Prop :=
  s <+: t ∨ t <+: s

/-- From stacks with the same top an instruction recovers the same, if there are enough values for it. -/
lemma SameTop.step {s t : Stack} (hsame : SameTop s t) (hpool : usesPool i = false) {r r' : Recovered}
    (h : step ctx i s = .ok r) (h' : step ctx i t = .ok r') :
    r'.stmts = r.stmts ∧ r'.exit = r.exit ∧ SameTop r.stack r'.stack := by
  rcases hsame with ⟨below, rfl⟩ | ⟨below, rfl⟩
  · cases (step_over hpool h below).symm.trans h'
    exact ⟨rfl, rfl, .inl (List.prefix_append _ _)⟩
  · cases (step_over hpool h' below).symm.trans h
    exact ⟨rfl, rfl, .inr (List.prefix_append _ _)⟩

/-! ### Ways -/

lemma run_append_ok {front back : List Instruction} (h : run ctx (front ++ back) stack = .ok r) :
    ∃ first second, run ctx front stack = .ok first ∧ run ctx back first.stack = .ok second ∧
      r = first.andThen second := by
  induction front generalizing stack r with
  | nil => exact ⟨{ stack }, r, rfl, h, by simp [Recovered.andThen]⟩
  | cons i front ih =>
    obtain ⟨r₁, r₂, h₁, h₂, rfl⟩ := run_cons_ok h
    obtain ⟨first, second, hfirst, hsecond, rfl⟩ := ih h₂
    exact ⟨_, second, run_cons_of_ok h₁ hfirst, hsecond, by simp [Recovered.andThen, Option.or_assoc]⟩

lemma run_append_of_ok {front back : List Instruction} {first second : Recovered} (h : run ctx front stack = .ok first)
    (h' : run ctx back first.stack = .ok second) : run ctx (front ++ back) stack = .ok (first.andThen second) := by
  simp only [run_append, h, h', bind, Except.bind, pure, Except.pure]

lemma run_singleton (h : step ctx i stack = .ok r) : run ctx [i] stack = .ok r := by
  rw [run_cons_of_ok h rfl]
  simp [Recovered.andThen]

/-- The instructions in front of an offset. -/
def before (insns : List Instruction) (offset : Nat) : List Instruction :=
  insns.takeWhile (·.offset < offset)

lemma before_of_split {insns front back : List Instruction} (hasc : Ascending insns)
    (hsplit : insns = front ++ i :: back) : before insns i.offset = front := by
  subst hsplit
  have hfront : ∀ j ∈ front, j.offset < i.offset := fun j hj =>
    (List.pairwise_append.mp hasc).2.2 j hj i List.mem_cons_self
  rw [before, List.takeWhile_append_of_pos (by simpa using hfront)]
  simp

/-- The stack that a way brings along to an instruction and the one that a run in code order has there are one the top of
the other. -/
def JoinsAlike (ctx : Context) (insns way : List Instruction) (j : Instruction) : Prop :=
  ∀ r r', run ctx (before way j.offset) [] = .ok r → run ctx (before insns j.offset) [] = .ok r' →
    SameTop r.stack r'.stack

/-- A way of control from the first instruction on. Where it jumps, it brings along a stack as in code order. -/
structure InOrder (ctx : Context) (insns way : List Instruction) : Prop where
  head : way.head? = insns.head?
  chain : way.IsChain (Passes insns)
  joins : way.IsChain fun i j => i.next = j.offset ∨ JoinsAlike ctx insns way j

namespace InOrder

variable {insns way front back : List Instruction} {j : Instruction} (h : InOrder ctx insns way)
include h

lemma subset : way ⊆ insns := by
  intro k hk
  obtain ⟨front, back, rfl⟩ := List.append_of_mem hk
  obtain rfl | ⟨front, j, rfl⟩ := List.eq_nil_or_concat front
  · exact List.mem_of_head? h.head.symm
  · have hchain := (List.isChain_append.mp h.chain).2.2
    exact (hchain j (by simp) k (by simp)).destination_mem

lemma passes (hsplit : way = front ++ i :: j :: back) : Passes insns i j := by
  have hchain := h.chain
  rw [hsplit] at hchain
  exact (List.isChain_append.mp hchain).2.1.rel

lemma joinsAlike (hsplit : way = front ++ i :: j :: back) (hjump : i.next ≠ j.offset) :
    JoinsAlike ctx insns way j := by
  have hchain := h.joins
  nth_rewrite 2 [hsplit] at hchain
  exact (List.isChain_append.mp hchain).2.1.rel.resolve_left hjump

end InOrder

end JvmLift.Recovery
