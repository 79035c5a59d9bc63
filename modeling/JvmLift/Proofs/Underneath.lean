import Mathlib
import JvmLift.Proofs.StackShape

/-!
# Values underneath

A run takes values from the top of the stack and puts others in their place. Where it succeeds, it would do the same
with more values underneath, and these stay where they are. The only instruction that looks at a value without taking it
is a constructor call: behind the object that it finishes, a copy of it may be on top of the stack. So no object
without a constructor may be underneath.
-/

namespace JvmLift.Recovery

open Bytecode Source

/-- An object whose constructor has not run. -/
def StackValue.IsUnfinished (v : StackValue) : Prop :=
  ∃ type, v.expr = .uninit type

/-- The same with more values underneath the stack. -/
def Recovered.above (r : Recovered) (below : Stack) : Recovered :=
  { r with stack := r.stack ++ below }

variable {ctx : Context} {i : Instruction} {stack below : Stack} {r : Recovered}

lemma Recovered.andThen_above (first second : Recovered) (below : Stack) :
    (first.above below).andThen (second.above below) = (first.andThen second).above below :=
  rfl

/-! ### Taking values -/

lemma takeWords?_above {words : Nat} {taken rest : Stack} (h : takeWords? words stack = some (taken, rest))
    (below : Stack) : takeWords? words (stack ++ below) = some (taken, rest ++ below) := by
  fun_induction takeWords? words stack generalizing taken rest with
  | case1 stack =>
    cases h
    simp [takeWords?]
  | case2 => cases h
  | case3 words v stack ih =>
    obtain ⟨⟨taken, rest⟩, htake, heq⟩ := Option.map_eq_some_iff.mp h
    cases heq
    simp [takeWords?, ih htake]

lemma takeValues?_above {n : Nat} {values : List Expr} {rest : Stack} (h : takeValues? n stack = some (values, rest))
    (below : Stack) : takeValues? n (stack ++ below) = some (values, rest ++ below) := by
  unfold takeValues? at h
  split_ifs at h with hlen
  cases h
  have hn : n ≤ stack.length := Nat.le_of_not_lt hlen
  rw [takeValues?, if_neg (by simp; omega), List.take_append_of_le_length hn, List.drop_append_of_le_length hn]

lemma subset_of_takeValues? {n : Nat} {values : List Expr} {rest : Stack}
    (h : takeValues? n stack = some (values, rest)) : rest ⊆ stack := by
  unfold takeValues? at h
  split_ifs at h
  cases h
  exact List.drop_subset n stack

/-! ### Calls -/

lemma finishCall_above (ret : Option FieldType) (value : Expr) (stack below : Stack) :
    finishCall ret value (stack ++ below) = (finishCall ret value stack).above below := by
  cases ret <;> rfl

lemma invokeDynamic?_above {site : CallSite} (h : invokeDynamic? site stack = some r) (below : Stack) :
    invokeDynamic? site (stack ++ below) = some (r.above below) := by
  simp only [invokeDynamic?, bind, Option.bind_eq_some_iff, pure] at h
  obtain ⟨⟨args, rest⟩, htake, h⟩ := h
  cases h
  simp only [invokeDynamic?, takeValues?_above htake, bind, Option.bind_some, pure, finishCall_above]

/-- A constructor call finds no copy of its object underneath. -/
lemma construct_above (hbelow : ∀ v ∈ below.head?, ¬v.IsUnfinished) (type : String) (args : List Expr) (stack : Stack) :
    construct type args (stack ++ below) = (construct type args stack).above below := by
  cases stack with
  | nil =>
    -- the call looks at the top of what is underneath
    cases below with
    | nil => rfl
    | cons v below =>
      have hv : ∀ type', v.expr ≠ .uninit type' := fun type' h => hbelow v rfl ⟨type', h⟩
      obtain ⟨e, wide⟩ := v
      cases e with
      | uninit type' => exact absurd rfl (hv type')
      | _ => rfl
  | cons v stack =>
    obtain ⟨e, wide⟩ := v
    cases e with
    | uninit type' =>
      simp only [construct, List.cons_append]
      split_ifs <;> rfl
    | _ => rfl

/-- What is underneath is not looked at: there is no unfinished object that a constructor call could take, or none
underneath that it could find. Of the values underneath only the top one can be looked at. -/
def Unseen (stack below : Stack) : Prop :=
  (∀ v ∈ stack, ¬v.IsUnfinished) ∨ ∀ v ∈ below.head?, ¬v.IsUnfinished

lemma callOn_above {receiver : StackValue} {rest : Stack} (hunseen : Unseen (receiver :: rest) below) (member : Member)
    (ret : Option FieldType) (args : List Expr) (stack : Stack) :
    callOn receiver.expr member ret args (stack ++ below) =
      (callOn receiver.expr member ret args stack).above below := by
  simp only [callOn, finishCall_above]
  split_ifs
  · split
    · next type htype =>
      exact construct_above (hunseen.resolve_left fun h => h receiver List.mem_cons_self ⟨type, htype⟩) _ _ _
    · rfl
  · rfl

lemma invoke?_above {isStatic : Bool} {member : Member} (h : invoke? ctx isStatic member stack = some r)
    (hunseen : Unseen stack below) : invoke? ctx isStatic member (stack ++ below) = some (r.above below) := by
  simp only [invoke?, bind, Option.bind_eq_some_iff, pure] at h
  obtain ⟨⟨args, rest⟩, htake, h⟩ := h
  simp only [invoke?, takeValues?_above htake, bind, Option.bind_some, pure]
  cases isStatic with
  | true =>
    simp only [if_true] at h ⊢
    split_ifs at h ⊢
    · cases h
      rfl
    · cases h
      rw [finishCall_above]
  | false =>
    simp only [Bool.false_eq_true, if_false] at h ⊢
    cases rest with
    | nil => cases h
    | cons receiver rest =>
      cases h
      have hrest : receiver :: rest ⊆ stack := subset_of_takeValues? htake
      have hreceiver : Unseen (receiver :: rest) below := hunseen.imp_left fun hstack v hv => hstack v (hrest hv)
      simp only [List.cons_append, callOn_above hreceiver]

/-! ### Steps -/

lemma usePool?_above {pool : Pool} {operand : Operand} {index : UInt16} {use : PoolUse}
    (h : usePool? ctx pool operand index use stack = some r) (hunseen : Unseen stack below) :
    usePool? ctx pool operand index use (stack ++ below) = some (r.above below) := by
  unfold usePool? at h
  split at h
  case h_6 => exact invoke?_above h hunseen
  case h_7 =>
    unfold usePool?
    dsimp only
    split at h
    · exact invokeDynamic?_above h below
    · cases h
      rfl
  case h_10 =>
    simp only [bind, Option.bind_eq_some_iff, pure] at h
    obtain ⟨⟨dims, rest⟩, htake, h⟩ := h
    cases h
    simp only [usePool?, takeValues?_above htake, bind, Option.bind_some, pure]
    rfl
  all_goals cases h
  all_goals rfl

lemma applyEffect?_above {effect : Effect} (h : applyEffect? ctx i effect stack = some r)
    (hunseen : (∀ use, effect ≠ .pooled use) ∨ Unseen stack below) :
    applyEffect? ctx i effect (stack ++ below) = some (r.above below) := by
  unfold applyEffect? at h
  split at h
  case h_8 =>
    simp only [bind, Option.bind_eq_some_iff, pure] at h
    obtain ⟨⟨taken, rest⟩, htake, h⟩ := h
    cases h
    simp only [applyEffect?, takeWords?_above htake, bind, Option.bind_some, pure]
    rfl
  case h_9 =>
    simp only [bind, Option.bind_eq_some_iff, pure] at h
    obtain ⟨⟨top, rest⟩, htop, ⟨skipped, rest'⟩, hskipped, h⟩ := h
    cases h
    simp [applyEffect?, takeWords?_above htop, takeWords?_above hskipped, Recovered.above]
  case h_16 =>
    simp only [bind, Option.bind_eq_some_iff, pure] at h
    obtain ⟨⟨operands, rest⟩, htake, condition, hcondition, h⟩ := h
    cases h
    simp only [applyEffect?, takeValues?_above htake, hcondition, bind, Option.bind_some, pure]
    rfl
  case h_25 use =>
    unfold applyEffect?
    dsimp only
    split at h
    · exact usePool?_above h (hunseen.resolve_left fun hpool => hpool use rfl)
    · cases h
      rfl
  -- the operand decides whether there is anything to do
  case h_3 | h_4 | h_5 | h_13 =>
    unfold applyEffect?
    dsimp only [List.cons_append]
    split at h <;> (cases h; rfl)
  all_goals cases h
  all_goals rfl

/-- **Steps.** A step that succeeds does the same with more values underneath. -/
lemma step_above (h : step ctx i stack = .ok r)
    (hunseen : (∀ use, effectOf i.opcode ≠ .pooled use) ∨ Unseen stack below) :
    step ctx i (stack ++ below) = .ok (r.above below) := by
  unfold step at h ⊢
  split at h
  · cases h
    rfl
  · split at h
    · cases h
      rw [applyEffect?_above ‹_› hunseen]
    · cases h

/-- **Runs.** A run that succeeds does the same with more values underneath. -/
lemma run_above {insns : List Instruction} (hbelow : ∀ v ∈ below.head?, ¬v.IsUnfinished)
    (h : run ctx insns stack = .ok r) : run ctx insns (stack ++ below) = .ok (r.above below) := by
  induction insns generalizing stack r with
  | nil =>
    cases h
    rfl
  | cons i insns ih =>
    obtain ⟨r₁, r₂, h₁, h₂, rfl⟩ := run_cons_ok h
    rw [← Recovered.andThen_above]
    exact run_cons_of_ok (step_above h₁ (.inr (.inr hbelow))) (ih h₂)

/-! ### Main statement -/

/-- **A run does not look below what it takes.** If a run succeeds, it comes to the same statements and the same exit
with more values underneath, none of which is an unfinished object, and these values are underneath the stack that it
leaves. It does not matter whether there is a pool. -/
theorem run_ignores_underneath (ctx : Context) {insns : List Instruction} {stack : Stack} {r : Recovered}
    (h : run ctx insns stack = .ok r) {below : Stack} (hbelow : ∀ v ∈ below, ¬v.IsUnfinished) :
    run ctx insns (stack ++ below) = .ok { stmts := r.stmts, stack := r.stack ++ below, exit := r.exit } :=
  run_above (fun v hv => hbelow v (List.mem_of_mem_head? hv)) h

/-- A context with the constructor of a class `A` at index 6 of its pool, whose class is at index 2. -/
def oneConstructor : Context where
  method := "m"
  names := Naming.numbered
  pool := some (Pool.new.addMember .method ⟨"A", "<init>", "()V"⟩).2

/-- `new A; dup; invokespecial A.<init>; astore_1; invokespecial A.<init>` -/
def twoConstructions : List Instruction :=
  [⟨0, ⟨0xbb⟩, .pool 2, 3⟩, ⟨3, ⟨0x59⟩, .none, 1⟩, ⟨4, ⟨0xb7⟩, .pool 6, 3⟩, ⟨7, ⟨0x4c⟩, .slot 1, 1⟩,
    ⟨8, ⟨0xb7⟩, .pool 6, 3⟩]

/-- The theorem at a run that finishes two objects: a copy of the first one is on the stack, and behind the second one
comes what is underneath. -/
theorem twoConstructions_ignore_underneath :
    let stmts : List Stmt := [.assign (.var "v1") (.new "A" []), .evaluate (.new "A" [])]
    let below : Stack := [⟨.var "x", false⟩]
    run oneConstructor twoConstructions [⟨.uninit "A", false⟩] = .ok { stmts, stack := [] } ∧
    (∀ v ∈ below, ¬v.IsUnfinished) ∧
    run oneConstructor twoConstructions (⟨.uninit "A", false⟩ :: below) = .ok { stmts, stack := below } := by
  intro stmts below
  have hrun : run oneConstructor twoConstructions [⟨.uninit "A", false⟩] = .ok { stmts, stack := [] } := by cbv
  have hbelow : ∀ v ∈ below, ¬v.IsUnfinished := by
    rintro v hv ⟨type, htype⟩
    obtain rfl := List.mem_singleton.mp hv
    cases htype
  exact ⟨hrun, hbelow, run_ignores_underneath oneConstructor hrun hbelow⟩

end JvmLift.Recovery
