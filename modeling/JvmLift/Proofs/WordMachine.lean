import Mathlib
import JvmLift.Proofs.StackShape

/-!
# A machine on words

The operand stack of the machine as words. A `long` or a `double` is two words that belong together; the instructions
that move words move them without a look at what they are, and the machine stops rather than part the two. It also stops
where a value of another width is needed, and where there are too few values.

A symbolic run keeps step with the machine: as long as the machine goes on, the symbolic stack has the widths of the
machine's values, its expressions are moved and copied as the machine moves and copies values, and where the machine
stops for want of a value, the symbolic run fails at the same instruction.
-/

namespace JvmLift.Recovery

open Bytecode Source

variable {α : Type}

/-! ### The machine -/

/-- A word: a value of one word, or a half of a value of two. -/
inductive Word (α : Type)
  | single (a : α)
  | upper (a : α)
  | lower (a : α)
  deriving DecidableEq

/-- Values with their widths, the top of the stack first. -/
abbrev Values (α : Type) := List (α × Bool)

/-- The words of values. The upper half of a wide value is on top of the lower one. -/
def wordsOf : Values α → List (Word α)
  | [] => []
  | (a, false) :: vs => .single a :: wordsOf vs
  | (a, true) :: vs => .upper a :: .lower a :: wordsOf vs

def widths (vs : Values α) : Shape :=
  vs.map Prod.snd

/-- Why the machine stops in front of an instruction. -/
inductive Halt
  /-- All values that there are have the widths that are needed, but there are too few. -/
  | tooFew
  /-- A value has another width, a wide value would be parted, or the instruction needs the pool. -/
  | misfit
  deriving DecidableEq

/-- The top words, so many of them, and those below. -/
def cut : Nat → List (Word α) → Except Halt (List (Word α) × List (Word α))
  | 0, .lower _ :: _ => .error .misfit
  | 0, ws => .ok ([], ws)
  | _ + 1, [] => .error .tooFew
  | n + 1, w :: ws => (cut n ws).map fun (top, below) => (w :: top, below)

/-- What is below values of the given widths. -/
def takeAway : Shape → List (Word α) → Except Halt (List (Word α))
  | [], ws => .ok ws
  | _ :: _, [] => .error .tooFew
  | false :: s, .single _ :: ws => takeAway s ws
  | true :: s, .upper _ :: .lower _ :: ws => takeAway s ws
  | _, _ => .error .misfit

/-- Runs a motion. If it pushes a value, that is `result`. -/
def Motion.exec (result : α) : Motion → List (Word α) → Except Halt (List (Word α))
  | .apply takes gives, ws => (takeAway takes ws).map (wordsOf (gives.map (result, ·)) ++ ·)
  | .pop words, ws => (cut words ws).map Prod.snd
  | .dup words skip, ws => do
    let (top, ws) ← cut words ws
    let (below, ws) ← cut skip ws
    return top ++ below ++ top ++ ws
  | .swap, .single a :: .single b :: ws => .ok (.single b :: .single a :: ws)
  | .swap, [] | .swap, [.single _] => .error .tooFew
  | .swap, _ => .error .misfit

/-- Runs an instruction. -/
def exec (i : Instruction) (result : α) (ws : List (Word α)) : Except Halt (List (Word α)) :=
  match motion? i.opcode with
  | some motion => motion.exec result ws
  | none => .error .misfit

/-- Runs instructions one behind the other, of which the one at index `k` may push the value `results k`. If the machine
stops, it tells in front of which instruction and why. -/
def execAll : List Instruction → (results : Nat → α) → List (Word α) → Except (Instruction × Halt) (List (Word α))
  | [], _, ws => .ok ws
  | i :: rest, results, ws =>
    match exec i (results 0) ws with
    | .ok ws => execAll rest (fun k => results (k + 1)) ws
    | .error halt => .error (i, halt)

/-! ### Values -/

/-- Number of words of values of the given widths. -/
def wordCount (s : Shape) : Nat :=
  (s.map fun wide => if wide then 2 else 1).sum

@[simp] lemma wordsOf_append (vs us : Values α) : wordsOf (vs ++ us) = wordsOf vs ++ wordsOf us := by
  induction vs with
  | nil => rfl
  | cons v vs ih =>
    obtain ⟨a, _ | _⟩ := v
    · simp [wordsOf, ih]
    · simp [wordsOf, ih]

/-- Values are known by their words. -/
lemma wordsOf_injective : ∀ {vs us : Values α}, wordsOf vs = wordsOf us → vs = us
  | [], [], _ => rfl
  | (_, false) :: _, (_, false) :: _, h => by
    simp only [wordsOf, List.cons.injEq, Word.single.injEq] at h
    rw [h.1, wordsOf_injective h.2]
  | (_, true) :: _, (_, true) :: _, h => by
    simp only [wordsOf, List.cons.injEq, Word.upper.injEq] at h
    rw [h.1, wordsOf_injective h.2.2]
  | [], (_, false) :: _, h | [], (_, true) :: _, h | (_, false) :: _, [], h | (_, true) :: _, [], h
  | (_, false) :: _, (_, true) :: _, h | (_, true) :: _, (_, false) :: _, h => by simp [wordsOf] at h

@[simp] lemma widths_append (vs us : Values α) : widths (vs ++ us) = widths vs ++ widths us :=
  List.map_append

@[simp] lemma widths_map (a : α) (s : Shape) : widths (s.map (a, ·)) = s := by
  simp [widths]

/-- Between two values words are parted. -/
lemma cut_wordsOf (taken rest : Values α) :
    cut (wordCount (widths taken)) (wordsOf (taken ++ rest)) = .ok (wordsOf taken, wordsOf rest) := by
  induction taken with
  | nil =>
    rcases rest with _ | ⟨⟨a, _ | _⟩, rest⟩ <;> rfl
  | cons v taken ih =>
    obtain ⟨a, _ | _⟩ := v
    · have hcount : wordCount (widths ((a, false) :: taken)) = wordCount (widths taken) + 1 := by
        simp [wordCount, widths, Nat.add_comm]
      rw [hcount, List.cons_append, wordsOf, cut, ih]
      rfl
    · have hcount : wordCount (widths ((a, true) :: taken)) = wordCount (widths taken) + 2 := by
        simp [wordCount, widths, Nat.add_comm]
      rw [hcount, List.cons_append, wordsOf, cut, cut, ih]
      rfl

/-- Words are parted between two values, or nowhere. -/
lemma cut_cases : ∀ (n : Nat) (vs : Values α),
    (∃ taken rest, vs = taken ++ rest ∧ wordCount (widths taken) = n) ∨
      (wordCount (widths vs) < n ∧ cut n (wordsOf vs) = .error .tooFew) ∨ cut n (wordsOf vs) = .error .misfit
  | 0, vs => .inl ⟨[], vs, rfl, rfl⟩
  | n + 1, [] => .inr (.inl ⟨Nat.succ_pos n, rfl⟩)
  | n + 1, (a, false) :: vs => by
    have hcount (us : Values α) : wordCount (widths ((a, false) :: us)) = wordCount (widths us) + 1 := by
      simp [wordCount, widths, Nat.add_comm]
    obtain ⟨taken, rest, rfl, rfl⟩ | ⟨hlt, hcut⟩ | hcut := cut_cases n vs
    · exact .inl ⟨(a, false) :: taken, rest, rfl, hcount taken⟩
    · exact .inr (.inl ⟨by rw [hcount]; omega, by rw [wordsOf, cut, hcut]; rfl⟩)
    · exact .inr (.inr (by rw [wordsOf, cut, hcut]; rfl))
  | 1, (a, true) :: vs => .inr (.inr rfl)
  | n + 2, (a, true) :: vs => by
    have hcount (us : Values α) : wordCount (widths ((a, true) :: us)) = wordCount (widths us) + 2 := by
      simp [wordCount, widths, Nat.add_comm]
    obtain ⟨taken, rest, rfl, rfl⟩ | ⟨hlt, hcut⟩ | hcut := cut_cases n vs
    · exact .inl ⟨(a, true) :: taken, rest, rfl, hcount taken⟩
    · exact .inr (.inl ⟨by rw [hcount]; omega, by rw [wordsOf, cut, cut, hcut]; rfl⟩)
    · exact .inr (.inr (by rw [wordsOf, cut, cut, hcut]; rfl))

lemma takeAway_wordsOf (taken rest : Values α) :
    takeAway (widths taken) (wordsOf (taken ++ rest)) = .ok (wordsOf rest) := by
  induction taken with
  | nil => rfl
  | cons v taken ih => obtain ⟨a, _ | _⟩ := v <;> exact ih

lemma takeAway_cases : ∀ (takes : Shape) (vs : Values α),
    (∃ taken rest, vs = taken ++ rest ∧ widths taken = takes) ∨
      (vs.length < takes.length ∧ takeAway takes (wordsOf vs) = .error .tooFew) ∨
      takeAway takes (wordsOf vs) = .error .misfit
  | [], vs => .inl ⟨[], vs, rfl, rfl⟩
  | _ :: _, [] => .inr (.inl ⟨Nat.succ_pos _, rfl⟩)
  | wide :: takes, (a, wide') :: vs => by
    by_cases hwide : wide = wide'
    · subst hwide
      have htake : takeAway (wide :: takes) (wordsOf ((a, wide) :: vs)) = takeAway takes (wordsOf vs) := by
        cases wide <;> rfl
      obtain ⟨taken, rest, rfl, rfl⟩ | ⟨hlt, htoo⟩ | hmis := takeAway_cases takes vs
      · exact .inl ⟨(a, wide) :: taken, rest, rfl, rfl⟩
      · exact .inr (.inl ⟨by simpa using hlt, htake.trans htoo⟩)
      · exact .inr (.inr (htake.trans hmis))
    · refine .inr (.inr ?_)
      cases wide <;> cases wide' <;> first | exact absurd rfl hwide | rfl

/-! ### Motions of values -/

/-- What a motion does to values. -/
inductive Moves (result : α) : Motion → Values α → Values α → Prop
  | apply (taken rest : Values α) (gives : Shape) :
      Moves result (.apply (widths taken) gives) (taken ++ rest) (gives.map (result, ·) ++ rest)
  | pop (taken rest : Values α) : Moves result (.pop (wordCount (widths taken))) (taken ++ rest) rest
  | dup (top below rest : Values α) :
      Moves result (.dup (wordCount (widths top)) (wordCount (widths below))) (top ++ (below ++ rest))
        (top ++ below ++ top ++ rest)
  | swap (a b : α) (rest : Values α) :
      Moves result .swap ((a, false) :: (b, false) :: rest) ((b, false) :: (a, false) :: rest)

/-- There are too few values for a motion. -/
inductive Lacks : Motion → Shape → Prop
  | apply {takes gives s : Shape} (h : s.length < takes.length) : Lacks (.apply takes gives) s
  | pop {words : Nat} {s : Shape} (h : wordCount s < words) : Lacks (.pop words) s
  | dup {words skip : Nat} {s : Shape} (h : wordCount s < words) : Lacks (.dup words skip) s
  | dupBelow {top s : Shape} {skip : Nat} (h : wordCount s < skip) : Lacks (.dup (wordCount top) skip) (top ++ s)
  | swap {s : Shape} (h : s.length < 2) : Lacks .swap s

lemma Moves.exec_eq {result : α} {motion : Motion} {vs vs' : Values α} (h : Moves result motion vs vs') :
    motion.exec result (wordsOf vs) = .ok (wordsOf vs') := by
  cases h with
  | apply taken rest gives =>
    rw [Motion.exec, takeAway_wordsOf, wordsOf_append]
    rfl
  | pop taken rest =>
    rw [Motion.exec, cut_wordsOf]
    rfl
  | dup top below rest =>
    simp only [Motion.exec, cut_wordsOf, bind, Except.bind]
    simp only [wordsOf_append]
    rfl
  | swap a b rest => rfl

/-- **One motion.** The machine moves values, lacks values, or stops over something else. -/
lemma Motion.exec_cases (result : α) (motion : Motion) (vs : Values α) :
    (∃ vs', Moves result motion vs vs') ∨
      (Lacks motion (widths vs) ∧ motion.exec result (wordsOf vs) = .error .tooFew) ∨
      motion.exec result (wordsOf vs) = .error .misfit := by
  cases motion with
  | apply takes gives =>
    obtain ⟨taken, rest, rfl, rfl⟩ | ⟨hlt, htake⟩ | htake := takeAway_cases takes vs
    · exact .inl ⟨_, .apply taken rest gives⟩
    · exact .inr (.inl ⟨.apply (by simpa [widths] using hlt), by rw [exec, htake]; rfl⟩)
    · exact .inr (.inr (by rw [exec, htake]; rfl))
  | pop words =>
    obtain ⟨taken, rest, rfl, rfl⟩ | ⟨hlt, hcut⟩ | hcut := cut_cases words vs
    · exact .inl ⟨_, .pop taken rest⟩
    · exact .inr (.inl ⟨.pop hlt, by rw [exec, hcut]; rfl⟩)
    · exact .inr (.inr (by rw [exec, hcut]; rfl))
  | dup words skip =>
    obtain ⟨top, rest, rfl, rfl⟩ | ⟨hlt, hcut⟩ | hcut := cut_cases words vs
    · have hexec : (Motion.dup (wordCount (widths top)) skip).exec result (wordsOf (top ++ rest)) =
          (cut skip (wordsOf rest)).map fun (below, ws) => wordsOf top ++ below ++ wordsOf top ++ ws := by
        rw [exec, cut_wordsOf]
        rfl
      obtain ⟨below, rest, rfl, rfl⟩ | ⟨hlt, hcut⟩ | hcut := cut_cases skip rest
      · exact .inl ⟨_, .dup top below rest⟩
      · exact .inr (.inl ⟨widths_append top rest ▸ .dupBelow hlt, by rw [hexec, hcut]; rfl⟩)
      · exact .inr (.inr (by rw [hexec, hcut]; rfl))
    · exact .inr (.inl ⟨.dup hlt, by rw [exec, hcut]; rfl⟩)
    · exact .inr (.inr (by rw [exec, hcut]; rfl))
  | swap =>
    match vs with
    | [] => exact .inr (.inl ⟨.swap Nat.two_pos, rfl⟩)
    | [(a, false)] => exact .inr (.inl ⟨.swap Nat.one_lt_two, rfl⟩)
    | (a, false) :: (b, false) :: rest => exact .inl ⟨_, .swap a b rest⟩
    | (a, true) :: rest => exact .inr (.inr rfl)
    | (a, false) :: (b, true) :: rest => exact .inr (.inr rfl)

/-! ### Symbolic steps -/

variable {ctx : Context} {i : Instruction} {motion : Motion} {stack : Stack}

/-- The values of a symbolic stack. -/
def Stack.values (stack : Stack) : Values Expr :=
  stack.map fun v => (v.expr, v.wide)

@[simp] lemma widths_values (stack : Stack) : widths stack.values = stack.shape := by
  simp [widths, Stack.values, Stack.shape]

@[simp] lemma values_append (vs us : Stack) : Stack.values (vs ++ us) = vs.values ++ us.values :=
  List.map_append

@[simp] lemma shape_append (vs us : Stack) : Stack.shape (vs ++ us) = vs.shape ++ us.shape :=
  List.map_append

/-- A symbolic stack with the widths of two groups of values is two groups of symbolic values. -/
lemma exists_append_of_shape {vs us : Shape} (h : stack.shape = vs ++ us) :
    ∃ taken rest : Stack, stack = taken ++ rest ∧ vs = taken.shape ∧ us = rest.shape := by
  obtain ⟨taken, rest, heq, htaken, hrest⟩ := List.map_eq_append_iff.mp h
  exact ⟨taken, rest, heq, htaken.symm, hrest.symm⟩

lemma wordCount_cons (v : StackValue) (stack : Stack) :
    wordCount (Stack.shape (v :: stack)) = wordCount stack.shape + v.words := by
  simp [wordCount, Stack.shape, StackValue.words, Nat.add_comm]

lemma takeWords?_append (taken rest : Stack) :
    takeWords? (wordCount taken.shape) (taken ++ rest) = some (taken, rest) := by
  induction taken with
  | nil => simp [wordCount, Stack.shape, takeWords?]
  | cons v taken ih =>
    rw [wordCount_cons]
    exact takeWords?_cons ih

lemma takeWords?_eq_none {n : Nat} (h : wordCount stack.shape < n) : takeWords? n stack = none := by
  fun_induction takeWords? n stack with
  | case1 => cases h
  | case2 => rfl
  | case3 words v stack ih =>
    rw [wordCount_cons] at h
    rw [ih (by omega)]
    rfl

lemma applyEffect?_eq_none {effect : Effect} {n : Nat} {gives : Shape}
    (harity : effect.arity? i.opcode = some (n, gives)) (hlt : stack.length < n) :
    applyEffect? ctx i effect stack = none := by
  cases effect with
  | nothing | increment | returnVoid | push | pushImmediate | subroutineCall | load =>
    cases harity
    cases hlt
  | store | switch | returnValue | throwValue | monitor | negate | convert | arrayLength | newPrimitiveArray =>
    cases harity
    obtain rfl := List.eq_nil_of_length_eq_zero (Nat.lt_one_iff.mp hlt)
    rfl
  | arrayLoad | binary | compare =>
    cases harity
    rcases stack with _ | ⟨a, _ | ⟨b, stack⟩⟩
    · rfl
    · rfl
    · simp at hlt
  | arrayStore =>
    cases harity
    rcases stack with _ | ⟨a, _ | ⟨b, _ | ⟨c, stack⟩⟩⟩
    · rfl
    · rfl
    · rfl
    · simp at hlt
      omega
  | branch =>
    obtain ⟨count, hcount, heq⟩ := Option.map_eq_some_iff.mp harity
    cases heq
    simp [applyEffect?, hcount, takeValues?, hlt]
  | pop | dup | swap | pooled => cases harity

lemma length_gives_le_one {op : Opcode} {effect : Effect} {n : Nat} {gives : Shape}
    (h : effect.arity? op = some (n, gives)) : gives.length ≤ 1 := by
  cases effect with
  | branch =>
    obtain ⟨count, -, heq⟩ := Option.map_eq_some_iff.mp h
    cases heq
    exact Nat.zero_le 1
  | _ => cases h <;> simp

/-- Values that are pushed are one value at most. -/
lemma exists_pushed {pushed : Stack} (h : pushed.length ≤ 1) : ∃ e, pushed.values = pushed.shape.map (e, ·) := by
  match pushed, h with
  | [], _ => exact ⟨.null, rfl⟩
  | [v], _ => exact ⟨v.expr, rfl⟩

/-- **Steps.** Where the machine moves values, the symbolic step moves its expressions in the same way. -/
lemma step_of_moves (ctx : Context) (hi : i.Encodable) (hmotion : motion? i.opcode = some motion) {result : α}
    {vs vs' : Values α} (h : Moves result motion vs vs') (hs : stack.shape = widths vs) :
    ∃ r e, step ctx i stack = .ok r ∧ r.stack.shape = widths vs' ∧ Moves e motion stack.values r.stack.values := by
  have hfollows := effectOf_follows hmotion
  suffices ∃ r e, applyEffect? ctx i (effectOf i.opcode) stack = some r ∧ r.stack.shape = widths vs' ∧
      Moves e motion stack.values r.stack.values by
    obtain ⟨r, e, hr, hmoves⟩ := this
    exact ⟨r, e, step_of_applyEffect? hi.not_undecoded hr, hmoves⟩
  have hreads := reads_of_encodable hi
  generalize effectOf i.opcode = effect at hfollows hreads
  cases h with
  | apply taken rest gives =>
    obtain ⟨taken', rest', rfl, htaken, hrest⟩ := exists_append_of_shape (hs.trans (widths_append _ _))
    rw [htaken] at hfollows ⊢
    have harity : effect.arity? i.opcode = some (taken'.length, gives) := by
      simpa [Effect.follows, Stack.shape] using hfollows
    obtain ⟨r, pushed, hr, hstack, rfl⟩ := applyEffect?_of_arity harity hreads rfl
    obtain ⟨e, he⟩ := exists_pushed (by simpa [Stack.shape] using length_gives_le_one harity)
    refine ⟨r, e, hr, by simp [hstack, hrest], ?_⟩
    rw [hstack, values_append, values_append, he, ← widths_values taken']
    exact .apply _ _ _
  | pop taken rest =>
    obtain ⟨taken', rest', rfl, htaken, hrest⟩ := exists_append_of_shape (hs.trans (widths_append _ _))
    rw [htaken] at hfollows ⊢
    cases effect with
    | pop words =>
      obtain rfl : words = wordCount (Stack.shape taken') := by simpa [Effect.follows] using hfollows
      refine ⟨_, .null, by simp only [applyEffect?, takeWords?_append, bind, Option.bind_some]; rfl, hrest.symm, ?_⟩
      rw [values_append, ← widths_values taken']
      exact .pop _ _
    | _ => cases hfollows
  | dup top below rest =>
    obtain ⟨top', rest', rfl, htop, hrest⟩ := exists_append_of_shape (hs.trans (widths_append _ _))
    obtain ⟨below', rest', rfl, hbelow, hrest⟩ := exists_append_of_shape (hrest.symm.trans (widths_append _ _))
    rw [htop, hbelow] at hfollows ⊢
    cases effect with
    | dup words skip =>
      obtain ⟨rfl, rfl⟩ : words = wordCount (Stack.shape top') ∧ skip = wordCount (Stack.shape below') := by
        simpa [Effect.follows] using hfollows
      refine ⟨_, .null, by simp only [applyEffect?, takeWords?_append, bind, Option.bind_some]; rfl, ?_, ?_⟩
      · simp [htop, hbelow, hrest]
      · simp only [values_append, ← widths_values top', ← widths_values below']
        exact .dup _ _ _
    | _ => cases hfollows
  | swap a b rest =>
    obtain ⟨v, stack, rfl, hv, hs⟩ := List.map_eq_cons_iff.mp hs
    obtain ⟨w, stack, rfl, hw, hs⟩ := List.map_eq_cons_iff.mp hs
    cases effect with
    | swap =>
      refine ⟨_, .null, rfl, by simp [Stack.shape, widths, hv, hw, hs], ?_⟩
      simp only [Stack.values, List.map_cons, hv, hw]
      exact .swap _ _ _
    | _ => cases hfollows

/-- Where the machine lacks values, the symbolic step does, too. -/
lemma step_of_lacks (hi : i.Encodable) (hmotion : motion? i.opcode = some motion) (h : Lacks motion stack.shape) :
    step ctx i stack = .error (.stackUnderflow ctx.method i.offset) := by
  have hfollows := effectOf_follows hmotion
  suffices applyEffect? ctx i (effectOf i.opcode) stack = none by
    unfold step
    split
    · next hop => simpa [Instruction.isUndecoded, hop] using hi.not_undecoded
    · rw [this]
  generalize effectOf i.opcode = effect at hfollows
  generalize hshape : stack.shape = s at h
  cases h with
  | apply hlt =>
    refine applyEffect?_eq_none (by simpa [Effect.follows] using hfollows) ?_
    simpa [← hshape, Stack.shape] using hlt
  | pop hlt =>
    cases effect with
    | pop words' =>
      obtain rfl : words' = _ := by simpa [Effect.follows] using hfollows
      simp [applyEffect?, takeWords?_eq_none (hshape ▸ hlt)]
    | _ => cases hfollows
  | dup hlt =>
    cases effect with
    | dup words' skip' =>
      obtain ⟨rfl, rfl⟩ : words' = _ ∧ skip' = _ := by simpa [Effect.follows] using hfollows
      simp [applyEffect?, takeWords?_eq_none (hshape ▸ hlt)]
    | _ => cases hfollows
  | dupBelow hlt =>
    obtain ⟨top, rest, rfl, rfl, rfl⟩ := exists_append_of_shape hshape
    cases effect with
    | dup words' skip' =>
      obtain ⟨rfl, rfl⟩ : words' = _ ∧ skip' = _ := by simpa [Effect.follows] using hfollows
      simp [applyEffect?, takeWords?_append, takeWords?_eq_none hlt]
    | _ => cases hfollows
  | swap hlt =>
    cases effect with
    | swap =>
      rcases stack with _ | ⟨a, _ | ⟨b, stack⟩⟩
      · rfl
      · rfl
      · simp [← hshape, Stack.shape] at hlt
    | _ => cases hfollows

/-! ### Runs -/

lemma execAll_cons_of_ok {insns : List Instruction} {result : α} {results : Nat → α} {ws ws' : List (Word α)}
    (h : exec i result ws = .ok ws') :
    execAll (i :: insns) (fun k => k.casesOn result results) ws = execAll insns results ws' := by
  change (match exec i result ws with | .ok ws => execAll insns results ws | .error halt => .error (i, halt)) = _
  rw [h]

lemma run_cons_of_error {insns : List Instruction} {e : LiftError} (h : step ctx i stack = .error e) :
    run ctx (i :: insns) stack = .error e := by
  simp [run, bind, Except.bind, h]

lemma run_cons_of_rest_error {insns : List Instruction} {r : Recovered} {e : LiftError} (h : step ctx i stack = .ok r)
    (hrest : run ctx insns r.stack = .error e) : run ctx (i :: insns) stack = .error e := by
  simp [run, bind, Except.bind, h, hrest]

/-- What a symbolic run comes to, if the machine comes to a result from values of the same widths. -/
def KeepsStep (ctx : Context) (insns : List Instruction) (stack : Stack) :
    Except (Instruction × Halt) (List (Word α)) → Prop
  | .ok ws => ∃ r vs, run ctx insns stack = .ok r ∧ ws = wordsOf vs ∧ r.stack.shape = widths vs ∧
      ∃ exprs, execAll insns exprs (wordsOf stack.values) = .ok (wordsOf r.stack.values)
  | .error (i, .tooFew) => run ctx insns stack = .error (.stackUnderflow ctx.method i.offset)
  | .error (_, .misfit) => True

/-- A symbolic step in front of a run that keeps step. -/
lemma KeepsStep.cons {insns : List Instruction} {r : Recovered} {e : Expr}
    {outcome : Except (Instruction × Halt) (List (Word α))} (hstep : step ctx i stack = .ok r)
    (hexec : exec i e (wordsOf stack.values) = .ok (wordsOf r.stack.values))
    (h : KeepsStep ctx insns r.stack outcome) : KeepsStep ctx (i :: insns) stack outcome := by
  match outcome, h with
  | .ok ws, ⟨r', vs, hrun, hws, hshape, exprs, hexprs⟩ =>
    exact ⟨r.andThen r', vs, run_cons_of_ok hstep hrun, hws, hshape, _, (execAll_cons_of_ok hexec).trans hexprs⟩
  | .error (j, .tooFew), h => exact run_cons_of_rest_error hstep h
  | .error (_, .misfit), _ => trivial

/-- **Runs.** By induction on the instructions, each of which the machine runs, lacks values for, or refuses. -/
lemma keepsStep_execAll (ctx : Context) {insns : List Instruction} (hinsns : ∀ i ∈ insns, i.Encodable)
    (results : Nat → α) {vs : Values α} (hs : stack.shape = widths vs) :
    KeepsStep ctx insns stack (execAll insns results (wordsOf vs)) := by
  induction insns generalizing stack vs results with
  | nil => exact ⟨{ stack }, vs, rfl, rfl, hs, fun _ => .null, rfl⟩
  | cons i insns ih =>
    obtain ⟨hi, hrest⟩ := List.forall_mem_cons.mp hinsns
    have hexec {β : Type} (result : β) (ws : List (Word β)) {motion : Motion}
        (hmotion : motion? i.opcode = some motion) : exec i result ws = motion.exec result ws := by rw [exec, hmotion]
    rw [execAll]
    cases hmotion : motion? i.opcode with
    | none =>
      rw [exec, hmotion]
      trivial
    | some motion =>
      rw [hexec _ _ hmotion]
      obtain ⟨vs', hmoves⟩ | ⟨hlacks, hhalt⟩ | hhalt := motion.exec_cases (results 0) vs
      · obtain ⟨r, e, hstep, hshape, hmoves'⟩ := step_of_moves ctx hi hmotion hmoves hs
        rw [hmoves.exec_eq]
        exact (ih hrest _ hshape).cons hstep ((hexec _ _ hmotion).trans hmoves'.exec_eq)
      · rw [hhalt]
        exact run_cons_of_error (step_of_lacks hi hmotion (hs ▸ hlacks))
      · rw [hhalt]
        trivial

/-- An instruction that decoding some code gives, other than an undecoded tail. -/
def IsDecoded (i : Instruction) : Prop :=
  ∃ code, i ∈ decode code ∧ i.isUndecoded = false

/-- **The symbolic stack has the shape of the machine's.** From values of the same widths, whatever they are and
whatever the instructions compute: where the machine runs the instructions, the symbolic run succeeds with a stack of
the same widths, which is what the machine makes of the expressions on the symbolic stack, if each instruction that
pushes a value pushes some expression; and where the machine stops for want of a value, the symbolic run fails over the
same instruction. -/
theorem run_follows_machine (ctx : Context) {insns : List Instruction} (hinsns : ∀ i ∈ insns, IsDecoded i)
    (stack : Stack) (vs : Values α) (hs : stack.shape = widths vs) (results : Nat → α) :
    (∀ ws, execAll insns results (wordsOf vs) = .ok ws →
      ∃ r vs', run ctx insns stack = .ok r ∧ ws = wordsOf vs' ∧ r.stack.length = vs'.length ∧
        r.stack.shape = widths vs' ∧
        ∃ exprs, execAll insns exprs (wordsOf stack.values) = .ok (wordsOf r.stack.values)) ∧
    (∀ i, execAll insns results (wordsOf vs) = .error (i, .tooFew) →
      run ctx insns stack = .error (.stackUnderflow ctx.method i.offset)) := by
  have hencodable : ∀ i ∈ insns, i.Encodable := by
    intro i hi
    obtain ⟨code, hmem, hdecoded⟩ := hinsns i hi
    exact (tiles_decode code).encodable i hmem hdecoded
  have hkeeps := keepsStep_execAll ctx hencodable results hs
  constructor
  · intro ws hws
    rw [hws] at hkeeps
    obtain ⟨r, vs', hrun, rfl, hshape, hexprs⟩ := hkeeps
    exact ⟨r, vs', hrun, rfl, by simpa [Stack.shape, widths] using congrArg List.length hshape, hshape, hexprs⟩
  · intro i hi
    rw [hi] at hkeeps
    exact hkeeps

/-- `lload_0; iload_2; dup_x2; pop; dup2_x1; l2i; iadd`: a narrow and a wide value are exchanged, and the wide one is
copied beneath both. -/
def exchangedWords : List UInt8 :=
  [0x1e, 0x1c, 0x5b, 0x57, 0x5d, 0x88, 0x60]

/-- With `pop; ladd` behind them, which takes two wide values where only one is left. -/
def missingWords : List UInt8 :=
  exchangedWords ++ [0x57, 0x61]

/-- The theorem at both runs, with the index of an instruction as what it computes. -/
theorem exchangedWords_followed :
    (∀ i ∈ decode missingWords, IsDecoded i) ∧
      execAll (decode exchangedWords) id [] = .ok [.single 6, .upper 0, .lower 0] ∧
      (∀ ctx, ∃ r, run ctx (decode exchangedWords) [] = .ok r ∧ r.stack.shape = [false, true]) ∧
      ∀ ctx, run ctx (decode missingWords) [] = .error (.stackUnderflow ctx.method 8) := by
  have hdecoded {code : List UInt8} (h : ∀ i ∈ decode code, i.isUndecoded = false) : ∀ i ∈ decode code, IsDecoded i :=
    fun i hi => ⟨code, hi, h i hi⟩
  have hmissing : ∀ i ∈ decode missingWords, IsDecoded i := hdecoded (by decide +kernel)
  have hexec : execAll (decode exchangedWords) id [] = .ok [.single 6, .upper 0, .lower 0] := by decide +kernel
  refine ⟨hmissing, hexec, fun ctx => ?_, fun ctx => ?_⟩
  · obtain ⟨r, vs, hrun, hws, -, hshape, -⟩ :=
      (run_follows_machine ctx (hdecoded (by decide +kernel)) [] [] rfl id).1 _ hexec
    obtain rfl : [(6, false), (0, true)] = vs := wordsOf_injective hws
    exact ⟨r, hrun, hshape⟩
  · exact (run_follows_machine ctx hmissing [] [] rfl id).2 ⟨8, ⟨0x61⟩, .none, 1⟩ (by decide +kernel)

end JvmLift.Recovery
