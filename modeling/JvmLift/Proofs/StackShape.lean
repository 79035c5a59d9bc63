import Mathlib
import JvmLift.Proofs.Run
import JvmLift.Proofs.Tiling

/-!
# Shapes of operand stacks

The operand stack of the machine, of which only the widths of the values are kept. A `long` or a `double` is wide and
takes two words. Each instruction takes values of certain widths and pushes others, or it moves words; it is not
accepted on a stack with too few values, with values of other widths, or where words would be moved that are half of a
value.

A symbolic stack has the widths of the machine's stack, as long as the machine accepts the instructions.
-/

namespace JvmLift.Recovery

open Bytecode

/-- The widths of the values on a stack, its top first. -/
abbrev Shape := List Bool

def Stack.shape (stack : Stack) : Shape :=
  stack.map StackValue.wide

/-- What an instruction does to a shape. -/
inductive Motion
  /-- Takes values of the given widths, then pushes others. Both lists have the top first. -/
  | apply (takes gives : Shape)
  | pop (words : Nat)
  /-- Copies the top `words` words beneath the next `skip` words. -/
  | dup (words skip : Nat)
  | swap
  deriving DecidableEq, Repr

/-- The values that make up the top `words` words, and those below. A wide value is not divided. -/
def splitWords? : Nat → Shape → Option (Shape × Shape)
  | 0, s => some ([], s)
  | _ + 1, [] => none
  | words + 1, false :: s => (splitWords? words s).map fun (top, below) => (false :: top, below)
  | 1, true :: _ => none
  | words + 2, true :: s => (splitWords? words s).map fun (top, below) => (true :: top, below)

def Motion.act : Motion → Shape → Option Shape
  | .apply takes gives, s => if takes <+: s then some (gives ++ s.drop takes.length) else none
  | .pop words, s => (splitWords? words s).map Prod.snd
  | .dup words skip, s => do
    let (top, s) ← splitWords? words s
    let (below, s) ← splitWords? skip s
    return top ++ below ++ top ++ s
  | .swap, false :: false :: s => some (false :: false :: s)
  | .swap, _ => none

/-- The motions of all opcodes in ascending order from `0x00`. There is none for an opcode whose motion depends on the
pool, and none for the mark that changes the instruction behind it. -/
def motions : List (Option Motion) :=
  let n := false
  let w := true
  let op (takes gives : Shape) : List (Option Motion) := [some (.apply takes gives)]
  let unknown (count : Nat) : List (Option Motion) := List.replicate count none
  let times (count : Nat) (rows : List (Option Motion)) := (List.replicate count rows).flatten
  -- `int`, `long`, `float`, `double`, reference
  let types := [n, w, n, w, n]
  -- constants
  op [] [] ++ times 8 (op [] [n]) ++ times 2 (op [] [w]) ++ times 3 (op [] [n]) ++ times 2 (op [] [w]) ++
  times 2 (op [] [n]) ++ unknown 3 ++
  -- variables and array elements
  types.flatMap (fun t => op [] [t]) ++ types.flatMap (fun t => times 4 (op [] [t])) ++
  (types ++ [n, n, n]).flatMap (fun t => op [n, n] [t]) ++
  types.flatMap (fun t => op [t] []) ++ types.flatMap (fun t => times 4 (op [t] [])) ++
  (types ++ [n, n, n]).flatMap (fun t => op [t, n, n] []) ++
  -- words
  [some (.pop 1), some (.pop 2), some (.dup 1 0), some (.dup 1 1), some (.dup 1 2), some (.dup 2 0), some (.dup 2 1),
    some (.dup 2 2), some .swap] ++
  -- arithmetic; the distance of a shift is an `int`
  times 5 ([n, w, n, w].flatMap fun t => op [t, t] [t]) ++ [n, w, n, w].flatMap (fun t => op [t] [t]) ++
  times 3 ([n, w].flatMap fun t => op [n, t] [t]) ++ times 3 ([n, w].flatMap fun t => op [t, t] [t]) ++ op [] [] ++
  -- conversions from `int`, `long`, `float`, `double`, and those inside `int`
  op [n] [w] ++ op [n] [n] ++ op [n] [w] ++ op [w] [n] ++ op [w] [n] ++ op [w] [w] ++
  op [n] [n] ++ op [n] [w] ++ op [n] [w] ++ op [w] [n] ++ op [w] [w] ++ op [w] [n] ++ times 3 (op [n] [n]) ++
  -- comparisons of `long`, `float`, `double`
  op [w, w] [n] ++ times 2 (op [n, n] [n]) ++ times 2 (op [w, w] [n]) ++
  -- branches, `goto`, `jsr`, `ret`, switches, returns
  times 6 (op [n] []) ++ times 8 (op [n, n] []) ++ op [] [] ++ op [] [n] ++ op [] [] ++ times 2 (op [n] []) ++
  types.flatMap (fun t => op [t] []) ++ op [] [] ++
  -- fields, calls and objects
  unknown 10 ++ op [n] [n] ++ unknown 1 ++ op [n] [n] ++ op [n] [] ++ unknown 2 ++ times 2 (op [n] []) ++ unknown 2 ++
  times 2 (op [n] []) ++ op [] [] ++ op [] [n]

def motion? (op : Opcode) : Option Motion :=
  (motions[op.raw.toNat]?).join

/-- The shape behind an instruction, if the machine accepts the instruction on the shape before it. -/
def actOn? (i : Instruction) (s : Shape) : Option Shape :=
  (motion? i.opcode).bind (·.act s)

/-! ### More below -/

lemma splitWords?_append {words : Nat} {s top below : Shape} (h : splitWords? words s = some (top, below)) (t : Shape) :
    splitWords? words (s ++ t) = some (top, below ++ t) := by
  fun_induction splitWords? words s generalizing top below with
  | case1 s =>
    cases h
    rfl
  | case2 => cases h
  | case3 words s ih | case5 words s ih =>
    obtain ⟨⟨top, below⟩, hsplit, heq⟩ := Option.map_eq_some_iff.mp h
    cases heq
    simp [splitWords?, ih hsplit]
  | case4 => cases h

lemma act_apply_eq_some {takes gives s s' : Shape} :
    (Motion.apply takes gives).act s = some s' ↔ ∃ rest, s = takes ++ rest ∧ s' = gives ++ rest := by
  simp only [Motion.act, Option.ite_none_right_eq_some, Option.some.injEq]
  constructor
  · rintro ⟨⟨rest, rfl⟩, rfl⟩
    exact ⟨rest, rfl, by simp⟩
  · rintro ⟨rest, rfl, rfl⟩
    exact ⟨⟨rest, rfl⟩, by simp⟩

lemma act_swap_eq_some {s s' : Shape} :
    Motion.swap.act s = some s' ↔ ∃ rest, s = false :: false :: rest ∧ s' = false :: false :: rest := by
  constructor
  · intro h
    match s, h with
    | false :: false :: rest, h =>
      cases h
      exact ⟨rest, rfl, rfl⟩
  · rintro ⟨rest, rfl, rfl⟩
    rfl

/-- What lies below the values that an instruction needs is left as it is. -/
lemma Motion.act_append {motion : Motion} {s s' : Shape} (h : motion.act s = some s') (t : Shape) :
    motion.act (s ++ t) = some (s' ++ t) := by
  cases motion with
  | apply takes gives =>
    obtain ⟨rest, rfl, rfl⟩ := act_apply_eq_some.mp h
    exact act_apply_eq_some.mpr ⟨rest ++ t, by simp, by simp⟩
  | pop words =>
    obtain ⟨⟨top, below⟩, hsplit, rfl⟩ := Option.map_eq_some_iff.mp h
    simp [Motion.act, splitWords?_append hsplit]
  | dup words skip =>
    obtain ⟨⟨top, rest⟩, hsplit, h⟩ := Option.bind_eq_some_iff.mp h
    obtain ⟨⟨below, rest'⟩, hsplit', h⟩ := Option.bind_eq_some_iff.mp h
    cases h
    simp [Motion.act, splitWords?_append hsplit, splitWords?_append hsplit']
  | swap =>
    obtain ⟨rest, rfl, rfl⟩ := act_swap_eq_some.mp h
    rfl

lemma actOn?_append {i : Instruction} {s s' : Shape} (h : actOn? i s = some s') (t : Shape) :
    actOn? i (s ++ t) = some (s' ++ t) := by
  obtain ⟨motion, hmotion, h⟩ := Option.bind_eq_some_iff.mp h
  rw [actOn?, hmotion, Option.bind_some, motion.act_append h]

/-! ### Effects and motions -/

/-- How many values an effect takes and the widths of those that it pushes, where neither depends on the stack. -/
def Effect.arity? (op : Opcode) : Effect → Option (Nat × Shape)
  | .nothing | .increment | .returnVoid => some (0, [])
  | .push value => some (0, [value.wide])
  | .pushImmediate | .subroutineCall => some (0, [false])
  | .load wide => some (0, [wide])
  | .store | .switch | .returnValue | .throwValue | .monitor _ => some (1, [])
  | .negate wide | .convert _ wide => some (1, [wide])
  | .arrayLength | .newPrimitiveArray => some (1, [false])
  | .arrayLoad wide | .binary _ wide => some (2, [wide])
  | .compare => some (2, [false])
  | .arrayStore => some (3, [])
  | .branch => (branchOperandCount? op).map (·, [])
  | .pop _ | .dup .. | .swap | .pooled _ => none

/-- An effect that does to symbolic values what a motion does to widths. -/
def Effect.follows (op : Opcode) : Effect → Motion → Bool
  | effect, .apply takes gives => effect.arity? op = some (takes.length, gives)
  | .pop words, .pop words' => words = words'
  | .dup words skip, .dup words' skip' => words = words' && skip = skip'
  | .swap, .swap => true
  | _, _ => false

/-- An effect that takes a value from the operand finds it there. -/
def Effect.reads : Effect → Operand → Bool
  | .pushImmediate, .immediate _ | .load _, .slot _ => true
  | .pushImmediate, _ | .load _, _ => false
  | _, _ => true

lemma effectOf_follows {op : Opcode} {motion : Motion} (h : motion? op = some motion) :
    (effectOf op).follows op motion = true := by
  have hall : ∀ row ∈ motions.zipIdx, row.1.all ((effectOf ⟨.ofNat row.2⟩).follows ⟨.ofNat row.2⟩) = true := by
    decide +kernel
  have hrow := hall (some motion, op.raw.toNat) (List.mem_zipIdx_iff_getElem?.mpr (Option.join_eq_some_iff.mp h))
  simpa using hrow

/-- The layouts that hold what an effect takes from the operand. -/
def Effect.readsFrom (op : Opcode) : Effect → Layout → Bool
  | .pushImmediate, layout => layout = .byte ∨ layout = .short
  | .load _, layout => layout = .slot ∨ layout = .bare ∧ op.implicitSlot?.isSome
  | _, _ => true

lemma effectOf_readsFrom {op : Opcode} {layout : Layout} (h : op.layout? = some layout) :
    (effectOf op).readsFrom op layout = true := by
  have hall : ∀ row ∈ Opcode.known, (effectOf row.1).readsFrom row.1 row.2.layout = true := by decide +kernel
  obtain ⟨info, hinfo, rfl⟩ := Option.map_eq_some_iff.mp h
  exact hall _ (Opcode.mem_known hinfo)

lemma reads_of_encodable {i : Instruction} (h : i.Encodable) : (effectOf i.opcode).reads i.operand = true := by
  obtain ⟨layout, hlayout, hholds⟩ := h.operand
  have hreads := effectOf_readsFrom hlayout
  cases heffect : effectOf i.opcode with
  | pushImmediate =>
    simp only [heffect, Effect.readsFrom, decide_eq_true_eq] at hreads
    rcases hreads with rfl | rfl
    all_goals
      cases hop : i.operand <;> simp [hop, Layout.Holds] at hholds
      rfl
  | load wide =>
    simp only [heffect, Effect.readsFrom, decide_eq_true_eq] at hreads
    rcases hreads with rfl | ⟨rfl, hslot⟩
    · cases hop : i.operand <;> simp [hop, Layout.Holds] at hholds
      rfl
    · obtain ⟨slot, hslot⟩ := Option.isSome_iff_exists.mp hslot
      simp only [Layout.Holds, hslot] at hholds
      rw [hholds]
      rfl
  | _ => rfl

/-! ### Symbolic steps -/

variable {ctx : Context} {i : Instruction}

/-- Taking words from a stack takes a value of the given width and the words that are left. -/
lemma takeWords?_cons {words : Nat} {v : StackValue} {stack taken rest : Stack}
    (h : takeWords? words stack = some (taken, rest)) :
    takeWords? (words + v.words) (v :: stack) = some (v :: taken, rest) := by
  obtain ⟨k, hk⟩ : ∃ k, v.words = k + 1 := by
    cases hv : v.wide
    · exact ⟨0, by simp [StackValue.words, hv]⟩
    · exact ⟨1, by simp [StackValue.words, hv]⟩
  rw [hk, ← Nat.add_assoc, takeWords?, hk, Nat.add_assoc, Nat.add_sub_cancel, h]
  rfl

lemma takeWords?_of_splitWords? {words : Nat} {s top below : Shape} (h : splitWords? words s = some (top, below))
    {stack : Stack} (hs : stack.shape = s) :
    ∃ taken rest, takeWords? words stack = some (taken, rest) ∧ Stack.shape taken = top ∧ Stack.shape rest = below := by
  fun_induction splitWords? words s generalizing top below stack with
  | case1 s =>
    cases h
    exact ⟨[], stack, by rw [takeWords?], rfl, hs⟩
  | case2 => cases h
  | case3 words s ih | case5 words s ih =>
    obtain ⟨⟨top, below⟩, hsplit, heq⟩ := Option.map_eq_some_iff.mp h
    cases heq
    obtain ⟨v, stack, rfl, hv, hstack⟩ := List.map_eq_cons_iff.mp hs
    obtain ⟨taken, rest, htake, rfl, rfl⟩ := ih hsplit hstack
    have hcons := takeWords?_cons (v := v) htake
    rw [StackValue.words, hv] at hcons
    exact ⟨v :: taken, rest, hcons, by simp [Stack.shape, hv], rfl⟩
  | case4 => cases h

/-- A branch on as many values as it compares has a condition. -/
lemma exists_condition? {op : Opcode} {rel : Source.BinOp} {against : Comparand}
    (htest : branchTest? op = some (rel, against)) {operands : List Source.Expr}
    (hlength : operands.length = against.count) : ∃ c, condition? op operands = some c := by
  cases against with
  | zero | null =>
    obtain ⟨a, rfl⟩ := List.length_eq_one_iff.mp hlength
    exact ⟨_, by simp [condition?, htest, takenCondition?]; rfl⟩
  | pair =>
    obtain ⟨a, b, rfl⟩ := List.length_eq_two.mp hlength
    exact ⟨_, by simp [condition?, htest, takenCondition?]; rfl⟩

/-- An effect that takes so many values succeeds on a stack with as many, and puts values of the given widths in their
place. -/
lemma applyEffect?_of_arity {effect : Effect} {n : Nat} {gives : Shape}
    (harity : effect.arity? i.opcode = some (n, gives)) (hreads : effect.reads i.operand = true) {taken rest : Stack}
    (hn : taken.length = n) :
    ∃ r pushed, applyEffect? ctx i effect (taken ++ rest) = some r ∧ r.stack = pushed ++ rest ∧
      Stack.shape pushed = gives := by
  obtain ⟨offset, op, operand, size⟩ := i
  cases effect with
  | nothing | push | subroutineCall | returnVoid =>
    cases harity
    obtain rfl := List.eq_nil_of_length_eq_zero hn
    first
      | exact ⟨_, [], rfl, rfl, rfl⟩
      | exact ⟨_, [_], rfl, rfl, rfl⟩
  | pushImmediate =>
    cases harity
    obtain rfl := List.eq_nil_of_length_eq_zero hn
    cases operand with
    | immediate value => exact ⟨_, [_], rfl, rfl, rfl⟩
    | _ => cases hreads
  | load wide =>
    cases harity
    obtain rfl := List.eq_nil_of_length_eq_zero hn
    cases operand with
    | slot index => exact ⟨_, [_], rfl, rfl, rfl⟩
    | _ => cases hreads
  | increment =>
    cases harity
    obtain rfl := List.eq_nil_of_length_eq_zero hn
    cases operand <;> exact ⟨_, [], rfl, rfl, rfl⟩
  | store =>
    cases harity
    obtain ⟨a, rfl⟩ := List.length_eq_one_iff.mp hn
    cases operand <;> exact ⟨_, [], rfl, rfl, rfl⟩
  | switch | returnValue | throwValue | monitor =>
    cases harity
    obtain ⟨a, rfl⟩ := List.length_eq_one_iff.mp hn
    exact ⟨_, [], rfl, rfl, rfl⟩
  | negate | convert | arrayLength | newPrimitiveArray =>
    cases harity
    obtain ⟨a, rfl⟩ := List.length_eq_one_iff.mp hn
    exact ⟨_, [_], rfl, rfl, rfl⟩
  | arrayLoad | binary | compare =>
    cases harity
    obtain ⟨a, b, rfl⟩ := List.length_eq_two.mp hn
    exact ⟨_, [_], rfl, rfl, rfl⟩
  | arrayStore =>
    cases harity
    obtain ⟨a, b, c, rfl⟩ := List.length_eq_three.mp hn
    exact ⟨_, [], rfl, rfl, rfl⟩
  | branch =>
    obtain ⟨count, hcount, heq⟩ := Option.map_eq_some_iff.mp harity
    cases heq
    obtain ⟨⟨rel, against⟩, htest, rfl⟩ := Option.map_eq_some_iff.mp hcount
    have htake : takeValues? against.count (taken ++ rest) = some (taken.reverse.map StackValue.expr, rest) := by
      simp [takeValues?, hn, List.take_left' hn, List.drop_left' hn]
    obtain ⟨c, hc⟩ : ∃ c, condition? op (taken.reverse.map StackValue.expr).reverse = some c :=
      exists_condition? htest (by simp [hn])
    refine ⟨{ stack := rest, exit := some (.conditional c) }, [], ?_, rfl, rfl⟩
    simp only [applyEffect?, hcount, Option.getD_some, htake, bind, Option.bind_some, hc]
    rfl
  | pop | dup | swap | pooled => cases harity

lemma step_of_applyEffect? (hdecoded : i.isUndecoded = false) {stack : Stack} {r : Recovered}
    (h : applyEffect? ctx i (effectOf i.opcode) stack = some r) : step ctx i stack = .ok r := by
  unfold step
  split
  · next hop => simp [Instruction.isUndecoded, hop] at hdecoded
  · rw [h]

/-- **Steps.** Where the machine accepts an instruction, the symbolic step succeeds, and the symbolic stack has the
widths of the machine's. -/
lemma step_of_actOn? (hi : i.Encodable) (stack : Stack) {s : Shape} (h : actOn? i stack.shape = some s) :
    ∃ r, step ctx i stack = .ok r ∧ r.stack.shape = s := by
  obtain ⟨motion, hmotion, hact⟩ := Option.bind_eq_some_iff.mp h
  have hfollows := effectOf_follows hmotion
  suffices ∃ r, applyEffect? ctx i (effectOf i.opcode) stack = some r ∧ r.stack.shape = s by
    obtain ⟨r, hr, hshape⟩ := this
    exact ⟨r, step_of_applyEffect? hi.not_undecoded hr, hshape⟩
  have hreads := reads_of_encodable hi
  generalize effectOf i.opcode = effect at hfollows hreads
  cases motion with
  | apply takes gives =>
    obtain ⟨below, hshape, rfl⟩ := act_apply_eq_some.mp hact
    obtain ⟨taken, rest, rfl, rfl, rfl⟩ := List.map_eq_append_iff.mp hshape
    have harity : effect.arity? i.opcode = some (taken.length, gives) := by simpa [Effect.follows] using hfollows
    obtain ⟨r, pushed, hr, hstack, rfl⟩ := applyEffect?_of_arity harity hreads rfl
    exact ⟨r, hr, by simp [hstack, Stack.shape]⟩
  | pop words =>
    obtain ⟨⟨top, below⟩, hsplit, rfl⟩ := Option.map_eq_some_iff.mp hact
    obtain ⟨taken, rest, htake, -, hrest⟩ := takeWords?_of_splitWords? hsplit rfl
    cases effect with
    | pop words' =>
      obtain rfl : words' = words := by simpa [Effect.follows] using hfollows
      exact ⟨_, by simp only [applyEffect?, htake, bind, Option.bind_some]; rfl, hrest⟩
    | _ => cases hfollows
  | dup words skip =>
    obtain ⟨⟨top, rest⟩, hsplit, hact⟩ := Option.bind_eq_some_iff.mp hact
    obtain ⟨⟨below, rest'⟩, hsplit', hact⟩ := Option.bind_eq_some_iff.mp hact
    cases hact
    obtain ⟨vs, stack', htake, rfl, hstack'⟩ := takeWords?_of_splitWords? hsplit rfl
    obtain ⟨ws, stack'', htake', rfl, rfl⟩ := takeWords?_of_splitWords? hsplit' hstack'
    cases effect with
    | dup words' skip' =>
      obtain ⟨rfl, rfl⟩ : words' = words ∧ skip' = skip := by simpa [Effect.follows] using hfollows
      exact ⟨_, by simp only [applyEffect?, htake, htake', bind, Option.bind_some]; rfl, by simp [Stack.shape]⟩
    | _ => cases hfollows
  | swap =>
    obtain ⟨below, hshape, rfl⟩ := act_swap_eq_some.mp hact
    obtain ⟨a, stack, rfl, ha, hshape⟩ := List.map_eq_cons_iff.mp hshape
    obtain ⟨b, stack, rfl, hb, rfl⟩ := List.map_eq_cons_iff.mp hshape
    cases effect with
    | swap => exact ⟨_, rfl, by simp [Stack.shape, ha, hb]⟩
    | _ => cases hfollows

/-! ### Runs -/

/-- The shape behind instructions that are run one behind the other, if the machine accepts all of them. -/
def actAll? : List Instruction → Shape → Option Shape
  | [], s => some s
  | i :: rest, s => (actOn? i s).bind (actAll? rest)

lemma actAll?_append (front back : List Instruction) (s : Shape) :
    actAll? (front ++ back) s = (actAll? front s).bind (actAll? back) := by
  induction front generalizing s with
  | nil => rfl
  | cons i front ih =>
    cases h : actOn? i s <;> simp [actAll?, h, ih]

/-- **Runs.** Where the machine accepts instructions, the symbolic run over them succeeds, and the symbolic stack has
the widths of the machine's. -/
lemma run_of_actAll? {insns : List Instruction} (hinsns : ∀ i ∈ insns, i.Encodable) (stack : Stack) {s : Shape}
    (h : actAll? insns stack.shape = some s) : ∃ r, run ctx insns stack = .ok r ∧ r.stack.shape = s := by
  induction insns generalizing stack with
  | nil =>
    cases h
    exact ⟨{ stack }, rfl, rfl⟩
  | cons i insns ih =>
    obtain ⟨hi, hrest⟩ := List.forall_mem_cons.mp hinsns
    obtain ⟨s₁, hact, h⟩ := Option.bind_eq_some_iff.mp h
    obtain ⟨r₁, hstep, rfl⟩ := step_of_actOn? hi stack hact
    obtain ⟨r₂, hrun, hshape⟩ := ih hrest r₁.stack h
    exact ⟨r₁.andThen r₂, run_cons_of_ok hstep hrun, hshape⟩

end JvmLift.Recovery
