import Mathlib
import JvmLift.Proofs.SlotUses
import JvmLift.Proofs.Underneath

/-!
# Unfinished objects

An object is unfinished until its constructor has run. Before that its copies are only moved about on the stack, and the
one constructor call on one of them finishes them all. On the symbolic stack each copy is an expression of its own, and
the call looks for another copy only on top of what is below the one that it takes. So an unfinished object is shown as
such exactly as long as it is one, provided that every constructor call finds the only other copy there, or that there
is no other copy and no other object of the same class is there instead.
-/

namespace JvmLift.Source

/-! ### Finished expressions -/

namespace Expr

mutual

/-- Whether there is no object without a constructor in an expression. -/
def isFinished : Expr → Bool
  | uninit _ => false
  | int _ | long _ | float _ | double _ | string _ | classLit _ | null | bool _ | var _ => true
  | unary _ a | field a _ | length a | cast _ a | instanceOf a _ => a.isFinished
  | binary _ a b | index a b => a.isFinished && b.isFinished
  | new _ args | newArray _ args | staticCall _ _ args => allFinished args
  | call receiver _ _ args => receiver.isFinished && allFinished args
  | ternary c a b => c.isFinished && a.isFinished && b.isFinished

def allFinished : List Expr → Bool
  | [] => true
  | a :: as => a.isFinished && allFinished as

end

lemma allFinished_iff {as : List Expr} : allFinished as = true ↔ ∀ a ∈ as, a.isFinished = true := by
  induction as with
  | nil => simp [allFinished]
  | cons a as ih => simp [allFinished, ih]

end Expr

/-- A statement without an unfinished object in its own expressions. -/
def Stmt.IsFinished (s : Stmt) : Prop :=
  ∀ e ∈ s.exprs, e.isFinished = true

lemma Stmt.every_of_leaf {P : Stmt → Prop} {s : Stmt} (hleaf : s.isLeaf = true) (h : P s) : s.Every P := by
  cases s <;> first | exact h | cases hleaf

end JvmLift.Source

namespace JvmLift.Recovery

open Bytecode Source

/-! ### A machine that knows its objects -/

/-- An object whose constructor has not run: the instruction that made it, by its number in the run, and the name of its
class. -/
structure Unfinished where
  number : Nat
  type : String
  deriving DecidableEq, Repr

/-- What the machine knows of a value: its width, and which unfinished object it is a copy of, if it is one. -/
structure Held where
  wide : Bool
  object : Option Unfinished := none
  deriving DecidableEq, Repr

/-- The value after the constructor of an object has run. -/
def Held.finish (o : Unfinished) (v : Held) : Held :=
  if v.object = some o then { v with object := none } else v

/-- Takes values none of which is an unfinished object, and pushes others of the given widths. -/
def exchange? (n : Nat) (gives : Shape) (s : List Held) : Option (List Held) :=
  if n ≤ s.length ∧ ∀ v ∈ s.take n, v.object = none then some (gives.map (⟨·, none⟩) ++ s.drop n) else none

/-- The values of the top words, and those below. -/
def heldWords? (words : Nat) (s : List Held) : Option (List Held × List Held) :=
  (splitWords? words (s.map Held.wide)).map fun (top, _) => (s.take top.length, s.drop top.length)

/-- How many values the use of a pool entry takes and the widths of those that it pushes, where neither depends on the
stack. -/
def PoolUse.arity? (pool : Pool) (operand : Operand) (index : UInt16) : PoolUse → Option (Nat × Shape)
  | .constant wide => some (0, [(constantAt pool wide index).wide])
  | .getStatic => some (0, [isWideField (memberAt pool "field" index)])
  | .putStatic => some (1, [])
  | .getField => some (1, [isWideField (memberAt pool "field" index)])
  | .putField => some (2, [])
  | .invoke isStatic =>
    let d := MethodDescriptor.parseD (memberAt pool "method" index).descriptor
    some (d.params.length + if isStatic then 0 else 1, (d.ret.map FieldType.isWide).toList)
  | .invokeDynamic =>
    match pool.callSite? index with
    | some site =>
      let d := MethodDescriptor.parseD site.descriptor
      some (d.params.length, (d.ret.map FieldType.isWide).toList)
    | none => some (0, [])
  | .newArray | .instanceOf => some (1, [false])
  | .newMultiArray =>
    match operand with
    | .multiArray _ dimensions => some (dimensions.toNat, [false])
    | _ => some (1, [false])
  | .newObject | .checkCast => none

/-- The unfinished object whose constructor an instruction runs, and what is below the copy that it takes. -/
def constructed? (ctx : Context) (i : Instruction) (s : List Held) : Option (Unfinished × List Held) :=
  match i.isUndecoded, effectOf i.opcode, ctx.pool, poolIndex? i.operand with
  | false, .pooled (.invoke false), some pool, some index =>
    let member := memberAt pool "method" index
    let d := MethodDescriptor.parseD member.descriptor
    if member.name = "<init>" ∧ d.isVoid ∧ ∀ v ∈ s.take d.params.length, v.object = none then
      match s.drop d.params.length with
      | ⟨_, some o⟩ :: below => some (o, below)
      | _ => none
    else none
  | _, _, _, _ => none

/-- The values behind an instruction other than a constructor call on an unfinished object. Such objects are only moved
about and dropped. -/
def handle? (ctx : Context) (number : Nat) (i : Instruction) (s : List Held) : Option (List Held) :=
  match effectOf i.opcode with
  | .pop words => (heldWords? words s).map Prod.snd
  | .dup words skip => do
    let (top, s) ← heldWords? words s
    let (below, s) ← heldWords? skip s
    return top ++ below ++ top ++ s
  | .swap =>
    match s with
    | a :: b :: s => some (b :: a :: s)
    | _ => none
  | .pooled use => do
    let pool ← ctx.pool
    let index ← poolIndex? i.operand
    match use, s with
    | .newObject, s => return ⟨false, some ⟨number, classNameAt pool index⟩⟩ :: s
    | .checkCast, v :: s => if v.object = none then some (v :: s) else none
    | use, s =>
      let (n, gives) ← use.arity? pool i.operand index
      exchange? n gives s
  | effect => do
    let (n, gives) ← effect.arity? i.opcode
    if effect.reads i.operand then exchange? n gives s else none

/-- The values behind the instruction with the given number, if the machine accepts it. -/
def hold? (ctx : Context) (number : Nat) (i : Instruction) (s : List Held) : Option (List Held) :=
  if i.isUndecoded then some s
  else
    match constructed? ctx i s with
    | some (o, below) => some (below.map (Held.finish o))
    | none => handle? ctx number i s

/-- The values behind instructions that are numbered from `number` on. -/
def holdAll? (ctx : Context) : Nat → List Instruction → List Held → Option (List Held)
  | _, [], s => some s
  | number, i :: rest, s => (hold? ctx number i s).bind (holdAll? ctx (number + 1) rest)

/-! ### Constructor calls that are settled -/

/-- Whether what is below the copy that a constructor call takes has no other copy of the object than one on top, and no
other unfinished object of the same class on top. -/
def settled (o : Unfinished) : List Held → Bool
  | [] => true
  | top :: below => top.object.all (fun o' => o' = o || o'.type != o.type) && below.all (·.object != some o)

def settles (ctx : Context) (i : Instruction) (s : List Held) : Bool :=
  (constructed? ctx i s).all fun (o, below) => settled o below

/-- Whether every constructor call of a run is settled. -/
def settlesAll (ctx : Context) : Nat → List Instruction → List Held → Bool
  | _, [], _ => true
  | number, i :: rest, s => settles ctx i s && (hold? ctx number i s).all (settlesAll ctx (number + 1) rest)

/-! ### What the symbolic stack shows -/

/-- A symbolic value shows what the machine knows of a value: an unfinished object as such, and anything else as an
expression without unfinished objects. -/
structure Depicts (v : StackValue) (h : Held) : Prop where
  wide : v.wide = h.wide
  unfinished : ∀ o, h.object = some o → v.expr = .uninit o.type
  finished : h.object = none → v.expr.isFinished = true

/-- A symbolic stack shows the values of the machine, one by one. -/
abbrev DepictsAll (stack : Stack) (s : List Held) : Prop :=
  List.Forall₂ Depicts stack s

variable {ctx : Context} {i : Instruction} {stack taken rest : Stack} {s s' : List Held}

/-- No value is an unfinished object. -/
def AllFinished (stack : Stack) : Prop :=
  ∀ v ∈ stack, v.expr.isFinished = true

lemma DepictsAll.shape_eq (h : DepictsAll stack s) : stack.shape = s.map Held.wide := by
  induction h with
  | nil => rfl
  | cons hv _ ih => simp_all [Stack.shape, hv.wide]

lemma DepictsAll.allFinished (h : DepictsAll stack s) (hs : ∀ v ∈ s, v.object = none) : AllFinished stack := by
  induction h with
  | nil => exact List.forall_mem_nil _
  | cons hv _ ih =>
    rw [List.forall_mem_cons] at hs
    exact List.forall_mem_cons.mpr ⟨hv.finished hs.1, ih hs.2⟩

/-- An object without a constructor does nothing on its own. -/
lemma DepictsAll.isFinished_of_hasSideEffects (h : DepictsAll stack s) {v : StackValue} (hv : v ∈ stack)
    (hside : v.expr.hasSideEffects = true) : v.expr.isFinished = true := by
  induction h with
  | nil => cases hv
  | @cons _ top _ _ htop _ ih =>
    rcases List.mem_cons.mp hv with rfl | hv
    · cases hobject : top.object with
      | none => exact htop.finished hobject
      | some o => simp [htop.unfinished o hobject, Expr.hasSideEffects] at hside
    · exact ih hv

/-- Values without unfinished objects show values of their widths. -/
lemma depictsAll_of_shape {gives : Shape} (hshape : stack.shape = gives) (h : AllFinished stack) :
    DepictsAll stack (gives.map (⟨·, none⟩)) := by
  subst hshape
  induction stack with
  | nil => exact .nil
  | cons v stack ih =>
    rw [AllFinished, List.forall_mem_cons] at h
    exact .cons ⟨rfl, by simp, fun _ => h.1⟩ (ih h.2)

/-- The top words are the same values on both stacks. -/
lemma DepictsAll.takeWords? (h : DepictsAll stack s) {words : Nat} {top below : List Held}
    (hwords : heldWords? words s = some (top, below)) :
    ∃ taken rest, Recovery.takeWords? words stack = some (taken, rest) ∧ DepictsAll taken top ∧
      DepictsAll rest below := by
  obtain ⟨⟨shape, shape'⟩, hsplit, heq⟩ := Option.map_eq_some_iff.mp hwords
  cases heq
  obtain ⟨taken, rest, htake, rfl, -⟩ := takeWords?_of_splitWords? hsplit h.shape_eq
  refine ⟨taken, rest, htake, ?_⟩
  obtain rfl := append_of_takeWords? htake
  have hlength : (Stack.shape taken).length = taken.length := by simp [Stack.shape]
  have htop := List.forall₂_take taken.length h
  have hbelow := List.forall₂_drop taken.length h
  rw [List.take_left] at htop
  rw [List.drop_left] at hbelow
  exact ⟨hlength ▸ htop, hlength ▸ hbelow⟩

/-! ### Values that are taken and pushed -/

lemma inherited_isFinished : Inherited fun e => e.isFinished = true := by
  constructor
  · intro e he
    cases e <;> first | rfl | cases he
  all_goals simp [Expr.isFinished, Expr.allFinished_iff]

lemma takeValues?_append {n : Nat} (hn : taken.length = n) (rest : Stack) :
    takeValues? n (taken ++ rest) = some (taken.reverse.map StackValue.expr, rest) := by
  simp [takeValues?, hn, List.take_left' hn, List.drop_left' hn]

lemma shape_finishCall (ret : Option FieldType) (value : Expr) :
    (finishCall ret value []).stack.shape = (ret.map FieldType.isWide).toList := by
  cases ret <;> rfl

/-- A call on a finished object constructs nothing. -/
lemma callOn_of_isFinished {receiver : Expr} (hreceiver : receiver.isFinished = true) (member : Member)
    (ret : Option FieldType) (args : List Expr) (stack : Stack) : callOn receiver member ret args stack =
      finishCall ret (.call receiver (simpleClassName member.owner) member.name args) stack := by
  cases receiver <;> simp_all [callOn, Expr.isFinished]

lemma invoke?_of_arity {isStatic : Bool} {member : Member} {d : MethodDescriptor}
    (hd : MethodDescriptor.parseD member.descriptor = d)
    (hn : taken.length = d.params.length + if isStatic then 0 else 1) (hfinished : AllFinished taken) :
    ∃ r, invoke? ctx isStatic member taken = some r ∧ r.stack.shape = (d.ret.map FieldType.isWide).toList := by
  cases isStatic with
  | true =>
    have htake := takeValues?_append (show taken.length = d.params.length from hn) []
    rw [List.append_nil] at htake
    simp only [invoke?, hd, htake, bind, Option.bind_some, if_true, pure]
    split_ifs with hhidden
    · have hvoid : d.ret = none := by
        simpa [MethodDescriptor.isVoid] using (Bool.and_eq_true_iff.mp hhidden).1
      exact ⟨_, rfl, by rw [hvoid]; rfl⟩
    · exact ⟨_, rfl, shape_finishCall _ _⟩
  | false =>
    obtain rfl | ⟨args, receiver, rfl⟩ := List.eq_nil_or_concat' taken
    · simp at hn
    have htake := takeValues?_append (show args.length = d.params.length by simpa using hn) [receiver]
    have hreceiver : receiver.expr.isFinished = true := hfinished receiver (by simp)
    simp only [invoke?, hd, htake, bind, Option.bind_some, Bool.false_eq_true, if_false, pure]
    exact ⟨_, rfl, by rw [callOn_of_isFinished hreceiver, shape_finishCall]⟩

/-- A use of a pool entry that takes so many values succeeds on as many finished ones, and puts values of the given
widths in their place. -/
lemma usePool?_of_arity {pool : Pool} {operand : Operand} {index : UInt16} {use : PoolUse} {n : Nat} {gives : Shape}
    (harity : use.arity? pool operand index = some (n, gives)) (hn : taken.length = n) (hfinished : AllFinished taken) :
    ∃ r, usePool? ctx pool operand index use taken = some r ∧ r.stack.shape = gives := by
  cases use with
  | constant | getStatic =>
    cases harity
    obtain rfl := List.eq_nil_of_length_eq_zero hn
    exact ⟨_, rfl, rfl⟩
  | putStatic | getField | newArray | instanceOf =>
    cases harity
    obtain ⟨a, rfl⟩ := List.length_eq_one_iff.mp hn
    exact ⟨_, rfl, rfl⟩
  | putField =>
    cases harity
    obtain ⟨a, b, rfl⟩ := List.length_eq_two.mp hn
    exact ⟨_, rfl, rfl⟩
  | invoke isStatic =>
    cases harity
    exact invoke?_of_arity rfl hn hfinished
  | invokeDynamic =>
    simp only [PoolUse.arity?] at harity
    simp only [usePool?]
    cases hsite : pool.callSite? index with
    | some site =>
      simp only [hsite, Option.some.injEq, Prod.mk.injEq] at harity
      obtain ⟨hparams, rfl⟩ := harity
      have htake := takeValues?_append (hn.trans hparams.symm) []
      rw [List.append_nil] at htake
      simp only [invokeDynamic?, htake, bind, Option.bind_some, pure]
      exact ⟨_, rfl, shape_finishCall _ _⟩
    | none =>
      simp only [hsite, Option.some.injEq, Prod.mk.injEq] at harity
      obtain ⟨rfl, rfl⟩ := harity
      obtain rfl := List.eq_nil_of_length_eq_zero hn
      exact ⟨_, rfl, rfl⟩
  | newMultiArray =>
    have htake := takeValues?_append hn []
    rw [List.append_nil] at htake
    cases operand <;> cases harity <;> simp only [usePool?, htake, bind, Option.bind_some, pure] <;> exact ⟨_, rfl, rfl⟩
  | newObject | checkCast => cases harity

/-- An instruction that makes no object and succeeds on finished values alone exchanges them. -/
lemma DepictsAll.exchange (h : DepictsAll stack s) {n : Nat} {gives : Shape} (hs : exchange? n gives s = some s')
    {effect : Effect} (heffect : effectOf i.opcode = effect) (hnew : effect ≠ .pooled .newObject)
    (hok : ∀ taken : Stack, taken.length = n → AllFinished taken →
      ∃ r, applyEffect? ctx i effect taken = some r ∧ r.stack.shape = gives) :
    ∃ r, applyEffect? ctx i effect stack = some r ∧ (∀ t ∈ r.stmts, t.IsFinished) ∧ DepictsAll r.stack s' := by
  subst heffect
  unfold exchange? at hs
  split_ifs at hs with htaken
  cases hs
  have hlength : n ≤ stack.length := h.length_eq ▸ htaken.1
  have hfinished : AllFinished (stack.take n) := DepictsAll.allFinished (List.forall₂_take n h) htaken.2
  obtain ⟨r, hr, hshape⟩ := hok _ (List.length_take_of_le hlength) hfinished
  -- below the values that are taken nothing is looked at, since no unfinished object is among them
  have hunseen : Unseen (stack.take n) (stack.drop n) := by
    refine .inl fun v hv => ?_
    rintro ⟨type, htype⟩
    have hmarker := hfinished v hv
    simp [htype, Expr.isFinished] at hmarker
  have habove := applyEffect?_above hr (.inr hunseen)
  rw [List.take_append_drop] at habove
  have hholds := holds_of_applyEffect? inherited_isFinished hr hfinished (fun _ _ => rfl) fun hnew' => absurd hnew' hnew
  exact ⟨_, habove, hholds.stmts, List.rel_append (depictsAll_of_shape hshape hholds.stack) (List.forall₂_drop n h)⟩

/-! ### Constructor calls -/

lemma Depicts.finish_iff {v : StackValue} {h : Held} (hv : Depicts v h) (o : Unfinished) :
    Depicts v (h.finish o) ↔ h.object ≠ some o := by
  by_cases ho : h.object = some o
  · -- the value is still shown as the object without its constructor
    refine iff_of_false (fun hfinish => ?_) (not_not_intro ho)
    have hexpr := hfinish.finished (by simp [Held.finish, ho])
    simp [hv.unfinished o ho, Expr.isFinished] at hexpr
  · simpa [Held.finish, ho] using hv

/-- Values that nothing is done to show the values behind a constructor call only if none is a copy of its object. -/
lemma DepictsAll.finish_iff (h : DepictsAll stack s) (o : Unfinished) :
    DepictsAll stack (s.map (Held.finish o)) ↔ ∀ v ∈ s, v.object ≠ some o := by
  induction h with
  | nil => simp
  | cons hv _ ih => simp [hv.finish_iff, ih]

/-- **Constructor calls.** What is below the object shows the values behind the call exactly if the call is settled. -/
lemma DepictsAll.construct_iff (h : DepictsAll stack s) (o : Unfinished) {args : List Expr}
    (hargs : Expr.allFinished args = true) :
    DepictsAll (construct o.type args stack).stack (s.map (Held.finish o)) ↔ settled o s = true := by
  cases h with
  | nil => simp [construct, settled]
  | @cons v top stack s hv hrest =>
    obtain ⟨e, wide⟩ := v
    obtain ⟨wide', object⟩ := top
    have hbelow := DepictsAll.finish_iff hrest o
    cases object with
    | none =>
      have hstack : (construct o.type args (⟨e, wide⟩ :: stack)).stack = ⟨e, wide⟩ :: stack := by
        have hfinished := hv.finished rfl
        cases e <;> first | rfl | simp [Expr.isFinished] at hfinished
      simp [hstack, settled, hv.finish_iff, hbelow]
    | some o' =>
      obtain rfl : e = .uninit o'.type := hv.unfinished o' rfl
      by_cases htype : o'.type = o.type
      · have hstack : (construct o.type args (⟨.uninit o'.type, wide⟩ :: stack)).stack =
            ⟨.new o.type args, wide⟩ :: stack := by simp [construct, htype]
        have htop : Depicts ⟨.new o.type args, wide⟩ (Held.finish o ⟨wide', some o'⟩) ↔ o' = o := by
          refine ⟨fun hnew => ?_, ?_⟩
          · by_contra hne
            have hmarker := hnew.unfinished o' (by simp [Held.finish, hne])
            cases hmarker
          · rintro rfl
            exact ⟨by simpa [Held.finish] using hv.wide, by simp [Held.finish],
              fun _ => by simpa [Expr.isFinished] using hargs⟩
        rw [hstack]
        simp [settled, htop, hbelow, htype]
      · have hstack : (construct o.type args (⟨.uninit o'.type, wide⟩ :: stack)).stack =
            ⟨.uninit o'.type, wide⟩ :: stack := by simp [construct, htype]
        have hne : o' ≠ o := fun heq => htype (congrArg Unfinished.type heq)
        simp [hstack, settled, hv.finish_iff, hbelow, htype, hne]

lemma isFinished_of_mem_construct {type : String} {args : List Expr} (hargs : Expr.allFinished args = true)
    (stack : Stack) : ∀ t ∈ (construct type args stack).stmts, t.IsFinished := by
  unfold construct
  split
  · split_ifs
    · exact List.forall_mem_nil _
    · simpa [Stmt.IsFinished, Stmt.exprs, Expr.isFinished] using hargs
  · simpa [Stmt.IsFinished, Stmt.exprs, Expr.isFinished] using hargs

/-- A stack at a value below finished ones. -/
lemma DepictsAll.split_at (h : DepictsAll stack s) {n : Nat} {top : Held} {below : List Held}
    (hdrop : s.drop n = top :: below) (hs : ∀ v ∈ s.take n, v.object = none) :
    ∃ taken v rest, stack = taken ++ v :: rest ∧ taken.length = n ∧ AllFinished taken ∧ Depicts v top ∧
      DepictsAll rest below := by
  have hbelow := List.forall₂_drop n h
  rw [hdrop] at hbelow
  obtain ⟨v, rest, hv, hrest, hstack⟩ := List.forall₂_cons_right_iff.mp hbelow
  have hlength : n ≤ stack.length := by
    by_contra hlt
    rw [List.drop_eq_nil_of_le (by omega)] at hstack
    cases hstack
  exact ⟨stack.take n, v, rest, hstack ▸ (List.take_append_drop n stack).symm, List.length_take_of_le hlength,
    DepictsAll.allFinished (List.forall₂_take n h) hs, hv, hrest⟩

/-- The call of a constructor on an unfinished object takes finished arguments and the object. -/
lemma step_of_constructed? (h : DepictsAll stack s) {o : Unfinished} {below : List Held}
    (hcall : constructed? ctx i s = some (o, below)) :
    ∃ args rest, step ctx i stack = .ok (construct o.type args rest) ∧ Expr.allFinished args = true ∧
      DepictsAll rest below := by
  unfold constructed? at hcall
  split at hcall
  · next pool index hdecoded heffect hpool hindex =>
    dsimp only at hcall
    split_ifs at hcall with hinit
    obtain ⟨hname, -, hargs⟩ := hinit
    generalize hn : (MethodDescriptor.parseD (memberAt pool "method" index).descriptor).params.length = n at hcall hargs
    split at hcall
    · next wide _ _ hdrop =>
      cases hcall
      obtain ⟨taken, v, rest, rfl, hlength, htaken, hv, hrest⟩ := h.split_at hdrop hargs
      refine ⟨taken.reverse.map StackValue.expr, rest, step_of_applyEffect? hdecoded ?_, ?_, hrest⟩
      · have htake := takeValues?_append hlength (v :: rest)
        simp [applyEffect?, heffect, hpool, hindex, usePool?, invoke?, hn, htake, callOn, hname, hv.unfinished o rfl]
      · simpa [Expr.allFinished_iff, AllFinished] using htaken
    · cases hcall
  · cases hcall

/-- Any other instruction that the machine accepts. -/
lemma step_of_handle? (hdecoded : i.isUndecoded = false) (h : DepictsAll stack s) {number : Nat}
    (hhandle : handle? ctx number i s = some s') :
    ∃ r, step ctx i stack = .ok r ∧ (∀ t ∈ r.stmts, t.IsFinished) ∧ DepictsAll r.stack s' := by
  suffices ∃ r, applyEffect? ctx i (effectOf i.opcode) stack = some r ∧ (∀ t ∈ r.stmts, t.IsFinished) ∧
      DepictsAll r.stack s' by
    obtain ⟨r, hr, hshown⟩ := this
    exact ⟨r, step_of_applyEffect? hdecoded hr, hshown⟩
  unfold handle? at hhandle
  generalize heffect : effectOf i.opcode = effect at hhandle
  cases effect with
  | pop words =>
    obtain ⟨⟨top, below⟩, hwords, rfl⟩ := Option.map_eq_some_iff.mp hhandle
    obtain ⟨taken, rest, htake, htop, hbelow⟩ := h.takeWords? hwords
    refine ⟨_, by simp only [applyEffect?, htake, bind, Option.bind_some]; rfl, fun t ht => ?_, hbelow⟩
    obtain ⟨v, hv, rfl⟩ := List.mem_map.mp ht
    obtain ⟨hv, hside⟩ := List.mem_filter.mp hv
    simpa [Stmt.IsFinished, Stmt.exprs] using htop.isFinished_of_hasSideEffects (List.mem_reverse.mp hv) hside
  | dup words skip =>
    obtain ⟨⟨top, behind⟩, hwords, hhandle⟩ := Option.bind_eq_some_iff.mp hhandle
    obtain ⟨⟨below, rest⟩, hwords', hhandle⟩ := Option.bind_eq_some_iff.mp hhandle
    cases hhandle
    obtain ⟨vs, stack', htake, htop, hbehind⟩ := h.takeWords? hwords
    obtain ⟨ws, stack'', htake', hbelow, hrest⟩ := hbehind.takeWords? hwords'
    refine ⟨{ stack := vs ++ ws ++ vs ++ stack'' }, ?_, List.forall_mem_nil _, ?_⟩
    · simp only [applyEffect?, htake, htake', bind, Option.bind_some]
      rfl
    exact List.rel_append (List.rel_append (List.rel_append htop hbelow) htop) hrest
  | swap =>
    cases h with
    | nil => cases hhandle
    | cons ha h =>
      cases h with
      | nil => cases hhandle
      | cons hb h =>
        cases hhandle
        exact ⟨_, rfl, List.forall_mem_nil _, .cons hb (.cons ha h)⟩
  | pooled use =>
    obtain ⟨pool, hpool, hhandle⟩ := Option.bind_eq_some_iff.mp hhandle
    obtain ⟨index, hindex, hhandle⟩ := Option.bind_eq_some_iff.mp hhandle
    have huse (stack : Stack) :
        applyEffect? ctx i (.pooled use) stack = usePool? ctx pool i.operand index use stack := by
      simp [applyEffect?, hpool, hindex]
    rw [huse]
    split at hhandle
    · cases hhandle
      exact ⟨_, rfl, List.forall_mem_nil _, .cons ⟨rfl, by simp, by simp⟩ h⟩
    · split_ifs at hhandle with hfinished
      cases hhandle
      cases h with
      | cons hv h =>
        refine ⟨_, rfl, List.forall_mem_nil _, .cons ⟨hv.wide, by simp [hfinished], fun _ => ?_⟩ h⟩
        simpa [Expr.isFinished] using hv.finished hfinished
    · next hnew _ =>
      obtain ⟨⟨n, gives⟩, harity, hhandle⟩ := Option.bind_eq_some_iff.mp hhandle
      rw [← huse]
      refine h.exchange hhandle heffect (by simpa using hnew) fun taken hn hfinished => ?_
      rw [huse]
      exact usePool?_of_arity harity hn hfinished
  | _ =>
    obtain ⟨⟨n, gives⟩, harity, hhandle⟩ := Option.bind_eq_some_iff.mp hhandle
    dsimp only at hhandle
    split_ifs at hhandle with hreads
    refine h.exchange hhandle heffect (by simp) fun taken hn _ => ?_
    obtain ⟨r, pushed, hr, hstack, hshape⟩ : ∃ r pushed, applyEffect? ctx i _ (taken ++ []) = some r ∧
        r.stack = pushed ++ [] ∧ Stack.shape pushed = gives := applyEffect?_of_arity harity hreads hn
    rw [List.append_nil] at hr hstack
    exact ⟨r, hr, hstack ▸ hshape⟩

/-- **Steps.** Where the machine accepts an instruction, the symbolic step succeeds without a statement that has an
unfinished object in it, and its stack shows the values of the machine exactly if a constructor call is settled. -/
lemma step_of_hold? (h : DepictsAll stack s) {number : Nat} (hhold : hold? ctx number i s = some s') :
    ∃ r, step ctx i stack = .ok r ∧ (∀ t ∈ r.stmts, t.IsFinished) ∧
      (DepictsAll r.stack s' ↔ settles ctx i s = true) := by
  unfold hold? at hhold
  split_ifs at hhold with hdecoded
  · cases hhold
    have hnone : constructed? ctx i s = none := by simp [constructed?, hdecoded]
    obtain ⟨bytes, reason, hoperand⟩ : ∃ bytes reason, i.operand = .undecoded bytes reason := by
      unfold Instruction.isUndecoded at hdecoded
      split at hdecoded
      · exact ⟨_, _, ‹_›⟩
      · cases hdecoded
    refine ⟨_, by simp only [step, hoperand]; rfl, ?_, ?_⟩
    · simp [Stmt.IsFinished, Stmt.exprs]
    · exact iff_of_true h (by simp [settles, hnone])
  · cases hcall : constructed? ctx i s with
    | none =>
      rw [hcall] at hhold
      obtain ⟨r, hr, hstmts, hshows⟩ := step_of_handle? (Bool.eq_false_iff.mpr hdecoded) h hhold
      exact ⟨r, hr, hstmts, iff_of_true hshows (by simp [settles, hcall])⟩
    | some call =>
      obtain ⟨o, below⟩ := call
      rw [hcall] at hhold
      cases hhold
      obtain ⟨args, rest, hr, hargs, hrest⟩ := step_of_constructed? h hcall
      refine ⟨_, hr, isFinished_of_mem_construct hargs rest, ?_⟩
      simpa [settles, hcall] using hrest.construct_iff o hargs

/-! ### Runs -/

/-- A run succeeds without a statement that has an unfinished object in it, and its stack shows the values of the
machine behind the run. -/
def ShowsObjects (ctx : Context) (number : Nat) (insns : List Instruction) (stack : Stack) (s : List Held) : Prop :=
  ∃ r s', run ctx insns stack = .ok r ∧ holdAll? ctx number insns s = some s' ∧ (∀ t ∈ r.stmts, t.IsFinished) ∧
    DepictsAll r.stack s'

lemma showsObjects_nil {number : Nat} : ShowsObjects ctx number [] stack s ↔ DepictsAll stack s := by
  constructor
  · rintro ⟨_, _, ⟨⟩, ⟨⟩, -, h⟩
    exact h
  · exact fun h => ⟨_, _, rfl, rfl, List.forall_mem_nil _, h⟩

/-- Behind a step without an unfinished object in a statement, a run shows the objects as its rest does. -/
lemma showsObjects_cons {number : Nat} {rest : List Instruction} {r : Recovered} (hstep : step ctx i stack = .ok r)
    (hstmts : ∀ t ∈ r.stmts, t.IsFinished) (hhold : hold? ctx number i s = some s') :
    ShowsObjects ctx number (i :: rest) stack s ↔ ShowsObjects ctx (number + 1) rest r.stack s' := by
  constructor
  · rintro ⟨_, final, hrun, hall, hfinished, hshows⟩
    obtain ⟨r₁, r₂, h₁, h₂, rfl⟩ := run_cons_ok hrun
    obtain rfl : r = r₁ := by simpa [hstep] using h₁
    rw [holdAll?, hhold] at hall
    exact ⟨r₂, final, h₂, hall, fun t ht => hfinished t (List.mem_append_right _ ht), hshows⟩
  · rintro ⟨r₂, final, hrun, hall, hfinished, hshows⟩
    refine ⟨_, final, run_cons_of_ok hstep hrun, ?_, List.forall_mem_append.mpr ⟨hstmts, hfinished⟩, hshows⟩
    rw [holdAll?, hhold]
    exact hall

/-- **Runs.** Every beginning of a run shows the objects exactly if all constructor calls of the run are settled. -/
lemma settlesAll_iff_showsObjects {insns : List Instruction} {number : Nat} {final : List Held}
    (hall : holdAll? ctx number insns s = some final) (h : DepictsAll stack s) :
    settlesAll ctx number insns s = true ↔ ∀ k, ShowsObjects ctx number (insns.take k) stack s := by
  induction insns generalizing number stack s with
  | nil => simpa [settlesAll, showsObjects_nil] using h
  | cons i rest ih =>
    obtain ⟨s₁, hhold, hrest⟩ := Option.bind_eq_some_iff.mp hall
    obtain ⟨r, hstep, hstmts, hshows⟩ := step_of_hold? h hhold
    have hcons (k : Nat) : ShowsObjects ctx number ((i :: rest).take (k + 1)) stack s ↔
        ShowsObjects ctx (number + 1) (rest.take k) r.stack s₁ := showsObjects_cons hstep hstmts hhold
    rw [settlesAll, hhold, Option.all_some, Bool.and_eq_true, ← hshows]
    constructor
    · rintro ⟨hstack, hsettles⟩ k
      cases k with
      | zero => exact showsObjects_nil.mpr h
      | succ k => exact (hcons k).mpr ((ih hrest hstack).mp hsettles k)
    · intro hbeginnings
      -- the beginning of one instruction is the step
      have hstack : DepictsAll r.stack s₁ := showsObjects_nil.mp ((hcons 0).mp (hbeginnings 1))
      exact ⟨hstack, (ih hrest hstack).mpr fun k => (hcons k).mp (hbeginnings (k + 1))⟩

/-! ### Main statement -/

/-- **Unfinished objects are not shown.** Let the machine accept a run from an empty stack and hold no unfinished object
at its end: until its constructor runs, an object is only moved about on the stack. If all constructor calls of the run
are settled, neither a statement nor a value of the last stack has an unfinished object in it. And they are settled
exactly if behind every beginning of the run the symbolic stack shows the unfinished objects of the machine as such, and
no others. -/
theorem unfinished_not_shown {ctx : Context} {insns : List Instruction} {final : List Held}
    (haccepts : holdAll? ctx 0 insns [] = some final) (hfinal : ∀ v ∈ final, v.object = none) :
    (settlesAll ctx 0 insns [] = true → ∃ r, run ctx insns [] = .ok r ∧ Stmt.EveryIn Stmt.IsFinished r.stmts ∧
      ∀ v ∈ r.stack, v.expr.isFinished = true) ∧
    (settlesAll ctx 0 insns [] = true ↔ ∀ k, ShowsObjects ctx 0 (insns.take k) [] []) := by
  have hiff := settlesAll_iff_showsObjects haccepts .nil
  refine ⟨fun hsettles => ?_, hiff⟩
  obtain ⟨r, s', hrun, hall, hstmts, hshows⟩ := hiff.mp hsettles insns.length
  rw [List.take_length] at hrun hall
  obtain rfl : final = s' := by simpa [haccepts] using hall
  refine ⟨r, hrun, Stmt.everyIn_iff.mpr fun t ht => ?_, hshows.allFinished hfinal⟩
  exact Stmt.every_of_leaf ((proper_of_run hrun).leaf t ht) (hstmts t ht)

/-- A context with two constructors of one class, at the indices 6 and 12 of its pool. The class is at the index 2. -/
def twoConstructors : Context where
  method := "m"
  names := Naming.numbered
  pool := some <| [⟨"A", "<init>", "()V"⟩, ⟨"A", "<init>", "(LA;)V"⟩].foldl
    (fun pool member => (pool.addMember .method member).2) Pool.new

/-- `new A; dup; new A; dup; invokespecial A.<init>; invokespecial A.<init>; areturn` -/
def nestedObjects : List Instruction :=
  [⟨0, ⟨0xbb⟩, .pool 2, 3⟩, ⟨3, ⟨0x59⟩, .none, 1⟩, ⟨4, ⟨0xbb⟩, .pool 2, 3⟩, ⟨7, ⟨0x59⟩, .none, 1⟩,
    ⟨8, ⟨0xb7⟩, .pool 6, 3⟩, ⟨11, ⟨0xb7⟩, .pool 12, 3⟩, ⟨14, ⟨0xb0⟩, .none, 1⟩]

/-- The theorem at a run that makes an object of a class for the constructor of another object of that class. -/
theorem nestedObjects_not_shown :
    holdAll? twoConstructors 0 nestedObjects [] = some [] ∧ settlesAll twoConstructors 0 nestedObjects [] = true ∧
    ∃ r, run twoConstructors nestedObjects [] = .ok r ∧ r.stmts = [.returnValue (.new "A" [.new "A" []])] ∧
      Stmt.EveryIn Stmt.IsFinished r.stmts := by
  have haccepts : holdAll? twoConstructors 0 nestedObjects [] = some [] := by decide +kernel
  have hsettles : settlesAll twoConstructors 0 nestedObjects [] = true := by decide +kernel
  have hreturns : run twoConstructors nestedObjects [] =
      .ok { stmts := [.returnValue (.new "A" [.new "A" []])], stack := [] } := by cbv
  obtain ⟨r, hrun, hstmts, -⟩ := (unfinished_not_shown haccepts (List.forall_mem_nil _)).1 hsettles
  obtain rfl := Except.ok.inj (hreturns.symm.trans hrun)
  exact ⟨haccepts, hsettles, _, hrun, rfl, hstmts⟩

/-- `iconst_5; new A; dup_x1; invokespecial A.<init>; istore_0; areturn` -/
def objectBelowNumber : List Instruction :=
  [⟨0, ⟨0x08⟩, .none, 1⟩, ⟨1, ⟨0xbb⟩, .pool 2, 3⟩, ⟨4, ⟨0x5a⟩, .none, 1⟩, ⟨5, ⟨0xb7⟩, .pool 6, 3⟩,
    ⟨8, ⟨0x3b⟩, .slot 0, 1⟩, ⟨9, ⟨0xb0⟩, .none, 1⟩]

/-- With a number between the two copies of an object, the constructor call on the one leaves the other unfinished, and
it is returned as such. -/
theorem objectBelowNumber_shown :
    holdAll? twoConstructors 0 objectBelowNumber [] = some [] ∧
    settlesAll twoConstructors 0 objectBelowNumber [] = false ∧
    ∃ r, run twoConstructors objectBelowNumber [] = .ok r ∧
      r.stmts = [.evaluate (.new "A" []), .assign (.var "v0") (.int 5), .returnValue (.uninit "A")] ∧
      ¬ Stmt.EveryIn Stmt.IsFinished r.stmts := by
  have hreturns : run twoConstructors objectBelowNumber [] = .ok
      { stmts := [.evaluate (.new "A" []), .assign (.var "v0") (.int 5), .returnValue (.uninit "A")]
        stack := [] } := by cbv
  refine ⟨by decide +kernel, by decide +kernel, _, hreturns, rfl, ?_⟩
  simp [Stmt.EveryIn, Stmt.Every, Stmt.IsFinished, Stmt.exprs, Expr.isFinished]

end JvmLift.Recovery
