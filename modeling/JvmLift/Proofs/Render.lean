import Mathlib
import JvmLift.Proofs.FlowTrace

/-!
# Statements that render runs through a graph

Statements inside constructs end in one of four ways, and for each the constructs around say at which block the run
goes on: behind the statements, at the exit of the innermost construct, at the header of the innermost loop, or
nowhere. Statements render a piece of a graph if, followed by what the graph does from there on, they have the traces
of the piece. There is one rule for each kind of construct.
-/

namespace JvmLift.Structure.Setting

open Bytecode JvmLift.Flow Recovery Source Trace Behaviour

variable {s : Setting} {scope : Scope} {id : BlockId} {next : Option BlockId} {stmts : List Stmt}

/-- Goes on at a block, if there is one. -/
def toward (V : BlockId → Behaviour Ending) : Option BlockId → Behaviour Ending
  | none => ends .done
  | some id => V id

/-- What follows behind statements of a scope, which `next` is behind. -/
def leadOn (V : BlockId → Behaviour Ending) (scope : Scope) (next : Option BlockId) : Ending → Behaviour Ending
  | .done => toward V next
  | .broken => toward V (scope.frames.head?.bind Frame.exit)
  | .continued => toward V (scope.frames.findSome? Frame.header)
  | .left => ends .left
  | .cut => ends .cut

lemma toward_mono {V V' : BlockId → Behaviour Ending} (h : V ≤ V') : ∀ target, toward V target ≤ toward V' target
  | none => le_rfl
  | some id => h id

lemma leadOn_mono {V V' : BlockId → Behaviour Ending} (h : V ≤ V') (scope : Scope) (next : Option BlockId) :
    leadOn V scope next ≤ leadOn V' scope next := by
  intro x
  cases x with
  | done | broken | continued => exact toward_mono h _
  | left | cut => exact le_rfl

lemma andThen_leadOn_mono {V V' : BlockId → Behaviour Ending} (h : V ≤ V') (A : Behaviour Ending) (scope : Scope)
    (next : Option BlockId) : A.andThen (leadOn V scope next) ≤ A.andThen (leadOn V' scope next) :=
  andThen_mono le_rfl fun x _ _ => leadOn_mono h scope next x

lemma leadOn_cut (V : BlockId → Behaviour Ending) (scope : Scope) (next : Option BlockId) :
    leadOn V scope next .cut = ends .cut := rfl

/-- What is behind statements matters only if their end is reached. -/
lemma leadOn_of_ne_done {x : Ending} (h : x ≠ .done) (V : BlockId → Behaviour Ending) (scope : Scope)
    (next next' : Option BlockId) : leadOn V scope next x = leadOn V scope next' x := by
  cases x <;> first | rfl | exact absurd rfl h

lemma leadOn_some (V : BlockId → Behaviour Ending) (scope : Scope) (id : BlockId) (next : Option BlockId) (x : Ending) :
    leadOn V scope (some id) x = if x = .done then V id else leadOn V scope next x := by
  cases x <;> rfl

/-- Statements may be interrupted, or lead on without an event to a block, from which the run may be interrupted. -/
lemma cut_le_leadOn {A : Behaviour Ending} (h : (runsEach stmts).andThen (leadOn s.flows scope next) ≤ A)
    (hA : OnlyLeaves A) (n : Nat) : ends .cut ≤ (runsEach stmts).andThen (leadOn (s.flowsFor n) scope next) := by
  obtain ⟨x, hx, hsilent⟩ := silent_runsEach stmts
  have htoward (target : Option BlockId) (htarget : leadOn s.flows scope next x = toward s.flows target) :
      toward (s.flowsFor n) target [] .cut := by
    cases target with
    | some id => exact cut_le_flowsFor n id [] .cut ⟨rfl, rfl⟩
    | none =>
      have hnowhere : leadOn s.flows scope next x [] .done := htarget ▸ ⟨rfl, rfl⟩
      rcases hA [] .done (h [] .done ⟨[], [], x, rfl, hsilent, hnowhere⟩) with h | h <;> cases h
  rintro _ _ ⟨rfl, rfl⟩
  refine ⟨[], [], x, rfl, hsilent, ?_⟩
  cases x with
  | done | broken | continued => exact htoward _ rfl
  | left => exact absurd rfl hx
  | cut => exact ⟨rfl, rfl⟩

/-- Statements with `next` behind them render a piece of a graph, which is given by its traces `F V` if those of blocks
are `V`: they have no further traces, and they have every trace of bounded length. -/
structure Renders (s : Setting) (scope : Scope) (F : (BlockId → Behaviour Ending) → Behaviour Ending)
    (stmts : List Stmt) (next : Option BlockId) : Prop where
  sound : (runsEach stmts).andThen (leadOn s.flows scope next) ≤ F s.flows
  complete : ∀ n, F (s.flowsFor n) ≤ (runsEach stmts).andThen (leadOn (s.flowsFor n) scope next)

variable {F G : (BlockId → Behaviour Ending) → Behaviour Ending}

lemma renders_of_eq (h : ∀ V, (runsEach stmts).andThen (leadOn V scope next) = F V) : s.Renders scope F stmts next :=
  ⟨(h _).le, fun _ => (h _).ge⟩

namespace Renders

lemma congr (h : s.Renders scope F stmts next) (hsound : F s.flows ≤ G s.flows)
    (hcomplete : ∀ n, G (s.flowsFor n) ≤ F (s.flowsFor n)) : s.Renders scope G stmts next :=
  ⟨h.sound.trans hsound, fun n => (hcomplete n).trans (h.complete n)⟩

/-- Statements with nowhere to go on do not come to their end. -/
lemma not_done (h : s.Renders scope F stmts none) (hF : OnlyLeaves (F s.flows)) (t : List Event) :
    ¬ runsEach stmts t .done := by
  intro hdone
  have htrace : F s.flows t .done := h.sound t .done ⟨t, [], .done, by simp, hdone, rfl, rfl⟩
  rcases hF t .done htrace with h | h <;> cases h

/-- Statements with nowhere to go on may stand in front of anything. -/
lemma before (h : s.Renders scope F stmts none) (hF : OnlyLeaves (F s.flows)) (next : Option BlockId) :
    s.Renders scope F stmts next := by
  have heq (V : BlockId → Behaviour Ending) :
      (runsEach stmts).andThen (leadOn V scope next) = (runsEach stmts).andThen (leadOn V scope none) := by
    refine andThen_congr fun x t hx => leadOn_of_ne_done (fun hdone => ?_) V scope next none
    exact h.not_done hF t (hdone ▸ hx)
  exact ⟨(heq _).trans_le h.sound, fun n => (h.complete n).trans (heq _).ge⟩

/-- Statements that render the way through a block render the runs from its start. -/
lemma of_through (hs : s.Regular) (h : s.Renders scope (s.through · id) stmts next) :
    s.Renders scope (· id) stmts next := by
  have hsound := h.sound.trans (through_flows id).le
  refine ⟨hsound, fun n => ?_⟩
  cases n with
  | zero => exact cut_le_leadOn hsound (hs.onlyLeaves_flows id) 0
  | succ n => exact (h.complete n).trans (andThen_leadOn_mono (flowsFor_le_succ n) _ scope next)

/-- Statements one behind the other. -/
lemma append {next' : Option BlockId} {rest : List Stmt} (h : s.Renders scope F stmts (some id))
    (hrest : s.Renders scope (· id) rest next') : s.Renders scope F (stmts ++ rest) next' := by
  have heq (V : BlockId → Behaviour Ending) : (runsEach stmts).andThen (leadOn V scope (some id)) =
      (runsEach stmts).andThen fun x => if x = .done then V id else leadOn V scope next' x :=
    congrArg _ (funext (leadOn_some V scope id next'))
  have hmono {A B : Behaviour Ending} (hAB : A ≤ B) (K : Ending → Behaviour Ending) :
      (runsEach stmts).andThen (fun x => if x = .done then A else K x) ≤
        (runsEach stmts).andThen fun x => if x = .done then B else K x := by
    refine andThen_mono le_rfl fun x _ _ => ?_
    split
    · exact hAB
    · exact le_rfl
  refine ⟨?_, fun n => ?_⟩
  · rw [runsEach_append_andThen]
    exact (hmono hrest.sound _).trans ((heq _).ge.trans h.sound)
  · rw [runsEach_append_andThen]
    exact (h.complete n).trans ((heq _).le.trans (hmono (hrest.complete n) _))

/-- Statements with no construct around and nothing behind have the runs that they render. -/
lemma runsEach_eq (hs : s.Regular) (h : s.Renders {} (· id) stmts none) : runsEach stmts = s.flows id := by
  have hleaves : OnlyLeaves (runsEach stmts) := by
    intro t x hx
    have hnot (hnowhere : leadOn s.flows {} none x = ends .done) : False := by
      have hdone := h.sound t .done ⟨t, [], x, by simp, hx, hnowhere ▸ ⟨rfl, rfl⟩⟩
      rcases hs.onlyLeaves_flows id t .done hdone with h | h <;> cases h
    cases x with
    | done | broken | continued => exact (hnot rfl).elim
    | left => exact .inl rfl
    | cut => exact .inr rfl
  have heq (V : BlockId → Behaviour Ending) : (runsEach stmts).andThen (leadOn V {} none) = runsEach stmts := by
    conv_rhs => rw [← andThen_ends (runsEach stmts)]
    refine andThen_congr fun x t hx => ?_
    rcases hleaves t x hx with rfl | rfl <;> rfl
  refine le_antisymm ((heq _).ge.trans h.sound) ?_
  rintro t x ⟨n, hn⟩
  exact heq (s.flowsFor n) ▸ h.complete n t x hn

end Renders

/-- A block at which arms stop is no target of jumps. -/
lemma renders_withStop {stop : Option BlockId} (h : s.Renders (scope.withStop stop) F stmts next) :
    s.Renders scope F stmts next := by
  have heq (V : BlockId → Behaviour Ending) : leadOn V (scope.withStop stop) next = leadOn V scope next := by
    funext x
    cases x <;> rfl
  exact ⟨heq s.flows ▸ h.sound, fun n => heq (s.flowsFor n) ▸ h.complete n⟩

/-! ### Jumps and blocks -/

/-- A jump leads on to its target. -/
lemma runs_jump {jump : Stmt} (h : scope.jump? s.graph id = .ok (some jump)) (V : BlockId → Behaviour Ending)
    (next : Option BlockId) : (runs jump).andThen (leadOn V scope next) = V id := by
  simp only [Scope.jump?] at h
  split_ifs at h with hbreak hcontinue
  · cases h
    have htarget : scope.frames.head?.bind Frame.exit = some id := by
      cases hframe : scope.frames.head? with
      | none => simp [hframe] at hbreak
      | some frame => simpa [hframe] using hbreak
    simp [runs, leadOn, htarget, toward]
  · cases h
    simp [runs, leadOn, beq_iff_eq.mp hcontinue, toward]
  · cases h

lemma renders_jump {jump : Stmt} (h : scope.jump? s.graph id = .ok (some jump)) (next : Option BlockId) :
    s.Renders scope (· id) [jump] next := by
  refine renders_of_eq fun V => ?_
  rw [runsEach_singleton, runs_jump h]

/-- The statements of a block with those for the way behind it. -/
lemma renders_block (hs : s.Regular) {b : Block} {r : Recovered} (hb : s.graph.block? id = some b)
    (hr : run s.context b.body [] = .ok r) (h : s.Renders scope (Way.behind r b.succs).traces stmts next) :
    s.Renders scope (s.through · id) (r.stmts ++ stmts) next := by
  have heq (V : BlockId → Behaviour Ending) : (runsEach (r.stmts ++ stmts)).andThen (leadOn V scope next) =
      (runsEach r.stmts).andThen (onDone ((runsEach stmts).andThen (leadOn V scope next))) := by
    rw [runsEach_append_andThen]
    refine andThen_congr fun x t hx => ?_
    rcases ending_of_leaves (proper_of_run hr).leaf hx with rfl | rfl | rfl <;> rfl
  have hmono {A B : Behaviour Ending} (hAB : A ≤ B) :
      (runsEach r.stmts).andThen (onDone A) ≤ (runsEach r.stmts).andThen (onDone B) := by
    refine andThen_mono le_rfl fun x _ _ => ?_
    unfold onDone
    split
    · exact hAB
    · exact le_rfl
  have hsound : (runsEach (r.stmts ++ stmts)).andThen (leadOn s.flows scope next) ≤ s.through s.flows id := by
    rw [heq, through_eq hb hr]
    exact (hmono h.sound).trans le_sup_right
  refine ⟨hsound, fun n => ?_⟩
  rw [through_eq hb hr]
  refine sup_le (cut_le_leadOn (hsound.trans (through_flows id).le) (hs.onlyLeaves_flows id) n) ?_
  rw [heq]
  exact hmono (h.complete n)

/-! ### Branches -/

lemma runs_ifThen_andThen (cond : Expr) (body : List Stmt) (V : BlockId → Behaviour Ending) (scope : Scope)
    (next : Option BlockId) : (runs (.ifThen cond body)).andThen (leadOn V scope next) =
      tested cond ((runsEach body).andThen (leadOn V scope next)) (toward V next) := by
  rw [runs, tested_andThen _ _ _ (leadOn_cut _ _ _), ends_andThen]
  rfl

lemma runs_ifStmt (cond : Expr) (thenBody elseBody : List Stmt) :
    runs (ifStmt cond.negate cond thenBody elseBody) = tested cond (runsEach elseBody) (runsEach thenBody) := by
  unfold ifStmt
  split_ifs with helse hthen
  · rw [List.isEmpty_iff.mp helse, runs, runsEach_nil, tested_negate]
  · rw [List.isEmpty_iff.mp hthen, runs, runsEach_nil]
  · rw [runs, tested_negate]

/-- An `if` with one arm. -/
lemma renders_ifThen {cond : Expr} {arm join : BlockId} (h : s.Renders scope (· arm) stmts (some join)) :
    s.Renders scope (fun V => tested cond (V arm) (V join)) [.ifThen cond stmts] (some join) := by
  refine ⟨?_, fun n => ?_⟩
  · rw [runsEach_singleton, runs_ifThen_andThen]
    exact tested_mono h.sound le_rfl
  · rw [runsEach_singleton, runs_ifThen_andThen]
    exact tested_mono (h.complete n) le_rfl

/-- An `if` with both arms. -/
lemma renders_ifStmt {cond : Expr} {taken fall : BlockId} {thenBody elseBody : List Stmt}
    (hthen : s.Renders scope (· fall) thenBody next) (helse : s.Renders scope (· taken) elseBody next) :
    s.Renders scope (fun V => tested cond (V taken) (V fall)) [ifStmt cond.negate cond thenBody elseBody] next := by
  refine ⟨?_, fun n => ?_⟩
  · rw [runsEach_singleton, runs_ifStmt, tested_andThen _ _ _ (leadOn_cut _ _ _)]
    exact tested_mono helse.sound hthen.sound
  · rw [runsEach_singleton, runs_ifStmt, tested_andThen _ _ _ (leadOn_cut _ _ _)]
    exact tested_mono (helse.complete n) (hthen.complete n)

/-- An arm that is a jump. -/
lemma renders_ifJump {cond : Expr} {arm join : BlockId} {jump : Stmt} (h : scope.jump? s.graph arm = .ok (some jump)) :
    s.Renders scope (fun V => tested cond (V arm) (V join)) [.ifThen cond [jump]] (some join) :=
  renders_ifThen (renders_jump h (some join))

/-- Two arms that are jumps. -/
lemma renders_jumps {cond : Expr} {taken fall : BlockId} {takenJump fallJump : Stmt}
    (htaken : scope.jump? s.graph taken = .ok (some takenJump))
    (hfall : scope.jump? s.graph fall = .ok (some fallJump)) :
    s.Renders scope (fun V => tested cond (V taken) (V fall)) [.ifThen cond [takenJump], fallJump] next :=
  (renders_ifJump htaken).append (renders_jump hfall next)

/-! ### Loops -/

/-- A `continue` at the end of a loop's body says nothing. -/
lemma rounds_dropContinue (C : Behaviour (Option Bool)) (body : List Stmt) :
    Rounds C (runsEach (dropContinue body)) = Rounds C (runsEach body) := by
  unfold dropContinue
  split
  · rename_i hlast
    have hbody : body = body.dropLast ++ [.continueLoop] := (List.dropLast_append_getLast? _ hlast).symm
    have hruns : runsEach body = (runsEach body.dropLast).andThen (onDone (ends .continued)) := by
      conv_lhs => rw [hbody]
      rw [runsEach_append, runsEach_singleton, runs]
    rw [hruns]
    refine le_antisymm (rounds_mono fun t x hx => ?_) (rounds_mono fun t x hx => ?_)
    · by_cases hdone : x = .done
      · exact ⟨.continued, by rw [hdone]; rfl, t, [], x, by simp, hx, by simp [onDone, hdone, ends]⟩
      · exact ⟨x, rfl, t, [], x, by simp, hx, by simp [onDone, hdone, ends]⟩
    · obtain ⟨t₁, t₂, y, rfl, hy, hthen⟩ := hx
      by_cases hdone : y = .done
      · simp only [onDone, hdone, if_true] at hthen
        obtain ⟨rfl, rfl⟩ := hthen
        exact ⟨.done, rfl, by simpa [hdone] using hy⟩
      · simp only [onDone, hdone, if_false] at hthen
        obtain ⟨rfl, rfl⟩ := hthen
        exact ⟨x, rfl, by simpa using hy⟩
  · rfl

section Loop

variable {loop : Loop} {stack : Stack} {cond : Expr} {body : List Stmt}

/-- A header leads into the body while the condition holds, and otherwise to the exit. `F` is what the body renders. -/
def HeadsLoop (s : Setting) (loop : Loop) (cond : Expr) (F : (BlockId → Behaviour Ending) → Behaviour Ending) : Prop :=
  ∀ V, s.through V loop.header = ends .cut ⊔ tested cond (F V) (toward V loop.exit)

lemma HeadsLoop.onlyLeaves (hs : s.Regular) (h : s.HeadsLoop loop cond F) {t₁ t₂ : List Event} {x : Ending}
    (hcond : tests cond t₁ (some true)) (hx : F s.flows t₂ x) : x = .left ∨ x = .cut := by
  refine hs.onlyLeaves_flows loop.header (t₁ ++ t₂) x ?_
  rw [← through_flows, h]
  exact .inr ⟨t₁, t₂, some true, rfl, hcond, hx⟩

/-- By induction on the rounds: each leads from the header back to it or out of the loop. -/
lemma HeadsLoop.sound (hs : s.Regular) (h : s.HeadsLoop loop cond F)
    (hbody : s.Renders (scope.enterLoop loop stack) F body none) :
    (Rounds (tests cond) (runsEach body)).andThen (leadOn s.flows scope loop.exit) ≤ s.flows loop.header := by
  have hround {t₁ t₂ t₃ : List Event} {x y : Ending} (hcond : tests cond t₁ (some true)) (hx : runsEach body t₂ x)
      (hlead : leadOn s.flows (scope.enterLoop loop stack) none x t₃ y) : s.flows loop.header (t₁ ++ (t₂ ++ t₃)) y := by
    rw [← through_flows, h]
    exact .inr ⟨t₁, t₂ ++ t₃, some true, rfl, hcond, hbody.sound _ _ ⟨t₂, t₃, x, rfl, hx, hlead⟩⟩
  rintro _ y ⟨t, t', x, rfl, hrounds, hlead⟩
  induction hrounds with
  | cut => exact ⟨0, hlead⟩
  | cutTest hcond =>
    rw [← through_flows, h]
    exact .inr ⟨_, t', none, rfl, hcond, hlead⟩
  | exit hcond =>
    rw [← through_flows, h]
    exact .inr ⟨_, t', some false, rfl, hcond, hlead⟩
  | stop hcond hx hround' =>
    rename_i x₀ _
    rw [List.append_assoc]
    refine hround hcond hx ?_
    cases x₀ <;> cases hround' <;> exact hlead
  | @again t₁ t₂ t₃ x₀ y₀ hcond hx hback _ ih =>
    rw [List.append_assoc, List.append_assoc]
    refine hround hcond hx ?_
    cases x₀ <;> cases hback
    · have hF := hbody.sound t₂ .done ⟨t₂, [], .done, by simp, hx, rfl, rfl⟩
      rcases h.onlyLeaves hs hcond hF with h | h <;> cases h
    · exact ih hlead

/-- A run from the header goes through the body first. -/
lemma HeadsLoop.round (hs : s.Regular) (h : s.HeadsLoop loop cond F)
    (hbody : s.Renders (scope.enterLoop loop stack) F body none) {n : Nat}
    (hback : s.flowsFor n loop.header ≤
      (Rounds (tests cond) (runsEach body)).andThen (leadOn (s.flowsFor n) scope loop.exit)) :
    s.through (s.flowsFor n) loop.header ≤
      (Rounds (tests cond) (runsEach body)).andThen (leadOn (s.flowsFor n) scope loop.exit) := by
  rw [h]
  refine sup_le (fun t x hcut => ⟨[], t, .cut, rfl, .cut, hcut⟩) ?_
  rintro _ y ⟨t₁, t₂, o, rfl, hcond, hpick⟩
  rcases o with _ | _ | _
  · exact ⟨t₁, t₂, .cut, rfl, .cutTest hcond, hpick⟩
  · exact ⟨t₁, t₂, .done, rfl, .exit hcond, hpick⟩
  obtain ⟨t₂, t₃, x, rfl, hx, hlead⟩ := hbody.complete n _ _ hpick
  rw [← List.append_assoc]
  cases x with
  | done =>
    have hF := hbody.sound t₂ .done ⟨t₂, [], .done, by simp, hx, rfl, rfl⟩
    rcases h.onlyLeaves hs hcond hF with h | h <;> cases h
  | broken => exact ⟨_, t₃, .done, rfl, .stop hcond hx rfl, hlead⟩
  | continued =>
    obtain ⟨t₃, t₄, z, rfl, hrounds, hout⟩ := hback t₃ y hlead
    exact ⟨t₁ ++ (t₂ ++ t₃), t₄, z, by simp, .again hcond hx rfl hrounds, hout⟩
  | left => exact ⟨_, t₃, .left, rfl, .stop hcond hx rfl, hlead⟩
  | cut => exact ⟨_, t₃, .cut, rfl, .stop hcond hx rfl, hlead⟩

/-- By induction on the number of blocks: what is left of a run when it comes back to the header is shorter. -/
lemma HeadsLoop.complete (hs : s.Regular) (h : s.HeadsLoop loop cond F)
    (hbody : s.Renders (scope.enterLoop loop stack) F body none) (n : Nat) : s.flowsFor n loop.header ≤
      (Rounds (tests cond) (runsEach body)).andThen (leadOn (s.flowsFor n) scope loop.exit) := by
  induction n with
  | zero => exact fun t x hcut => ⟨[], t, .cut, rfl, .cut, hcut⟩
  | succ n ih => exact (h.round hs hbody ih).trans (andThen_leadOn_mono (flowsFor_le_succ n) _ scope loop.exit)

/-- A loop renders the runs from its header. -/
lemma renders_loop (hs : s.Regular) (h : s.HeadsLoop loop cond F)
    (hbody : s.Renders (scope.enterLoop loop stack) F body none) :
    s.Renders scope (s.through · loop.header) [.whileLoop cond (dropContinue body)] loop.exit := by
  have hruns : runsEach [.whileLoop cond (dropContinue body)] = Rounds (tests cond) (runsEach body) := by
    rw [runsEach_singleton, runs, rounds_dropContinue]
  refine ⟨?_, fun n => ?_⟩
  · rw [hruns, through_flows]
    exact h.sound hs hbody
  · rw [hruns]
    exact h.round hs hbody (h.complete hs hbody n)

end Loop

end JvmLift.Structure.Setting
