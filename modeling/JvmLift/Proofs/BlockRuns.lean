import Mathlib
import JvmLift.Proofs.Outline

/-!
# Runs through blocks

What can be seen of a run is which blocks it visits, how the tests at their ends come out, and which values the
selectors of multi-way branches have. The runs of an outline are those of the body that is written for it, in the order
in which it is written: an arm of a switch falls through to the next one, the default arm stands last, and a `break`
leads behind the innermost construct. The runs of a graph go along its edges.

An outline follows a graph from a block on if each of its constructs goes where the edges go. Then it has the runs of
the graph. The two halves of this are one argument, over two ways to compare runs.
-/

namespace JvmLift.Structure

open Bytecode JvmLift.Flow Recovery Source

/-- What can be seen of a run. -/
inductive Sight
  | visit (id : BlockId)
  /-- The branch at the end of a block is taken, or is not. -/
  | test (id : BlockId) (taken : Bool)
  /-- The selector of the multi-way branch at the end of a block has a value. -/
  | select (id : BlockId) (value : Int32)

/-- What has been seen of runs when they are interrupted at some point, or have ended. -/
abbrev Runs := List Sight → Prop

namespace Runs

/-- Runs that go on with something to see, unless they are interrupted before. -/
def next (after : Sight → Runs) : Runs
  | [] => True
  | sight :: t => after sight t

/-- Nothing more is seen. -/
def halt : Runs := next fun _ _ => False

def visit (id : BlockId) (A : Runs) : Runs :=
  next fun sight t => sight = .visit id ∧ A t

def test (id : BlockId) (A : Bool → Runs) : Runs :=
  next fun sight t => ∃ taken, sight = .test id taken ∧ A taken t

def select (id : BlockId) (A : Int32 → Runs) : Runs :=
  next fun sight t => ∃ value, sight = .select id value ∧ A value t

/-- A number of rounds, where `F` tells what a round and something behind it come to. -/
def rounds (F : Runs → Runs) : Nat → Runs
  | 0 => halt
  | n + 1 => F (rounds F n)

/-- Any number of rounds. -/
def loop (F : Runs → Runs) : Runs := fun t => ∃ n, rounds F n t

/-- The runs of the alternatives with a key, or of the default if none has it. -/
def choose {α : Type} (V : α → Runs) (keyed : List (Int32 × α)) (default : Option α) (key : Int32) : Runs := fun t =>
  (∃ x ∈ keyed, x.1 = key ∧ V x.2 t) ∨ (∀ x ∈ keyed, x.1 ≠ key) ∧ ∃ d ∈ default, V d t

lemma next_mono {A B : Sight → Runs} (h : ∀ sight, A sight ≤ B sight) : next A ≤ next B := by
  rintro (_ | ⟨sight, t⟩) hA
  · trivial
  · exact h sight t hA

end Runs

/-! ### Graphs -/

/-- The runs behind a block, of which `V` says what follows from the start of a block. -/
def onward (b : Block) (id : BlockId) (V : BlockId → Runs) : Runs :=
  match b.switch, b.succs with
  | some edges, _ => .select id (.choose V edges.cases edges.default)
  | none, [next] => V next
  | none, [taken, fall] => .test id fun isTaken => V (if isTaken then taken else fall)
  | none, _ => .halt

/-- The runs from the start of a block through at most a number of blocks. -/
def runsFor (g : FlowGraph) : Nat → BlockId → Runs
  | 0, _ => .halt
  | n + 1, id => .visit id ((g.block? id).elim .halt fun b => onward b id (runsFor g n))

/-- The runs of a graph from the start of a block. -/
def runsFrom (g : FlowGraph) (id : BlockId) : Runs := fun t => ∃ n, runsFor g n id t

variable {g : FlowGraph} {id : BlockId} {b : Block}

lemma onward_switch {edges : SwitchEdges} (hswitch : b.switch = some edges) (V : BlockId → Runs) :
    onward b id V = .select id (.choose V edges.cases edges.default) := by
  rw [onward, hswitch]

lemma onward_single {next : BlockId} (hswitch : b.switch = none) (hsuccs : b.succs = [next]) (V : BlockId → Runs) :
    onward b id V = V next := by
  rw [onward, hswitch, hsuccs]

lemma onward_fork {taken fall : BlockId} (hswitch : b.switch = none) (hsuccs : b.succs = [taken, fall])
    (V : BlockId → Runs) : onward b id V = .test id fun isTaken => V (if isTaken then taken else fall) := by
  rw [onward, hswitch, hsuccs]

lemma onward_nowhere (hswitch : b.switch = none) (hsuccs : b.succs = []) (V : BlockId → Runs) :
    onward b id V = .halt := by
  rw [onward, hswitch, hsuccs]

/-- What is behind a block is decided by what follows from one block, or does not depend on what follows. -/
lemma onward_iff {V : BlockId → Runs} {t : List Sight} :
    onward b id V t ↔ (∀ V', onward b id V' t) ∨ ∃ n t', V n t' ∧ ∀ V', V' n t' → onward b id V' t := by
  refine ⟨fun h => ?_, ?_⟩
  · cases hswitch : b.switch with
    | some edges =>
      simp only [onward_switch hswitch] at h ⊢
      rcases t with _ | ⟨sight, t⟩
      · exact .inl fun _ => trivial
      obtain ⟨value, rfl, ⟨x, hx, hkey, ht⟩ | ⟨hnone, d, hd, ht⟩⟩ := h
      · exact .inr ⟨x.2, t, ht, fun V' hV' => ⟨value, rfl, .inl ⟨x, hx, hkey, hV'⟩⟩⟩
      · exact .inr ⟨d, t, ht, fun V' hV' => ⟨value, rfl, .inr ⟨hnone, d, hd, hV'⟩⟩⟩
    | none =>
      rcases hsuccs : b.succs with _ | ⟨n, _ | ⟨m, _ | ⟨k, more⟩⟩⟩
      · simp only [onward_nowhere hswitch hsuccs] at h ⊢
        exact .inl fun _ => h
      · simp only [onward_single hswitch hsuccs] at h ⊢
        exact .inr ⟨n, t, h, fun _ h => h⟩
      · simp only [onward_fork hswitch hsuccs] at h ⊢
        rcases t with _ | ⟨sight, t⟩
        · exact .inl fun _ => trivial
        obtain ⟨taken, rfl, ht⟩ := h
        exact .inr ⟨_, t, ht, fun V' hV' => ⟨taken, rfl, hV'⟩⟩
      · rw [onward, hswitch, hsuccs] at h
        simp only [onward, hswitch, hsuccs]
        exact .inl fun _ => h
  · rintro (h | ⟨n, t', hn, h⟩)
    · exact h V
    · exact h V hn

lemma onward_mono {V V' : BlockId → Runs} (h : V ≤ V') : onward b id V ≤ onward b id V' := by
  intro t ht
  rcases onward_iff.mp ht with ht | ⟨n, t', hn, ht⟩
  · exact ht V'
  · exact ht V' (h n t' hn)

/-- A run goes along one edge, so that a bound for what follows there is one for all of it. -/
lemma exists_onward_runsFor {t : List Sight} (h : onward b id (runsFrom g) t) : ∃ n, onward b id (runsFor g n) t := by
  rcases onward_iff.mp h with h | ⟨m, t', ⟨n, hn⟩, h⟩
  · exact ⟨0, h _⟩
  · exact ⟨n, h _ hn⟩

/-- Runs of a graph visit the first block and go along one of its edges. -/
lemma runsFrom_eq (hb : g.block? id = some b) : runsFrom g id = .visit id (onward b id (runsFrom g)) := by
  funext t
  refine propext ⟨?_, fun h => ?_⟩
  · rintro ⟨_ | n, hn⟩
    · cases t with
      | nil => trivial
      | cons sight t => cases hn
    · rw [runsFor, hb, Option.elim_some] at hn
      refine Runs.next_mono (fun sight t => ?_) t hn
      exact And.imp_right (onward_mono (fun _ _ h => ⟨n, h⟩) t)
  · cases t with
    | nil => exact ⟨0, trivial⟩
    | cons sight t =>
      obtain ⟨rfl, h⟩ := h
      obtain ⟨n, hn⟩ := exists_onward_runsFor h
      exact ⟨n + 1, by rw [runsFor, hb, Option.elim_some]; exact ⟨rfl, hn⟩⟩

lemma runsFrom_nil (g : FlowGraph) (id : BlockId) : runsFrom g id [] := ⟨0, trivial⟩

/-! ### Outlines -/

/-- What follows behind an outline, by the way in which it is left. -/
structure Exits where
  done : Runs
  broken : Runs
  continued : Runs

/-- The runs of the tests of a condition, of whose value `K` says what follows. -/
def Guard.runs : Guard → (Bool → Runs) → Runs
  | test id _, K => .test id K
  | orElse before id _ sense, K =>
    before.runs fun holds => if holds then K true else .visit id (.test id fun taken => K (taken == sense))

/-- The runs of the arms of a switch: from the first one on, from the arm of each key on, and from the default on. -/
structure Entries where
  first : Runs
  keyed : List (Int32 × Runs)
  default : Runs

mutual

/-- The runs of a construct. Exceptions are not runs. -/
def Part.runs : Part → Exits → Runs
  | .block id stmts, K => .visit id (if stmts.any Stmt.isExit then .halt else K.done)
  | .breakOut, K => K.broken
  | .continueLoop, K => K.continued
  | .ifThen cond sense body, K => cond.runs fun holds => if holds = sense then Part.runsEach body K else K.done
  | .ifElse cond taken fall, K => cond.runs fun holds => if holds then Part.runsEach taken K else Part.runsEach fall K
  | .choice cond taken fall, K => cond.runs fun holds => if holds then Part.runsEach taken K else Part.runsEach fall K
  | .forever body, K => .loop fun again => Part.runsEach body ⟨again, K.done, again⟩
  | .whileTest header _ sense body, K => .loop fun again => .visit header <| .test header fun taken =>
      if taken = sense then Part.runsEach body ⟨again, K.done, again⟩ else K.done
  | .switch id _ arms, K =>
    let entries := arms.entries ⟨K.done, K.done, K.continued⟩
    .select id (.choose (fun runs => runs) entries.keyed (some entries.default))
  | .tryCatch body _, K => Part.runsEach body K

/-- The runs of an outline. -/
def Part.runsEach : List Part → Exits → Runs
  | [], K => K.done
  | part :: rest, K => part.runs { K with done := Part.runsEach rest K }

/-- Each arm falls through to the next, and the last one to what is behind the switch. -/
def Cases.entries : Cases → Exits → Entries
  | .done, K => ⟨K.done, [], K.done⟩
  | .case key _ body rest, K =>
    let later := rest.entries K
    let here := Part.runsEach body { K with done := later.first }
    ⟨here, (key, here) :: later.keyed, later.default⟩
  | .default _ body, K => ⟨Part.runsEach body K, [], Part.runsEach body K⟩

end

lemma Part.runsEach_append (front back : List Part) (K : Exits) :
    Part.runsEach (front ++ back) K = Part.runsEach front { K with done := Part.runsEach back K } := by
  induction front with
  | nil => rfl
  | cons part front ih => simp only [List.cons_append, Part.runsEach, ih]

/-- The condition and the arms of a branch. -/
def Part.branch? : Part → Option (Guard × List Part × List Part)
  | .ifThen cond sense body => some (cond, if sense then (body, []) else ([], body))
  | .ifElse cond taken fall | .choice cond taken fall => some (cond, taken, fall)
  | _ => none

lemma runs_of_branch? {part : Part} {cond : Guard} {taken fall : List Part}
    (h : part.branch? = some (cond, taken, fall)) (K : Exits) :
    part.runs K = cond.runs fun holds => if holds then Part.runsEach taken K else Part.runsEach fall K := by
  cases part with
  | ifThen cond sense body =>
    rw [Part.runs]
    cases sense <;> cases h <;> (refine congrArg cond.runs (funext fun holds => ?_); cases holds <;> rfl)
  | ifElse cond taken fall | choice cond taken fall =>
    cases h
    rfl
  | _ => cases h

/-! ### Following a graph -/

/-- Where the jumps of an outline go. -/
structure Jumps where
  broken : Option BlockId
  continued : Option BlockId

/-- The edges at the end of the block of a condition, and of those of its further tests, lead to `yes` if the condition
holds and otherwise to `no`. -/
def Guard.LeadsTo (g : FlowGraph) : Guard → (yes no : BlockId) → Prop
  | test id _, yes, no => ∃ b, g.block? id = some b ∧ b.switch = none ∧ b.succs = [yes, no]
  | orElse before id _ sense, yes, no => before.LeadsTo g yes id ∧
    ∃ b, g.block? id = some b ∧ b.switch = none ∧ b.succs = if sense then [yes, no] else [no, yes]

/-- The block at which the first arm starts, or the exit if there is none. -/
def Cases.start (exit : Option BlockId) : Cases → Option BlockId
  | .done => exit
  | .case _ target _ _ | .default target _ => some target

/-- The keys of the arms with their targets. -/
def Cases.keyed : Cases → List (Int32 × BlockId)
  | .case key target _ rest => (key, target) :: rest.keyed
  | _ => []

/-- Where a value without a key goes. -/
def Cases.fallback (exit : Option BlockId) : Cases → Option BlockId
  | .done => exit
  | .case _ _ _ rest => rest.fallback exit
  | .default target _ => some target

/-- The bodies of the arms with their targets and with the blocks at which the next arms start. -/
def Cases.bodies (exit : Option BlockId) : Cases → List (List Part × BlockId × Option BlockId)
  | .done => []
  | .case _ target body rest => (body, target, rest.start exit) :: rest.bodies exit
  | .default target body => [(body, target, exit)]

/-- A block that control gets through. -/
def Passable (g : FlowGraph) (id : BlockId) (stmts : List Stmt) (b : Block) : Prop :=
  g.block? id = some b ∧ stmts.any Stmt.isExit = false

/-- An outline does what a graph does from the block `id` on, up to the block `next`, unless it is left by a jump or
leaves the method. It visits at least `k` blocks before. -/
inductive Follows (g : FlowGraph) : Jumps → (k : Nat) → List Part → (id : BlockId) → (next : Option BlockId) → Prop
  | nil (jumps : Jumps) (id : BlockId) : Follows g jumps 0 [] id (some id)
  | append {jumps : Jumps} {k k' : Nat} {front back : List Part} {id mid : BlockId} {next : Option BlockId}
      (hfront : Follows g jumps k front id (some mid)) (hback : Follows g jumps k' back mid next) :
      Follows g jumps k (front ++ back) id next
  /-- What does not come to its end may stand in front of anything. -/
  | before {jumps : Jumps} {k : Nat} {o : List Part} {id : BlockId} (next : Option BlockId)
      (h : Follows g jumps k o id none) : Follows g jumps k o id next
  | atLeastZero {jumps : Jumps} {k : Nat} {o : List Part} {id : BlockId} {next : Option BlockId}
      (h : Follows g jumps k o id next) : Follows g jumps 0 o id next
  | broken {jumps : Jumps} {id : BlockId} (next : Option BlockId) (h : jumps.broken = some id) :
      Follows g jumps 0 [.breakOut] id next
  | continued {jumps : Jumps} {id : BlockId} (next : Option BlockId) (h : jumps.continued = some id) :
      Follows g jumps 0 [.continueLoop] id next
  | goOn (jumps : Jumps) {id next : BlockId} {stmts : List Stmt} {b : Block} (hb : Passable g id stmts b)
      (hswitch : b.switch = none) (hsuccs : b.succs = [next]) : Follows g jumps 1 [.block id stmts] id (some next)
  | leave (jumps : Jumps) {id : BlockId} {stmts : List Stmt} {b : Block} (hb : g.block? id = some b)
      (hstmts : stmts.any Stmt.isExit = true) (hswitch : b.switch = none) (hsuccs : b.succs = []) :
      Follows g jumps 1 [.block id stmts] id none
  | fork {jumps : Jumps} {k k' : Nat} {stmts : List Stmt} {b : Block} {part : Part} {cond : Guard}
      {taken fall : List Part} {yes no : BlockId} {next : Option BlockId} (hb : Passable g cond.first stmts b)
      (hpart : part.branch? = some (cond, taken, fall)) (hcond : cond.LeadsTo g yes no)
      (htaken : Follows g jumps k taken yes next) (hfall : Follows g jumps k' fall no next) :
      Follows g jumps 1 [.block cond.first stmts, part] cond.first next
  | forever (jumps : Jumps) {header : BlockId} {exit : Option BlockId} {body : List Part}
      (h : Follows g ⟨exit, some header⟩ 1 body header none) : Follows g jumps 1 [.forever body] header exit
  | whileTest (jumps : Jumps) {k : Nat} {header taken fall : BlockId} {cond : Condition} {sense : Bool}
      {body : List Part} {b : Block} (hb : g.block? header = some b) (hswitch : b.switch = none)
      (hsuccs : b.succs = [taken, fall])
      (h : Follows g ⟨some (if sense then fall else taken), some header⟩ k body (if sense then taken else fall) none) :
      Follows g jumps 1 [.whileTest header cond sense body] header (some (if sense then fall else taken))
  | switch {jumps : Jumps} {id : BlockId} {stmts : List Stmt} {selector : Expr} {b : Block} {edges : SwitchEdges}
      {arms : Cases} {exit : Option BlockId} (hb : Passable g id stmts b) (hswitch : b.switch = some edges)
      (hkeyed : ∀ x, x ∈ edges.cases ↔ x ∈ arms.keyed) (hdefault : edges.default.isSome = true)
      (hfallback : arms.fallback exit = edges.default)
      (h : ∀ x ∈ arms.bodies exit, Follows g ⟨exit, jumps.continued⟩ 0 x.1 x.2.1 x.2.2) :
      Follows g jumps 1 [.block id stmts, .switch id selector arms] id exit

/-! ### Comparing runs -/

/-- Runs that are entered by a key are compared with the runs from the blocks of the same key, in both directions. -/
structure Paired (ρ : Runs → Runs → Prop) (V : BlockId → Runs) (entries : List (Int32 × Runs))
    (keyed : List (Int32 × BlockId)) : Prop where
  left : ∀ x ∈ entries, ∃ y ∈ keyed, y.1 = x.1 ∧ ρ x.2 (V y.2)
  right : ∀ y ∈ keyed, ∃ x ∈ entries, x.1 = y.1 ∧ ρ x.2 (V y.2)

/-- A way to compare runs that all constructs respect. The number is the length up to which runs are compared; what is
seen first counts. For a loop it is enough that each round makes the comparison longer. -/
structure Compares (ρ : Nat → Runs → Runs → Prop) : Prop where
  refl : ∀ n A, ρ n A A
  lower : ∀ {n A B}, ρ (n + 1) A B → ρ n A B
  visit : ∀ {n A B} id, ρ n A B → ρ (n + 1) (.visit id A) (.visit id B)
  test : ∀ {n A B} id, (∀ taken, ρ n (A taken) (B taken)) → ρ (n + 1) (.test id A) (.test id B)
  select : ∀ {n A B} id, (∀ value, ρ n (A value) (B value)) → ρ (n + 1) (.select id A) (.select id B)
  choose : ∀ {n V entries keyed default target} key, Paired (ρ n) V entries keyed → ρ n default (V target) →
    ρ n (.choose (fun runs => runs) entries (some default) key) (.choose V keyed (some target) key)
  loop : ∀ {n F B}, B [] → (∀ m ≤ n, ∀ A, ρ m A B → ρ (m + 1) (F A) B) → ρ (n + 1) (.loop F) B

/-- All runs of the one are runs of the other. -/
lemma compares_le : Compares fun _ A B => A ≤ B where
  refl _ _ := le_rfl
  lower h := h
  visit id h := Runs.next_mono fun _ t => And.imp_right (h t)
  test id h := Runs.next_mono fun _ t => Exists.imp fun taken => And.imp_right (h taken t)
  select id h := Runs.next_mono fun _ t => Exists.imp fun value => And.imp_right (h value t)
  choose := by
    rintro n V entries keyed default target key hkeyed hdefault t (⟨x, hx, rfl, ht⟩ | ⟨hnone, _, ⟨⟩, ht⟩)
    · obtain ⟨y, hy, hxy, hle⟩ := hkeyed.left x hx
      exact .inl ⟨y, hy, hxy, hle t ht⟩
    · refine .inr ⟨fun y hy => ?_, target, rfl, hdefault t ht⟩
      obtain ⟨x, hx, hxy, -⟩ := hkeyed.right y hy
      exact hxy ▸ hnone x hx
  loop := by
    rintro n F B hnil hF t ⟨m, hm⟩
    have hrounds : ∀ m, Runs.rounds F m ≤ B := by
      intro m
      induction m with
      | zero =>
        rintro (_ | ⟨sight, t⟩) h
        · exact hnil
        · cases h
      | succ m ih => exact hF 0 (Nat.zero_le n) _ ih
    exact hrounds m t hm

/-- All runs of the other up to a length are runs of the one. -/
def UpTo (n : Nat) (A B : Runs) : Prop := ∀ t, t.length ≤ n → B t → A t

lemma upTo_next {n : Nat} {A B : Sight → Runs} (h : ∀ sight, UpTo n (A sight) (B sight)) :
    UpTo (n + 1) (.next A) (.next B) := by
  rintro (_ | ⟨sight, t⟩) hlength hB
  · trivial
  · exact h sight t (Nat.le_of_succ_le_succ hlength) hB

lemma compares_upTo : Compares UpTo where
  refl _ _ _ _ h := h
  lower h t hlength := h t (Nat.le_succ_of_le hlength)
  visit id h := upTo_next fun _ t hlength => And.imp_right (h t hlength)
  test id h := upTo_next fun _ t hlength => Exists.imp fun taken => And.imp_right (h taken t hlength)
  select id h := upTo_next fun _ t hlength => Exists.imp fun value => And.imp_right (h value t hlength)
  choose := by
    rintro n V entries keyed default target key hkeyed hdefault t hlength (⟨y, hy, rfl, ht⟩ | ⟨hnone, _, ⟨⟩, ht⟩)
    · obtain ⟨x, hx, hxy, hup⟩ := hkeyed.right y hy
      exact .inl ⟨x, hx, hxy, hup t hlength ht⟩
    · refine .inr ⟨fun x hx => ?_, default, rfl, hdefault t hlength ht⟩
      obtain ⟨y, hy, hxy, -⟩ := hkeyed.left x hx
      exact hxy ▸ hnone y hy
  loop := by
    -- as many rounds as there is to see
    intro n F B hnil hF t hlength ht
    have hrounds : ∀ m ≤ n + 1, UpTo m (Runs.rounds F m) B := by
      intro m hm
      induction m with
      | zero =>
        rintro (_ | ⟨sight, t⟩) hlength -
        · trivial
        · simp at hlength
      | succ m ih => exact hF m (by omega) _ (ih (by omega))
    exact ⟨n + 1, hrounds (n + 1) le_rfl t hlength ht⟩

/-- What follows behind an outline is compared with the runs from the blocks where it goes on. -/
structure Exits.Meet (K : Exits) (ρ : Runs → Runs → Prop) (g : FlowGraph) (jumps : Jumps) (next : Option BlockId) :
    Prop where
  done : ∀ m, next = some m → ρ K.done (runsFrom g m)
  broken : ∀ m, jumps.broken = some m → ρ K.broken (runsFrom g m)
  continued : ∀ m, jumps.continued = some m → ρ K.continued (runsFrom g m)

section Compares

variable {ρ : Nat → Runs → Runs → Prop} (hρ : Compares ρ) {n : Nat}
include hρ

/-- The tests of a condition are those on the way from its first block to where its value leads. -/
lemma Guard.compares {cond : Guard} {yes no : BlockId} (hcond : cond.LeadsTo g yes no) {K : Bool → Runs}
    (hyes : ρ n (K true) (runsFrom g yes)) (hno : ρ n (K false) (runsFrom g no)) {b : Block}
    (hb : g.block? cond.first = some b) : ρ n (cond.runs K) (onward b cond.first (runsFrom g)) := by
  induction cond generalizing no K with
  | test id c =>
    obtain ⟨b', hb', hswitch, hsuccs⟩ := hcond
    obtain rfl : b = b' := Option.some.inj (hb.symm.trans hb')
    rw [onward_fork hswitch hsuccs]
    refine hρ.lower (hρ.test id fun taken => ?_)
    cases taken
    · exact hno
    · exact hyes
  | orElse before id c sense ih =>
    obtain ⟨hbefore, b', hb', hswitch, hsuccs⟩ := hcond
    refine ih hbefore hyes ?_ hb
    rw [runsFrom_eq hb']
    refine hρ.lower (hρ.visit id (hρ.lower ?_))
    cases sense
    · rw [onward_fork hswitch hsuccs]
      refine hρ.test id fun taken => ?_
      cases taken
      · exact hyes
      · exact hno
    · rw [onward_fork hswitch hsuccs]
      refine hρ.test id fun taken => ?_
      cases taken
      · exact hno
      · exact hyes

omit hρ in
/-- The arms of a switch are compared with the runs from their targets if the bodies are. -/
lemma Cases.compares {exit : Option BlockId} {K : Exits} (hexit : ∀ m, exit = some m → ρ n K.done (runsFrom g m)) :
    ∀ {arms : Cases}, (∀ x ∈ arms.bodies exit, ∀ done, (∀ m, x.2.2 = some m → ρ n done (runsFrom g m)) →
        ρ n (Part.runsEach x.1 { K with done }) (runsFrom g x.2.1)) →
      (∀ m, arms.start exit = some m → ρ n (arms.entries K).first (runsFrom g m)) ∧
      Paired (ρ n) (runsFrom g) (arms.entries K).keyed arms.keyed ∧
      ∀ m, arms.fallback exit = some m → ρ n (arms.entries K).default (runsFrom g m)
  | .done, _ => ⟨hexit, ⟨nofun, nofun⟩, hexit⟩
  | .default target body, h => by
    have hbody := h _ (List.mem_singleton_self _) K.done hexit
    refine ⟨?_, ⟨nofun, nofun⟩, ?_⟩ <;> (rintro _ ⟨⟩; exact hbody)
  | .case key target body rest, h => by
    obtain ⟨hhere, hrest⟩ := List.forall_mem_cons.mp h
    obtain ⟨hfirst, hkeyed, hdefault⟩ := Cases.compares hexit hrest
    have hbody := hhere _ hfirst
    refine ⟨?_, ⟨?_, ?_⟩, hdefault⟩
    · rintro _ ⟨⟩
      exact hbody
    · refine List.forall_mem_cons.mpr ⟨⟨_, List.mem_cons_self, rfl, hbody⟩, fun x hx => ?_⟩
      obtain ⟨y, hy, hxy⟩ := hkeyed.left x hx
      exact ⟨y, List.mem_cons_of_mem _ hy, hxy⟩
    · refine List.forall_mem_cons.mpr ⟨⟨_, List.mem_cons_self, rfl, hbody⟩, fun y hy => ?_⟩
      obtain ⟨x, hx, hxy⟩ := hkeyed.right y hy
      exact ⟨x, List.mem_cons_of_mem _ hx, hxy⟩

lemma Compares.lowerBy : ∀ {k n : Nat} {A B : Runs}, ρ (n + k) A B → ρ n A B
  | 0, _, _, _, h => h
  | _ + 1, _, _, _, h => Compares.lowerBy (hρ.lower h)

lemma Compares.lowerTo {m : Nat} (h : m ≤ n) {A B : Runs} (hAB : ρ n A B) : ρ m A B := by
  obtain ⟨k, rfl⟩ := Nat.exists_eq_add_of_le h
  exact hρ.lowerBy hAB

/-- The runs of a block that control gets through. -/
lemma Passable.compares {id : BlockId} {stmts : List Stmt} {b : Block} (hb : Passable g id stmts b) {K : Exits}
    (h : ρ n K.done (onward b id (runsFrom g))) : ρ (n + 1) ((Part.block id stmts).runs K) (runsFrom g id) := by
  rw [runsFrom_eq hb.1, Part.runs, if_neg (by simp [hb.2])]
  exact hρ.visit id h

/-- **An outline that follows a graph compares with it.** By induction on how it follows. -/
lemma Follows.compares {jumps : Jumps} {k : Nat} {o : List Part} {id : BlockId} {next : Option BlockId}
    (h : Follows g jumps k o id next) {n : Nat} {K : Exits} (hK : K.Meet (ρ n) g jumps next) :
    ρ (n + k) (Part.runsEach o K) (runsFrom g id) := by
  induction h generalizing n K with
  | nil jumps id => exact hK.done id rfl
  | append _ _ ihfront ihback =>
    rw [Part.runsEach_append]
    refine ihfront ⟨?_, hK.broken, hK.continued⟩
    rintro _ ⟨⟩
    exact hρ.lowerBy (ihback hK)
  | before next _ ih => exact ih ⟨nofun, hK.broken, hK.continued⟩
  | atLeastZero _ ih => exact hρ.lowerBy (ih hK)
  | broken next h => exact hK.broken _ h
  | continued next h => exact hK.continued _ h
  | goOn jumps hb hswitch hsuccs =>
    refine hb.compares hρ ?_
    rw [onward_single hswitch hsuccs]
    exact hK.done _ rfl
  | leave jumps hb hstmts hswitch hsuccs =>
    rw [runsFrom_eq hb, onward_nowhere hswitch hsuccs]
    simp only [Part.runsEach, Part.runs, hstmts, if_true]
    exact hρ.refl _ _
  | fork hb hpart hcond _ _ ihtaken ihfall =>
    refine hb.compares hρ ?_
    rw [Part.runsEach, Part.runsEach, runs_of_branch? hpart]
    exact Guard.compares hρ hcond (hρ.lowerBy (ihtaken hK)) (hρ.lowerBy (ihfall hK)) hb.1
  | @forever jumps header exit body _ ih =>
    refine hρ.loop (runsFrom_nil g header) fun m hm A hA => ih ⟨nofun, fun e he => ?_, ?_⟩
    · exact hρ.lowerTo hm (hK.done e he)
    · rintro _ ⟨⟩
      exact hA
  | @whileTest jumps k header taken fall cond sense body b hb hswitch hsuccs _ ih =>
    refine hρ.loop (runsFrom_nil g header) fun m hm A hA => ?_
    have hexit := hρ.lowerTo hm (hK.done _ rfl)
    have hround : ρ m (Part.runsEach body ⟨A, K.done, A⟩) (runsFrom g (if sense then taken else fall)) := by
      refine hρ.lowerBy (ih ⟨nofun, ?_, ?_⟩)
      · rintro _ ⟨⟩
        exact hexit
      · rintro _ ⟨⟩
        exact hA
    rw [runsFrom_eq hb, onward_fork hswitch hsuccs]
    refine hρ.visit header (hρ.lower (hρ.test header fun isTaken => ?_))
    cases sense <;> cases isTaken
    · exact hround
    · exact hexit
    · exact hexit
    · exact hround
  | @switch jumps id stmts selector b edges arms exit hb hswitch hkeyed hdefault hfallback _ ih =>
    obtain ⟨target, htarget⟩ := Option.isSome_iff_exists.mp hdefault
    have hbodies : ∀ x ∈ arms.bodies exit, ∀ done, (∀ m, x.2.2 = some m → ρ n done (runsFrom g m)) →
        ρ n (Part.runsEach x.1 ⟨done, K.done, K.continued⟩) (runsFrom g x.2.1) :=
      fun x hx done hdone => ih x hx ⟨hdone, hK.done, hK.continued⟩
    obtain ⟨-, hpaired, hlast⟩ := Cases.compares hK.done (K := ⟨K.done, K.done, K.continued⟩) hbodies
    refine hb.compares hρ ?_
    rw [onward_switch hswitch, htarget]
    refine hρ.lower (hρ.select id fun value => hρ.choose value ⟨?_, ?_⟩ (hlast target (hfallback.trans htarget)))
    · intro x hx
      obtain ⟨y, hy, hxy⟩ := hpaired.left x hx
      exact ⟨y, (hkeyed y).mpr hy, hxy⟩
    · exact fun y hy => hpaired.right y ((hkeyed y).mp hy)

end Compares

/-- **Runs of outlines.** An outline that follows a graph from a block on, without an end and without jumps out of it,
has the runs of the graph from that block. -/
lemma Follows.runsEach_eq {k : Nat} {o : List Part} {id : BlockId} (h : Follows g ⟨none, none⟩ k o id none)
    (K : Exits) : Part.runsEach o K = runsFrom g id := by
  refine le_antisymm (h.compares compares_le (n := 0) ⟨nofun, nofun, nofun⟩) fun t ht => ?_
  exact h.compares compares_upTo (n := t.length) ⟨nofun, nofun, nofun⟩ t (Nat.le_add_right _ _) ht

end JvmLift.Structure
