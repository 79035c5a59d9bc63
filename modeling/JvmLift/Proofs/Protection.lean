import Mathlib
import JvmLift.Proofs.Conservation
import JvmLift.Proofs.InstructionFlow
import JvmLift.Proofs.Outline

/-!
# Protected ranges

The handlers of a protected range are to be the clauses of a `try` around the blocks that it covers. An outline says
where its blocks stand and which clauses are around them. Whether all handlers can be written like this is a question of
how the ranges are laid out: a handler becomes the body of one clause, a `try` is entered at its start, and two of them
stand inside one another or apart.
-/

namespace JvmLift.Source

/-! ### Clauses -/

mutual

/-- The types of all clauses in a statement. -/
def Stmt.catchTypes : Stmt → List String
  | .block body | .ifThen _ body | .whileLoop _ body | .forEach _ _ _ body | .synchronized _ body => catchTypesEach body
  | .ifElse _ thenBody elseBody => catchTypesEach thenBody ++ catchTypesEach elseBody
  | .forLoop init _ update body => catchTypesEach init ++ catchTypesEach update ++ catchTypesEach body
  | .switch _ arms => arms.catchTypes
  | .tryCatch body clauses => catchTypesEach body ++ clauses.catchTypes
  | .assign .. | .returnVoid | .returnValue _ | .evaluate _ | .throwValue _ | .breakOut | .continueLoop | .comment _ =>
    []

def catchTypesEach : List Stmt → List String
  | [] => []
  | s :: rest => s.catchTypes ++ catchTypesEach rest

def Arms.catchTypes : Arms → List String
  | .done => []
  | .case _ body rest => catchTypesEach body ++ rest.catchTypes
  | .default body => catchTypesEach body

def Clauses.catchTypes : Clauses → List String
  | .done => []
  | .handler type _ body rest => type :: (catchTypesEach body ++ rest.catchTypes)
  | .finally body => catchTypesEach body

end

@[simp] lemma catchTypesEach_nil : catchTypesEach [] = [] := rfl

@[simp] lemma catchTypesEach_cons (s : Stmt) (rest : List Stmt) :
    catchTypesEach (s :: rest) = s.catchTypes ++ catchTypesEach rest := rfl

@[simp] lemma catchTypesEach_append (front back : List Stmt) :
    catchTypesEach (front ++ back) = catchTypesEach front ++ catchTypesEach back := by
  induction front with
  | nil => rfl
  | cons s front ih => simp [ih]

end JvmLift.Source

/-- The range of a region, as a scope has it. -/
abbrev JvmLift.Flow.Region.range (region : JvmLift.Flow.Region) : Nat × Nat :=
  (region.start, region.stop)

namespace JvmLift.Structure

open Bytecode JvmLift.Flow Recovery Source Relation

/-! ### Where blocks stand -/

/-- The blocks whose tests a condition is made of. -/
def Guard.blocks (cond : Guard) : List BlockId :=
  cond.first :: cond.merged

/-- The clauses of a `try`: their types and bodies. -/
def Catches.offers : Catches → List (String × List Part)
  | .done => []
  | .clause type _ body rest => (type, body) :: rest.offers

mutual

/-- The blocks of a construct, each with the clauses that the `try` statements around it offer. -/
def Part.places : Part → List (BlockId × List (String × List Part))
  | .block id _ => [(id, [])]
  | .breakOut => []
  | .continueLoop => []
  | .ifThen cond _ body => cond.blocks.map (·, []) ++ places body
  | .ifElse cond taken fall => cond.blocks.map (·, []) ++ (places fall ++ places taken)
  | .choice cond taken fall => cond.blocks.map (·, []) ++ (places fall ++ places taken)
  | .forever body => places body
  | .whileTest header _ _ body => (header, []) :: places body
  | .switch id _ arms => (id, []) :: arms.places
  | .tryCatch body catches => (places body).map (fun place => (place.1, place.2 ++ catches.offers)) ++ catches.places

def places : List Part → List (BlockId × List (String × List Part))
  | [] => []
  | part :: rest => part.places ++ places rest

def Cases.places : Cases → List (BlockId × List (String × List Part))
  | .done => []
  | .case _ _ body rest => JvmLift.Structure.places body ++ rest.places
  | .default _ body => JvmLift.Structure.places body

def Catches.places : Catches → List (BlockId × List (String × List Part))
  | .done => []
  | .clause _ _ body rest => JvmLift.Structure.places body ++ rest.places

end

@[simp] lemma places_nil : places [] = [] := rfl

@[simp] lemma places_cons (part : Part) (rest : List Part) : places (part :: rest) = part.places ++ places rest := rfl

@[simp] lemma places_append (front back : List Part) : places (front ++ back) = places front ++ places back := by
  induction front with
  | nil => rfl
  | cons part front ih => simp [ih]

lemma catchTypes_ifStmt (cond negated : Expr) (thenBody elseBody : List Stmt) :
    (Setting.ifStmt cond negated thenBody elseBody).catchTypes =
      catchTypesEach thenBody ++ catchTypesEach elseBody := by
  unfold Setting.ifStmt
  split_ifs with helse hthen
  · simp [List.isEmpty_iff.mp helse, Stmt.catchTypes]
  · simp [List.isEmpty_iff.mp hthen, Stmt.catchTypes]
  · rfl

lemma catchTypesEach_dropContinue (body : List Stmt) :
    catchTypesEach (Setting.dropContinue body) = catchTypesEach body := by
  unfold Setting.dropContinue
  split
  · rename_i hlast
    conv_rhs => rw [← List.dropLast_append_getLast? _ hlast]
    simp [Stmt.catchTypes]
  · rfl

lemma catchTypesEach_tryCatch (body : List Part) (catches : Catches) :
    catchTypesEach (Part.tryCatch body catches).stmts =
      catchTypesEach (written body) ++ catches.clauses.catchTypes := by
  cases catches with
  | done => simp [Part.stmts, Catches.clauses, Clauses.catchTypes]
  | clause type binding handler rest => simp [Part.stmts, Catches.clauses, Stmt.catchTypes]

/-- The clauses that are offered at some places are among those that are written. -/
def OffersOnly (l : List (BlockId × List (String × List Part))) (types : List String) : Prop :=
  ∀ place ∈ l, ∀ clause ∈ place.2, clause.1 ∈ types

namespace OffersOnly

variable {l l' : List (BlockId × List (String × List Part))} {types types' : List String}

lemma guard (cond : Guard) (types : List String) : OffersOnly (cond.blocks.map (·, [])) types := by
  simp [OffersOnly]

lemma append (h : OffersOnly l types) (h' : OffersOnly l' types') : OffersOnly (l ++ l') (types ++ types') := by
  refine List.forall_mem_append.mpr ⟨fun place hplace clause hclause => ?_, fun place hplace clause hclause => ?_⟩
  · exact List.mem_append_left _ (h place hplace clause hclause)
  · exact List.mem_append_right _ (h' place hplace clause hclause)

lemma behind (h : OffersOnly l types) (h' : OffersOnly l' types) : OffersOnly (l ++ l') types :=
  List.forall_mem_append.mpr ⟨h, h'⟩

lemma mono (h : OffersOnly l types) (hsub : types ⊆ types') : OffersOnly l types' :=
  fun place hplace clause hclause => hsub (h place hplace clause hclause)

lemma around {clauses : List (String × List Part)} (h : OffersOnly l types)
    (hclauses : ∀ clause ∈ clauses, clause.1 ∈ types) :
    OffersOnly (l.map fun place => (place.1, place.2 ++ clauses)) types := by
  intro _ hplace
  obtain ⟨place, hmem, rfl⟩ := List.mem_map.mp hplace
  exact List.forall_mem_append.mpr ⟨h place hmem, hclauses⟩

end OffersOnly

lemma Catches.types_of_offers : ∀ {catches : Catches}, ∀ clause ∈ catches.offers, clause.1 ∈ catches.clauses.catchTypes
  | .done => nofun
  | .clause type binding body rest => by
    refine List.forall_mem_cons.mpr ⟨List.mem_cons_self, fun clause hclause => ?_⟩
    exact List.mem_cons_of_mem _ (List.mem_append_right _ (types_of_offers clause hclause))

mutual

/-- Every clause that a construct offers is written. -/
lemma Part.offersOnly {s : Setting} : ∀ {part : Part}, part.Valid s → OffersOnly part.places (catchTypesEach part.stmts)
  | .block id _, _ => by simp [Part.places, OffersOnly]
  | .breakOut, _ => nofun
  | .continueLoop, _ => nofun
  | .ifThen cond _ body, h => by
    simpa [Part.stmts, Part.places, Stmt.catchTypes] using (OffersOnly.guard cond _).behind (offersOnly_of_valid h.2)
  | .ifElse cond taken fall, h => by
    have harms := (offersOnly_of_valid h.2.2).append (offersOnly_of_valid h.2.1)
    simpa [Part.stmts, Part.places, catchTypes_ifStmt] using (OffersOnly.guard cond _).behind harms
  | .choice cond taken fall, h => by
    have hfall := offersOnly_of_valid h.2.2.1
    have htaken := offersOnly_of_valid h.2.1
    rw [h.2.2.2.2] at hfall
    rw [h.2.2.2.1] at htaken
    exact (OffersOnly.guard cond _).behind (hfall.behind htaken)
  | .forever body, h => by
    simpa [Part.stmts, Part.places, Stmt.catchTypes, catchTypesEach_dropContinue] using offersOnly_of_valid h
  | .whileTest header _ _ body, h => by
    have hheader : OffersOnly [(header, [])] (catchTypesEach (written body)) := by simp [OffersOnly]
    simpa [Part.stmts, Part.places, Stmt.catchTypes, catchTypesEach_dropContinue] using
      hheader.behind (offersOnly_of_valid h.2)
  | .switch id _ arms, h => by
    have hid : OffersOnly [(id, [])] arms.arms.catchTypes := by simp [OffersOnly]
    simpa [Part.stmts, Part.places, Stmt.catchTypes] using hid.behind (Cases.offersOnly h.2)
  | .tryCatch body catches, h => by
    have hbody := (offersOnly_of_valid h.1).mono (List.subset_append_left _ catches.clauses.catchTypes)
    have hcatches := (Catches.offersOnly h.2).mono (List.subset_append_right (catchTypesEach (written body)) _)
    have hclauses (clause : String × List Part) (hclause : clause ∈ catches.offers) :
        clause.1 ∈ catchTypesEach (written body) ++ catches.clauses.catchTypes :=
      List.mem_append_right _ (Catches.types_of_offers clause hclause)
    rw [catchTypesEach_tryCatch, Part.places]
    exact (hbody.around hclauses).behind hcatches

lemma offersOnly_of_valid {s : Setting} :
    ∀ {o : List Part}, ValidEach s o → OffersOnly (places o) (catchTypesEach (written o))
  | [], _ => nofun
  | part :: rest, h => by
    rw [places_cons, written_cons, catchTypesEach_append]
    exact (Part.offersOnly h.1).append (offersOnly_of_valid h.2)

lemma Cases.offersOnly {s : Setting} : ∀ {arms : Cases}, arms.Valid s → OffersOnly arms.places arms.arms.catchTypes
  | .done, _ => nofun
  | .case .., h => (offersOnly_of_valid h.1).append (Cases.offersOnly h.2)
  | .default .., h => offersOnly_of_valid h

lemma Catches.offersOnly {s : Setting} : ∀ {catches : Catches}, catches.Valid s →
    OffersOnly catches.places catches.clauses.catchTypes
  | .done, _ => nofun
  | .clause .., h =>
    ((offersOnly_of_valid h.1).append (Catches.offersOnly h.2)).mono (List.subset_cons_self _ _)

end

mutual

/-- The block that a construct begins with. -/
def Part.entry? : Part → Option BlockId
  | .block id _ => some id
  | .whileTest header _ _ _ => some header
  | .forever body => entry? body
  | .tryCatch body _ => entry? body
  | _ => none

def entry? : List Part → Option BlockId
  | [] => none
  | part :: _ => part.entry?

end

namespace Setting

variable (s : Setting)

/-- An exception in a block may be caught by a handler. -/
def Throws (a b : BlockId) : Prop :=
  ∃ region ∈ s.regions, region.covers (s.graph.startOf a) = true ∧ ∃ handler ∈ region.handlers, handler.block = b

/-- An edge or an exception leads from a block to another. -/
def Flows (a b : BlockId) : Prop :=
  b ∈ s.graph.successors a ∨ s.Throws a b

/-- A walk may go on from a block to another, be it by an exception. -/
def Steps (a b : BlockId) : Prop :=
  s.GoesOn a b ∨ s.Throws a b

abbrev Reaches : BlockId → BlockId → Prop :=
  ReflTransGen s.Steps

/-- Clauses offer the handlers of a region: for each handler there is one of its type, whose body begins with the
handler and holds nothing but what the handler leads to. -/
def Offers (clauses : List (String × List Part)) (region : Region) : Prop :=
  ∀ handler ∈ region.handlers, ∃ clause ∈ clauses, clause.1 = s.catchTypeName handler.catchType ∧
    entry? clause.2 = some handler.block ∧ ∀ place ∈ places clause.2, s.Reaches handler.block place.1

variable {s}

lemma Leads.reaches {a b : BlockId} (h : s.Leads a b) : s.Reaches a b :=
  ReflTransGen.mono (fun _ _ => Or.inl) _ _ h

/-- The search for reachable blocks finds all to which edges and exceptions lead. -/
lemma mem_reachable (hs : s.InBounds) (hpos : 0 < s.graph.size) {id : BlockId} (h : ReflTransGen s.Flows 0 id) :
    id ∈ s.reachable := by
  have hnext {a b : BlockId} : s.Flows a b ↔ b ∈ s.graph.successors a ++
      ((s.regions.filter (·.covers (s.graph.startOf a))).flatMap fun region => region.handlers.map Handler.block) := by
    simp only [Flows, Throws, List.mem_append, List.mem_flatMap, List.mem_filter, List.mem_map, and_assoc]
  have hlt : ∀ a < s.graph.size, ∀ b, s.Flows a b → b < s.graph.size := by
    rintro a - b (hb | ⟨region, hregion, -, handler, hhandler, rfl⟩)
    · exact hs.closed.successors_lt a b hb
    · exact hs.handler_lt region hregion handler hhandler
  refine (mem_reach_iff (fun a ha b hb => hlt a ha b (hnext.mpr hb)) (by simpa using hpos)).mpr
    ⟨0, List.mem_singleton_self 0, ?_⟩
  exact ReflTransGen.mono (fun a b hb => hnext.mp hb) _ _ h

lemma Offers.mono {clauses clauses' : List (String × List Part)} {region : Region} (h : s.Offers clauses region)
    (hsub : clauses ⊆ clauses') : s.Offers clauses' region := by
  intro handler hhandler
  obtain ⟨clause, hclause, hoffer⟩ := h handler hhandler
  exact ⟨clause, hsub hclause, hoffer⟩

/-! ### Orderly ranges -/

variable (s)

/-- A block at which an exception is caught. -/
def IsHandler (id : BlockId) : Prop :=
  ∃ region ∈ s.regions, ∃ handler ∈ region.handlers, handler.block = id

/-- Ranges that can be written as `try` statements with all their handlers. -/
@[mk_iff]
structure Orderly : Prop where
  nonempty : ∀ region ∈ s.regions, region.start < region.stop
  /-- Handlers lie outside of the range that they protect. -/
  outside : ∀ region ∈ s.regions, ∀ handler ∈ region.handlers,
    region.covers (s.graph.startOf handler.block) = false
  /-- No two rows share a handler. -/
  distinct : ∀ region ∈ s.regions, (region.handlers.map Handler.block).Nodup
  owner : ∀ region ∈ s.regions, ∀ region' ∈ s.regions, ∀ handler ∈ region.handlers, ∀ handler' ∈ region'.handlers,
    handler.block = handler'.block → region = region'
  /-- Control comes to a handler by an exception only. -/
  thrown : ∀ region ∈ s.regions, ∀ handler ∈ region.handlers, handler.block ≠ 0 ∧
    ∀ id < s.graph.size, handler.block ∉ s.graph.successors id
  /-- Control comes into a range at its start only. -/
  entry : ∀ a < s.graph.size, ∀ b < s.graph.size, s.Steps a b → ∀ region ∈ s.regions,
    region.covers (s.graph.startOf b) = true →
      region.covers (s.graph.startOf a) = true ∨ region.start = s.graph.startOf b
  /-- A range around another one is around its handlers too. -/
  nested : ∀ region ∈ s.regions, ∀ outer ∈ s.regions, outer.covers region.start = true →
    (outer.start < region.start ∨ region.stop < outer.stop) →
      region.stop ≤ outer.stop ∧ ∀ handler ∈ region.handlers, outer.covers (s.graph.startOf handler.block) = true
  /-- A range that starts at the header of a loop ends behind the loop. -/
  loops : ∀ region ∈ s.regions, ∀ loop ∈ s.loops, region.start = s.graph.startOf loop.header → loop.stop < region.stop
  /-- A range that starts at a target of a switch outside of it is entered from the switch only. -/
  switches : ∀ b ∈ s.graph.blocks, ∀ edges ∈ b.switch, ∀ target ∈ edges.targets, ∀ region ∈ s.regions,
    region.start = s.graph.startOf target → region.covers b.start = false →
      ∀ id < s.graph.size, target ∈ s.graph.successors id → id = b.id

instance (a b : BlockId) : Decidable (s.GoesOn a b) :=
  inferInstanceAs (Decidable (_ ∨ _))

instance (a b : BlockId) : Decidable (s.Throws a b) :=
  inferInstanceAs (Decidable (∃ region ∈ s.regions, _ ∧ _))

instance (a b : BlockId) : Decidable (s.Steps a b) :=
  inferInstanceAs (Decidable (_ ∨ _))

set_option synthInstance.maxSize 512 in
instance : Decidable s.Orderly :=
  decidable_of_iff' _ s.orderly_iff

/-! ### Settings of code -/

/-- What is so of every setting that is made from the code of a method. -/
structure Built : Prop where
  inBounds : s.InBounds
  starts : ∀ {a b}, a < s.graph.size → b < s.graph.size → s.graph.startOf a = s.graph.startOf b → a = b
  first : s.graph.startOf 0 = 0
  nodup : s.regions.Nodup
  ranges : ∀ region ∈ s.regions, ∀ region' ∈ s.regions, region.range = region'.range → region = region'
  headers : ∀ loop ∈ s.loops, ∃ id, loop.header ∈ s.graph.successors id
  exits : ∀ loop ∈ s.loops, ∀ exit, loop.exit = some exit → ∃ id, exit ∈ s.graph.successors id
  /-- A lone jump has no statements. -/
  gotos : ∀ {id b i target}, s.graph.block? id = some b → b.body = [i] → i.opcode.isGoto = true → b.succs = [target] →
    ∃ r, s.Recovers id r ∧ r.stmts = []

end Setting

end JvmLift.Structure

namespace JvmLift.Flow

open Bytecode

/-- The header of a loop is the target of an edge that closes it. -/
lemma Loop.exists_header_mem {g : FlowGraph} {loop : Loop} (h : loop ∈ Loop.all g) :
    ∃ id, loop.header ∈ g.successors id := by
  obtain ⟨header, hheader, rfl⟩ := List.mem_map.mp h
  have hne : latches g header ≠ [] := by simpa using (List.mem_filter.mp hheader).2
  obtain ⟨id, hid⟩ := List.exists_mem_of_ne_nil _ hne
  have hedge := (List.mem_filter.mp hid).2
  simp only [Bool.and_eq_true, List.contains_iff_mem] at hedge
  exact ⟨id, hedge.1⟩

/-- Where a loop is left to is the target of an edge. -/
lemma Loop.exists_exit_mem {g : FlowGraph} {loop : Loop} (h : loop ∈ Loop.all g) {exit : BlockId}
    (hexit : loop.exit = some exit) : ∃ id, exit ∈ g.successors id := by
  obtain ⟨header, -, rfl⟩ := List.mem_map.mp h
  rcases Option.or_eq_some_iff.mp hexit with hexit | ⟨-, hexit⟩
  · obtain ⟨b, hb, hexit⟩ := Option.bind_eq_some_iff.mp hexit
    split at hexit
    · refine ⟨header, ?_⟩
      rw [FlowGraph.successors_of_block? hb]
      exact FlowGraph.mem_successors_iff.mpr (.inl (List.mem_of_find?_eq_some hexit))
    · cases hexit
  · obtain ⟨id, -, hid⟩ := List.mem_flatMap.mp (List.mem_of_mem_filter (mem_of_leastBy? hexit))
    exact ⟨id, hid⟩

/-- A region is the one of its range. -/
lemma Region.eq_ofRange {g : FlowGraph} {rows : List HandlerRow} {region : Region} (h : region ∈ ofTable g rows) :
    region = ofRange g rows region.range := by
  obtain ⟨range, -, rfl⟩ := List.mem_map.mp (List.mem_of_mem_filter h)
  rfl

lemma Region.nodup_ofTable (g : FlowGraph) (rows : List HandlerRow) : (ofTable g rows).Nodup := by
  refine ((nodup_eraseDups _).map fun range range' heq => ?_).filter _
  have hstart : range.1 = range'.1 := congrArg Region.start heq
  have hstop : range.2 = range'.2 := congrArg Region.stop heq
  exact Prod.ext hstart hstop

/-- Blocks are known by their starts. -/
lemma FlowGraph.eq_of_startOf_eq {insns : List Instruction} {extra : List Nat} {a b : BlockId}
    (ha : a < (withLeaders insns extra).size) (hb : b < (withLeaders insns extra).size)
    (h : (withLeaders insns extra).startOf a = (withLeaders insns extra).startOf b) : a = b := by
  obtain ⟨c, hc⟩ := exists_block? ha
  obtain ⟨d, hd⟩ := exists_block? hb
  have hstart : c.start = d.start := by simpa [startOf, hc, hd] using h
  have hc' := resolve_iff.mpr ⟨c, hc, rfl⟩
  have hd' := resolve_iff.mpr ⟨d, hd, hstart.symm⟩
  exact Option.some.inj (hc'.symm.trans hd')

/-- The first block starts with the code. -/
lemma FlowGraph.startOf_zero (code : List UInt8) (extra : List Nat) :
    (withLeaders (decode code) extra).startOf 0 = 0 := by
  have hcuts := cuts_withLeaders (coherent_decode code) extra
  cases hb : (withLeaders (decode code) extra).block? 0 with
  | none => simp [startOf, hb]
  | some b =>
    obtain ⟨i, hi, hstart⟩ := hcuts.head?_body hb
    have hmem := hcuts.mem_of_mem_body hb (List.mem_of_mem_head? hi)
    obtain ⟨first, hfirst⟩ : ∃ first, (decode code).head? = some first := by
      cases hcode : decode code with
      | nil => simp [hcode] at hmem
      | cons first rest => exact ⟨first, rfl⟩
    -- the block that holds the first instruction is the one at the first place
    obtain ⟨id, c, hc, hin⟩ := hcuts.exists_block (List.mem_of_mem_head? hfirst)
    obtain rfl := hcuts.id_eq_zero_of_first (coherent_decode code).ascending hfirst hc hin
    obtain rfl := Option.some.inj (hb.symm.trans hc)
    have hle := (hcuts.ascending_body (coherent_decode code).ascending hb).first_le hi first hin
    have hzero : first.offset = 0 := by
      have hcontiguous := (tiles_decode code).contiguous
      cases hcode : decode code with
      | nil => simp [hcode] at hfirst
      | cons first' rest =>
        rw [hcode] at hfirst hcontiguous
        cases hfirst
        exact hcontiguous.1
    simp only [startOf, hb, Option.map_some, Option.getD_some]
    omega

/-- Only a decoded instruction leads on. -/
lemma FlowGraph.not_undecoded_of_succs {code : List UInt8} {extra : List Nat} {id target : BlockId} {b : Block}
    {i : Instruction} (hb : (withLeaders (decode code) extra).block? id = some b) (hlast : b.last? = some i)
    (htarget : target ∈ b.succs) : i.isUndecoded = false := by
  have hinsns := coherent_decode code
  have hlt : target < (withLeaders (decode code) extra).size := (closed_build _ _ _).succs_lt hb target htarget
  obtain ⟨c, hc⟩ := exists_block? hlt
  obtain ⟨j, hj, -⟩ := (cuts_withLeaders hinsns extra).head?_body hc
  have hpasses := (mem_successors_iff_passes hinsns hb hc hlast hj).mp (mem_successors_iff.mpr (.inl htarget))
  rcases hpasses with ⟨-, -, -, -, hdecoded⟩ | ⟨-, -, hnamed⟩
  · exact hdecoded
  · cases hop : i.operand <;> simp [Instruction.isUndecoded, hop]
    simp [Instruction.targets, Instruction.target?, Instruction.switchTable?, hop] at hnamed

end JvmLift.Flow

namespace JvmLift.Structure

open Bytecode JvmLift.Flow Recovery Source Relation

/-- A jump does nothing but jump. -/
lemma run_goto (ctx : Context) {i : Instruction} (hgoto : i.opcode.isGoto = true) (hdecoded : i.isUndecoded = false)
    (stack : Stack) : run ctx [i] stack = .ok { stack } := by
  have heffect : effectOf i.opcode = .nothing := by
    obtain ⟨offset, ⟨raw⟩, operand, size⟩ := i
    simp only [Opcode.isGoto, Bool.or_eq_true, beq_iff_eq] at hgoto
    rcases hgoto with rfl | rfl <;> rfl
  have hstep : step ctx i stack = .ok { stack } := by
    cases hop : i.operand <;> simp_all [step, applyEffect?, Instruction.isUndecoded]
  simp [run, hstep, Recovered.andThen, bind, Except.bind, pure, Except.pure]

lemma built_ofCode (ctx : Context) (code : Code) : (Setting.ofShape ctx (CodeShape.ofCode code)).Built where
  inBounds := inBounds_ofShape ctx _ (closed_build _ _ _) code.handlers
  starts := FlowGraph.eq_of_startOf_eq
  first := FlowGraph.startOf_zero _ _
  nodup := Region.nodup_ofTable _ _
  ranges region hregion region' hregion' hrange := by
    rw [Region.eq_ofRange hregion, Region.eq_ofRange hregion', hrange]
  headers _ hloop := Loop.exists_header_mem hloop
  exits _ hloop _ hexit := Loop.exists_exit_mem hloop hexit
  gotos {id b i target} hb hbody hgoto hsuccs := by
    have hlast : b.last? = some i := by simp [Block.last?, hbody]
    have htarget : target ∈ b.succs := by simp [hsuccs]
    have hdecoded := FlowGraph.not_undecoded_of_succs hb hlast htarget
    exact ⟨_, ⟨b, [], 0, hb, by rw [hbody]; exact run_goto ctx hgoto hdecoded [], .inl rfl⟩, rfl⟩

end JvmLift.Structure
