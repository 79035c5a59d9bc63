import Mathlib
import JvmLift.Proofs.NormalForm
import JvmLift.Proofs.PassRules
import JvmLift.Proofs.Unused

/-!
# Where variables occur

No pass brings a variable into a body that was not in it, and no pass takes the `catch` clauses of a `try` apart: a
clause keeps its type and its binding, and only its body is rewritten by the same passes. Both are said by one property
of statements, for any set of variables and any property of clauses that the passes keep.
-/

namespace JvmLift.Source

/-! ### Expressions -/

namespace Expr

variable {A B : String → Prop}

/-- The variables of an expression are among given ones. -/
def NamesIn (A : String → Prop) (e : Expr) : Prop :=
  ∀ x, e.mentions x = true → A x

lemma NamesIn.mono {e : Expr} (h : e.NamesIn A) (hsub : ∀ x, A x → B x) : e.NamesIn B :=
  fun x hx => hsub x (h x hx)

lemma mentionsAny_iff {name : String} {es : List Expr} :
    mentionsAny name es = true ↔ ∃ e ∈ es, e.mentions name = true := by
  induction es with
  | nil => simp [mentionsAny]
  | cons e es ih => simp [mentionsAny, ih]

lemma namesIn_of_mentions {e : Expr} (h : ∀ x, e.mentions x = false) : e.NamesIn A :=
  fun x hx => by cases (h x).symm.trans hx

@[simp] lemma namesIn_var {x : String} : (var x).NamesIn A ↔ A x := by
  simp [NamesIn, mentions]

@[simp] lemma namesIn_binary {op : BinOp} {a b : Expr} : (binary op a b).NamesIn A ↔ a.NamesIn A ∧ b.NamesIn A := by
  simp [NamesIn, mentions, or_imp, forall_and]

@[simp] lemma namesIn_index {a b : Expr} : (index a b).NamesIn A ↔ a.NamesIn A ∧ b.NamesIn A := by
  simp [NamesIn, mentions, or_imp, forall_and]

@[simp] lemma namesIn_unary {op : UnOp} {a : Expr} : (unary op a).NamesIn A ↔ a.NamesIn A := Iff.rfl

@[simp] lemma namesIn_cast {type : String} {a : Expr} : (cast type a).NamesIn A ↔ a.NamesIn A := Iff.rfl

@[simp] lemma namesIn_instanceOf {type : String} {a : Expr} : (instanceOf a type).NamesIn A ↔ a.NamesIn A := Iff.rfl

@[simp] lemma namesIn_length {a : Expr} : (length a).NamesIn A ↔ a.NamesIn A := Iff.rfl

@[simp] lemma namesIn_field {name : String} {a : Expr} : (field a name).NamesIn A ↔ a.NamesIn A := Iff.rfl

@[simp] lemma namesIn_ternary {c a b : Expr} :
    (ternary c a b).NamesIn A ↔ c.NamesIn A ∧ a.NamesIn A ∧ b.NamesIn A := by
  simp [NamesIn, mentions, or_imp, forall_and, and_assoc]

lemma forall_mentionsAny_iff {es : List Expr} :
    (∀ x, mentionsAny x es = true → A x) ↔ ∀ e ∈ es, e.NamesIn A := by
  simp only [NamesIn, mentionsAny_iff]
  grind

@[simp] lemma namesIn_new {type : String} {args : List Expr} : (new type args).NamesIn A ↔ ∀ e ∈ args, e.NamesIn A :=
  forall_mentionsAny_iff

@[simp] lemma namesIn_newArray {type : String} {args : List Expr} :
    (newArray type args).NamesIn A ↔ ∀ e ∈ args, e.NamesIn A :=
  forall_mentionsAny_iff

@[simp] lemma namesIn_staticCall {owner name : String} {args : List Expr} :
    (staticCall owner name args).NamesIn A ↔ ∀ e ∈ args, e.NamesIn A :=
  forall_mentionsAny_iff

@[simp] lemma namesIn_call {receiver : Expr} {owner name : String} {args : List Expr} :
    (call receiver owner name args).NamesIn A ↔ receiver.NamesIn A ∧ ∀ e ∈ args, e.NamesIn A := by
  simp only [NamesIn, mentions, Bool.or_eq_true, or_imp, forall_and, forall_mentionsAny_iff]

lemma namesIn_negate {e : Expr} (h : e.NamesIn A) : e.negate.NamesIn A := by
  fun_induction negate e <;> simp_all

/-! ### Simplified expressions -/

lemma namesIn_foldBinary {op : BinOp} {a b : Expr} (ha : a.NamesIn A) (hb : b.NamesIn A) :
    (foldBinary op a b).NamesIn A := by
  unfold foldBinary
  split
  · next e hfold =>
    refine namesIn_of_mentions fun x => ?_
    unfold foldLiterals? at hfold
    split at hfold
    case h_5 => cases hfold
    case h_4 =>
      split_ifs at hfold
      cases hfold
      rfl
    all_goals
      obtain ⟨n, -, rfl⟩ := Option.map_eq_some_iff.mp hfold
      rfl
  · split_ifs with hconcat
    · exact namesIn_binary.mpr ⟨ha, hb⟩
    · cases hdrop : dropOperand? op a b with
      | none => exact namesIn_binary.mpr ⟨ha, hb⟩
      | some e =>
        obtain ⟨-, rfl | rfl⟩ := of_dropOperand? hdrop (by simpa using hconcat)
        · exact ha
        · exact hb

lemma namesIn_foldUnary {op : UnOp} {a : Expr} (h : a.NamesIn A) : (foldUnary op a).NamesIn A := by
  unfold foldUnary
  split
  case h_5 => split_ifs <;> simpa using h
  case h_6 => exact h
  all_goals exact namesIn_of_mentions fun _ => rfl

mutual

/-- Simplification brings no variable in. -/
lemma namesIn_simplify : ∀ {e : Expr}, e.NamesIn A → e.simplify.NamesIn A
  | binary op a b, h => by
    rw [namesIn_binary] at h
    rw [simplify]
    exact namesIn_foldBinary (namesIn_simplify h.1) (namesIn_simplify h.2)
  | unary op a, h => by
    rw [simplify]
    exact namesIn_foldUnary (namesIn_simplify (namesIn_unary.mp h))
  | field a _, h | length a, h | cast _ a, h | instanceOf a _, h => by
    rw [simplify]
    exact namesIn_simplify (e := a) h
  | index a b, h => by
    rw [namesIn_index] at h
    rw [simplify, namesIn_index]
    exact ⟨namesIn_simplify h.1, namesIn_simplify h.2⟩
  | ternary c a b, h => by
    rw [namesIn_ternary] at h
    rw [simplify, namesIn_ternary]
    exact ⟨namesIn_simplify h.1, namesIn_simplify h.2.1, namesIn_simplify h.2.2⟩
  | new _ args, h | newArray _ args, h | staticCall _ _ args, h => by
    rw [simplify]
    exact forall_mentionsAny_iff.mpr (namesIn_simplifyAll (forall_mentionsAny_iff.mp h))
  | call receiver _ _ args, h => by
    rw [namesIn_call] at h
    rw [simplify, namesIn_call]
    exact ⟨namesIn_simplify h.1, namesIn_simplifyAll h.2⟩
  | int _, _ | long _, _ | float _, _ | double _, _ | string _, _ | classLit _, _ | null, _ | bool _, _ | uninit _, _ =>
    namesIn_of_mentions fun _ => rfl
  | var _, h => h

lemma namesIn_simplifyAll : ∀ {es : List Expr}, (∀ e ∈ es, e.NamesIn A) → ∀ e ∈ simplifyAll es, e.NamesIn A
  | [], _ => by simp [simplifyAll]
  | _ :: _, h => by
    rw [List.forall_mem_cons] at h
    rw [simplifyAll, List.forall_mem_cons]
    exact ⟨namesIn_simplify h.1, namesIn_simplifyAll h.2⟩

end

end Expr

/-! ### Statements -/

/-- The `catch` clauses among the clauses of a `try`. -/
def Clauses.catches : Clauses → List CatchClause
  | .done | .finally _ => []
  | .handler type binding body rest => ⟨type, binding, body⟩ :: rest.catches

@[simp] lemma Clauses.catches_ofCatches (final : Option (List Stmt)) (clauses : List CatchClause) :
    (Clauses.ofCatches final clauses).catches = clauses := by
  induction clauses with
  | nil => cases final <;> rfl
  | cons c rest ih => rw [ofCatches, catches, ih]

lemma Clauses.bindings_eq (clauses : Clauses) : clauses.bindings = clauses.catches.map CatchClause.binding := by
  fun_induction Clauses.bindings clauses <;> simp_all [Clauses.catches]

namespace Stmt

/-- The `catch` clauses of a statement, without those of statements inside. -/
def catches : Stmt → List CatchClause
  | tryCatch _ clauses => clauses.catches
  | _ => []

/-- The variables of a statement are among given ones and its `catch` clauses have a property, statements inside
apart. -/
structure Within (A : String → Prop) (Q : CatchClause → Prop) (s : Stmt) : Prop where
  exprs : ∀ e ∈ s.exprs, e.NamesIn A
  binders : ∀ x ∈ s.binders, A x
  catches : ∀ c ∈ s.catches, Q c

/-- The variables of a statement are among given ones, statements inside apart. -/
abbrev NamesIn (A : String → Prop) : Stmt → Prop :=
  Within A fun _ => True

variable {A B : String → Prop} {Q R : CatchClause → Prop} {P P' : Stmt → Prop}
variable {f : List Stmt → List Stmt} {g : Expr → Expr}

/-- A statement that binds nothing. -/
lemma within_of_exprs {s : Stmt} (hbinders : s.binders = []) (hcatches : s.catches = [])
    (h : ∀ e ∈ s.exprs, e.NamesIn A) : s.Within A Q :=
  ⟨h, by simp [hbinders], by simp [hcatches]⟩

lemma Within.mono {s : Stmt} (h : s.Within A Q) (hA : ∀ x, A x → B x) (hQ : ∀ c, Q c → R c) : s.Within B R :=
  ⟨fun e he => (h.exprs e he).mono hA, fun x hx => hA x (h.binders x hx), fun c hc => hQ c (h.catches c hc)⟩

/-! ### At any depth -/

mutual

lemma Every.mono (hP : ∀ s, P s → P' s) : ∀ {s : Stmt}, s.Every P → s.Every P'
  | block _, h | ifThen .., h | whileLoop .., h | forEach .., h | synchronized .., h => ⟨hP _ h.1, EveryIn.mono hP h.2⟩
  | ifElse .., h => ⟨hP _ h.1, EveryIn.mono hP h.2.1, EveryIn.mono hP h.2.2⟩
  | forLoop .., h => ⟨hP _ h.1, EveryIn.mono hP h.2.1, EveryIn.mono hP h.2.2.1, EveryIn.mono hP h.2.2.2⟩
  | switch .., h => ⟨hP _ h.1, EveryInArms.mono hP h.2⟩
  | tryCatch .., h => ⟨hP _ h.1, EveryIn.mono hP h.2.1, EveryInClauses.mono hP h.2.2⟩
  | assign .., h | returnVoid, h | returnValue _, h | evaluate _, h | throwValue _, h | breakOut, h | continueLoop, h
  | comment _, h => hP _ h

lemma EveryIn.mono (hP : ∀ s, P s → P' s) : ∀ {body : List Stmt}, EveryIn P body → EveryIn P' body
  | [], _ => trivial
  | _ :: _, h => ⟨Every.mono hP h.1, EveryIn.mono hP h.2⟩

lemma EveryInArms.mono (hP : ∀ s, P s → P' s) : ∀ {arms : Arms}, EveryInArms P arms → EveryInArms P' arms
  | .done, _ => trivial
  | .case .., h => ⟨EveryIn.mono hP h.1, EveryInArms.mono hP h.2⟩
  | .default _, h => EveryIn.mono hP h

lemma EveryInClauses.mono (hP : ∀ s, P s → P' s) : ∀ {clauses : Clauses}, EveryInClauses P clauses →
    EveryInClauses P' clauses
  | .done, _ => trivial
  | .handler .., h => ⟨EveryIn.mono hP h.1, EveryInClauses.mono hP h.2⟩
  | .finally _, h => EveryIn.mono hP h

end

lemma EveryIn.bottomUp (hf : KeptBy f P) {body : List Stmt} (h : EveryIn P body) : EveryIn P (bottomUp f body) :=
  hf.body (EveryIn.mapBodies hf h)

mutual

lemma Every.mapExprs (hg : ∀ s, P s → P (s.mapExprs g)) : ∀ {s : Stmt}, s.Every P → (s.mapExprs g).Every P
  | block _, h | ifThen .., h | whileLoop .., h | forEach .., h | synchronized .., h =>
    ⟨hg _ h.1, EveryIn.mapExprs hg h.2⟩
  | ifElse .., h => ⟨hg _ h.1, EveryIn.mapExprs hg h.2.1, EveryIn.mapExprs hg h.2.2⟩
  | forLoop .., h => ⟨hg _ h.1, EveryIn.mapExprs hg h.2.1, EveryIn.mapExprs hg h.2.2.1, EveryIn.mapExprs hg h.2.2.2⟩
  | switch .., h => ⟨hg _ h.1, EveryInArms.mapExprs hg h.2⟩
  | tryCatch .., h => ⟨hg _ h.1, EveryIn.mapExprs hg h.2.1, EveryInClauses.mapExprs hg h.2.2⟩
  | assign .., h | returnVoid, h | returnValue _, h | evaluate _, h | throwValue _, h | breakOut, h | continueLoop, h
  | comment _, h => hg _ h

lemma EveryIn.mapExprs (hg : ∀ s, P s → P (s.mapExprs g)) : ∀ {body : List Stmt}, EveryIn P body →
    EveryIn P (mapExprsEach g body)
  | [], _ => trivial
  | _ :: _, h => ⟨Every.mapExprs hg h.1, EveryIn.mapExprs hg h.2⟩

lemma EveryInArms.mapExprs (hg : ∀ s, P s → P (s.mapExprs g)) : ∀ {arms : Arms}, EveryInArms P arms →
    EveryInArms P (mapExprsArms g arms)
  | .done, _ => trivial
  | .case .., h => ⟨EveryIn.mapExprs hg h.1, EveryInArms.mapExprs hg h.2⟩
  | .default _, h => EveryIn.mapExprs hg h

lemma EveryInClauses.mapExprs (hg : ∀ s, P s → P (s.mapExprs g)) : ∀ {clauses : Clauses}, EveryInClauses P clauses →
    EveryInClauses P (mapExprsClauses g clauses)
  | .done, _ => trivial
  | .handler .., h => ⟨EveryIn.mapExprs hg h.1, EveryInClauses.mapExprs hg h.2⟩
  | .finally _, h => EveryIn.mapExprs hg h

end

/-! ### Rewritten statements -/

lemma catches_mapBodiesClauses (f : List Stmt → List Stmt) (clauses : Clauses) :
    (mapBodiesClauses f clauses).catches = clauses.catches.map fun c => { c with body := bottomUp f c.body } := by
  fun_induction Clauses.catches clauses <;> simp_all [mapBodiesClauses, Clauses.catches, bottomUp]

lemma catches_mapExprsClauses (f : Expr → Expr) (clauses : Clauses) :
    (mapExprsClauses f clauses).catches = clauses.catches.map fun c => { c with body := mapExprsEach f c.body } := by
  fun_induction Clauses.catches clauses <;> simp_all [mapExprsClauses, Clauses.catches]

lemma catches_mapBodies (f : List Stmt → List Stmt) (s : Stmt) :
    (s.mapBodies f).catches = s.catches.map fun c => { c with body := bottomUp f c.body } := by
  cases s <;> first | rfl | exact catches_mapBodiesClauses f _

lemma catches_mapExprs (f : Expr → Expr) (s : Stmt) :
    (s.mapExprs f).catches = s.catches.map fun c => { c with body := mapExprsEach f c.body } := by
  cases s <;> first | rfl | exact catches_mapExprsClauses f _

@[simp] lemma binders_mapBodies (f : List Stmt → List Stmt) (s : Stmt) : (s.mapBodies f).binders = s.binders := by
  cases s with
  | tryCatch body clauses =>
    simp [Stmt.mapBodies, binders, Clauses.bindings_eq, catches_mapBodiesClauses, Function.comp_def]
  | _ => rfl

@[simp] lemma binders_mapExprs (f : Expr → Expr) (s : Stmt) : (s.mapExprs f).binders = s.binders := by
  cases s with
  | tryCatch body clauses =>
    simp [Stmt.mapExprs, binders, Clauses.bindings_eq, catches_mapExprsClauses, Function.comp_def]
  | _ => rfl

lemma exprs_mapExprs (f : Expr → Expr) (s : Stmt) : (s.mapExprs f).exprs = s.exprs.map f := by
  cases s <;> rfl

/-- Clauses keep a property when their bodies are rewritten. -/
def Suits (f : List Stmt → List Stmt) (Q : CatchClause → Prop) : Prop :=
  ∀ c, Q c → Q { c with body := f c.body }

lemma Within.mapBodies {f : List Stmt → List Stmt} (hQ : Suits (bottomUp f) Q) {s : Stmt} (h : s.Within A Q) :
    (s.mapBodies f).Within A Q := by
  refine ⟨by simpa using h.exprs, by simpa using h.binders, ?_⟩
  rw [catches_mapBodies]
  exact List.forall_mem_map.mpr fun c hc => hQ c (h.catches c hc)

lemma Within.mapExprs {f : Expr → Expr} (hf : ∀ e, e.NamesIn A → (f e).NamesIn A) (hQ : Suits (mapExprsEach f) Q)
    {s : Stmt} (h : s.Within A Q) : (s.mapExprs f).Within A Q := by
  refine ⟨?_, by simpa using h.binders, ?_⟩
  · rw [exprs_mapExprs]
    exact List.forall_mem_map.mpr fun e he => hf e (h.exprs e he)
  · rw [catches_mapExprs]
    exact List.forall_mem_map.mpr fun c hc => hQ c (h.catches c hc)

end Stmt

/-- Simplification keeps variables and clauses. -/
lemma everyIn_simplifyBody {A : String → Prop} {Q : CatchClause → Prop} (hQ : Stmt.Suits simplifyBody Q)
    {body : List Stmt} (h : Stmt.EveryIn (Stmt.Within A Q) body) :
    Stmt.EveryIn (Stmt.Within A Q) (simplifyBody body) :=
  Stmt.EveryIn.mapExprs (fun _ hs => hs.mapExprs (fun _ => Expr.namesIn_simplify) hQ) h

end JvmLift.Source

namespace JvmLift.Idiom

open Source Stmt

variable {A : String → Prop} {Q : CatchClause → Prop} {s : Stmt} {body : List Stmt}

/-! ### Passes on one body -/

lemma every_guardedBody? {P : Stmt → Prop} (h : guardedBody? s = some body) (hs : s.Every P) : EveryIn P body := by
  unfold guardedBody? at h
  split at h
  case h_3 => cases h
  all_goals
    split_ifs at h
    cases h
    exact hs.2.1

lemma everyIn_dropMonitorExits (hQ : Suits dropMonitorExits Q) (h : EveryIn (Within A Q) body) :
    EveryIn (Within A Q) (dropMonitorExits body) := by
  refine EveryIn.bottomUp ⟨fun hs => hs.mapBodies hQ, fun hinner => ?_⟩ h
  rw [everyIn_iff] at hinner ⊢
  exact fun s hs => hinner s (List.mem_of_mem_filter hs)

lemma everyIn_recoverSynchronized (hQ : Suits dropMonitorExits Q) (h : EveryIn (Within A Q) body) :
    EveryIn (Within A Q) (recoverSynchronized body) := by
  have hmonitor {enter : Stmt} {monitor : Expr} {inner : List Stmt}
      (henter : monitorCall? "monitorenter" enter = some monitor) (hwithin : enter.Every (Within A Q)) :
      (Stmt.synchronized monitor inner).Within A Q := by
    rw [exists_of_monitorCall? henter] at hwithin
    exact within_of_exprs rfl rfl (by simpa [exprs] using hwithin.self.exprs)
  have hkept : KeptBySections (Every (Within A Q)) :=
    ⟨fun henter hwithin hinner => ⟨hmonitor henter hwithin, everyIn_iff.mpr hinner⟩,
      fun henter hwithin hguarded hs =>
        ⟨hmonitor henter hwithin, everyIn_dropMonitorExits hQ (every_guardedBody? hguarded hs)⟩⟩
  rw [everyIn_iff] at h ⊢
  exact forall_mem_recoverSynchronized hkept h

lemma everyIn_recoverForEach (h : EveryIn (Within A Q) body) : EveryIn (Within A Q) (recoverForEach body) := by
  rw [everyIn_iff] at h ⊢
  refine forall_mem_joinHeads (fun {setup cond inner loop} hloop hsetup hwhile => ?_) h
  obtain ⟨it, iterable, type, name, first, rest, rfl, hit, -, hfirst, rfl⟩ := of_forEach? hloop
  obtain ⟨-, hinner⟩ := hwhile
  refine ⟨⟨?_, ?_, by simp [catches]⟩, hinner.2⟩
  · obtain ⟨owner, rfl⟩ := of_iteratorSetup? hit
    have hcall := hsetup.self.exprs _ (List.mem_cons_of_mem _ List.mem_cons_self)
    simpa [exprs] using (Expr.namesIn_call.mp hcall).1
  · have hname : first.exprs.head? = some (.var name) := by
      obtain ⟨owner, rfl | ⟨-, rfl⟩⟩ := of_element? hfirst <;> rfl
    have hvar := hinner.1.self.exprs _ (List.mem_of_head? hname)
    simpa [binders] using hvar

lemma restsOn_within : RestsOn (Within A Q) (Expr.NamesIn A) where
  exprs h := h.exprs
  forLoop h := within_of_exprs rfl rfl (by simpa [exprs] using h)
  assign ha hb := within_of_exprs rfl rfl (by simpa [exprs] using ⟨ha, hb⟩)
  returnValue h := within_of_exprs rfl rfl (by simpa [exprs] using h)
  bool _ := Expr.namesIn_of_mentions fun _ => rfl
  negate h := Expr.namesIn_negate h
  ternary := Expr.namesIn_ternary

/-! ### All passes -/

lemma everyIn_recoverBody (hQ : Suits dropMonitorExits Q) (returnsBoolean : Bool) (h : EveryIn (Within A Q) body) :
    EveryIn (Within A Q) (recoverBody returnsBoolean body) := by
  have hloops := everyIn_recoverFor restsOn_within (everyIn_recoverForEach (everyIn_recoverSynchronized hQ h))
  refine everyIn_foldAssigns restsOn_within ?_
  split
  · exact everyIn_foldReturns restsOn_within hloops
  · exact hloops

/-- The passes bring no variable in and keep every `catch` clause, whose body they have rewritten. -/
theorem everyIn_recover (returnsBoolean : Bool) (hexits : Suits dropMonitorExits Q)
    (hbodies : Suits (bottomUp (recoverBody returnsBoolean)) Q) (h : EveryIn (Within A Q) body) :
    EveryIn (Within A Q) (recover returnsBoolean body) := by
  have hall := EveryIn.bottomUp ⟨fun hs => hs.mapBodies hbodies, everyIn_recoverBody hexits returnsBoolean⟩ h
  unfold recover dropReturn
  split
  · rw [everyIn_iff] at hall ⊢
    exact fun s hs => hall s (List.dropLast_subset _ hs)
  · exact hall

end JvmLift.Idiom
