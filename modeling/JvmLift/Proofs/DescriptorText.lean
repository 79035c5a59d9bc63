import Mathlib
import JvmLift.Descriptor

/-!
# Texts of descriptors

A text is read as a type exactly when it is the descriptor of that type, and the same is so for signatures. The only types
without a text are those with a class name that is empty or holds the semicolon that would end it. Parameters are read one
after another up to the closing parenthesis; each takes at least one character, so the loop ends on every text.
-/

namespace JvmLift

/-! ### Types -/

namespace FieldType

/-- Every class name in the type can be written: it is not empty and does not hold the semicolon behind it. -/
def WellNamed : FieldType → Prop
  | object name => name ≠ "" ∧ ';' ∉ name.toList
  | array element => element.WellNamed
  | _ => True

variable {cs rest : List Char} {t : FieldType}

/-- A name that is followed by a semicolon is all that stands before it. -/
lemma read?_object {name : List Char} (hne : name ≠ []) (hname : ';' ∉ name) (rest : List Char) :
    read? ('L' :: (name ++ ';' :: rest)) = some (object (.ofList name), rest) := by
  have hall : ∀ c ∈ name, (c != ';') = true := by
    intro c hc
    simpa using ne_of_mem_of_not_mem hc hname
  obtain ⟨c, name, rfl⟩ := List.exists_cons_of_ne_nil hne
  rw [read?, List.takeWhile_append_of_pos hall, List.dropWhile_append_of_pos hall]
  simp

/-- What stands before the first semicolon, if there is one. -/
lemma split_at_semicolon {name : List Char} {d : Char} (hname : cs.takeWhile (· != ';') = name)
    (hrest : cs.dropWhile (· != ';') = d :: rest) : ';' ∉ name ∧ cs = name ++ ';' :: rest := by
  have hend := List.head?_dropWhile_not (· != ';') cs
  rw [hrest] at hend
  obtain rfl : d = ';' := by simpa using hend
  refine ⟨fun hmem => ?_, ?_⟩
  · have := List.mem_takeWhile_imp (hname.symm ▸ hmem)
    exact absurd this (by decide)
  · rw [← hname, ← hrest, List.takeWhile_append_dropWhile]

/-- **Reading back.** Behind its descriptor, a type is read and nothing else. -/
lemma read?_descriptor (h : t.WellNamed) (rest : List Char) :
    read? (t.descriptor.toList ++ rest) = some (t, rest) := by
  induction t with
  | object name => simpa [descriptor] using read?_object (mt String.toList_eq_nil_iff.mp h.1) h.2 rest
  | array element ih => simp [descriptor, read?, ih h]
  | _ => rfl

/-- **Exactness.** What is read of a text is the descriptor of the type. -/
lemma of_read? (h : read? cs = some (t, rest)) : t.WellNamed ∧ cs = t.descriptor.toList ++ rest := by
  fun_induction read? cs generalizing t with
  | case9 cs c name d rest' hrest hname =>
    cases h
    obtain ⟨hmem, rfl⟩ := split_at_semicolon hname hrest
    exact ⟨by simpa [WellNamed] using hmem, by simp [descriptor]⟩
  | case10 => cases h
  | case11 cs ih =>
    obtain ⟨⟨element, rest'⟩, hread, heq⟩ := Option.map_eq_some_iff.mp h
    cases heq
    obtain ⟨hnamed, rfl⟩ := ih hread
    exact ⟨hnamed, by simp [descriptor]⟩
  | case12 => cases h
  | _ =>
    cases h
    exact ⟨trivial, rfl⟩

lemma read?_eq_some_iff : read? cs = some (t, rest) ↔ t.WellNamed ∧ cs = t.descriptor.toList ++ rest := by
  constructor
  · exact of_read?
  · rintro ⟨hnamed, rfl⟩
    exact read?_descriptor hnamed rest

/-- A descriptor starts with a letter or a bracket. -/
lemma head?_descriptor (t : FieldType) : ∃ c, t.descriptor.toList.head? = some c ∧ c ≠ ')' ∧ c ≠ 'V' := by
  cases t <;> simp [descriptor]

/-- Reading a type takes at least one character. -/
lemma length_lt_of_read? (h : read? cs = some (t, rest)) : rest.length < cs.length := by
  obtain ⟨-, rfl⟩ := of_read? h
  obtain ⟨c, hc, -⟩ := head?_descriptor t
  obtain ⟨cs, hcs⟩ := List.head?_eq_some_iff.mp hc
  simp [hcs]

lemma parse_eq_ok_iff {text : String} : parse text = .ok t ↔ t.WellNamed ∧ t.descriptor = text := by
  have hread : parse text = .ok t ↔ read? text.toList = some (t, []) := by
    unfold parse
    split <;> simp_all
  rw [hread, read?_eq_some_iff, List.append_nil, String.toList_inj, eq_comm (a := text)]

end FieldType

/-! ### Signatures -/

namespace MethodDescriptor

/-- Every class name in the signature can be written. -/
def WellNamed (d : MethodDescriptor) : Prop :=
  (∀ t ∈ d.params, t.WellNamed) ∧ ∀ t ∈ d.ret, t.WellNamed

/-- Reads parameters up to the closing parenthesis, however many there are: what comes of it is the parameters and the
rest of the text, or nothing if there is a text that is no type. -/
inductive ReadsParams : List Char → Option (List FieldType × List Char) → Prop
  | close (rest : List Char) : ReadsParams (')' :: rest) (some ([], rest))
  | refuse {cs : List Char} (more : cs.head? ≠ some ')') (noType : FieldType.read? cs = none) : ReadsParams cs none
  | param {cs rest : List Char} {t : FieldType} {outcome : Option (List FieldType × List Char)}
      (more : cs.head? ≠ some ')') (first : FieldType.read? cs = some (t, rest)) (behind : ReadsParams rest outcome) :
      ReadsParams cs (outcome.map fun (types, rest) => (t :: types, rest))

variable {cs rest : List Char} {types : List FieldType}

lemma readParams?_succ (n : Nat) (h : cs.head? ≠ some ')') : readParams? (n + 1) cs =
    (FieldType.read? cs).bind fun (t, rest) => (readParams? n rest).map fun (types, rest) => (t :: types, rest) := by
  rw [readParams?]
  · cases FieldType.read? cs with
    | none => rfl
    | some first => cases hrest : readParams? n first.2 <;> simp [hrest]
  · rintro rest rfl
    exact h rfl

/-- **Termination.** The loop ends on every text, and no more parameters are read than there are characters. -/
lemma readsParams_readParams? (n : Nat) (h : cs.length ≤ n) : ReadsParams cs (readParams? n cs) := by
  induction n generalizing cs with
  | zero =>
    obtain rfl : cs = [] := List.length_eq_zero_iff.mp (by omega)
    exact .refuse (by simp) rfl
  | succ n ih =>
    by_cases hclose : cs.head? = some ')'
    · obtain ⟨rest, rfl⟩ := List.head?_eq_some_iff.mp hclose
      exact .close rest
    · rw [readParams?_succ n hclose]
      cases hread : FieldType.read? cs with
      | none => exact .refuse hclose hread
      | some first =>
        obtain ⟨t, rest⟩ := first
        have hshorter := FieldType.length_lt_of_read? hread
        exact .param hclose hread (ih (by omega))

lemma ReadsParams.unique {outcome outcome' : Option (List FieldType × List Char)} (h : ReadsParams cs outcome)
    (h' : ReadsParams cs outcome') : outcome = outcome' := by
  induction h generalizing outcome' with
  | close rest =>
    cases h' with
    | close => rfl
    | refuse more | param more => exact absurd rfl more
  | refuse more noType =>
    cases h' with
    | close => exact absurd rfl more
    | refuse => rfl
    | param _ first => cases noType.symm.trans first
  | param more first behind ih =>
    cases h' with
    | close => exact absurd rfl more
    | refuse _ noType => cases noType.symm.trans first
    | param _ first' behind' =>
      cases first.symm.trans first'
      rw [ih behind']

/-- Parameters are read from their descriptors with a parenthesis behind them. -/
lemma readsParams_of_wellNamed (h : ∀ t ∈ types, t.WellNamed) (rest : List Char) :
    ReadsParams (types.flatMap (·.descriptor.toList) ++ ')' :: rest) (some (types, rest)) := by
  induction types with
  | nil => exact .close rest
  | cons t types ih =>
    obtain ⟨ht, htypes⟩ := List.forall_mem_cons.mp h
    have hread := FieldType.read?_descriptor ht (types.flatMap (·.descriptor.toList) ++ ')' :: rest)
    have hmore : (t.descriptor.toList ++ (types.flatMap (·.descriptor.toList) ++ ')' :: rest)).head? ≠ some ')' := by
      obtain ⟨c, hc, hne, -⟩ := FieldType.head?_descriptor t
      simpa [hc] using hne
    rw [List.flatMap_cons, List.append_assoc]
    exact .param hmore hread (ih htypes)

/-- What is read as parameters is their descriptors with a parenthesis behind them. -/
lemma ReadsParams.text {outcome : Option (List FieldType × List Char)} (h : ReadsParams cs outcome)
    (hread : outcome = some (types, rest)) :
    (∀ t ∈ types, t.WellNamed) ∧ cs = types.flatMap (·.descriptor.toList) ++ ')' :: rest := by
  induction h generalizing types with
  | close rest =>
    cases hread
    exact ⟨nofun, rfl⟩
  | refuse => cases hread
  | @param cs _ t outcome _ first _ ih =>
    obtain ⟨⟨types', rest'⟩, houtcome, heq⟩ := Option.map_eq_some_iff.mp hread
    cases heq
    obtain ⟨htypes, rfl⟩ := ih houtcome
    obtain ⟨ht, rfl⟩ := FieldType.of_read? first
    exact ⟨List.forall_mem_cons.mpr ⟨ht, htypes⟩, by simp⟩

lemma readParams?_eq_some_iff : readParams? cs.length cs = some (types, rest) ↔
    (∀ t ∈ types, t.WellNamed) ∧ cs = types.flatMap (·.descriptor.toList) ++ ')' :: rest := by
  have hends := readsParams_readParams? cs.length (le_refl cs.length)
  constructor
  · exact hends.text
  · rintro ⟨hnamed, hcs⟩
    exact hends.unique (hcs ▸ readsParams_of_wellNamed hnamed rest)

lemma readReturn?_eq_some_iff {ret : Option FieldType} : readReturn? cs = some ret ↔
    (∀ t ∈ ret, t.WellNamed) ∧ cs = ((ret.map FieldType.descriptor).getD "V").toList := by
  unfold readReturn?
  split
  · cases ret with
    | none => simp
    | some t =>
      obtain ⟨c, hc, -, hne⟩ := FieldType.head?_descriptor t
      suffices ['V'] ≠ t.descriptor.toList by simpa using fun _ => this
      intro heq
      rw [← heq] at hc
      exact hne (Option.some.inj hc).symm
  · next hvoid =>
    have hread (t : FieldType) : FieldType.read? cs = some (t, []) ↔ t.WellNamed ∧ cs = t.descriptor.toList := by
      simpa using @FieldType.read?_eq_some_iff cs [] t
    cases ret with
    | none => split <;> simpa using hvoid
    | some t => split <;> simp_all

lemma toList_descriptor (d : MethodDescriptor) : d.descriptor.toList =
    '(' :: (d.params.flatMap (·.descriptor.toList) ++ ')' :: ((d.ret.map FieldType.descriptor).getD "V").toList) := by
  simp [descriptor, List.flatMap_map]

lemma read?_eq_some_iff {d : MethodDescriptor} : read? cs = some d ↔ d.WellNamed ∧ cs = d.descriptor.toList := by
  rw [toList_descriptor]
  unfold read?
  split
  · next cs =>
    simp only [bind, Option.bind_eq_some_iff, Prod.exists, readParams?_eq_some_iff, readReturn?_eq_some_iff, pure,
      Option.some.injEq, List.cons.injEq, true_and]
    constructor
    · rintro ⟨params, rest, ⟨hparams, rfl⟩, ret, ⟨hret, rfl⟩, rfl⟩
      exact ⟨⟨hparams, hret⟩, rfl⟩
    · rintro ⟨⟨hparams, hret⟩, rfl⟩
      exact ⟨d.params, _, ⟨hparams, rfl⟩, d.ret, ⟨hret, rfl⟩, rfl⟩
  · next hopen =>
    simp only [reduceCtorEq, false_iff, not_and]
    rintro - rfl
    exact hopen _ rfl

lemma parse_eq_ok_iff {text : String} {d : MethodDescriptor} :
    parse text = .ok d ↔ d.WellNamed ∧ d.descriptor = text := by
  have hread : parse text = .ok d ↔ read? text.toList = some d := by
    unfold parse
    split <;> simp_all
  rw [hread, read?_eq_some_iff, String.toList_inj, eq_comm (a := text)]

end MethodDescriptor

/-- **Descriptors.** A text is read as a type or as a signature exactly when it is the descriptor of that type or
signature and every class name in it can be written; on any other text there is an error that carries the text. Reading
ends on every text, since the loop over the parameters does, with what the reader with a bound gives. -/
theorem parse_exact :
    (∀ text t, FieldType.parse text = .ok t ↔ t.WellNamed ∧ t.descriptor = text) ∧
    (∀ text, (∃ t, FieldType.parse text = .ok t) ∨ FieldType.parse text = .error (.invalidDescriptor text)) ∧
    (∀ text d, MethodDescriptor.parse text = .ok d ↔ d.WellNamed ∧ d.descriptor = text) ∧
    (∀ text, (∃ d, MethodDescriptor.parse text = .ok d) ∨
      MethodDescriptor.parse text = .error (.invalidDescriptor text)) ∧
    ∀ cs outcome, MethodDescriptor.ReadsParams cs outcome ↔ MethodDescriptor.readParams? cs.length cs = outcome := by
  refine ⟨fun _ _ => FieldType.parse_eq_ok_iff, fun text => ?_, fun _ _ => MethodDescriptor.parse_eq_ok_iff,
    fun text => ?_, fun cs outcome => ⟨fun h => ?_, ?_⟩⟩
  · unfold FieldType.parse
    split <;> simp
  · unfold MethodDescriptor.parse
    split <;> simp
  · exact (MethodDescriptor.readsParams_readParams? cs.length (le_refl cs.length)).unique h
  · rintro rfl
    exact MethodDescriptor.readsParams_readParams? cs.length (le_refl cs.length)

end JvmLift
