import Mathlib
import JvmLift.Number.Text
import JvmLift.Proofs.Interpretation
import JvmLift.Recovery.Concat

/-!
# Concatenations follow their recipes

A recipe is a text with two kinds of tags, which stand for arguments and for constants. The sum that is made of it has
the text of the recipe as its value: the operands are added from the left, and `+` joins texts as soon as one operand is
a text, so it is enough that one of the first two is. Simplification keeps that value, since in such a sum nothing but
two string literals beside each other is folded.
-/

namespace JvmLift.Source

open Number

/-! ### Sums of texts and numbers -/

/-- What the value of a sum depends on: the values of variables, the objects that class literals stand for, and the texts
of objects and of floating-point numbers. -/
structure Wording where
  vars : String → Datum
  classes : String → Nat
  objects : Nat → String
  floats : Single → String
  doubles : Double → String

namespace Wording

variable (W : Wording)

/-- The text of a value. -/
def text : Datum → String
  | .plain (.int n) => toString n.toInt
  | .plain (.long n) => toString n.toInt
  | .plain (.bool b) => toString b
  | .plain (.ref none) => "null"
  | .plain (.ref (some object)) => W.objects object
  | .float x => W.floats x
  | .double x => W.doubles x
  | .text s => s

/-- What `+` gives: the texts of its operands joined if one of them is a text, and else the sum of two integers. -/
def plus? : Datum → Datum → Option Datum
  | .text s, y => some (.text (s ++ W.text y))
  | x, .text t => some (.text (W.text x ++ t))
  | .plain x, .plain y => (Value.operate? .add x y).map .plain
  | _, _ => none

/-- The value of a sum of literals and variables. -/
def value? : Expr → Option Datum
  | .int n => some (.plain (.int n))
  | .long n => some (.plain (.long n))
  | .float x => some (.float x)
  | .double x => some (.double x)
  | .string s => some (.text s)
  | .classLit name => some (.plain (.ref (some (W.classes name))))
  | .null => some (.plain (.ref none))
  | .bool b => some (.plain (.bool b))
  | .var name => some (W.vars name)
  | .binary .add a b => do W.plus? (← value? a) (← value? b)
  | _ => none

/-- The text of an expression, empty if it has no value. -/
def textOf (e : Expr) : String :=
  ((W.value? e).map W.text).getD ""

end Wording

namespace Expr

variable {a b e : Expr}

/-- Literals, also those of classes, and variables. -/
def isTerm : Expr → Bool
  | int _ | long _ | float _ | double _ | string _ | classLit _ | null | bool _ | var _ => true
  | _ => false

lemma simplify_of_isTerm (h : e.isTerm = true) : e.simplify = e := by
  cases e <;> simp only [isTerm, Bool.false_eq_true] at h <;> rw [simplify]

/-- In a concatenation nothing but two string literals is folded. -/
lemma foldBinary_add_of_isConcat (h : a.isConcat = true ∨ b.isConcat = true) :
    foldBinary .add a b = binary .add a b ∨
      ∃ s t, a = string s ∧ b = string t ∧ foldBinary .add a b = string (s ++ t) := by
  unfold foldBinary
  split
  · next hfold =>
    unfold foldLiterals? at hfold
    split at hfold
    -- numbers are no concatenation
    · simp [isConcat] at h
    · simp [isConcat] at h
    · simp [isConcat] at h
    · cases hfold
      exact .inr ⟨_, _, rfl, rfl, rfl⟩
    · cases hfold
  · rw [if_pos (by simpa using h)]
    exact .inl rfl

end Expr

namespace Wording

variable {W : Wording} {a b e : Expr} {s t : String}

@[simp] lemma textOf_string (s : String) : W.textOf (.string s) = s := rfl

lemma value?_of_isTerm (h : e.isTerm = true) : ∃ x, W.value? e = some x ∧ W.text x = W.textOf e := by
  cases e <;> simp only [Expr.isTerm, Bool.false_eq_true] at h <;> exact ⟨_, rfl, rfl⟩

lemma plus?_text_right (x : Datum) (t : String) : W.plus? x (.text t) = some (.text (W.text x ++ t)) := by
  cases x <;> rfl

lemma value?_add {x y : Datum} (ha : W.value? a = some x) (hb : W.value? b = some y) :
    W.value? (.binary .add a b) = W.plus? x y := by
  simp [value?, ha, hb]

/-! ### Simplified concatenations -/

/-- An expression whose value is a text, also when it has been simplified, and which then is still known to be a
concatenation. -/
structure Spells (W : Wording) (e : Expr) (s : String) : Prop where
  value : W.value? e = some (.text s)
  simplified : W.value? e.simplify = some (.text s)
  isConcat : e.simplify.isConcat = true

lemma spells_string (s : String) : W.Spells (.string s) s :=
  ⟨rfl, by rw [Expr.simplify]; rfl, by rw [Expr.simplify]; rfl⟩

/-- One more operand, if the sum so far or the operand is a text. -/
lemma spells_add {x y : Datum} (ha : W.value? a = some x) (ha' : W.value? a.simplify = some x)
    (hb : W.value? b = some y) (hb' : W.value? b.simplify = some y) (hxy : W.plus? x y = some (.text s))
    (hconcat : a.simplify.isConcat = true ∨ b.simplify.isConcat = true) : W.Spells (.binary .add a b) s := by
  have hvalue : W.value? (.binary .add a.simplify b.simplify) = some (.text s) := (value?_add ha' hb').trans hxy
  refine ⟨(value?_add ha hb).trans hxy, ?_, ?_⟩
  · rw [Expr.simplify]
    obtain hfold | ⟨u, v, hu, hv, hfold⟩ := Expr.foldBinary_add_of_isConcat hconcat
    · rw [hfold, hvalue]
    · rw [hfold, ← hvalue, hu, hv]
      rfl
  · rw [Expr.simplify]
    obtain hfold | ⟨u, v, -, -, hfold⟩ := Expr.foldBinary_add_of_isConcat hconcat
    · rw [hfold]
      simpa [Expr.isConcat] using hconcat
    · rw [hfold]
      rfl

lemma Spells.add (ha : W.Spells a s) (hb : b.isTerm = true) : W.Spells (.binary .add a b) (s ++ W.textOf b) := by
  obtain ⟨y, hy, htext⟩ := value?_of_isTerm (W := W) hb
  refine spells_add ha.value ha.simplified hy (by rwa [Expr.simplify_of_isTerm hb]) ?_ (.inl ha.isConcat)
  rw [← htext]
  rfl

lemma spells_add_string (ha : a.isTerm = true) (t : String) :
    W.Spells (.binary .add a (.string t)) (W.textOf a ++ t) := by
  obtain ⟨x, hx, htext⟩ := value?_of_isTerm (W := W) ha
  have ht := spells_string (W := W) t
  refine spells_add hx (by rwa [Expr.simplify_of_isTerm ha]) ht.value ht.simplified ?_ (.inr ht.isConcat)
  rw [plus?_text_right, htext]

lemma Spells.foldl (ha : W.Spells a s) {parts : List Expr} (hparts : ∀ b ∈ parts, b.isTerm = true) :
    W.Spells (parts.foldl (.binary .add) a) (s ++ String.join (parts.map W.textOf)) := by
  induction parts generalizing a s with
  | nil => simpa using ha
  | cons b parts ih =>
    obtain ⟨hb, hparts⟩ := List.forall_mem_cons.mp hparts
    simpa [String.append_assoc] using ih (ha.add hb) hparts

end Wording

end JvmLift.Source

namespace JvmLift.Recovery

open Source

variable {W : Wording}

lemma eq_string_of_isStringLiteral {e : Expr} (h : isStringLiteral e = true) : ∃ s, e = .string s := by
  cases e <;> simp only [isStringLiteral, Bool.false_eq_true] at h
  exact ⟨_, rfl⟩

/-- Parts are joined to their texts, one behind the other. -/
lemma spells_joinConcat {parts : List Expr} (hparts : ∀ b ∈ parts, b.isTerm = true) :
    W.Spells (joinConcat parts) (String.join (parts.map W.textOf)) := by
  have hempty : W.Spells (parts.foldl (.binary .add) (.string "")) (String.join (parts.map W.textOf)) := by
    simpa using (Wording.spells_string (W := W) "").foldl hparts
  match parts, hparts with
  | [], _ | [_], _ => exact hempty
  | a :: b :: rest, hparts =>
    unfold joinConcat
    dsimp only
    split
    · exact absurd ‹_› (by split_ifs <;> simp)
    · next first rest' heq =>
      split_ifs at heq with hliteral
      · cases heq
        obtain ⟨ha, hb, hrest⟩ : a.isTerm = true ∧ b.isTerm = true ∧ ∀ c ∈ rest, c.isTerm = true := by
          simpa using hparts
        -- the sum is a text from its first operand on, or from its second one
        rcases Bool.or_eq_true_iff.mp hliteral with hstring | hstring
        · obtain ⟨s, rfl⟩ := eq_string_of_isStringLiteral hstring
          simpa using (Wording.spells_string (W := W) s).foldl (List.forall_mem_cons.mpr ⟨hb, hrest⟩)
        · obtain ⟨t, rfl⟩ := eq_string_of_isStringLiteral hstring
          simpa [String.append_assoc] using (Wording.spells_add_string (W := W) ha t).foldl hrest
      · cases heq
        exact hempty

/-! ### Recipes -/

/-- The text of a recipe: its plain characters, with the text of the next argument for every first tag and that of the
next constant for every second tag. Tags behind the last argument or constant stand for nothing. -/
def recipeText (recipe : List Char) (args constants : List String) : String :=
  String.join <| recipe.mapIdx fun k c =>
    if c = '\x01' then args.getD ((recipe.take k).count '\x01') ""
    else if c = '\x02' then constants.getD ((recipe.take k).count '\x02') ""
    else String.singleton c

/-- The text of a constant. A class goes by its name in source text. -/
def constantText (W : Wording) : Constant → String
  | .int n => toString n.toInt
  | .long n => toString n.toInt
  | .float x => W.floats x
  | .double x => W.doubles x
  | .string s => s
  | .classRef name => W.objects (W.classes (classOperandName name))

lemma recipeText_cons (c : Char) (recipe : List Char) (args constants : List String) :
    recipeText (c :: recipe) args constants =
      if c = '\x01' then args.headD "" ++ recipeText recipe args.tail constants
      else if c = '\x02' then constants.headD "" ++ recipeText recipe args constants.tail
      else String.singleton c ++ recipeText recipe args constants := by
  unfold recipeText
  rw [List.mapIdx_cons, String.join_cons]
  split_ifs with harg hconstant
  · simp [harg, List.head?_eq_getElem?]
  · simp [hconstant, List.head?_eq_getElem?]
  · simp [harg, hconstant]

lemma isTerm_constantValue (k : Constant) : (constantValue k).expr.isTerm = true := by
  cases k <;> rfl

lemma textOf_constantValue (k : Constant) : W.textOf (constantValue k).expr = constantText W k := by
  cases k <;> rfl

lemma isTerm_of_mem_textPart {text : List Char} {e : Expr} (h : e ∈ textPart text) : e.isTerm = true := by
  unfold textPart at h
  split_ifs at h
  · cases h
  · obtain rfl := List.mem_singleton.mp h
    rfl

lemma join_textPart (text : List Char) : String.join ((textPart text).map W.textOf) = String.ofList text := by
  unfold textPart
  split_ifs with hempty
  · simp [List.isEmpty_iff.mp hempty]
  · simp

lemma isTerm_of_mem_recipeParts {text recipe : List Char} {args : List Expr} (hargs : ∀ a ∈ args, a.isTerm = true)
    {constants : List Constant} {e : Expr} (h : e ∈ recipeParts text recipe args constants) : e.isTerm = true := by
  fun_induction recipeParts text recipe args constants with
  | case1 text => exact isTerm_of_mem_textPart h
  | case2 text rest args constants ih =>
    rcases List.mem_append.mp h with h | h
    · rcases List.mem_append.mp h with h | h
      · exact isTerm_of_mem_textPart h
      · exact hargs e (List.mem_of_mem_head? (Option.mem_toList.mp h))
    · exact ih (fun a ha => hargs a (List.mem_of_mem_tail ha)) h
  | case3 text rest args constants _ ih =>
    rcases List.mem_append.mp h with h | h
    · rcases List.mem_append.mp h with h | h
      · exact isTerm_of_mem_textPart h
      · obtain ⟨k, -, rfl⟩ := Option.map_eq_some_iff.mp (Option.mem_toList.mp h)
        exact isTerm_constantValue k
    · exact ih hargs h
  | case4 text c rest args constants _ _ ih => exact ih hargs h

/-- The parts of a recipe, joined, are its text behind the characters that have been read. -/
lemma join_recipeParts (text recipe : List Char) (args : List Expr) (constants : List Constant) :
    String.join ((recipeParts text recipe args constants).map W.textOf) =
      String.ofList text ++ recipeText recipe (args.map W.textOf) (constants.map (constantText W)) := by
  fun_induction recipeParts text recipe args constants with
  | case1 text => simp [join_textPart, recipeText]
  | case2 text rest args constants ih =>
    have hhead : String.join (args.head?.toList.map W.textOf) = (args.map W.textOf).headD "" := by
      cases args <;> simp
    simp [recipeText_cons, join_textPart, hhead, ih]
  | case3 text rest args constants _ ih =>
    have hhead : String.join ((constants.head?.map fun k => (constantValue k).expr).toList.map W.textOf) =
        (constants.map (constantText W)).headD "" := by
      cases constants <;> simp [textOf_constantValue]
    simp [recipeText_cons, join_textPart, hhead, ih]
  | case4 text c rest args constants harg hconstant ih =>
    rw [ih, recipeText_cons, if_neg harg, if_neg hconstant, ← String.append_assoc]
    simp [String.ofList_append]

/-! ### Main statement -/

/-- **Concatenations follow their recipes.** For arguments that are literals and variables, the value of the sum that is
made of a recipe is the text of the recipe with the texts of the arguments and constants in it, whatever variables and
class literals stand for, and the simplified sum has the same value. -/
theorem concatFromRecipe_spells (W : Wording) (recipe : String) {args : List Expr}
    (hargs : ∀ a ∈ args, a.isTerm = true) (constants : List Constant) :
    let text := recipeText recipe.toList (args.map W.textOf) (constants.map (constantText W))
    W.value? (concatFromRecipe recipe args constants) = some (.text text) ∧
      W.value? (concatFromRecipe recipe args constants).simplify = some (.text text) := by
  have hspells : W.Spells (concatFromRecipe recipe args constants) _ :=
    spells_joinConcat fun e he => isTerm_of_mem_recipeParts hargs he
  rw [join_recipeParts] at hspells
  simp only [String.ofList_nil, String.empty_append] at hspells
  exact ⟨hspells.value, hspells.simplified⟩

/-- Every variable is the number 7. -/
def sevens : Wording where
  vars _ := .plain (.int 7)
  classes _ := 0
  objects n := "Object@" ++ toString n
  floats := Number.Floating.text
  doubles := Number.Floating.text

/-- The theorem at a recipe that starts with two numbers, one of them a zero, has two strings beside each other, and one
tag more than there are arguments. -/
theorem concatFromRecipe_spells_sevens :
    let recipe := "\x01\x01=\x02!\x01\x01"
    let args : List Expr := [.int 1, .int 0, .var "x"]
    let constants : List Constant := [.string ":"]
    (∀ a ∈ args, a.isTerm = true) ∧
    sevens.value? (concatFromRecipe recipe args constants) = some (.text "10=:!7") ∧
    sevens.value? (concatFromRecipe recipe args constants).simplify = some (.text "10=:!7") := by
  intro recipe args constants
  have hargs : ∀ a ∈ args, a.isTerm = true := by decide
  have htext : recipeText recipe.toList (args.map sevens.textOf) (constants.map (constantText sevens)) = "10=:!7" := by
    cbv
  obtain ⟨hvalue, hsimplified⟩ := concatFromRecipe_spells sevens recipe hargs constants
  rw [htext] at hvalue hsimplified
  exact ⟨hargs, hvalue, hsimplified⟩

end JvmLift.Recovery
