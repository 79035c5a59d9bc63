import Mathlib
import JvmLift.Proofs.NormalForm
import JvmLift.Proofs.StringLiterals

/-!
# Expressions are uniquely readable

Parentheses stand around every operation on two operands and around nothing else that would need none, so a reader can
take a text apart from left to right. It tells a negative literal from a negation by the digit behind the sign, a cast
by the word in its inner parentheses, and any other operation by the word behind its first operand. The reader finds
every simplified expression in its text again, so no two of them have the same text.
-/

namespace JvmLift.Source

open JvmLift.Source.Expr

/-! ### Words -/

/-- Whether a character may stand in an identifier: any but the blanks and the punctuation marks of ASCII, of which `$`
and `_` count as letters. -/
def isWordChar (c : Char) : Bool :=
  let n := c.toNat
  !((9 ≤ n && n ≤ 13) || (32 ≤ n && n ≤ 47 && n != 36) || (58 ≤ n && n ≤ 64) || (91 ≤ n && n ≤ 96 && n != 95) ||
    (123 ≤ n && n ≤ 126))

/-- Whether a text has the form of an identifier. Keywords have it too. -/
def isIdentifier (name : String) : Bool :=
  name.toList.all isWordChar && name.toList.head?.any fun c => !c.isDigit

/-- A text that starts with none of the characters of a word. -/
def EndsWord (cs : List Char) : Prop :=
  ∀ c ∈ cs.head?, isWordChar c = false

lemma takeWhile_word {word rest : List Char} (hword : ∀ c ∈ word, isWordChar c = true) (hrest : EndsWord rest) :
    (word ++ rest).takeWhile isWordChar = word ∧ (word ++ rest).dropWhile isWordChar = rest := by
  rw [List.takeWhile_append_of_pos hword, List.dropWhile_append_of_pos hword]
  cases rest with
  | nil => simp
  | cons c rest => simp [hrest c rfl]

lemma takeWhile_identifier {name : String} {rest : List Char} (h : isIdentifier name = true) (hrest : EndsWord rest) :
    (name.toList ++ rest).takeWhile isWordChar = name.toList ∧ (name.toList ++ rest).dropWhile isWordChar = rest := by
  rw [isIdentifier, Bool.and_eq_true, List.all_eq_true] at h
  exact takeWhile_word h.1 hrest

/-! ### The reader -/

/-- The literal of a word that starts with a digit. -/
def numeral (sign : Int) (word : List Char) : Expr :=
  if word.getLast? = some 'L' then long (Int64.ofInt (sign * Nat.ofDigitChars 10 word.dropLast 0))
  else int (Int32.ofInt (sign * Nat.ofDigitChars 10 word 0))

/-- The characters of a string up to its closing quote. -/
def readChars? : List Char → Option (List Char × List Char)
  | [] => none
  | '"' :: rest => some ([], rest)
  | '\\' :: 'u' :: _ :: _ :: high :: low :: rest =>
    match hexDigit? high, hexDigit? low with
    | some h, some l => (readChars? rest).map fun (cs, rest) => (Char.ofNat (16 * h + l) :: cs, rest)
    | _, _ => none
  | '\\' :: letter :: rest =>
    match escapeLetters.find? fun pair => pair.2 = letter with
    | some pair => (readChars? rest).map fun (cs, rest) => (pair.1 :: cs, rest)
    | none => none
  | c :: rest => (readChars? rest).map fun (cs, rest) => (c :: cs, rest)

/-- The type of a cast, if its inner parentheses open here. -/
def castType? : List Char → Option (String × List Char)
  | '(' :: cs =>
    match cs.dropWhile isWordChar with
    | ')' :: ' ' :: rest => some (.ofList (cs.takeWhile isWordChar), rest)
    | _ => none
  | _ => none

section

variable (read : List Char → Option (Expr × List Char))

/-- An expression before its closing parenthesis. -/
def closed? (e : Expr) : List Char → Option (Expr × List Char)
  | ')' :: rest => some (e, rest)
  | _ => none

/-- What stands in parentheses behind a first operand: nothing, or an operator with its other operands. -/
def readBehind? (a : Expr) : List Char → Option (Expr × List Char)
  | ')' :: rest => some (a, rest)
  | ' ' :: cs =>
    let symbol := cs.takeWhile (· != ' ')
    let rest := (cs.dropWhile (· != ' ')).tail
    if symbol = ['?'] then
      match read rest with
      | some (b, ' ' :: ':' :: ' ' :: rest) => (read rest).bind fun (c, rest) => closed? (ternary a b c) rest
      | _ => none
    else if symbol = "instanceof".toList then
      closed? (instanceOf a (.ofList (rest.takeWhile isWordChar))) (rest.dropWhile isWordChar)
    else
      match BinOp.all.find? fun op => op.symbol.toList = symbol with
      | some op => (read rest).bind fun (b, rest) => closed? (binary op a b) rest
      | none => none
  | _ => none

/-- What stands behind an opening parenthesis. -/
def readParens? (cs : List Char) : Option (Expr × List Char) :=
  match castType? cs with
  | some (type, rest) => (read rest).bind fun (a, rest) => closed? (cast type a) rest
  | none => (read cs).bind fun (a, rest) => readBehind? read a rest

/-- A string, parentheses with what is in them, or a variable. -/
def readUnit? : List Char → Option (Expr × List Char)
  | '"' :: cs => (readChars? cs).map fun (s, rest) => (string (.ofList s), rest)
  | '(' :: cs => readParens? read cs
  | cs => some (var (.ofList (cs.takeWhile isWordChar)), cs.dropWhile isWordChar)

/-- A unit with the positions in brackets behind it, at most so many. -/
def readIndices? : Nat → Expr → List Char → Option (Expr × List Char)
  | n + 1, a, '[' :: cs =>
    match read cs with
    | some (i, ']' :: rest) => readIndices? n (index a i) rest
    | _ => none
  | _, a, cs => some (a, cs)

end

/-- The expression at the front of a text, of a depth that `n` bounds. -/
def readExpr? : Nat → List Char → Option (Expr × List Char)
  | n + 1, c :: cs =>
    if c = '!' then (readExpr? n cs).map fun (a, rest) => (unary .not a, rest)
    else if c = '-' then
      if cs.head?.any Char.isDigit then some (numeral (-1) (cs.takeWhile isWordChar), cs.dropWhile isWordChar)
      else (readExpr? n cs).map fun (a, rest) => (unary .neg a, rest)
    else if c.isDigit then some (numeral 1 ((c :: cs).takeWhile isWordChar), (c :: cs).dropWhile isWordChar)
    else (readUnit? (readExpr? n) (c :: cs)).bind fun (a, rest) => readIndices? (readExpr? n) n a rest
  | _, _ => none

/-! ### Literals -/

lemma isWordChar_of_mem_toDigits {c : Char} {n : Nat} (h : c ∈ Nat.toDigits 10 n) : isWordChar c = true := by
  have hdigit := Nat.isDigit_of_mem_toDigits (by norm_num) (le_refl 10) h
  obtain ⟨hlow, hhigh⟩ := Char.isDigit_iff_toNat.mp hdigit
  have hlow : 48 ≤ c.toNat := hlow
  have hhigh : c.toNat ≤ 57 := hhigh
  simp only [isWordChar, Bool.not_eq_true', Bool.or_eq_false_iff, Bool.and_eq_false_iff, decide_eq_false_iff_not]
  omega

lemma isWordChar_longMark : ∀ c ∈ ['L'], isWordChar c = true := by
  intro c hc
  rw [List.mem_singleton.mp hc]
  decide

lemma readChars?_escapeChar (c : Char) (cs : List Char) :
    readChars? ((escapeChar c).toList ++ cs) = (readChars? cs).map fun (chars, rest) => (c :: chars, rest) := by
  have h := escaped_escapeChar c
  generalize (escapeChar c).toList = text at h
  cases h with
  | letter mem =>
    rcases mem_escapeLetters.mp mem with
      ⟨rfl, rfl⟩ | ⟨rfl, rfl⟩ | ⟨rfl, rfl⟩ | ⟨rfl, rfl⟩ | ⟨rfl, rfl⟩ | ⟨rfl, rfl⟩ <;> rfl
  | unicode noLetter isControl =>
    have hhigh := hexDigit?_digitChar (c.toNat / 16) (by omega)
    have hlow := hexDigit?_digitChar (c.toNat % 16) (by omega)
    have hvalue : 16 * (c.toNat / 16) + c.toNat % 16 = c.toNat := Nat.div_add_mod _ _
    simp [readChars?, hhigh, hlow, hvalue]
  | itself noLetter =>
    have hquote : c ≠ '"' := by
      rintro rfl
      exact noLetter '"' (by decide)
    have hbackslash : c ≠ '\\' := by
      rintro rfl
      exact noLetter '\\' (by decide)
    rw [List.singleton_append, readChars?]
    · exact hquote
    · exact fun _ _ _ _ _ h => absurd h hbackslash
    · exact fun _ _ h => absurd h hbackslash

lemma readChars?_escapeAll (cs rest : List Char) : readChars? (escapeAll cs ++ '"' :: rest) = some (cs, rest) := by
  induction cs with
  | nil => rfl
  | cons c cs ih =>
    rw [escapeAll, List.flatMap_cons, List.append_assoc, readChars?_escapeChar, ← escapeAll, ih]
    rfl

/-- An integer is written with a sign, if it is negative, and its digits. -/
lemma toList_toString_int (z : Int) :
    (toString z).toList = (if 0 ≤ z then [] else ['-']) ++ Nat.toDigits 10 z.natAbs := by
  change z.repr.toList = _
  rw [Int.repr_eq_if]
  split_ifs with h
  · rw [Nat.repr_eq_ofList_toDigits, String.toList_ofList, List.nil_append, show z.toNat = z.natAbs by omega]
  · have hnat : (-z).toNat = z.natAbs := by omega
    simp [Nat.repr_eq_ofList_toDigits, hnat]

lemma exists_digits (n : Nat) : ∃ d ds, Nat.toDigits 10 n = d :: ds ∧ d.isDigit = true := by
  obtain ⟨d, ds, hds⟩ := List.exists_cons_of_ne_nil (Nat.toDigits_ne_nil (n := n) (b := 10))
  exact ⟨d, ds, hds, Nat.isDigit_of_mem_toDigits (by norm_num) (le_refl 10) (hds ▸ List.mem_cons_self)⟩

/-- The digits of a number, in front of the mark of a long literal or of what follows. -/
lemma readExpr?_numeral (n : Nat) (z : Int) {mark rest : List Char} (hmark : ∀ c ∈ mark, isWordChar c = true)
    (hrest : EndsWord rest) : readExpr? (n + 1) ((toString z).toList ++ (mark ++ rest)) =
      some (numeral (if 0 ≤ z then 1 else -1) (Nat.toDigits 10 z.natAbs ++ mark), rest) := by
  have hword : ∀ c ∈ Nat.toDigits 10 z.natAbs ++ mark, isWordChar c = true :=
    List.forall_mem_append.mpr ⟨fun c => isWordChar_of_mem_toDigits, hmark⟩
  obtain ⟨htake, hdrop⟩ := takeWhile_word hword hrest
  obtain ⟨d, ds, hds, hd⟩ := exists_digits z.natAbs
  obtain ⟨tail, htail⟩ : ∃ tail, Nat.toDigits 10 z.natAbs ++ mark ++ rest = d :: tail :=
    ⟨ds ++ mark ++ rest, by simp [hds]⟩
  rw [toList_toString_int, List.append_assoc, ← List.append_assoc _ mark]
  split_ifs with hz
  · have hne : d ≠ '!' ∧ d ≠ '-' := by
      constructor <;> (rintro rfl; exact absurd hd (by decide))
    rw [List.nil_append, htail, readExpr?, if_neg hne.1, if_neg hne.2, if_pos hd, ← htail, htake, hdrop]
  · rw [List.singleton_append, readExpr?, if_neg (by decide), if_pos rfl, if_pos (by simp [htail, hd]), htake, hdrop]

/-- The value of the digits of a number with its sign. -/
lemma sign_mul_ofDigitChars (z : Int) :
    (if 0 ≤ z then 1 else -1) * (Nat.ofDigitChars 10 (Nat.toDigits 10 z.natAbs) 0 : Int) = z := by
  rw [Nat.ofDigitChars_ten_toDigits]
  split_ifs <;> omega

lemma numeral_int (n : Int32) : numeral (if 0 ≤ n.toInt then 1 else -1) (Nat.toDigits 10 n.toInt.natAbs) = int n := by
  have hlast : (Nat.toDigits 10 n.toInt.natAbs).getLast? ≠ some 'L' := by
    intro h
    exact absurd (Nat.isDigit_of_mem_toDigits (by norm_num) (le_refl 10) (List.mem_of_getLast? h)) (by decide)
  rw [numeral, if_neg hlast, sign_mul_ofDigitChars, Int32.ofInt_toInt]

lemma numeral_long (n : Int64) :
    numeral (if 0 ≤ n.toInt then 1 else -1) (Nat.toDigits 10 n.toInt.natAbs ++ ['L']) = long n := by
  rw [numeral, if_pos (by simp), List.dropLast_concat, sign_mul_ofDigitChars, Int64.ofInt_toInt]

/-! ### Texts -/

namespace Expr

/-- The expressions whose texts can be told apart: those that are built from integer and string literals, variables,
operations without a name of their own, array elements, casts, type tests and choices. A digit in front of a bracket
would not tell whether a sign before it belongs to the literal or to the element, so no numbers are indexed. -/
def Legible : Expr → Prop
  | int _ | long _ | string _ => True
  | var name => isIdentifier name = true
  | binary op a b => op ≠ .cmp ∧ a.Legible ∧ b.Legible
  | unary _ a => a.Legible
  | index a i => ¬ a.IsNumber ∧ a.Legible ∧ i.Legible
  | cast type a => isIdentifier type = true ∧ a.Legible
  | instanceOf a type => isIdentifier type = true ∧ a.Legible
  | ternary c a b => c.Legible ∧ a.Legible ∧ b.Legible
  | _ => False

/-- The characters of an expression. -/
def chars (e : Expr) : List Char :=
  e.text.toList

/-- The characters of an expression in front of a bracket. -/
def operandChars (e : Expr) : List Char :=
  (asOperand e e.text).toList

variable {op : BinOp} {a b c i e : Expr}

lemma chars_int (n : Int32) : (int n).chars = (toString n.toInt).toList := by
  simp [chars, text, print]

lemma chars_long (n : Int64) : (long n).chars = (toString n.toInt).toList ++ ['L'] := by
  simp [chars, text, print]

lemma chars_string (s : String) : (string s).chars = '"' :: (escapeAll s.toList ++ ['"']) := by
  rw [chars, text, print, toList_stringLiteral]

lemma chars_var (name : String) : (var name).chars = name.toList := by
  rw [chars, text, print]

lemma chars_binary (h : op ≠ .cmp) : (binary op a b).chars =
    '(' :: (a.chars ++ ' ' :: (op.symbol.toList ++ ' ' :: (b.chars ++ [')']))) := by
  simp [chars, text, print, h]

lemma chars_not : (unary .not a).chars = '!' :: a.chars := by
  simp [chars, text, print, prefixed, UnOp.symbol]

/-- A negation starts with its sign, with parentheses behind it or not. -/
lemma exists_chars_neg : ∃ cs, (unary .neg a).chars = '-' :: cs := by
  simp only [chars, text, print, prefixed]
  split_ifs <;> simp [UnOp.symbol]

lemma chars_neg (h : a.chars.head? ≠ some '-') : (unary .neg a).chars = '-' :: a.chars := by
  have hsign : ¬ (UnOp.neg = .neg ∧ (a.print {}).startsWith "-" = true) := by
    rintro ⟨-, hstarts⟩
    obtain ⟨cs, hcs⟩ := String.startsWith_string_iff.mp hstarts
    refine h ?_
    rw [chars, text, ← hcs]
    rfl
  rw [chars, text, print, prefixed, if_neg hsign]
  simp [UnOp.symbol, chars, text]

lemma chars_index : (index a i).chars = a.operandChars ++ '[' :: (i.chars ++ [']']) := by
  simp [chars, operandChars, text, print]

lemma chars_cast (type : String) :
    (cast type a).chars = '(' :: '(' :: (type.toList ++ ')' :: ' ' :: (a.chars ++ [')'])) := by
  simp [chars, text, print]

lemma chars_instanceOf (type : String) : (instanceOf a type).chars =
    '(' :: (a.chars ++ ' ' :: ("instanceof".toList ++ ' ' :: (type.toList ++ [')']))) := by
  simp [chars, text, print]

lemma chars_ternary : (ternary c a b).chars =
    '(' :: (c.chars ++ ' ' :: '?' :: ' ' :: (a.chars ++ ' ' :: ':' :: ' ' :: (b.chars ++ [')']))) := by
  simp [chars, text, print]

lemma operandChars_unary (op : UnOp) : (unary op a).operandChars = '(' :: ((unary op a).chars ++ [')']) := by
  simp [operandChars, asOperand, chars]

/-- Neither a number nor an operation with one operand, so that indices may follow the text. -/
def IsUnit : Expr → Prop
  | int _ | long _ | float _ | double _ | unary .. => False
  | _ => True

lemma Legible.operandChars_eq (h : e.Legible) (hunit : e.IsUnit) : e.operandChars = e.chars := by
  cases e with
  | unary => exact hunit.elim
  | new | newArray => exact h.elim
  | _ => rfl

/-- What is indexed is a unit or an operation with one operand, in parentheses. -/
lemma isUnit_or_unary (h : ¬ a.IsNumber) : a.IsUnit ∨ ∃ op b, a = unary op b := by
  cases a with
  | int | long | float | double => exact absurd trivial h
  | unary op b => exact .inr ⟨op, b, rfl⟩
  | _ => exact .inl trivial

lemma chars_of_isIdentifier {name : String} (h : isIdentifier name = true) :
    ∃ c cs, name.toList = c :: cs ∧ c.isDigit = false ∧ ∀ d ∈ c :: cs, isWordChar d = true := by
  rw [isIdentifier, Bool.and_eq_true, List.all_eq_true] at h
  obtain ⟨hword, hfirst⟩ := h
  cases hname : name.toList with
  | nil => simp [hname] at hfirst
  | cons c cs => exact ⟨c, cs, rfl, by simpa [hname] using hfirst, hname ▸ hword⟩

/-- A unit starts neither with an operator nor with a digit. -/
lemma Legible.head_of_isUnit : ∀ {e : Expr}, e.Legible → e.IsUnit →
    ∃ c cs, e.chars = c :: cs ∧ c ≠ '!' ∧ c ≠ '-' ∧ c.isDigit = false
  | string s, _, _ => ⟨'"', _, chars_string s, by decide⟩
  | var name, h, _ => by
    obtain ⟨c, cs, hname, hdigit, hword⟩ := chars_of_isIdentifier h
    have hc : isWordChar c = true := hword c List.mem_cons_self
    refine ⟨c, cs, (chars_var name).trans hname, ?_, ?_, hdigit⟩ <;> (rintro rfl; exact absurd hc (by decide))
  | binary op a b, h, _ => ⟨'(', _, chars_binary h.1, by decide⟩
  | index a i, h, _ => by
    obtain ⟨hnumber, ha, -⟩ := h
    rcases isUnit_or_unary hnumber with hunit | ⟨op, b, rfl⟩
    · obtain ⟨c, cs, hcs, hne⟩ := ha.head_of_isUnit hunit
      exact ⟨c, _, by rw [chars_index, ha.operandChars_eq hunit, hcs, List.cons_append], hne⟩
    · exact ⟨'(', _, by rw [chars_index, operandChars_unary, List.cons_append], by decide⟩
  | cast type a, _, _ => ⟨'(', _, chars_cast type, by decide⟩
  | instanceOf a type, _, _ => ⟨'(', _, chars_instanceOf type, by decide⟩
  | ternary c a b, _, _ => ⟨'(', _, chars_ternary, by decide⟩

/-- No parenthesis closes behind the word at the front of a text. -/
def OpensNoCast (cs : List Char) : Prop :=
  (cs.dropWhile isWordChar).head? ≠ some ')'

lemma opensNoCast_cons {c : Char} (h : isWordChar c = false ∧ c ≠ ')') (cs : List Char) : OpensNoCast (c :: cs) := by
  simpa [OpensNoCast, h.1] using h.2

lemma opensNoCast_append {word rest : List Char} (hword : ∀ c ∈ word, isWordChar c = true) (hrest : OpensNoCast rest) :
    OpensNoCast (word ++ rest) := by
  rwa [OpensNoCast, List.dropWhile_append_of_pos hword]

lemma opensNoCast_toString (z : Int) {rest : List Char} (hrest : OpensNoCast rest) :
    OpensNoCast ((toString z).toList ++ rest) := by
  rw [toList_toString_int]
  split_ifs
  · exact opensNoCast_append (fun c => isWordChar_of_mem_toDigits) hrest
  · exact opensNoCast_cons (by decide) _

lemma opensNoCast_chars :
    ∀ {e : Expr}, e.Legible → ∀ {rest : List Char}, OpensNoCast rest → OpensNoCast (e.chars ++ rest)
  | int n, _, rest, hrest => by
    rw [chars_int]
    exact opensNoCast_toString _ hrest
  | long n, _, rest, hrest => by
    rw [chars_long, List.append_assoc]
    exact opensNoCast_toString _ (opensNoCast_append isWordChar_longMark hrest)
  | string s, _, rest, _ => by
    rw [chars_string]
    exact opensNoCast_cons (by decide) _
  | var name, h, rest, hrest => by
    obtain ⟨c, cs, hname, -, hword⟩ := chars_of_isIdentifier h
    rw [chars_var, hname]
    exact opensNoCast_append hword hrest
  | binary op a b, h, rest, _ => by
    rw [chars_binary h.1]
    exact opensNoCast_cons (by decide) _
  | unary .not a, h, rest, _ => by
    rw [chars_not]
    exact opensNoCast_cons (by decide) _
  | unary .neg a, h, rest, _ => by
    obtain ⟨cs, hcs⟩ := @exists_chars_neg a
    rw [hcs]
    exact opensNoCast_cons (by decide) _
  | index a i, h, rest, _ => by
    obtain ⟨hnumber, ha, -⟩ := h
    rw [chars_index, List.append_assoc]
    rcases isUnit_or_unary hnumber with hunit | ⟨op, b, rfl⟩
    · rw [ha.operandChars_eq hunit]
      exact opensNoCast_chars ha (opensNoCast_cons (by decide) _)
    · rw [operandChars_unary]
      exact opensNoCast_cons (by decide) _
  | cast type a, _, rest, _ => by
    rw [chars_cast]
    exact opensNoCast_cons (by decide) _
  | instanceOf a type, _, rest, _ => by
    rw [chars_instanceOf]
    exact opensNoCast_cons (by decide) _
  | ternary c a b, _, rest, _ => by
    rw [chars_ternary]
    exact opensNoCast_cons (by decide) _

lemma castType?_eq_none_of_ne {c : Char} (cs : List Char) (h : c ≠ '(') : castType? (c :: cs) = none := by
  rw [castType?]
  simpa using h

lemma castType?_parens {cs : List Char} (h : OpensNoCast cs) : castType? ('(' :: cs) = none := by
  rw [castType?]
  split
  · next heq => exact absurd (by rw [heq]; rfl) h
  · rfl

lemma castType?_toString (z : Int) (rest : List Char) : castType? ((toString z).toList ++ rest) = none := by
  obtain ⟨d, ds, hds, hd⟩ := exists_digits z.natAbs
  rw [toList_toString_int, hds]
  split_ifs
  · refine castType?_eq_none_of_ne _ ?_
    rintro rfl
    exact absurd hd (by decide)
  · exact castType?_eq_none_of_ne _ (by decide)

/-- No expression starts like a cast without its outer parenthesis. -/
lemma castType?_chars : ∀ {e : Expr}, e.Legible → ∀ rest : List Char, castType? (e.chars ++ rest) = none
  | int n, _, rest => by
    rw [chars_int]
    exact castType?_toString _ _
  | long n, _, rest => by
    rw [chars_long, List.append_assoc]
    exact castType?_toString _ _
  | string s, _, rest => by
    rw [chars_string]
    exact castType?_eq_none_of_ne _ (by decide)
  | var name, h, rest => by
    obtain ⟨c, cs, hname, -, hword⟩ := chars_of_isIdentifier h
    have hc : isWordChar c = true := hword c List.mem_cons_self
    rw [chars_var, hname]
    refine castType?_eq_none_of_ne _ ?_
    rintro rfl
    exact absurd hc (by decide)
  | binary op a b, h, rest => by
    rw [chars_binary h.1, List.cons_append, List.append_assoc]
    exact castType?_parens (opensNoCast_chars h.2.1 (opensNoCast_cons (by decide) _))
  | unary .not a, h, rest => by
    rw [chars_not]
    exact castType?_eq_none_of_ne _ (by decide)
  | unary .neg a, h, rest => by
    obtain ⟨cs, hcs⟩ := @exists_chars_neg a
    rw [hcs]
    exact castType?_eq_none_of_ne _ (by decide)
  | index a i, h, rest => by
    obtain ⟨hnumber, ha, -⟩ := h
    rw [chars_index, List.append_assoc]
    rcases isUnit_or_unary hnumber with hunit | ⟨op, b, rfl⟩
    · rw [ha.operandChars_eq hunit]
      exact castType?_chars ha _
    · rw [operandChars_unary, List.cons_append, List.append_assoc]
      -- The parentheses hold an operator, so what is behind its sign does not matter.
      cases op with
      | not =>
        rw [chars_not]
        exact castType?_parens (opensNoCast_cons (by decide) _)
      | neg =>
        obtain ⟨cs, hcs⟩ := @exists_chars_neg b
        rw [hcs]
        exact castType?_parens (opensNoCast_cons (by decide) _)
  | cast type a, _, rest => by
    rw [chars_cast]
    exact castType?_parens (opensNoCast_cons (by decide) _)
  | instanceOf a type, h, rest => by
    rw [chars_instanceOf, List.cons_append, List.append_assoc]
    exact castType?_parens (opensNoCast_chars h.2 (opensNoCast_cons (by decide) _))
  | ternary c a b, h, rest => by
    rw [chars_ternary, List.cons_append, List.append_assoc]
    exact castType?_parens (opensNoCast_chars h.1 (opensNoCast_cons (by decide) _))

/-! ### Reading back -/

/-- A text that neither goes on with a word nor with an index. -/
def Ends (cs : List Char) : Prop :=
  ∀ c ∈ cs.head?, isWordChar c = false ∧ c ≠ '['

lemma Ends.endsWord {cs : List Char} (h : Ends cs) : EndsWord cs :=
  fun c hc => (h c hc).1

lemma ends_nil : Ends [] := by
  simp [Ends]

lemma ends_cons {c : Char} (hc : c ∈ [' ', ')', ']']) (cs : List Char) : Ends (c :: cs) := by
  rintro d hd
  obtain rfl : c = d := by simpa using hd
  simp only [List.mem_cons, List.not_mem_nil, or_false] at hc
  rcases hc with rfl | rfl | rfl <;> decide

/-- The reader finds the expression in front of anything that may follow. -/
def ReadsBack (e : Expr) : Prop :=
  ∀ ⦃n : Nat⦄ ⦃rest : List Char⦄, sizeOf e ≤ n → Ends rest → readExpr? n (e.chars ++ rest) = some (e, rest)

/-- The reader finds the expression as a unit, and has room for at least `k` indices behind it. -/
def ReadsUnit (e : Expr) : Prop :=
  ∀ ⦃n k : Nat⦄ ⦃rest : List Char⦄, sizeOf e + k ≤ n + 1 → EndsWord rest →
    ∃ m ≥ k, readExpr? (n + 1) (e.chars ++ rest) = readIndices? (readExpr? n) m e rest

/-- A legible expression that the reader finds, and in front of indices too if they may follow. -/
structure Readable (e : Expr) : Prop where
  legible : e.Legible
  readsBack : e.ReadsBack
  readsUnit : e.IsUnit → e.ReadsUnit

lemma readIndices?_of_ends {read : List Char → Option (Expr × List Char)} {rest : List Char} (h : Ends rest) (m : Nat)
    (a : Expr) : readIndices? read m a rest = some (a, rest) := by
  rw [readIndices?.eq_def]
  split
  · exact absurd rfl (h '[' rfl).2
  · rfl

lemma one_le_sizeOf (e : Expr) : 1 ≤ sizeOf e := by
  cases e <;> simp <;> omega

/-- What is no unit is found if one step of the reader finds it. -/
lemma readable_of_step (hlegible : e.Legible) (hunit : ¬ e.IsUnit)
    (h : ∀ n rest, sizeOf e ≤ n + 1 → Ends rest → readExpr? (n + 1) (e.chars ++ rest) = some (e, rest)) :
    e.Readable := by
  refine ⟨hlegible, fun n rest hn hrest => ?_, fun h => absurd h hunit⟩
  have hpos := e.one_le_sizeOf
  obtain ⟨n, rfl⟩ : ∃ k, n = k + 1 := ⟨n - 1, by omega⟩
  exact h n rest hn hrest

lemma ReadsUnit.readable (h : e.ReadsUnit) (hlegible : e.Legible) : e.Readable := by
  refine ⟨hlegible, fun n rest hn hrest => ?_, fun _ => h⟩
  have hpos := e.one_le_sizeOf
  obtain ⟨n, rfl⟩ : ∃ k, n = k + 1 := ⟨n - 1, by omega⟩
  obtain ⟨m, -, hread⟩ := h (k := 0) hn hrest.endsWord
  rw [hread, readIndices?_of_ends hrest]

/-- A unit is found if the reader for units finds it. -/
lemma readable_of_readUnit? (hlegible : e.Legible) (hunit : e.IsUnit)
    (h : ∀ n rest, sizeOf e ≤ n + 1 → EndsWord rest → readUnit? (readExpr? n) (e.chars ++ rest) = some (e, rest)) :
    e.Readable := by
  refine ReadsUnit.readable (fun n k rest hn hrest => ?_) hlegible
  have hpos := e.one_le_sizeOf
  obtain ⟨c, cs, hcs, hnot, hsign, hdigit⟩ := hlegible.head_of_isUnit hunit
  refine ⟨n, by omega, ?_⟩
  have hread := h n rest (by omega) hrest
  rw [hcs, List.cons_append] at hread ⊢
  rw [readExpr?, if_neg hnot, if_neg hsign, if_neg (by simp [hdigit]), hread]
  rfl

lemma readable_int (n : Int32) : (int n).Readable := by
  refine readable_of_step trivial id fun k rest _ hrest => ?_
  have hread := readExpr?_numeral k n.toInt (List.forall_mem_nil _) hrest.endsWord
  rwa [List.append_nil, numeral_int, List.nil_append, ← chars_int] at hread

lemma readable_long (n : Int64) : (long n).Readable := by
  refine readable_of_step trivial id fun k rest _ hrest => ?_
  have hread := readExpr?_numeral k n.toInt isWordChar_longMark hrest.endsWord
  rwa [numeral_long, ← List.append_assoc, ← chars_long] at hread

lemma readable_string (s : String) : (string s).Readable := by
  refine readable_of_readUnit? trivial trivial fun n rest _ _ => ?_
  rw [chars_string, List.cons_append, List.append_assoc, readUnit?, List.singleton_append, readChars?_escapeAll]
  simp

lemma readable_var {name : String} (h : isIdentifier name = true) : (var name).Readable := by
  refine readable_of_readUnit? h trivial fun n rest _ hrest => ?_
  obtain ⟨c, cs, hname, -, hword⟩ := chars_of_isIdentifier h
  have hc : isWordChar c = true := hword c List.mem_cons_self
  obtain ⟨htake, hdrop⟩ := takeWhile_identifier h hrest
  rw [hname] at htake hdrop
  rw [chars_var, hname, readUnit?, htake, hdrop, ← hname, String.ofList_toList]
  · rintro _ ⟨⟩
    exact absurd hc (by decide)
  · rintro _ ⟨⟩
    exact absurd hc (by decide)

lemma Readable.not (ha : a.Readable) : (unary .not a).Readable := by
  refine readable_of_step ha.legible id fun n rest hn hrest => ?_
  simp only [unary.sizeOf_spec] at hn
  rw [chars_not, List.cons_append, readExpr?, if_pos rfl, ha.readsBack (by omega) hrest]
  rfl

/-- A negation of what starts neither with a sign nor with a digit. -/
lemma Readable.neg (ha : a.Readable) (hlead : ∃ c cs, a.chars = c :: cs ∧ c ≠ '-' ∧ c.isDigit = false) :
    (unary .neg a).Readable := by
  refine readable_of_step ha.legible id fun n rest hn hrest => ?_
  simp only [unary.sizeOf_spec] at hn
  obtain ⟨c, cs, hcs, hsign, hdigit⟩ := hlead
  have hnoDigit : ¬ (a.chars ++ rest).head?.any Char.isDigit = true := by simp [hcs, hdigit]
  rw [chars_neg (by simpa [hcs] using hsign), List.cons_append, readExpr?, if_neg (by decide), if_pos rfl,
    if_neg hnoDigit, ha.readsBack (by omega) hrest]
  rfl

/-! ### Parentheses -/

lemma takeWhile_symbol {symbol : List Char} (h : ' ' ∉ symbol) (rest : List Char) :
    (symbol ++ ' ' :: rest).takeWhile (· != ' ') = symbol ∧
      ((symbol ++ ' ' :: rest).dropWhile (· != ' ')).tail = rest := by
  have hall : ∀ c ∈ symbol, (c != ' ') = true := by
    intro c hc
    simpa using ne_of_mem_of_not_mem hc h
  rw [List.takeWhile_append_of_pos hall, List.dropWhile_append_of_pos hall]
  simp

/-- The operators have symbols of their own, none of which is taken for something else. -/
lemma symbol_legible (op : BinOp) : ' ' ∉ op.symbol.toList ∧ op.symbol.toList ≠ ['?'] ∧
    op.symbol.toList ≠ "instanceof".toList ∧
    (BinOp.all.find? fun op' => op'.symbol.toList = op.symbol.toList) = some op := by
  cases op <;> decide

/-- The first operand in parentheses. -/
lemma readParens?_first {n : Nat} (ha : a.Readable) (hn : sizeOf a ≤ n) {c : Char} (hc : c ∈ [' ', ')', ']'])
    (rest : List Char) :
    readParens? (readExpr? n) (a.chars ++ c :: rest) = readBehind? (readExpr? n) a (c :: rest) := by
  rw [readParens?, castType?_chars ha.legible]
  simp only
  rw [ha.readsBack hn (ends_cons hc rest)]
  rfl

lemma readBehind?_binary {n : Nat} (hb : b.Readable) (hn : sizeOf b ≤ n) (rest : List Char) :
    readBehind? (readExpr? n) a (' ' :: (op.symbol.toList ++ ' ' :: (b.chars ++ ')' :: rest))) =
      some (binary op a b, rest) := by
  obtain ⟨hblank, hchoice, htest, hfind⟩ := symbol_legible op
  obtain ⟨htake, hdrop⟩ := takeWhile_symbol hblank (b.chars ++ ')' :: rest)
  rw [readBehind?]
  simp only [htake, hdrop, hchoice, htest, hfind, if_false]
  rw [hb.readsBack hn (ends_cons (by simp) rest)]
  rfl

lemma readBehind?_instanceOf {n : Nat} {type : String} (htype : isIdentifier type = true) (rest : List Char) :
    readBehind? (readExpr? n) a (' ' :: ("instanceof".toList ++ ' ' :: (type.toList ++ ')' :: rest))) =
      some (instanceOf a type, rest) := by
  obtain ⟨htake, hdrop⟩ := takeWhile_symbol (show ' ' ∉ "instanceof".toList by decide) (type.toList ++ ')' :: rest)
  obtain ⟨htake', hdrop'⟩ := takeWhile_identifier htype (ends_cons (c := ')') (by simp) rest).endsWord
  have hne : "instanceof".toList ≠ ['?'] := by decide
  rw [readBehind?]
  simp only [htake, hdrop, hne, if_false, if_true, htake', hdrop']
  simp [closed?]

lemma readBehind?_ternary {n : Nat} (ha : a.Readable) (hb : b.Readable) (hna : sizeOf a ≤ n) (hnb : sizeOf b ≤ n)
    (rest : List Char) :
    readBehind? (readExpr? n) c (' ' :: '?' :: ' ' :: (a.chars ++ ' ' :: ':' :: ' ' :: (b.chars ++ ')' :: rest))) =
      some (ternary c a b, rest) := by
  obtain ⟨htake, hdrop⟩ :=
    takeWhile_symbol (show ' ' ∉ ['?'] by decide) (a.chars ++ ' ' :: ':' :: ' ' :: (b.chars ++ ')' :: rest))
  rw [List.singleton_append] at htake hdrop
  rw [readBehind?]
  simp only [htake, hdrop, if_true]
  rw [ha.readsBack hna (ends_cons (by simp) _)]
  simp only
  rw [hb.readsBack hnb (ends_cons (by simp) rest)]
  rfl

lemma readable_binary (hop : op ≠ .cmp) (ha : a.Readable) (hb : b.Readable) : (binary op a b).Readable := by
  refine readable_of_readUnit? ⟨hop, ha.legible, hb.legible⟩ trivial fun n rest hn _ => ?_
  simp only [binary.sizeOf_spec] at hn
  rw [chars_binary hop]
  simp only [List.cons_append, List.append_assoc, List.nil_append, readUnit?]
  rw [readParens?_first ha (by omega) (by simp), readBehind?_binary hb (by omega)]

lemma readable_instanceOf {type : String} (htype : isIdentifier type = true) (ha : a.Readable) :
    (instanceOf a type).Readable := by
  refine readable_of_readUnit? ⟨htype, ha.legible⟩ trivial fun n rest hn _ => ?_
  simp only [instanceOf.sizeOf_spec] at hn
  rw [chars_instanceOf]
  simp only [List.cons_append, List.append_assoc, List.nil_append, readUnit?]
  rw [readParens?_first ha (by omega) (by simp), readBehind?_instanceOf htype]

lemma readable_ternary (hc : c.Readable) (ha : a.Readable) (hb : b.Readable) : (ternary c a b).Readable := by
  refine readable_of_readUnit? ⟨hc.legible, ha.legible, hb.legible⟩ trivial fun n rest hn _ => ?_
  simp only [ternary.sizeOf_spec] at hn
  rw [chars_ternary]
  simp only [List.cons_append, List.append_assoc, List.nil_append, readUnit?]
  rw [readParens?_first hc (by omega) (by simp), readBehind?_ternary ha hb (by omega) (by omega)]

lemma readable_cast {type : String} (htype : isIdentifier type = true) (ha : a.Readable) :
    (cast type a).Readable := by
  refine readable_of_readUnit? ⟨htype, ha.legible⟩ trivial fun n rest hn _ => ?_
  simp only [cast.sizeOf_spec] at hn
  obtain ⟨htake, hdrop⟩ :=
    takeWhile_identifier htype (ends_cons (c := ')') (by simp) (' ' :: (a.chars ++ ')' :: rest))).endsWord
  rw [chars_cast]
  simp only [List.cons_append, List.append_assoc, List.nil_append, readUnit?, readParens?, castType?, hdrop, htake]
  rw [ha.readsBack (by omega) (ends_cons (by simp) rest), String.ofList_toList]
  rfl

/-- What stands in front of a bracket is found with its parentheses, and there is room for an index behind it. -/
lemma readExpr?_operandChars {n k : Nat} {rest : List Char} (ha : a.Readable) (hnumber : ¬ a.IsNumber)
    (hn : sizeOf a + k ≤ n) (hrest : EndsWord rest) :
    ∃ m > k, readExpr? (n + 1) (a.operandChars ++ rest) = readIndices? (readExpr? n) m a rest := by
  rcases isUnit_or_unary hnumber with h | ⟨op, b, rfl⟩
  · rw [ha.legible.operandChars_eq h]
    exact ha.readsUnit h (k := k + 1) (by omega) hrest
  · have hpos := (unary op b).one_le_sizeOf
    refine ⟨n, by omega, ?_⟩
    rw [operandChars_unary]
    simp only [List.cons_append, List.append_assoc, List.nil_append]
    rw [readExpr?, if_neg (by decide), if_neg (by decide), if_neg (by decide), readUnit?,
      readParens?_first ha (by omega) (by simp), readBehind?]
    rfl

lemma readable_index (hnumber : ¬ a.IsNumber) (ha : a.Readable) (hi : i.Readable) : (index a i).Readable := by
  refine ReadsUnit.readable (fun n k rest hn hrest => ?_) ⟨hnumber, ha.legible, hi.legible⟩
  simp only [index.sizeOf_spec] at hn
  have hbracket : EndsWord ('[' :: (i.chars ++ ']' :: rest)) := by
    rintro c hc
    obtain rfl : '[' = c := by simpa using hc
    decide
  obtain ⟨m, hm, hread⟩ := readExpr?_operandChars (n := n) (k := k) ha hnumber (by omega) hbracket
  obtain ⟨m, rfl⟩ : ∃ l, m = l + 1 := ⟨m - 1, by omega⟩
  refine ⟨m, by omega, ?_⟩
  rw [chars_index]
  simp only [List.cons_append, List.append_assoc, List.nil_append]
  rw [hread, readIndices?, hi.readsBack (by omega) (ends_cons (by simp) rest)]
  rfl

/-! ### Simplified expressions -/

lemma Normal.operand (h : e.Normal) (ha : a ∈ e.operands) : a.Normal :=
  (normal_iff.mp h).2 a ha

/-- What a simplified negation negates starts neither with a sign nor with a digit. -/
lemma Normal.exists_lead (h : (unary .neg a).Normal) (ha : a.Legible) :
    ∃ c cs, a.chars = c :: cs ∧ c ≠ '-' ∧ c.isDigit = false := by
  have hredex := (normal_iff.mp h).1
  have hnumber : ¬ a.IsNumber := fun hnumber => hredex (.negated hnumber)
  rcases isUnit_or_unary hnumber with hunit | ⟨op, b, rfl⟩
  · obtain ⟨c, cs, hcs, -, hlead⟩ := ha.head_of_isUnit hunit
    exact ⟨c, cs, hcs, hlead⟩
  · cases op with
    | neg => exact absurd .doubled hredex
    | not => exact ⟨'!', b.chars, chars_not, by decide⟩

/-- The reader finds a simplified expression. Only the sign of a negation needs more of the operand than that it is
found. -/
lemma Normal.readable : ∀ {e : Expr}, e.Normal → e.Legible → e.Readable
  | int n, _, _ => readable_int n
  | long n, _, _ => readable_long n
  | string s, _, _ => readable_string s
  | var _, _, h => readable_var h
  | binary op a b, hnormal, h => by
    have ha : a.Readable := (hnormal.operand (by simp [operands])).readable h.2.1
    have hb : b.Readable := (hnormal.operand (by simp [operands])).readable h.2.2
    exact readable_binary h.1 ha hb
  | unary op a, hnormal, h => by
    have ha : a.Readable := (hnormal.operand (by simp [operands])).readable h
    cases op with
    | not => exact ha.not
    | neg => exact ha.neg (hnormal.exists_lead h)
  | index a i, hnormal, h => by
    have ha : a.Readable := (hnormal.operand (by simp [operands])).readable h.2.1
    have hi : i.Readable := (hnormal.operand (by simp [operands])).readable h.2.2
    exact readable_index h.1 ha hi
  | cast type a, hnormal, h => by
    have ha : a.Readable := (hnormal.operand (by simp [operands])).readable h.2
    exact readable_cast h.1 ha
  | instanceOf a type, hnormal, h => by
    have ha : a.Readable := (hnormal.operand (by simp [operands])).readable h.2
    exact readable_instanceOf h.1 ha
  | ternary c a b, hnormal, h => by
    have hc : c.Readable := (hnormal.operand (by simp [operands])).readable h.1
    have ha : a.Readable := (hnormal.operand (by simp [operands])).readable h.2.1
    have hb : b.Readable := (hnormal.operand (by simp [operands])).readable h.2.2
    exact readable_ternary hc ha hb

/-- The reader takes the text of a simplified expression for that expression. -/
lemma readExpr?_chars (hlegible : e.Legible) (hsimple : e.simplify = e) {n : Nat} (hn : sizeOf e ≤ n) :
    readExpr? n e.chars = some (e, []) := by
  have hnormal : e.Normal := hsimple ▸ e.normal_simplify
  have hread := (hnormal.readable hlegible).readsBack hn ends_nil
  rwa [List.append_nil] at hread

/-- No two simplified expressions have the same text, as far as their names are identifiers and their operators are
those of the source language. -/
theorem text_injOn_simplified : Set.InjOn Expr.text {e | e.Legible ∧ e.simplify = e} := by
  rintro a ⟨ha, hsimpleA⟩ b ⟨hb, hsimpleB⟩ htext
  have hchars : a.chars = b.chars := congrArg String.toList htext
  have hreadA := readExpr?_chars ha hsimpleA (Nat.le_add_right (sizeOf a) (sizeOf b))
  have hreadB := readExpr?_chars hb hsimpleB (Nat.le_add_left (sizeOf b) (sizeOf a))
  rw [hchars, hreadB] at hreadA
  exact (Prod.mk.inj (Option.some.inj hreadA)).1.symm

/-- The negation of an element and the element of a negation: parentheses tell them apart. -/
theorem text_negated_element_ne :
    unary .neg (index (var "x") (int 1)) ∈ {e | e.Legible ∧ e.simplify = e} ∧
      index (unary .neg (var "x")) (int 1) ∈ {e | e.Legible ∧ e.simplify = e} ∧
      (unary .neg (index (var "x") (int 1))).text ≠ (index (unary .neg (var "x")) (int 1)).text := by
  have hx : isIdentifier "x" = true := by decide
  have hleft : unary .neg (index (var "x") (int 1)) ∈ {e | e.Legible ∧ e.simplify = e} :=
    ⟨⟨id, hx, trivial⟩, rfl⟩
  have hright : index (unary .neg (var "x")) (int 1) ∈ {e | e.Legible ∧ e.simplify = e} :=
    ⟨⟨id, hx, trivial⟩, rfl⟩
  refine ⟨hleft, hright, fun htext => ?_⟩
  cases text_injOn_simplified hleft hright htext

end Expr

end JvmLift.Source
