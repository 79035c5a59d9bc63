import Mathlib
import JvmLift.Source.Print

/-!
# String literals read back

The lexical rules for string literals of the source language, as two scans one behind the other. The first replaces
Unicode escapes by the code units that they name; the second takes a literal apart into characters and escape sequences.
The text of a string is always one literal. Its value is the string, unless a NUL stands right before an octal digit:
NUL is written as the octal escape `\0`, which takes up to two digits behind it as its own.
-/

namespace JvmLift.Source

/-! ### Code units -/

/-- The code units of a character in UTF-16. -/
def utf16 (c : Char) : List UInt16 :=
  if c.toNat < 0x10000 then [UInt16.ofNat c.toNat]
  else [UInt16.ofNat (0xd800 + (c.toNat - 0x10000) / 0x400), UInt16.ofNat (0xdc00 + (c.toNat - 0x10000) % 0x400)]

/-- The code units of a text. -/
def codeUnits (cs : List Char) : List UInt16 :=
  cs.flatMap utf16

lemma codeUnits_cons (c : Char) (cs : List Char) : codeUnits (c :: cs) = utf16 c ++ codeUnits cs := rfl

/-! ### Unicode escapes -/

/-- The value of a hexadecimal digit. -/
def hexDigit? (c : Char) : Option Nat :=
  if '0' ≤ c ∧ c ≤ '9' then some (c.toNat - 48)
  else if 'a' ≤ c ∧ c ≤ 'f' then some (c.toNat - 87)
  else if 'A' ≤ c ∧ c ≤ 'F' then some (c.toNat - 55)
  else none

/-- Where the scan for Unicode escapes stands. -/
inductive EscapePhase
  /-- An even number of backslashes stands right before. -/
  | even
  /-- Behind a backslash with an even number of backslashes before it, so a `u` makes it an escape. -/
  | behind
  /-- Inside an escape, with so many digits of the value read. -/
  | digits (count value : Nat)

/-- The code units of a source text, with Unicode escapes replaced. A backslash with an odd number of backslashes before
it starts no escape, `u` may be repeated, and there have to be four digits. -/
def unescape? : EscapePhase → List Char → Option (List UInt16)
  | .even, [] => some []
  | .behind, [] => some (utf16 '\\')
  | .digits .., [] => none
  | .even, c :: cs =>
    if c = '\\' then unescape? .behind cs else (unescape? .even cs).map (utf16 c ++ ·)
  | .behind, c :: cs =>
    if c = 'u' then unescape? (.digits 0 0) cs else (unescape? .even cs).map (utf16 '\\' ++ utf16 c ++ ·)
  | .digits count value, c :: cs =>
    if c = 'u' ∧ count = 0 then unescape? (.digits 0 0) cs
    else
      match hexDigit? c with
      | none => none
      | some d =>
        if count = 3 then (unescape? .even cs).map (UInt16.ofNat (16 * value + d) :: ·)
        else unescape? (.digits (count + 1) (16 * value + d)) cs

/-! ### Literals -/

/-- What a letter behind a backslash stands for. -/
def escapeValue? (u : UInt16) : Option UInt16 :=
  ([('b', '\x08'), ('s', ' '), ('t', '\t'), ('n', '\n'), ('f', '\x0c'), ('r', '\r'), ('"', '"'), ('\x27', '\x27'),
    ('\\', '\\')].find? fun pair => utf16 pair.1 = [u]).map fun pair => UInt16.ofNat pair.2.toNat

/-- The value of an octal digit. -/
def octalDigit? (u : UInt16) : Option Nat :=
  if 48 ≤ u.toNat ∧ u.toNat ≤ 55 then some (u.toNat - 48) else none

/-- Where the scan of a literal stands behind its opening quote. -/
inductive LiteralPhase
  | plain
  /-- Behind the backslash of an escape sequence. -/
  | escape
  /-- Inside an octal escape that may take `left` more digits. -/
  | octal (value left : Nat)

/-- A code unit outside of escape sequences, with what the scan makes of the units behind it. A line must not end inside
a literal, and the closing quote has to end the text. -/
def plainUnit? (u : UInt16) (rest : List UInt16) (read : LiteralPhase → Option (List UInt16)) : Option (List UInt16) :=
  if u = 0x22 then (if rest = [] then some [] else none)
  else if u = 0x5c then read .escape
  else if u = 0x0a ∨ u = 0x0d then none
  else (read .plain).map (u :: ·)

/-- The value of a literal behind its opening quote. An octal escape takes as many digits as it may: three if the first
is at most `3`, else two. -/
def literalValue? : LiteralPhase → List UInt16 → Option (List UInt16)
  | _, [] => none
  | .plain, u :: rest => plainUnit? u rest fun phase => literalValue? phase rest
  | .escape, u :: rest =>
    match octalDigit? u with
    | some d => literalValue? (.octal d (if d ≤ 3 then 2 else 1)) rest
    | none =>
      match escapeValue? u with
      | some v => (literalValue? .plain rest).map (v :: ·)
      | none => none
  | .octal value left, u :: rest =>
    match octalDigit? u, left with
    | some d, left + 1 => literalValue? (.octal (8 * value + d) left) rest
    | _, _ => (plainUnit? u rest fun phase => literalValue? phase rest).map (UInt16.ofNat value :: ·)

/-- The value of a source text that is one string literal. -/
def readLiteral? (text : String) : Option (List UInt16) :=
  match unescape? .even text.toList with
  | some (0x22 :: rest) => literalValue? .plain rest
  | _ => none

/-! ### Escaped characters -/

/-- The characters that are written as a letter behind a backslash, each with its letter. -/
def escapeLetters : List (Char × Char) :=
  [('\\', '\\'), ('"', '"'), ('\n', 'n'), ('\r', 'r'), ('\t', 't'), ('\x00', '0')]

lemma mem_escapeLetters {c letter : Char} : (c, letter) ∈ escapeLetters ↔
    (c = '\\' ∧ letter = '\\') ∨ (c = '"' ∧ letter = '"') ∨ (c = '\n' ∧ letter = 'n') ∨ (c = '\r' ∧ letter = 'r') ∨
      (c = '\t' ∧ letter = 't') ∨ (c = '\x00' ∧ letter = '0') := by
  simp [escapeLetters]

/-- How a character is written inside a literal. -/
inductive Escaped : Char → List Char → Prop
  | letter {c letter : Char} (mem : (c, letter) ∈ escapeLetters) : Escaped c ['\\', letter]
  | unicode {c : Char} (noLetter : ∀ letter, (c, letter) ∉ escapeLetters) (isControl : c.toNat < 160) :
      Escaped c ['\\', 'u', '0', '0', Nat.digitChar (c.toNat / 16), Nat.digitChar (c.toNat % 16)]
  | itself {c : Char} (noLetter : ∀ letter, (c, letter) ∉ escapeLetters) : Escaped c [c]

lemma toList_hexDigits_four : ∀ n < 160,
    (Text.hexDigits 4 n).toList = ['0', '0', Nat.digitChar (n / 16), Nat.digitChar (n % 16)] := by
  decide +kernel

lemma escaped_escapeChar (c : Char) : Escaped c (escapeChar c).toList := by
  unfold escapeChar
  split
  · exact (.letter (by decide) : Escaped '\\' ['\\', '\\'])
  · exact (.letter (by decide) : Escaped '"' ['\\', '"'])
  · exact (.letter (by decide) : Escaped '\n' ['\\', 'n'])
  · exact (.letter (by decide) : Escaped '\r' ['\\', 'r'])
  · exact (.letter (by decide) : Escaped '\t' ['\\', 't'])
  · exact (.letter (by decide) : Escaped '\x00' ['\\', '0'])
  · next h₁ h₂ h₃ h₄ h₅ h₆ =>
    have hne : ∀ letter, (c, letter) ∉ escapeLetters := by
      intro letter hmem
      rw [mem_escapeLetters] at hmem
      tauto
    split_ifs with hcontrol
    · have hlt : c.toNat < 160 := by
        simp only [Text.isControl, Bool.or_eq_true, decide_eq_true_eq, Bool.and_eq_true] at hcontrol
        omega
      rw [String.toList_append, toList_hexDigits_four _ hlt]
      exact .unicode hne hlt
    · rw [Char.toString_eq_singleton, String.toList_singleton]
      exact .itself hne

/-- The characters of a literal between its quotes. -/
def escapeAll (cs : List Char) : List Char :=
  cs.flatMap fun c => (escapeChar c).toList

lemma toList_stringLiteral (s : String) : (stringLiteral s).toList = '"' :: (escapeAll s.toList ++ ['"']) := by
  simp [stringLiteral, escapeAll, List.flatMap_map]

/-- The code units of a character in a literal without Unicode escapes. -/
def spelled (c : Char) : List UInt16 :=
  ((escapeLetters.lookup c).map fun letter => utf16 '\\' ++ utf16 letter).getD (utf16 c)

lemma lookup_eq_none {c : Char} (h : ∀ letter, (c, letter) ∉ escapeLetters) : escapeLetters.lookup c = none := by
  rw [List.lookup_eq_none_iff]
  rintro ⟨d, letter⟩ hmem
  simpa using fun hcd : c = d => h letter (hcd ▸ hmem)

lemma spelled_of_noLetter {c : Char} (h : ∀ letter, (c, letter) ∉ escapeLetters) : spelled c = utf16 c := by
  rw [spelled, lookup_eq_none h, Option.map_none, Option.getD_none]

lemma hexDigit?_digitChar : ∀ d < 16, hexDigit? (Nat.digitChar d) = some d := by
  decide

lemma unescape?_escapeChar (c : Char) (cs : List Char) :
    unescape? .even ((escapeChar c).toList ++ cs) = (unescape? .even cs).map (spelled c ++ ·) := by
  have h := escaped_escapeChar c
  generalize (escapeChar c).toList = text at h
  cases h with
  | letter mem =>
    rcases mem_escapeLetters.mp mem with
      ⟨rfl, rfl⟩ | ⟨rfl, rfl⟩ | ⟨rfl, rfl⟩ | ⟨rfl, rfl⟩ | ⟨rfl, rfl⟩ | ⟨rfl, rfl⟩ <;> rfl
  | unicode noLetter isControl =>
    have hzero : hexDigit? '0' = some 0 := rfl
    have hhigh := hexDigit?_digitChar (c.toNat / 16) (by omega)
    have hlow := hexDigit?_digitChar (c.toNat % 16) (by omega)
    have hvalue : 16 * (c.toNat / 16) + c.toNat % 16 = c.toNat := Nat.div_add_mod _ _
    have hunit : spelled c = [UInt16.ofNat c.toNat] := by
      rw [spelled_of_noLetter noLetter, utf16, if_pos (by omega)]
    simp [unescape?, hzero, hhigh, hlow, hvalue, hunit]
  | itself noLetter =>
    have hne : c ≠ '\\' := by
      rintro rfl
      exact noLetter '\\' (by decide)
    simp [unescape?, hne, spelled_of_noLetter noLetter]

/-- **Unicode escapes.** What is left of a literal without them. -/
lemma unescape?_escapeAll (cs rest : List Char) :
    unescape? .even (escapeAll cs ++ rest) = (unescape? .even rest).map (cs.flatMap spelled ++ ·) := by
  induction cs with
  | nil => simp [escapeAll]
  | cons c cs ih =>
    rw [escapeAll, List.flatMap_cons, List.append_assoc, unescape?_escapeChar, ← escapeAll, ih]
    simp [Function.comp_def]

lemma unescape?_stringLiteral (s : String) :
    unescape? .even (stringLiteral s).toList = some (0x22 :: (s.toList.flatMap spelled ++ [0x22])) := by
  have hquote (cs : List Char) : unescape? .even ('"' :: cs) = (unescape? .even cs).map ([0x22] ++ ·) := rfl
  rw [toList_stringLiteral, hquote, unescape?_escapeAll, hquote]
  rfl

/-! ### Values -/

/-- Whether a character is an octal digit. -/
def isOctal (c : Char) : Bool :=
  '0' ≤ c && c ≤ '7'

/-- The octal digits at the front of a text, at most `n` of them. -/
def octalRun (n : Nat) (cs : List Char) : List Char :=
  (cs.take n).takeWhile isOctal

/-- The number that octal digits behind those of `value` spell. -/
def octalNumber (value : Nat) (digits : List Char) : Nat :=
  digits.foldl (fun n d => 8 * n + (d.toNat - 48)) value

/-- The text that a literal is read as: a NUL takes the octal digits behind it, at most two of them, as its own. -/
def absorb : List Char → List Char
  | [] => []
  | c :: cs =>
    if c = '\x00' then Char.ofNat (octalNumber 0 (octalRun 2 cs)) :: absorb (cs.drop (octalRun 2 cs).length)
    else c :: absorb cs
termination_by cs => cs.length

lemma isOctal_iff {c : Char} : isOctal c = true ↔ 48 ≤ c.toNat ∧ c.toNat ≤ 55 := by
  simp [isOctal, Char.le_def, UInt32.le_iff_toNat_le]

/-- A code unit of ASCII stands for the character of that number. -/
lemma toNat_eq_of_mem_utf16 {c : Char} {u : UInt16} (hu : u ∈ utf16 c) (hlt : u.toNat < 128) : c.toNat = u.toNat := by
  unfold utf16 at hu
  split_ifs at hu with hc
  · obtain rfl := List.mem_singleton.mp hu
    rw [UInt16.toNat_ofNat', Nat.mod_eq_of_lt hc]
  · have hmax : c.toNat < 0x110000 := by
      have hvalid : c.toNat.isValidChar := c.valid
      rcases hvalid with h | ⟨-, h⟩ <;> omega
    simp only [List.mem_cons, List.not_mem_nil, or_false] at hu
    rcases hu with rfl | rfl <;> rw [UInt16.toNat_ofNat'] at hlt <;> omega

lemma utf16_of_ascii {c : Char} (h : c.toNat < 128) : utf16 c = [UInt16.ofNat c.toNat] := by
  rw [utf16, if_pos (by omega)]

lemma utf16_ne_nil (c : Char) : utf16 c ≠ [] := by
  unfold utf16
  split_ifs <;> simp

/-- Code units without a meaning of their own stand for themselves. -/
lemma literalValue?_append {us : List UInt16} (h : ∀ u ∈ us, u ∉ [0x22, 0x5c, 0x0a, 0x0d]) (rest : List UInt16) :
    literalValue? .plain (us ++ rest) = (literalValue? .plain rest).map (us ++ ·) := by
  induction us with
  | nil => simp
  | cons u us ih =>
    obtain ⟨hu, hus⟩ := List.forall_mem_cons.mp h
    simp only [List.mem_cons, List.not_mem_nil, or_false, not_or] at hu
    rw [List.cons_append, literalValue?, plainUnit?, if_neg hu.1, if_neg hu.2.1, if_neg (by tauto), ih hus]
    simp [Function.comp_def]

/-- Every character but NUL reads back as itself, whatever follows. -/
lemma literalValue?_spelled {c : Char} (hc : c ≠ '\x00') (rest : List UInt16) :
    literalValue? .plain (spelled c ++ rest) = (literalValue? .plain rest).map (utf16 c ++ ·) := by
  by_cases hletter : ∃ letter, (c, letter) ∈ escapeLetters
  · obtain ⟨letter, mem⟩ := hletter
    rcases mem_escapeLetters.mp mem with ⟨rfl, rfl⟩ | ⟨rfl, rfl⟩ | ⟨rfl, rfl⟩ | ⟨rfl, rfl⟩ | ⟨rfl, rfl⟩ | ⟨rfl, rfl⟩
    · rfl
    · rfl
    · rfl
    · rfl
    · rfl
    · exact absurd rfl hc
  · rw [not_exists] at hletter
    rw [spelled_of_noLetter hletter]
    refine literalValue?_append (fun u hu hmem => ?_) rest
    -- The code units with a meaning are characters that are written with a letter.
    obtain ⟨hascii, hsome⟩ : u.toNat < 128 ∧ (escapeLetters.lookup (Char.ofNat u.toNat)).isSome = true := by
      simp only [List.mem_cons, List.not_mem_nil, or_false] at hmem
      rcases hmem with rfl | rfl | rfl | rfl <;> decide
    rw [← toNat_eq_of_mem_utf16 hu hascii, Char.ofNat_toNat, lookup_eq_none hletter] at hsome
    cases hsome

/-- An octal escape ends where it may take no more digits. -/
lemma literalValue?_octal_stop {value left : Nat} {u : UInt16} (h : octalDigit? u = none ∨ left = 0)
    (rest : List UInt16) : literalValue? (.octal value left) (u :: rest) =
      (literalValue? .plain (u :: rest)).map (UInt16.ofNat value :: ·) := by
  rw [literalValue?.eq_def]
  rcases h with h | rfl
  · simp [h, literalValue?]
  · simp [literalValue?]

lemma spelled_of_isOctal {c : Char} (h : isOctal c = true) :
    spelled c = [UInt16.ofNat c.toNat] ∧ octalDigit? (UInt16.ofNat c.toNat) = some (c.toNat - 48) := by
  rw [isOctal_iff] at h
  have hletter : ∀ letter, (c, letter) ∉ escapeLetters := by
    intro letter mem
    rcases mem_escapeLetters.mp mem with
      ⟨rfl, -⟩ | ⟨rfl, -⟩ | ⟨rfl, -⟩ | ⟨rfl, -⟩ | ⟨rfl, -⟩ | ⟨rfl, -⟩ <;> exact absurd h (by decide)
  have hunit : (UInt16.ofNat c.toNat).toNat = c.toNat := by
    rw [UInt16.toNat_ofNat']
    omega
  constructor
  · rw [spelled_of_noLetter hletter, utf16_of_ascii (by omega)]
  · rw [octalDigit?, hunit, if_pos h]

/-- What does not start with an octal digit is not written with one in front. -/
lemma spelled_of_not_isOctal {c : Char} (h : isOctal c = false) :
    ∃ u us, spelled c = u :: us ∧ octalDigit? u = none := by
  by_cases hletter : ∃ letter, (c, letter) ∈ escapeLetters
  · obtain ⟨letter, mem⟩ := hletter
    rcases mem_escapeLetters.mp mem with ⟨rfl, rfl⟩ | ⟨rfl, rfl⟩ | ⟨rfl, rfl⟩ | ⟨rfl, rfl⟩ | ⟨rfl, rfl⟩ | ⟨rfl, rfl⟩ <;>
      exact ⟨0x5c, _, rfl, rfl⟩
  · rw [not_exists] at hletter
    obtain ⟨u, us, hus⟩ := List.exists_cons_of_ne_nil (utf16_ne_nil c)
    refine ⟨u, us, by rw [spelled_of_noLetter hletter, hus], ?_⟩
    rw [octalDigit?, if_neg]
    rintro ⟨hlow, hhigh⟩
    have hnat := toNat_eq_of_mem_utf16 (hus ▸ List.mem_cons_self) (by omega : u.toNat < 128)
    rw [← hnat] at hlow hhigh
    exact absurd (isOctal_iff.mpr ⟨hlow, hhigh⟩) (by simp [h])

/-- **Octal escapes.** The digits that an escape takes are those of the text behind it. -/
lemma literalValue?_octal (value left : Nat) (cs : List Char) :
    literalValue? (.octal value left) (cs.flatMap spelled ++ [0x22]) =
      (literalValue? .plain ((cs.drop (octalRun left cs).length).flatMap spelled ++ [0x22])).map
        (UInt16.ofNat (octalNumber value (octalRun left cs)) :: ·) := by
  induction left generalizing value cs with
  | zero =>
    obtain ⟨u, us, hus⟩ := List.exists_cons_of_ne_nil (show cs.flatMap spelled ++ [0x22] ≠ [] by simp)
    rw [hus, literalValue?_octal_stop (.inr rfl), ← hus]
    simp [octalRun, octalNumber]
  | succ left ih =>
    cases cs with
    | nil =>
      rw [List.flatMap_nil, List.nil_append, literalValue?_octal_stop (.inl rfl)]
      rfl
    | cons c cs =>
      cases hc : isOctal c with
      | true =>
        obtain ⟨hspelled, hdigit⟩ := spelled_of_isOctal hc
        have hstep (rest : List UInt16) : literalValue? (.octal value (left + 1)) (UInt16.ofNat c.toNat :: rest) =
            literalValue? (.octal (8 * value + (c.toNat - 48)) left) rest := by
          simp only [literalValue?, hdigit]
        rw [List.flatMap_cons, hspelled, List.append_assoc, List.singleton_append, hstep, ih]
        simp [octalRun, octalNumber, hc]
      | false =>
        obtain ⟨u, us, hspelled, hnone⟩ := spelled_of_not_isOctal hc
        rw [List.flatMap_cons, hspelled, List.append_assoc, List.cons_append, literalValue?_octal_stop (.inl hnone)]
        simp [octalRun, octalNumber, hc, hspelled]

lemma octalNumber_lt {digits : List Char} (h : ∀ d ∈ digits, isOctal d = true) (value : Nat) :
    octalNumber value digits < 8 ^ digits.length * (value + 1) := by
  induction digits generalizing value with
  | nil => simp [octalNumber]
  | cons d digits ih =>
    obtain ⟨hd, hdigits⟩ := List.forall_mem_cons.mp h
    rw [isOctal_iff] at hd
    calc octalNumber value (d :: digits) = octalNumber (8 * value + (d.toNat - 48)) digits := rfl
      _ < 8 ^ digits.length * (8 * value + (d.toNat - 48) + 1) := ih hdigits _
      _ ≤ 8 ^ digits.length * (8 * (value + 1)) := Nat.mul_le_mul_left _ (by omega)
      _ = 8 ^ (d :: digits).length * (value + 1) := by rw [List.length_cons, Nat.pow_succ, Nat.mul_assoc]

lemma isOctal_of_mem_octalRun {n : Nat} {cs : List Char} {d : Char} (h : d ∈ octalRun n cs) : isOctal d = true :=
  List.mem_takeWhile_imp h

lemma length_octalRun_le (n : Nat) (cs : List Char) : (octalRun n cs).length ≤ n :=
  (List.takeWhile_prefix _).length_le.trans (List.length_take_le n cs)

/-- The value of an octal escape is a character. -/
lemma utf16_octalNumber (cs : List Char) :
    utf16 (Char.ofNat (octalNumber 0 (octalRun 2 cs))) = [UInt16.ofNat (octalNumber 0 (octalRun 2 cs))] := by
  have hlt : octalNumber 0 (octalRun 2 cs) < 64 := by
    calc octalNumber 0 (octalRun 2 cs) < 8 ^ (octalRun 2 cs).length * (0 + 1) :=
          octalNumber_lt (fun _ => isOctal_of_mem_octalRun) 0
      _ ≤ 8 ^ 2 * (0 + 1) := Nat.mul_le_mul_right _ (Nat.pow_le_pow_right (by norm_num) (length_octalRun_le 2 cs))
  have hnat : (Char.ofNat (octalNumber 0 (octalRun 2 cs))).toNat = octalNumber 0 (octalRun 2 cs) := by
    rw [Char.toNat_ofNat, if_pos (.inl (by omega))]
  rw [utf16_of_ascii (by omega), hnat]

/-- **Reading.** A text is read as the one in which NULs have taken their digits. -/
lemma literalValue?_flatMap_spelled (cs : List Char) :
    literalValue? .plain (cs.flatMap spelled ++ [0x22]) = some (codeUnits (absorb cs)) := by
  fun_induction absorb cs with
  | case1 => rfl
  | case2 cs ih =>
    have hnul (rest : List UInt16) :
        literalValue? .plain (spelled '\x00' ++ rest) = literalValue? (.octal 0 2) rest := rfl
    rw [List.flatMap_cons, List.append_assoc, hnul, literalValue?_octal, ih, codeUnits_cons, utf16_octalNumber]
    rfl
  | case3 c cs hc ih =>
    rw [List.flatMap_cons, List.append_assoc, literalValue?_spelled hc, ih]
    rfl

lemma readLiteral?_stringLiteral (s : String) :
    readLiteral? (stringLiteral s) = some (codeUnits (absorb s.toList)) := by
  rw [readLiteral?, unescape?_stringLiteral]
  exact literalValue?_flatMap_spelled s.toList

/-! ### Absorbed digits -/

/-- A NUL stands right before an octal digit. -/
def NulBeforeOctal (cs : List Char) : Prop :=
  ∃ d, isOctal d = true ∧ ['\x00', d] <:+: cs

lemma octalRun_ne_nil_iff {n : Nat} {cs : List Char} :
    octalRun (n + 1) cs ≠ [] ↔ ∃ d, isOctal d = true ∧ [d] <+: cs := by
  cases cs with
  | nil => simp [octalRun]
  | cons c cs =>
    cases hc : isOctal c with
    | true => simp [octalRun, hc]
    | false =>
      simp only [octalRun, List.take_succ_cons, List.takeWhile_cons, hc]
      simp only [Bool.false_eq_true, if_false, ne_eq, not_true_eq_false, false_iff, not_exists, not_and]
      rintro d hd hprefix
      obtain rfl : d = c := by simpa using hprefix
      cases hc.symm.trans hd

lemma nulBeforeOctal_cons {c : Char} {cs : List Char} : NulBeforeOctal (c :: cs) ↔
    (c = '\x00' ∧ octalRun 2 cs ≠ []) ∨ NulBeforeOctal cs := by
  simp only [NulBeforeOctal, List.infix_cons_iff, List.cons_prefix_cons, octalRun_ne_nil_iff, and_or_left, exists_or]
  refine or_congr_left ⟨?_, ?_⟩
  · rintro ⟨d, hd, rfl, hprefix⟩
    exact ⟨rfl, d, hd, hprefix⟩
  · rintro ⟨rfl, d, hd, hprefix⟩
    exact ⟨d, hd, rfl, hprefix⟩

lemma absorb_eq_self {cs : List Char} (h : ¬ NulBeforeOctal cs) : absorb cs = cs := by
  fun_induction absorb cs with
  | case1 => rfl
  | case2 cs ih =>
    rw [nulBeforeOctal_cons, not_or] at h
    have hrun : octalRun 2 cs = [] := by simpa using h.1
    rw [hrun] at ih ⊢
    rw [ih h.2]
    rfl
  | case3 c cs hc ih =>
    rw [nulBeforeOctal_cons, not_or] at h
    rw [ih h.2]

/-- Octal digits have one code unit each. -/
lemma length_codeUnits_of_isOctal {digits : List Char} (h : ∀ d ∈ digits, isOctal d = true) :
    (codeUnits digits).length = digits.length := by
  induction digits with
  | nil => rfl
  | cons d digits ih =>
    obtain ⟨hd, hdigits⟩ := List.forall_mem_cons.mp h
    have hascii : d.toNat < 128 := by
      have := isOctal_iff.mp hd
      omega
    rw [codeUnits_cons, utf16_of_ascii hascii, List.length_append, ih hdigits, List.length_singleton, List.length_cons,
      Nat.add_comm]

lemma length_codeUnits_octalRun (n : Nat) (cs : List Char) : (codeUnits cs).length =
    (octalRun n cs).length + (codeUnits (cs.drop (octalRun n cs).length)).length := by
  have hprefix : octalRun n cs <+: cs := (List.takeWhile_prefix _).trans (List.take_prefix n cs)
  conv_lhs => rw [List.prefix_append_drop hprefix]
  rw [codeUnits, List.flatMap_append, List.length_append, ← codeUnits, ← codeUnits,
    length_codeUnits_of_isOctal fun _ => isOctal_of_mem_octalRun]

lemma length_codeUnits_absorb_le (cs : List Char) : (codeUnits (absorb cs)).length ≤ (codeUnits cs).length := by
  fun_induction absorb cs with
  | case1 => exact le_refl _
  | case2 cs ih =>
    have hrun := length_codeUnits_octalRun 2 cs
    simp only [codeUnits_cons, utf16_octalNumber, List.length_append, List.length_singleton] at ih ⊢
    have hnul : (utf16 '\x00').length = 1 := rfl
    omega
  | case3 c cs hc ih => simpa [codeUnits_cons] using ih

/-- A literal in which a NUL has taken a digit is read as a shorter text. -/
lemma length_codeUnits_absorb_lt {cs : List Char} (h : NulBeforeOctal cs) :
    (codeUnits (absorb cs)).length < (codeUnits cs).length := by
  fun_induction absorb cs with
  | case1 =>
    obtain ⟨d, -, hinfix⟩ := h
    simp at hinfix
  | case2 cs ih =>
    have hrun := length_codeUnits_octalRun 2 cs
    have hle := length_codeUnits_absorb_le (cs.drop (octalRun 2 cs).length)
    have hnul : (utf16 '\x00').length = 1 := rfl
    simp only [codeUnits_cons, utf16_octalNumber, List.length_append, List.length_singleton, hnul]
    rcases nulBeforeOctal_cons.mp h with ⟨-, hne⟩ | hbehind
    · have hpos := List.length_pos_iff.mpr hne
      omega
    · by_cases hne : octalRun 2 cs = []
      · rw [hne, List.length_nil, List.drop_zero] at ih hle ⊢
        have := ih hbehind
        omega
      · have hpos := List.length_pos_iff.mpr hne
        omega
  | case3 c cs hc ih =>
    have hbehind := (nulBeforeOctal_cons.mp h).resolve_left fun hnul => hc hnul.1
    simpa [codeUnits_cons] using ih hbehind

/-- **String literals.** The text of a string is always one string literal, read as the text in which each NUL has taken
the octal digits behind it, two at most. So it is read as the string itself exactly when no NUL stands right before an
octal digit. -/
theorem readLiteral?_text_iff (s : String) :
    readLiteral? (Expr.string s).text = some (codeUnits (absorb s.toList)) ∧
      (readLiteral? (Expr.string s).text = some (codeUnits s.toList) ↔ ¬ NulBeforeOctal s.toList) := by
  have hread : readLiteral? (Expr.string s).text = some (codeUnits (absorb s.toList)) := by
    rw [Expr.text, Expr.print]
    exact readLiteral?_stringLiteral s
  refine ⟨hread, ?_⟩
  rw [hread, Option.some_inj]
  constructor
  · intro heq hnul
    have hlt := length_codeUnits_absorb_lt hnul
    rw [heq] at hlt
    exact lt_irrefl _ hlt
  · intro h
    rw [absorb_eq_self h]

/-- NUL and the digit `1` are written as the one escape for the character of number one. -/
theorem readLiteral?_nulOne :
    (Expr.string "\x001").text = "\"\\01\"" ∧ readLiteral? (Expr.string "\x001").text = some [1] ∧
      readLiteral? (Expr.string "\x001").text ≠ some (codeUnits "\x001".toList) := by
  decide +kernel

end JvmLift.Source
