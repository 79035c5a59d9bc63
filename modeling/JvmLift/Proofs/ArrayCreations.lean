import Mathlib
import JvmLift.Proofs.DescriptorText
import JvmLift.Recovery.Step
import JvmLift.Source.Print

/-!
# Array creations

An instruction that creates an array of arrays may give fewer lengths than the array has levels. The source language has
the lengths right behind the base type and the levels without a length behind them: `new int[3][]`. The text of a
creation has the levels without a length first, as part of the name of the element type: `new int[][3]`. The two are the
same exactly when every level has a length.
-/

namespace JvmLift

open Bytecode Source

/-! ### Levels of a type -/

/-- Texts in brackets, one behind the other. -/
def Source.inBrackets (texts : List String) : String :=
  String.join (texts.map fun text => "[" ++ text ++ "]")

lemma Source.inBrackets_append (texts more : List String) :
    inBrackets (texts ++ more) = inBrackets texts ++ inBrackets more := by
  simp [inBrackets]

namespace FieldType

/-- The number of array levels. -/
def rank : FieldType → Nat
  | array element => element.rank + 1
  | _ => 0

/-- The type below all array levels. -/
def base : FieldType → FieldType
  | array element => element.base
  | type => type

variable {t : FieldType}

/-- The name of a type is that of its base with a pair of brackets for every level. -/
lemma javaName_eq (t : FieldType) : t.javaName = t.base.javaName ++ inBrackets (List.replicate t.rank "") := by
  induction t with
  | array element ih =>
    rw [javaName, ih, rank, base, List.replicate_succ', inBrackets_append, ← String.append_assoc]
    rfl
  | _ => simp [javaName, base, rank, inBrackets]

lemma base_elementType (n : Nat) (t : FieldType) : (t.elementType n).base = t.base := by
  fun_induction elementType n t with
  | case1 n element ih => rw [ih, base]
  | case2 => rfl

lemma rank_elementType {n : Nat} (h : n ≤ t.rank) : (t.elementType n).rank = t.rank - n := by
  fun_induction elementType n t with
  | case1 n element ih =>
    rw [rank] at h ⊢
    rw [ih (by omega)]
    omega
  | case2 n t hn =>
    cases n with
    | zero => rfl
    | succ n =>
      cases t with
      | array element => exact absurd rfl (hn n element rfl)
      | _ => exact absurd h (by simp [rank])

lemma startsWith_descriptor (h : 0 < t.rank) : t.descriptor.startsWith "[" = true := by
  cases t with
  | array element => simp [descriptor]
  | _ => exact absurd h (by simp [rank])

end FieldType

/-- The source name of an array class is the name of its type. -/
lemma classOperandName_descriptor {t : FieldType} (hnamed : t.WellNamed) (hrank : 0 < t.rank) :
    classOperandName t.descriptor = t.javaName := by
  rw [classOperandName, if_pos (FieldType.startsWith_descriptor hrank),
    FieldType.parse_eq_ok_iff.mpr ⟨hnamed, rfl⟩]

/-! ### Texts -/

/-- The text of a creation in the source language: the base type, the lengths, and a pair of brackets for every level
without a length. -/
def creationText (type : FieldType) (lengths : List String) : String :=
  "new " ++ type.base.javaName ++ inBrackets (lengths ++ List.replicate (type.rank - lengths.length) "")

lemma Source.Expr.printAll_eq_map (p : PrintContext) (es : List Expr) : printAll p es = es.map (·.print p) := by
  induction es with
  | nil => rfl
  | cons e es ih => rw [printAll, ih, List.map_cons]

/-- The first text is not empty and does not start with a closing bracket. -/
def StartsPlain (texts : List String) : Prop :=
  ∃ text ∈ texts.head?, ∃ c ∈ text.toList.head?, c ≠ ']'

/-- Empty pairs of brackets in front of texts are not the same as behind them. -/
lemma Source.inBrackets_ne {texts : List String} {n : Nat} (hn : 0 < n) (h : StartsPlain texts) :
    inBrackets (List.replicate n "" ++ texts) ≠ inBrackets (texts ++ List.replicate n "") := by
  obtain ⟨text, htext, c, hc, hne⟩ := h
  obtain ⟨rest, rfl⟩ := List.head?_eq_some_iff.mp htext
  obtain ⟨cs, hcs⟩ := List.head?_eq_some_iff.mp hc
  obtain ⟨n, rfl⟩ : ∃ k, n = k + 1 := ⟨n - 1, by omega⟩
  intro heq
  have hchars := congrArg String.toList heq
  -- Behind the first bracket there is a bracket on the left, and the first character of the text on the right.
  simp only [inBrackets, List.replicate_succ, List.cons_append, List.map_cons, String.join_cons, String.toList_append,
    hcs, String.reduceToList, List.nil_append, List.cons.injEq, true_and] at hchars
  exact hne hchars.1.symm

/-! ### Instructions -/

namespace Recovery

/-- The instruction creates an array of the type and takes `n` lengths from the stack. -/
inductive Creates (pool : Pool) (i : Instruction) : FieldType → Nat → Prop
  /-- `multianewarray` of an array class. -/
  | multi {index : UInt16} {dimensions : UInt8} {type : FieldType} (opcode : i.opcode.raw = 0xc5)
      (operand : i.operand = .multiArray index dimensions) (named : type.WellNamed)
      (isClass : pool.className? index = some type.descriptor) (le_rank : dimensions.toNat ≤ type.rank) :
      Creates pool i type dimensions.toNat
  /-- `anewarray` of an array class. -/
  | arrays {index : UInt16} {element : FieldType} (opcode : i.opcode.raw = 0xbd) (operand : i.operand = .pool index)
      (named : element.WellNamed) (isArray : 0 < element.rank)
      (isClass : pool.className? index = some element.descriptor) : Creates pool i element.array 1
  /-- `anewarray` of any other class. -/
  | objects {index : UInt16} {name : String} (opcode : i.opcode.raw = 0xbd) (operand : i.operand = .pool index)
      (noArray : name.startsWith "[" = false) (isClass : pool.className? index = some name) :
      Creates pool i (FieldType.object name).array 1

variable {ctx : Context} {pool : Pool} {i : Instruction} {type : FieldType} {n : Nat}

lemma Creates.le_rank (h : Creates pool i type n) : n ≤ type.rank := by
  cases h with
  | multi _ _ _ _ hle => exact hle
  | arrays | objects => exact Nat.le_add_left 1 _

lemma takeValues?_of_length {values : Stack} (h : values.length = n) (below : Stack) :
    takeValues? n (values ++ below) = some (values.reverse.map StackValue.expr, below) := by
  simp [takeValues?, h, List.take_left' h, List.drop_left' h]

/-- The text of an element class is its source name. -/
lemma step_anewarray (hpool : ctx.pool = some pool) {index : UInt16} {name : String} (hop : i.opcode.raw = 0xbd)
    (hoperand : i.operand = .pool index) (hclass : pool.className? index = some name) (count : StackValue)
    (below : Stack) :
    step ctx i (count :: below) =
      .ok { stack := ⟨.newArray (classOperandName name) [count.expr], false⟩ :: below } := by
  have heffect : effectOf i.opcode = .pooled .newArray := by simp [effectOf, hop]
  simp [step, hoperand, heffect, applyEffect?, hpool, poolIndex?, usePool?, classNameAt, hclass]

lemma step_multianewarray (hpool : ctx.pool = some pool) {index : UInt16} {dimensions : UInt8}
    (hop : i.opcode.raw = 0xc5) (hoperand : i.operand = .multiArray index dimensions)
    (hclass : pool.className? index = some type.descriptor) (hnamed : type.WellNamed) {values : Stack}
    (hvalues : values.length = dimensions.toNat) (below : Stack) :
    step ctx i (values ++ below) = .ok { stack :=
      ⟨.newArray (type.elementType values.length).javaName (values.reverse.map StackValue.expr), false⟩ :: below } := by
  have heffect : effectOf i.opcode = .pooled .newMultiArray := by simp [effectOf, hop]
  have hparse := FieldType.parse_eq_ok_iff.mpr ⟨hnamed, rfl⟩
  simp [step, hoperand, heffect, applyEffect?, hpool, poolIndex?, usePool?, takeValues?_of_length hvalues below,
    multiArrayElement, hclass, hparse]

/-- **One step.** The element type is what is left of the type without as many levels as there are lengths. -/
lemma step_of_creates (hpool : ctx.pool = some pool) {values : Stack} (h : Creates pool i type values.length)
    (below : Stack) :
    step ctx i (values ++ below) = .ok { stack :=
      ⟨.newArray (type.elementType values.length).javaName (values.reverse.map StackValue.expr), false⟩ :: below } := by
  generalize hn : values.length = n at h
  cases h with
  | multi hop hoperand hnamed hclass => exact hn ▸ step_multianewarray hpool hop hoperand hclass hnamed hn below
  | arrays hop hoperand hnamed harray hclass =>
    obtain ⟨count, rfl⟩ := List.length_eq_one_iff.mp hn
    rw [List.singleton_append, step_anewarray hpool hop hoperand hclass, classOperandName_descriptor hnamed harray]
    rfl
  | objects hop hoperand hname hclass =>
    obtain ⟨count, rfl⟩ := List.length_eq_one_iff.mp hn
    rw [List.singleton_append, step_anewarray hpool hop hoperand hclass, classOperandName, if_neg (by simp [hname])]
    rfl

/-- The levels without a length stand in front of the lengths, as part of the element type. -/
lemma print_newArray_elementType (h : n ≤ type.rank) (dims : List Expr) (p : PrintContext) :
    (Expr.newArray (type.elementType n).javaName dims).print p = "new " ++ type.base.javaName ++
      inBrackets (List.replicate (type.rank - n) "" ++ dims.map (·.print p)) := by
  rw [Expr.print, FieldType.javaName_eq, FieldType.base_elementType, FieldType.rank_elementType h, inBrackets_append,
    Expr.printAll_eq_map]
  simp only [String.append_assoc]
  rfl

/-- **Array creations.** An instruction that creates an array takes its lengths from the stack, in the order in which
they were pushed, and pushes an expression that is written with the base type, a pair of brackets for every level
without a length, and the lengths in brackets. That is the creation of the source language if every level has a length.
It is not if one has none, unless the text of the first length is empty or starts with a closing bracket. -/
theorem step_arrayCreation (hpool : ctx.pool = some pool) (values below : Stack)
    (h : Creates pool i type values.length) :
    ∃ e, step ctx i (values ++ below) = .ok { stack := ⟨e, false⟩ :: below } ∧ ∀ p : PrintContext,
      let lengths := values.reverse.map (·.expr.print p)
      e.print p = "new " ++ type.base.javaName ++
        inBrackets (List.replicate (type.rank - values.length) "" ++ lengths) ∧
      (values.length = type.rank → e.print p = creationText type lengths) ∧
      (values.length < type.rank → StartsPlain lengths → e.print p ≠ creationText type lengths) := by
  refine ⟨_, step_of_creates hpool h below, fun p => ?_⟩
  intro lengths
  have hlengths : (values.reverse.map StackValue.expr).map (·.print p) = lengths := by
    simp [lengths, List.map_map, Function.comp_def]
  have hcount : lengths.length = values.length := by simp [lengths]
  have hprint := print_newArray_elementType h.le_rank (values.reverse.map StackValue.expr) p
  rw [hlengths] at hprint
  refine ⟨hprint, fun heq => ?_, fun hlt hplain htext => ?_⟩
  · rw [hprint, creationText, hcount, heq, Nat.sub_self, List.replicate_zero, List.nil_append, List.append_nil]
  · rw [hprint, creationText, hcount, String.append_right_inj] at htext
    exact inBrackets_ne (by omega) hplain htext

/-- A context whose pool has one class, at index `2`. -/
def withClass (type : FieldType) : Context where
  method := "m"
  names := Naming.numbered
  pool := some ⟨[none, some (.utf8 type.descriptor), some (.classRef 1)], []⟩

/-- Two lengths for the three levels of `int[][][]`, of which the one that was pushed first is written first. -/
theorem step_twoOfThreeLengths :
    ∃ e, step (withClass (.array (.array (.array .int)))) ⟨0, ⟨0xc5⟩, .multiArray 2 2, 4⟩
        [⟨.int 5, false⟩, ⟨.int 2, false⟩] = .ok { stack := [⟨e, false⟩] } ∧
      e.text = "new int[][2][5]" ∧ StartsPlain ["2", "5"] ∧
      e.text ≠ creationText (.array (.array (.array .int))) ["2", "5"] := by
  have hcreates : Creates ⟨[none, some (.utf8 "[[[I"), some (.classRef 1)], []⟩ ⟨0, ⟨0xc5⟩, .multiArray 2 2, 4⟩
      (.array (.array (.array .int))) (UInt8.toNat 2) := .multi rfl rfl trivial rfl (by decide)
  have hpool : (withClass (.array (.array (.array .int)))).pool = some _ := rfl
  have hplain : StartsPlain ["2", "5"] := ⟨"2", rfl, '2', rfl, by decide⟩
  obtain ⟨e, hstep, htext⟩ := step_arrayCreation hpool [⟨.int 5, false⟩, ⟨.int 2, false⟩] [] hcreates
  obtain ⟨hprint, -, hne⟩ := htext {}
  exact ⟨e, hstep, hprint, hplain, hne (by decide) hplain⟩

/-- One length for the two levels of `int[][]`. The source language has it first. -/
theorem step_oneOfTwoLengths :
    step (withClass (.array .int)) ⟨1, ⟨0xbd⟩, .pool 2, 3⟩ [⟨.int 3, false⟩] =
        .ok { stack := [⟨.newArray "int[]" [.int 3], false⟩] } ∧
      (Expr.newArray "int[]" [.int 3]).text = "new int[][3]" ∧
      creationText (.array (.array .int)) ["3"] = "new int[3][]" := by
  refine ⟨?_, rfl, rfl⟩
  cbv

end Recovery

end JvmLift
