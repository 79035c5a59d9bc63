import Mathlib
import JvmLift.Proofs.StraightLine
import JvmLift.Source.Print

/-!
# Names of parameters

The names that come from a signature tell the slots apart: the receiver, the parameters and all other slots have names
of different forms, and inside each form the names count. A parameter has its name at the slot behind the receiver and
the parameters before it. Both the table of names and the head of a printed method place the parameters, so the printed
parameters are the variables that the code loads.
-/

namespace JvmLift

/-! ### Slots of parameters -/

namespace MethodDescriptor

/-- Local slots of values of the given types. -/
def slotCount (types : List FieldType) : Nat :=
  (types.map fun type => type.slots.toNat).sum

/-- The slot of a parameter: the receiver, if there is one, and the parameters before it take the slots below. -/
def paramSlot (d : MethodDescriptor) (isStatic : Bool) (i : Nat) : Nat :=
  (if isStatic then 0 else 1) + slotCount (d.params.take i)

/-- Whether there are slots for the receiver and for all parameters. -/
def FitsSlots (d : MethodDescriptor) (isStatic : Bool) : Prop :=
  (if isStatic then 0 else 1) + slotCount d.params ≤ 65535

instance (d : MethodDescriptor) (isStatic : Bool) : Decidable (d.FitsSlots isStatic) :=
  inferInstanceAs (Decidable (_ ≤ _))

variable {d : MethodDescriptor} {isStatic : Bool} {types : List FieldType} {type : FieldType} {i j : Nat}

@[simp] lemma slotCount_cons : slotCount (type :: types) = type.slots.toNat + slotCount types := by
  simp [slotCount]

lemma slotCount_take_lt (hij : i < j) (hj : j ≤ types.length) : slotCount (types.take i) < slotCount (types.take j) := by
  induction types generalizing i j with
  | nil => simp_all
  | cons type types ih =>
    have hpos : 0 < type.slots.toNat := by
      unfold FieldType.slots
      split <;> decide
    obtain ⟨j, rfl⟩ : ∃ k, j = k + 1 := ⟨j - 1, by omega⟩
    cases i with
    | zero =>
      simp only [List.take_zero, List.take_succ_cons, slotCount_cons]
      exact Nat.lt_add_right _ hpos
    | succ i =>
      have hlt := ih (i := i) (j := j) (by omega) (by simpa using hj)
      simp only [List.take_succ_cons, slotCount_cons]
      omega

lemma getElem?_placeFrom {slot : UInt16} (h : slot.toNat + slotCount types ≤ 65535) (i : Nat) :
    (placeFrom slot types)[i]? =
      types[i]?.map fun type => (UInt16.ofNat (slot.toNat + slotCount (types.take i)), type) := by
  induction types generalizing slot i with
  | nil => simp [placeFrom]
  | cons type types ih =>
    rw [slotCount_cons] at h
    have hnext : (slot + type.slots).toNat = slot.toNat + type.slots.toNat := by
      rw [UInt16.toNat_add]
      omega
    cases i with
    | zero => simp [placeFrom, slotCount]
    | succ i =>
      rw [placeFrom, List.getElem?_cons_succ, ih (by omega), hnext]
      simp [Nat.add_assoc]

lemma getElem?_placedParams (h : d.FitsSlots isStatic) (i : Nat) : (d.placedParams isStatic)[i]? =
    d.params[i]?.map fun type => (UInt16.ofNat (d.paramSlot isStatic i), type) := by
  have hfirst : (if isStatic then 0 else 1 : UInt16).toNat = if isStatic then 0 else 1 := by cases isStatic <;> rfl
  rw [placedParams, getElem?_placeFrom (by rwa [hfirst]), hfirst]
  rfl

lemma paramSlot_lt (hij : i < j) (hj : j ≤ d.params.length) : d.paramSlot isStatic i < d.paramSlot isStatic j :=
  Nat.add_lt_add_left (slotCount_take_lt hij hj) _

lemma toNat_paramSlot (h : d.FitsSlots isStatic) (hi : i < d.params.length) :
    (UInt16.ofNat (d.paramSlot isStatic i)).toNat = d.paramSlot isStatic i := by
  have hlt : d.paramSlot isStatic i < 65536 := calc
    d.paramSlot isStatic i < d.paramSlot isStatic d.params.length := paramSlot_lt hi le_rfl
    _ = (if isStatic then 0 else 1) + slotCount d.params := by rw [paramSlot, List.take_length]
    _ ≤ 65535 := h
    _ < 65536 := by omega
  rw [UInt16.toNat_ofNat']
  exact Nat.mod_eq_of_lt hlt

/-- Different parameters have different slots. -/
lemma paramSlot_injective (h : d.FitsSlots isStatic) (hi : i < d.params.length) (hj : j < d.params.length)
    (hslot : UInt16.ofNat (d.paramSlot isStatic i) = UInt16.ofNat (d.paramSlot isStatic j)) : i = j := by
  have heq := congrArg UInt16.toNat hslot
  rw [toNat_paramSlot h hi, toNat_paramSlot h hj] at heq
  rcases Nat.lt_trichotomy i j with hij | hij | hij
  · exact absurd heq (paramSlot_lt hij hj.le).ne
  · exact hij
  · exact absurd heq (paramSlot_lt hij hi.le).ne'

end MethodDescriptor

/-! ### Forms of names -/

namespace Naming

variable {d : MethodDescriptor} {isStatic : Bool} {slot slot' : UInt16} {name : String} {i j : Nat}

lemma paramName_of_le (h : 6 ≤ i) : paramName i = "arg" ++ i.repr := by
  rw [paramName, List.getElem?_eq_none (by simpa using h)]
  rfl

lemma length_paramName_of_lt (h : i < 6) : (paramName i).length = 1 := by
  interval_cases i <;> rfl

lemma paramName_injective : Function.Injective paramName := by
  have hlonger {i j : Nat} (hi : i < 6) (hj : 6 ≤ j) : paramName i ≠ paramName j := by
    intro h
    have hlength := congrArg String.length h
    rw [length_paramName_of_lt hi, paramName_of_le hj, String.length_append] at hlength
    have hthree : "arg".length = 3 := rfl
    omega
  intro i j h
  rcases Nat.lt_or_ge i 6 with hi | hi <;> rcases Nat.lt_or_ge j 6 with hj | hj
  · revert h
    interval_cases i <;> interval_cases j <;> decide
  · exact absurd h (hlonger hi hj)
  · exact absurd h.symm (hlonger hj hi)
  · rw [paramName_of_le hi, paramName_of_le hj] at h
    exact Nat.repr_injective ((String.append_right_inj "arg").mp h)

/-- Parameters start with one of the first letters, and other slots and the receiver do not. -/
lemma head?_paramName (i : Nat) : ∃ c ∈ ['a', 'b', 'c', 'd', 'e', 'f'], (paramName i).toList.head? = some c := by
  rcases Nat.lt_or_ge i 6 with hi | hi
  · interval_cases i <;> exact ⟨_, by decide, rfl⟩
  · rw [paramName_of_le hi, String.toList_append]
    exact ⟨'a', by decide, rfl⟩

lemma paramName_ne_this (i : Nat) : paramName i ≠ "this" := by
  intro h
  obtain ⟨c, hc, hhead⟩ := head?_paramName i
  rw [h] at hhead
  cases hhead
  revert hc
  decide

/-! ### The table of names -/

lemma mem_paramTable_iff (h : d.FitsSlots isStatic) : (slot, name) ∈ paramTable isStatic d ↔
    (isStatic = false ∧ slot = 0 ∧ name = "this") ∨
      ∃ i < d.params.length, slot = UInt16.ofNat (d.paramSlot isStatic i) ∧ name = paramName i := by
  have hreceiver : (slot, name) ∈ (if isStatic then [] else [(0, "this")]) ↔
      isStatic = false ∧ slot = 0 ∧ name = "this" := by
    cases isStatic <;> simp
  rw [paramTable, List.mem_append, hreceiver]
  refine or_congr_right ?_
  simp only [List.mem_map, Prod.exists, Prod.mk.injEq, List.mem_zipIdx_iff_getElem?, d.getElem?_placedParams h,
    Option.map_eq_some_iff]
  constructor
  · rintro ⟨_, _, i, ⟨type, htype, rfl, rfl⟩, rfl, rfl⟩
    exact ⟨i, (List.getElem?_eq_some_iff.mp htype).1, rfl, rfl⟩
  · rintro ⟨i, hi, rfl, rfl⟩
    exact ⟨_, _, i, ⟨_, List.getElem?_eq_getElem hi, rfl, rfl⟩, rfl, rfl⟩

lemma receiver_ne_paramSlot (h : d.FitsSlots false) (hi : i < d.params.length) :
    0 ≠ UInt16.ofNat (d.paramSlot false i) := by
  intro hslot
  have hzero := congrArg UInt16.toNat hslot
  rw [MethodDescriptor.toNat_paramSlot h hi, MethodDescriptor.paramSlot] at hzero
  simp at hzero
  omega

/-- The table has one name for a slot and one slot for a name. -/
lemma mem_paramTable_unique {name' : String} (h : d.FitsSlots isStatic) (hmem : (slot, name) ∈ paramTable isStatic d)
    (hmem' : (slot', name') ∈ paramTable isStatic d) : slot = slot' ↔ name = name' := by
  rcases (mem_paramTable_iff h).mp hmem with ⟨rfl, rfl, rfl⟩ | ⟨i, hi, rfl, rfl⟩ <;>
    rcases (mem_paramTable_iff h).mp hmem' with ⟨hstatic, rfl, rfl⟩ | ⟨j, hj, rfl, rfl⟩
  · simp
  · exact iff_of_false (receiver_ne_paramSlot h hj) (paramName_ne_this j).symm
  · subst hstatic
    exact iff_of_false (receiver_ne_paramSlot h hi).symm (paramName_ne_this i)
  · constructor
    · intro hslot
      rw [MethodDescriptor.paramSlot_injective h hi hj hslot]
    · intro hname
      rw [paramName_injective hname]

lemma lookup_paramTable_iff (h : d.FitsSlots isStatic) :
    (paramTable isStatic d).lookup slot = some name ↔ (slot, name) ∈ paramTable isStatic d := by
  have hmem {name : String} (hlookup : (paramTable isStatic d).lookup slot = some name) :
      (slot, name) ∈ paramTable isStatic d := by
    obtain ⟨front, back, heq, -⟩ := List.lookup_eq_some_iff.mp hlookup
    simp [heq]
  refine ⟨hmem, fun hname => ?_⟩
  cases hlookup : (paramTable isStatic d).lookup slot with
  | none => simpa using List.lookup_eq_none_iff.mp hlookup _ hname
  | some name' => rw [(mem_paramTable_unique h (hmem hlookup) hname).mp rfl]

lemma params_paramSlot (h : d.FitsSlots isStatic) (hi : i < d.params.length) (offset : Nat) :
    params isStatic d (.ofNat (d.paramSlot isStatic i)) offset = paramName i := by
  rw [params, (lookup_paramTable_iff h).mpr ((mem_paramTable_iff h).mpr (.inr ⟨i, hi, rfl, rfl⟩))]
  rfl

/-- No name in the table has the form of a numbered slot. -/
lemma ne_numbered_of_mem (h : d.FitsSlots isStatic) (hmem : (slot, name) ∈ paramTable isStatic d) (offset : Nat) :
    name ≠ numbered slot' offset := by
  intro hname
  have hhead : name.toList.head? = some 'v' := by
    have hnumbered : numbered slot' offset = "v" ++ slot'.toNat.repr := rfl
    rw [hname, hnumbered, String.toList_append]
    rfl
  rcases (mem_paramTable_iff h).mp hmem with ⟨-, -, rfl⟩ | ⟨i, -, -, rfl⟩
  · cases hhead
  · obtain ⟨c, hc, hc'⟩ := head?_paramName i
    cases hhead.symm.trans hc'
    revert hc
    decide

/-- Names from a signature tell slots apart. -/
lemma distinct_params (h : d.FitsSlots isStatic) : IntCode.Distinct (params isStatic d) := by
  intro slot offset slot' offset'
  unfold params
  cases hlookup : (paramTable isStatic d).lookup slot with
  | none =>
    cases hlookup' : (paramTable isStatic d).lookup slot' with
    | none => exact IntCode.distinct_numbered slot offset slot' offset'
    | some name' =>
      refine iff_of_false (ne_numbered_of_mem h ((lookup_paramTable_iff h).mp hlookup') offset).symm ?_
      rintro rfl
      simp [hlookup] at hlookup'
  | some name =>
    have hmem := (lookup_paramTable_iff h).mp hlookup
    cases hlookup' : (paramTable isStatic d).lookup slot' with
    | none =>
      refine iff_of_false (ne_numbered_of_mem h hmem offset') ?_
      rintro rfl
      simp [hlookup] at hlookup'
    | some name' => exact (mem_paramTable_unique h hmem ((lookup_paramTable_iff h).mp hlookup')).symm

lemma ofMethod_of_locals_eq_nil {m : Method} (hlocals : ∀ code, m.code = some code → code.locals = []) :
    ofMethod m = params m.isStatic (MethodDescriptor.parseD m.descriptor) := by
  have hrows : (m.code.map Code.locals).getD [] = [] := by
    cases hcode : m.code with
    | none => rfl
    | some code => exact hlocals code hcode
  rw [ofMethod, hrows]
  rfl

end Naming

/-! ### Printed methods -/

lemma MethodDescriptor.read?_of_parse {text : String} {d : MethodDescriptor} (h : parse text = .ok d) :
    read? text.toList = some d := by
  unfold parse at h
  split at h
  · cases h
    assumption
  · cases h

/-- The printed parameters have the names from the signature, in order. -/
lemma placedParams_map_params {d : MethodDescriptor} {isStatic : Bool} (h : d.FitsSlots isStatic) :
    ((d.placedParams isStatic).map fun (slot, type) => type.javaName ++ " " ++ Naming.params isStatic d slot 0) =
      d.params.mapIdx fun i type => type.javaName ++ " " ++ Naming.paramName i := by
  refine List.ext_getElem? fun i => ?_
  rw [List.getElem?_map, d.getElem?_placedParams h, List.getElem?_mapIdx, Option.map_map]
  refine Option.map_congr fun type htype => ?_
  have hi : i < d.params.length := (List.getElem?_eq_some_iff.mp htype).1
  simp [Naming.params_paramSlot h hi]

open Bytecode Recovery Source

lemma step_load {ctx : Context} {i : Instruction} {wide : Bool} (heffect : effectOf i.opcode = .load wide)
    {slot : UInt16} (hoperand : i.operand = .slot slot) (stack : Stack) :
    step ctx i stack = .ok { stack := ⟨.var (ctx.names slot i.offset), wide⟩ :: stack } := by
  simp only [step, hoperand, heffect, applyEffect?]

/-! ### Main statement -/

/-- **Parameters are named without ambiguity, and the head agrees with the body.** Take a signature whose receiver and
parameters have slots. Each slot has one name, and no two slots share a name. Each parameter has its name at the slot
behind the receiver and the parameters before it. A method with this signature that is no class initializer is printed
with just these names as its parameters, in order; and, without a table of local variables, each load of the slot of a
parameter, wherever it is in the code, pushes the variable of this name. -/
theorem params_agree_with_code (d : MethodDescriptor) (isStatic : Bool) (hslots : d.FitsSlots isStatic) :
    IntCode.Distinct (Naming.params isStatic d) ∧
    (∀ i < d.params.length, ∀ offset,
      Naming.params isStatic d (.ofNat (d.paramSlot isStatic i)) offset = Naming.paramName i) ∧
    ∀ m : Method, MethodDescriptor.parse m.descriptor = .ok d → m.isStatic = isStatic → m.name ≠ "<clinit>" →
      (∀ className body, MethodTree.printSigned ⟨m.name, m.descriptor, body⟩ m.access className =
        " ".intercalate (m.access.keywords ++
          if m.name = "<init>" then [simpleClassName className] else [d.returnJavaName, m.name]) ++
        "(" ++ ", ".intercalate (d.params.mapIdx fun i type => type.javaName ++ " " ++ Naming.paramName i) ++ ")" ++
        " \x7b\n" ++ Stmt.printEach { thisClass := some (simpleClassName className) } 1 body ++ "\x7d\n") ∧
      ((∀ code, m.code = some code → code.locals = []) → ∀ i < d.params.length, ∀ pool options,
        ∀ (load : Instruction) (wide : Bool) (stack : Stack), effectOf load.opcode = .load wide →
        load.operand = .slot (.ofNat (d.paramSlot isStatic i)) →
        step { method := m.name, names := Naming.ofMethod m, pool, options } load stack =
          .ok { stack := ⟨.var (Naming.paramName i), wide⟩ :: stack }) := by
  refine ⟨Naming.distinct_params hslots, fun i hi offset => Naming.params_paramSlot hslots hi offset, ?_⟩
  rintro m hparse rfl hname
  have hread := MethodDescriptor.read?_of_parse hparse
  have hparseD : MethodDescriptor.parseD m.descriptor = d := by rw [MethodDescriptor.parseD, hread, Option.getD_some]
  refine ⟨fun className body => ?_, fun hlocals i hi pool options load wide stack heffect hoperand => ?_⟩
  · have hparams := placedParams_map_params hslots
    simp only [Method.isStatic] at hparams
    simp only [MethodTree.printSigned, hread, MethodTree.print, if_neg hname, MethodTree.signature, hparseD, hparams]
  · simp only [step_load heffect hoperand, Naming.ofMethod_of_locals_eq_nil hlocals, hparseD,
      Naming.params_paramSlot hslots hi]

/-- A method with a receiver and four parameters, of which the second one is wide. -/
def fourParams : Method where
  name := "f"
  descriptor := "(IJLa/B;[D)V"
  access := ⟨0x0001⟩
  code := some { bytes := [0xb1] }

/-- The theorem at a method with a wide parameter: the third one is in slot 4, behind the second one's two. -/
theorem fourParams_agree_with_code :
    let d : MethodDescriptor := ⟨[.int, .long, .object "a/B", .array .double], none⟩
    let ctx : Context := { method := "f", names := Naming.ofMethod fourParams }
    d.FitsSlots false ∧ MethodDescriptor.parse fourParams.descriptor = .ok d ∧ fourParams.isStatic = false ∧
    IntCode.Distinct (Naming.params false d) ∧ (∀ offset, Naming.params false d 4 offset = "c") ∧
    MethodTree.printSigned ⟨"f", fourParams.descriptor, [.returnVoid]⟩ fourParams.access "a/C" =
      "public void f(int a, long b, B c, double[] d) \x7b\n    return;\n\x7d\n" ∧
    ∀ offset, step ctx ⟨offset, ⟨0x19⟩, .slot 4, 2⟩ [] = .ok { stack := [⟨.var "c", false⟩] } := by
  intro d ctx
  have hslots : d.FitsSlots false := by decide
  have hparse : MethodDescriptor.parse fourParams.descriptor = .ok d := by cbv
  have hstatic : fourParams.isStatic = false := by decide
  obtain ⟨hdistinct, hslot, hmethod⟩ := params_agree_with_code d false hslots
  obtain ⟨hprint, hload⟩ := hmethod fourParams hparse hstatic (by decide)
  have hlocals : ∀ code, fourParams.code = some code → code.locals = [] := by
    rintro _ ⟨⟩
    rfl
  refine ⟨hslots, hparse, hstatic, hdistinct, hslot 2 (by decide), ?_, fun offset => ?_⟩
  · exact (hprint "a/C" [.returnVoid]).trans (by cbv)
  · exact hload hlocals 2 (by decide) none {} ⟨offset, ⟨0x19⟩, .slot 4, 2⟩ false [] (by cbv) rfl

end JvmLift
