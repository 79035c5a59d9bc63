import JvmLift.Method

/-!
# Names of local slots

A naming gives a slot its name at an offset. The names of a method come from its table of local variables, then from its
signature, and a slot that neither knows is named by its number.
-/

namespace JvmLift

/-- The name of a slot as seen at an offset. -/
abbrev Naming := UInt16 → Nat → String

namespace Naming

/-- `v` and the number of the slot. -/
def numbered : Naming := fun slot _ => s!"v{slot.toNat}"

/-- The first six parameters are `a` to `f`, later ones are counted. -/
def paramName (i : Nat) : String :=
  (["a", "b", "c", "d", "e", "f"][i]?).getD s!"arg{i}"

/-- The slots of the receiver and of the parameters with their names. -/
def paramTable (isStatic : Bool) (d : MethodDescriptor) : List (UInt16 × String) :=
  (if isStatic then [] else [(0, "this")]) ++
    (d.placedParams isStatic).zipIdx.map fun ((slot, _), i) => (slot, paramName i)

/-- Names from a signature. Slots past the parameters are numbered. -/
def params (isStatic : Bool) (d : MethodDescriptor) : Naming := fun slot offset =>
  ((paramTable isStatic d).lookup slot).getD (numbered slot offset)

/-- Names from a table of local variables: of the rows for the slot the first one in scope, else the first one, else the
name of `fallback`. -/
def debug (rows : List LocalRow) (fallback : Naming) : Naming := fun slot offset =>
  let here := rows.filter (·.slot == slot)
  match here.find? (·.covers offset), here.head? with
  | some row, _ => row.name
  | none, some row => row.name
  | none, none => fallback slot offset

/-- The names of a method. A descriptor that cannot be read has no parameters. -/
def ofMethod (m : Method) : Naming :=
  debug ((m.code.map Code.locals).getD []) (params m.isStatic (MethodDescriptor.parseD m.descriptor))

end Naming

end JvmLift
