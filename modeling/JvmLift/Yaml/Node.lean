/-!
# YAML nodes

The tree of a document: scalars with their text, sequences and mappings. Whether a scalar was written plain or in quotes
is kept, since only plain scalars can be numbers or null.
-/

namespace JvmLift.Yaml

inductive Node
  | scalar (text : String) (plain : Bool)
  | sequence (items : List Node)
  | mapping (entries : List (Node × Node))

namespace Node

/-- What stands for a value that is left out. -/
def empty : Node := scalar "" true

/-- The text of a scalar, however it is written. -/
def text? : Node → Option String
  | scalar text _ => some text
  | _ => none

/-- The items of a sequence. A value that is left out is an empty one. -/
def items? : Node → Option (List Node)
  | sequence items => some items
  | scalar text plain => if text.isEmpty && plain then some [] else none
  | mapping _ => none

/-- The entries of a mapping whose keys are scalars. A value that is left out is an empty one. -/
def fields? : Node → Option (List (String × Node))
  | mapping entries => entries.mapM fun (key, value) => key.text?.map (·, value)
  | scalar text plain => if text.isEmpty && plain then some [] else none
  | sequence _ => none

end Node

end JvmLift.Yaml
