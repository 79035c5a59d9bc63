import JvmLift.Fixture
import JvmLift.Yaml.Document
import JvmLift.Yaml.Value

/-!
# Reading fixtures

A fixture is a YAML mapping. Fields that are not known are passed over, and a known field may occur once. Text fields
take any scalar, numbers are plain scalars in range, and lists may be left out. In a row of the constant pool the field
`kind` tells which further fields there are; it may also be the number of the kind.
-/

namespace JvmLift.ClassFixture

open Number Yaml

/-- The fields of a mapping. -/
abbrev Fields := List (String × Node)

namespace Fields

/-- The value of a field that may be missing. It fails if the field occurs twice. -/
def find? (fields : Fields) (name : String) : Option (Option Node) :=
  match fields.filter (·.1 == name) with
  | [] => some none
  | [(_, value)] => some (some value)
  | _ => none

/-- The value of a field that must be there. -/
def required? {α : Type} (fields : Fields) (name : String) (read : Node → Option α) : Option α := do
  read (← ← find? fields name)

/-- The value of a field, or `default` if it is missing. -/
def optional? {α : Type} (fields : Fields) (name : String) (default : α) (read : Node → Option α) : Option α := do
  match ← find? fields name with
  | some value => read value
  | none => return default

/-- The items of a list that may be missing. -/
def list? {α : Type} (fields : Fields) (name : String) (read : Node → Option α) : Option (List α) :=
  optional? fields name [] fun value => do (← value.items?).mapM read

def word? (fields : Fields) (name : String) : Option UInt16 :=
  required? fields name Node.word?

def text? (fields : Fields) (name : String) : Option String :=
  required? fields name Node.text?

/-! ### Typed fields of pool rows -/

/-- An integer field of a pool row. -/
def intBetween? (fields : Fields) (name : String) (low high : Int) : Option Int :=
  required? fields name fun value => value.value?.bind (·.intBetween? low high)

/-- An index field of a pool row. -/
def index? (fields : Fields) (name : String) : Option UInt16 :=
  (intBetween? fields name 0 65535).map UInt16.ofInt

/-- A floating-point field of a pool row. -/
def floating? {f : Format} (fields : Fields) (name : String) : Option (Floating f) :=
  required? fields name fun value => value.value?.bind Value.floating?

/-- A text field of a pool row. -/
def string? (fields : Fields) (name : String) : Option String :=
  required? fields name fun value => value.value?.bind Value.text?

end Fields

/-! ### Constant pool -/

/-- A member of a class as a pool entry. -/
def member? (kind : MemberKind) (fields : Fields) : Option PoolEntry :=
  return .member kind (← fields.index? "class_index") (← fields.index? "name_and_type_index")

/-- The kinds of pool entries with the readers of their fields, in the order of their numbers. -/
def kinds : List (String × (Fields → Option PoolEntry)) :=
  [("utf8", fun fields => (fields.string? "value").map .utf8),
    ("integer", fun fields =>
      (fields.intBetween? "value" Int32.minValue.toInt Int32.maxValue.toInt).map fun n => .int (Int32.ofInt n)),
    ("float", fun fields => (fields.floating? "value").map .float),
    ("long", fun fields =>
      (fields.intBetween? "value" Int64.minValue.toInt Int64.maxValue.toInt).map fun n => .long (Int64.ofInt n)),
    ("double", fun fields => (fields.floating? "value").map .double),
    ("class", fun fields => (fields.index? "name_index").map .classRef),
    ("string", fun fields => (fields.index? "string_index").map .string),
    ("fieldref", member? .field),
    ("methodref", member? .method),
    ("interface_methodref", member? .interfaceMethod),
    ("name_and_type", fun fields => return .nameAndType (← fields.index? "name_index") (← fields.index? "descriptor_index")),
    ("method_handle", fun fields =>
      return .methodHandle (UInt8.ofInt (← fields.intBetween? "reference_kind" 0 255)) (← fields.index? "reference_index")),
    ("method_type", fun fields => (fields.index? "descriptor_index").map .methodType),
    ("invoke_dynamic", fun fields =>
      return .invokeDynamic (← fields.index? "bootstrap_method") (← fields.index? "name_and_type_index"))]

/-- The reader that belongs to the value of `kind`. -/
def kindReader? (kind : Node) : Option (Fields → Option PoolEntry) := do
  match ← kind.value? with
  | .text name => kinds.lookup name
  | .natural n => (kinds[n.toNat]?).map Prod.snd
  | _ => none

/-- A row of the constant pool. Every field but the index must have a value, whether it is used or not. -/
def entry? (row : Node) : Option (UInt16 × PoolEntry) := do
  let fields : Fields ← row.fields?
  let index ← fields.word? "index"
  if !fields.all fun (name, value) => name == "index" || value.hasValues then none
  let read ← fields.required? "kind" kindReader?
  return (index, ← read fields)

def bootstrap? (row : Node) : Option BootstrapMethod := do
  let fields : Fields ← row.fields?
  return ⟨← fields.word? "method_handle", ← fields.list? "arguments" Node.word?⟩

/-! ### Methods -/

def handlerRow? (row : Node) : Option HandlerRow := do
  let fields : Fields ← row.fields?
  return ⟨← fields.word? "start_pc", ← fields.word? "end_pc", ← fields.word? "handler_pc",
    ← fields.optional? "catch_type" 0 Node.word?⟩

def localRow? (row : Node) : Option LocalRow := do
  let fields : Fields ← row.fields?
  return ⟨← fields.word? "start_pc", ← fields.word? "length", ← fields.text? "name", ← fields.text? "descriptor",
    ← fields.word? "index"⟩

def lineRow? (row : Node) : Option LineRow := do
  let fields : Fields ← row.fields?
  return ⟨← fields.word? "start_pc", ← fields.word? "line"⟩

/-- The code of a method. Null stands for none. -/
def code? (node : Node) : Option (Option CodeFixture) :=
  if node.isNull then some none
  else do
    let fields : Fields ← node.fields?
    return some {
      maxStack := ← fields.optional? "max_stack" 0 Node.word?
      maxLocals := ← fields.optional? "max_locals" 0 Node.word?
      hex := ← fields.text? "hex"
      handlers := ← fields.list? "exception_table" handlerRow?
      locals := ← fields.list? "local_variables" localRow?
      lines := ← fields.list? "line_numbers" lineRow? }

def method? (row : Node) : Option MethodFixture := do
  let fields : Fields ← row.fields?
  return { name := ← fields.text? "name", descriptor := ← fields.text? "descriptor",
           access := ← fields.list? "access" Node.text?, code := ← fields.optional? "code" none code? }

/-- The two numbers of a version. -/
def version? (node : Node) : Option (UInt16 × UInt16) := do
  let fields : Fields ← node.fields?
  return (← fields.word? "major", ← fields.word? "minor")

/-! ### Classes -/

/-- The fixture that a node describes. -/
def ofNode? (node : Node) : Option ClassFixture := do
  let fields : Fields ← node.fields?
  let (major, minor) ← fields.optional? "version" (0, 0) version?
  return { name := ← fields.text? "class", major, minor, entries := ← fields.list? "constant_pool" entry?,
           bootstraps := ← fields.list? "bootstrap_methods" bootstrap?, methods := ← fields.list? "methods" method? }

/-- Reads a fixture from its text. -/
def read (text : String) : Except FixtureError ClassFixture :=
  match (Yaml.parse? text).bind ofNode? with
  | some fixture => .ok fixture
  | none => .error .invalid

end JvmLift.ClassFixture
