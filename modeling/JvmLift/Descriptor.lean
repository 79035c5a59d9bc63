import JvmLift.Error

/-!
# Descriptors

Field types and method signatures in the compact notation of class files, read from and written to text. Reading accepts
exactly the texts that writing produces.
-/

namespace JvmLift

inductive FieldType
  | byte
  | char
  | double
  | float
  | int
  | long
  | short
  | boolean
  /-- A class by its internal name, such as `java/lang/String`. -/
  | object (name : String)
  | array (element : FieldType)
  deriving DecidableEq, Repr

/-- `java/lang/String` becomes `String`. -/
def simpleClassName (name : String) : String :=
  String.ofList (name.toList.reverse.takeWhile (· != '/')).reverse

namespace FieldType

/-- The descriptor of a type. -/
def descriptor : FieldType → String
  | byte => "B"
  | char => "C"
  | double => "D"
  | float => "F"
  | int => "I"
  | long => "J"
  | short => "S"
  | boolean => "Z"
  | object name => "L" ++ name ++ ";"
  | array element => "[" ++ element.descriptor

/-- The name of a type in source text. Classes go by their simple name. -/
def javaName : FieldType → String
  | byte => "byte"
  | char => "char"
  | double => "double"
  | float => "float"
  | int => "int"
  | long => "long"
  | short => "short"
  | boolean => "boolean"
  | object name => simpleClassName name
  | array element => element.javaName ++ "[]"

/-- `long` and `double` take two local slots and two stack words. -/
def isWide : FieldType → Bool
  | long | double => true
  | _ => false

/-- Local slots of a value of this type. -/
def slots (type : FieldType) : UInt16 :=
  if type.isWide then 2 else 1

/-- The type without its `n` outer array levels, or without as many as it has. -/
def elementType : Nat → FieldType → FieldType
  | n + 1, array element => elementType n element
  | _, type => type

/-- Reads a type from the front of a text. -/
def read? : List Char → Option (FieldType × List Char)
  | 'B' :: rest => some (byte, rest)
  | 'C' :: rest => some (char, rest)
  | 'D' :: rest => some (double, rest)
  | 'F' :: rest => some (float, rest)
  | 'I' :: rest => some (int, rest)
  | 'J' :: rest => some (long, rest)
  | 'S' :: rest => some (short, rest)
  | 'Z' :: rest => some (boolean, rest)
  | 'L' :: rest =>
    match rest.takeWhile (· != ';'), rest.dropWhile (· != ';') with
    | c :: name, _ :: rest => some (object (String.ofList (c :: name)), rest)
    | _, _ => none
  | '[' :: rest => (read? rest).map fun (element, rest) => (array element, rest)
  | _ => none

/-- Reads a type that is the whole text. -/
def parse (text : String) : Except LiftError FieldType :=
  match read? text.toList with
  | some (type, []) => .ok type
  | _ => .error (.invalidDescriptor text)

end FieldType

structure MethodDescriptor where
  params : List FieldType
  /-- `none` for `void`. -/
  ret : Option FieldType
  deriving DecidableEq, Repr

namespace MethodDescriptor

/-- A signature without parameters and without a result. -/
def empty : MethodDescriptor := ⟨[], none⟩

def isVoid (d : MethodDescriptor) : Bool :=
  d.ret.isNone

def returnJavaName (d : MethodDescriptor) : String :=
  (d.ret.map FieldType.javaName).getD "void"

/-- Local slots of all parameters. -/
def paramSlots (d : MethodDescriptor) : UInt16 :=
  (d.params.map FieldType.slots).foldl (· + ·) 0

/-- The descriptor of a method. -/
def descriptor (d : MethodDescriptor) : String :=
  "(" ++ String.join (d.params.map FieldType.descriptor) ++ ")" ++
    (d.ret.map FieldType.descriptor).getD "V"

/-- The types of `params` with the slot of each, the first one at `slot`. -/
def placeFrom (slot : UInt16) : List FieldType → List (UInt16 × FieldType)
  | [] => []
  | type :: rest => (slot, type) :: placeFrom (slot + type.slots) rest

/-- The parameters with their slots. A method that is not static has its receiver in slot `0`. -/
def placedParams (d : MethodDescriptor) (isStatic : Bool) : List (UInt16 × FieldType) :=
  placeFrom (if isStatic then 0 else 1) d.params

/-- Reads at most `n` parameters and the parenthesis behind them. -/
def readParams? : Nat → List Char → Option (List FieldType × List Char)
  | _, ')' :: rest => some ([], rest)
  | 0, _ => none
  | n + 1, cs => do
    let (type, rest) ← FieldType.read? cs
    let (types, rest) ← readParams? n rest
    return (type :: types, rest)

/-- Reads the result type, which ends the text. -/
def readReturn? : List Char → Option (Option FieldType)
  | ['V'] => some none
  | cs =>
    match FieldType.read? cs with
    | some (type, []) => some (some type)
    | _ => none

def read? : List Char → Option MethodDescriptor
  | '(' :: cs => do
    let (params, rest) ← readParams? cs.length cs
    let ret ← readReturn? rest
    return ⟨params, ret⟩
  | _ => none

/-- Reads a signature that is the whole text. -/
def parse (text : String) : Except LiftError MethodDescriptor :=
  match read? text.toList with
  | some d => .ok d
  | none => .error (.invalidDescriptor text)

/-- Reads a signature, or takes the empty one for a text that is none. -/
def parseD (text : String) : MethodDescriptor :=
  (read? text.toList).getD empty

end MethodDescriptor

/-- The source name of a class that is given by an internal name or, for an array class, by a descriptor. -/
def classOperandName (name : String) : String :=
  if name.startsWith "[" then
    match FieldType.parse name with
    | .ok type => type.javaName
    | .error _ => name
  else simpleClassName name

/-- The element type that a code of `newarray` stands for. -/
def primitiveArrayType? (code : Int32) : Option String :=
  match code.toInt with
  | 4 => some "boolean"
  | 5 => some "char"
  | 6 => some "float"
  | 7 => some "double"
  | 8 => some "byte"
  | 9 => some "short"
  | 10 => some "int"
  | 11 => some "long"
  | _ => none

end JvmLift
