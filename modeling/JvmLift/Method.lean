import JvmLift.Bytecode.Decode
import JvmLift.Descriptor

/-!
# Methods

A method as it stands in a class: its name and descriptor, its access flags and, unless it is abstract or native, its
code with the tables that describe it.
-/

namespace JvmLift

/-- A defined access flag of a method. -/
inductive AccessFlag
  | accPublic | accPrivate | accProtected | accStatic | accFinal | accSynchronized | accBridge | accVarargs
  | accNative | accAbstract | accStrict | accSynthetic
  deriving DecidableEq, Repr

namespace AccessFlag

/-- All flags, lowest bit first. -/
def all : List AccessFlag :=
  [.accPublic, .accPrivate, .accProtected, .accStatic, .accFinal, .accSynchronized, .accBridge, .accVarargs,
    .accNative, .accAbstract, .accStrict, .accSynthetic]

def bit : AccessFlag → UInt16
  | .accPublic => 0x0001
  | .accPrivate => 0x0002
  | .accProtected => 0x0004
  | .accStatic => 0x0008
  | .accFinal => 0x0010
  | .accSynchronized => 0x0020
  | .accBridge => 0x0040
  | .accVarargs => 0x0080
  | .accNative => 0x0100
  | .accAbstract => 0x0400
  | .accStrict => 0x0800
  | .accSynthetic => 0x1000

/-- The name of a flag in lower case. -/
def keyword : AccessFlag → String
  | .accPublic => "public"
  | .accPrivate => "private"
  | .accProtected => "protected"
  | .accStatic => "static"
  | .accFinal => "final"
  | .accSynchronized => "synchronized"
  | .accBridge => "bridge"
  | .accVarargs => "varargs"
  | .accNative => "native"
  | .accAbstract => "abstract"
  | .accStrict => "strict"
  | .accSynthetic => "synthetic"

/-- The name of a flag in upper case. -/
def name (flag : AccessFlag) : String :=
  flag.keyword.toUpper

/-- The flags that are modifiers in source text, in the order in which they are written. -/
def modifiers : List AccessFlag :=
  [.accPublic, .accProtected, .accPrivate, .accAbstract, .accStatic, .accFinal, .accSynchronized, .accNative]

/-- The flag with a given name, whatever the case of its ASCII letters. -/
def ofKeyword? (text : String) : Option AccessFlag :=
  all.find? fun flag => flag.name == text.toUpper

end AccessFlag

/-- A set of access flags as bits. Bits without a meaning are kept and ignored. -/
structure Access where
  bits : UInt16
  deriving DecidableEq, Repr

namespace Access

def contains (access : Access) (flag : AccessFlag) : Bool :=
  access.bits &&& flag.bit != 0

def insert (access : Access) (flag : AccessFlag) : Access :=
  ⟨access.bits ||| flag.bit⟩

/-- The set of the given flags. -/
def ofFlags (flags : List AccessFlag) : Access :=
  flags.foldl insert ⟨0⟩

/-- The defined flags of the set, lowest bit first. -/
def flags (access : Access) : List AccessFlag :=
  AccessFlag.all.filter access.contains

/-- The modifiers of a declaration, in source order. -/
def keywords (access : Access) : List String :=
  (AccessFlag.modifiers.filter access.contains).map AccessFlag.keyword

end Access

/-- A row of the exception table: `handler` is entered when an instruction in `[start, stop)` throws. -/
structure HandlerRow where
  start : UInt16
  stop : UInt16
  handler : UInt16
  /-- Index of the caught class; `0` catches everything. -/
  catchType : UInt16
  deriving DecidableEq, Repr

/-- A row of the table of local variables. -/
structure LocalRow where
  start : UInt16
  length : UInt16
  name : String
  descriptor : String
  slot : UInt16
  deriving DecidableEq, Repr

/-- Whether the variable is in scope at an offset. -/
def LocalRow.covers (row : LocalRow) (offset : Nat) : Bool :=
  row.start.toNat ≤ offset && offset < row.start.toNat + row.length.toNat

/-- A row of the table of line numbers. -/
structure LineRow where
  start : UInt16
  line : UInt16
  deriving DecidableEq, Repr

structure Code where
  maxStack : UInt16 := 0
  maxLocals : UInt16 := 0
  bytes : List UInt8 := []
  handlers : List HandlerRow := []
  locals : List LocalRow := []
  lines : List LineRow := []
  deriving DecidableEq

/-- The source line of an offset: that of the row with the greatest start not above it, the last one if there are
several. -/
def Code.line? (code : Code) (offset : Nat) : Option UInt16 :=
  let better (best : Option LineRow) (row : LineRow) : Option LineRow :=
    if row.start.toNat ≤ offset ∧ best.all (·.start ≤ row.start) then some row else best
  (code.lines.foldl better none).map LineRow.line

structure Method where
  name : String
  descriptor : String
  access : Access
  /-- `none` for abstract and native methods. -/
  code : Option Code
  deriving DecidableEq

def Method.isStatic (m : Method) : Bool :=
  m.access.contains .accStatic

end JvmLift
