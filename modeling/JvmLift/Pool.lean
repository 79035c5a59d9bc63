import JvmLift.Number.Floating

/-!
# Constant pools

An in-memory pool in the style of class files: entries refer to each other by index, `long` and `double` take two
indices, and a look-up chases the references and fails if one of them leads to an entry of the wrong kind.
-/

namespace JvmLift

open Number

/-- A constant that can be loaded. -/
inductive Constant
  | int (value : Int32)
  | long (value : Int64)
  | float (value : Single)
  | double (value : Double)
  | string (value : String)
  /-- A class by its internal name. -/
  | classRef (name : String)
  deriving DecidableEq

/-- A resolved field or method. -/
structure Member where
  /-- Internal name of the owning class. -/
  owner : String
  name : String
  descriptor : String
  deriving DecidableEq, Repr

/-- A resolved dynamic call site. -/
structure CallSite where
  name : String
  descriptor : String
  /-- The bootstrap method, when its row and handle resolve. -/
  bootstrap : Option Member
  arguments : List Constant
  deriving DecidableEq

inductive MemberKind
  | field
  | method
  | interfaceMethod
  deriving DecidableEq, Repr

/-- One entry, with references as indices. -/
inductive PoolEntry
  | utf8 (text : String)
  | int (value : Int32)
  | float (value : Single)
  | long (value : Int64)
  | double (value : Double)
  | classRef (name : UInt16)
  | string (text : UInt16)
  | member (kind : MemberKind) (owner nameAndType : UInt16)
  | nameAndType (name descriptor : UInt16)
  | methodHandle (kind : UInt8) (reference : UInt16)
  | methodType (descriptor : UInt16)
  | invokeDynamic (bootstrap nameAndType : UInt16)
  deriving DecidableEq

/-- Number of indices that an entry takes. -/
def PoolEntry.width : PoolEntry → Nat
  | .long _ | .double _ => 2
  | _ => 1

/-- A row of the bootstrap table: a method handle and its arguments. -/
structure BootstrapMethod where
  handle : UInt16
  arguments : List UInt16
  deriving DecidableEq, Repr

/-- Slots by index, and the bootstrap table. -/
structure Pool where
  slots : List (Option PoolEntry)
  bootstraps : List BootstrapMethod
  deriving DecidableEq

namespace Pool

/-- The pool without any slot. -/
def empty : Pool := ⟨[], []⟩

/-- The pool whose only slot is the unused index `0`. -/
def new : Pool := ⟨[none], []⟩

/-! ### Look-up -/

def entry? (p : Pool) (index : UInt16) : Option PoolEntry :=
  p.slots[index.toNat]?.join

def utf8? (p : Pool) (index : UInt16) : Option String :=
  match p.entry? index with
  | some (.utf8 text) => some text
  | _ => none

/-- The internal name of a class entry. -/
def className? (p : Pool) (index : UInt16) : Option String :=
  match p.entry? index with
  | some (.classRef name) => p.utf8? name
  | _ => none

/-- The value of an entry that can be loaded. -/
def constant? (p : Pool) (index : UInt16) : Option Constant :=
  match p.entry? index with
  | some (.int value) => some (.int value)
  | some (.long value) => some (.long value)
  | some (.float value) => some (.float value)
  | some (.double value) => some (.double value)
  | some (.string text) => (p.utf8? text).map .string
  | some (.classRef name) => (p.utf8? name).map .classRef
  | _ => none

def nameAndType? (p : Pool) (index : UInt16) : Option (String × String) :=
  match p.entry? index with
  | some (.nameAndType name descriptor) => return (← p.utf8? name, ← p.utf8? descriptor)
  | _ => none

/-- A field, a method or a method of an interface. -/
def member? (p : Pool) (index : UInt16) : Option Member :=
  match p.entry? index with
  | some (.member _ owner nameAndType) => do
    let (name, descriptor) ← p.nameAndType? nameAndType
    return ⟨← p.className? owner, name, descriptor⟩
  | _ => none

/-- The method behind a method handle. -/
def handle? (p : Pool) (index : UInt16) : Option Member :=
  match p.entry? index with
  | some (.methodHandle _ reference) => p.member? reference
  | _ => none

/-- A dynamic call site. Arguments that are no loadable constants are left out. -/
def callSite? (p : Pool) (index : UInt16) : Option CallSite :=
  match p.entry? index with
  | some (.invokeDynamic bootstrap nameAndType) => do
    let (name, descriptor) ← p.nameAndType? nameAndType
    let row := p.bootstraps[bootstrap.toNat]?
    return {
      name, descriptor
      bootstrap := row.bind fun row => p.handle? row.handle
      arguments := (row.map fun row => row.arguments.filterMap p.constant?).getD [] }
  | _ => none

/-! ### Building -/

/-- Puts an entry at an index, with as many empty slots before it as are missing. -/
def insert (p : Pool) (index : UInt16) (entry : PoolEntry) : Pool :=
  let missing := index.toNat + entry.width - p.slots.length
  { p with slots := (p.slots ++ List.replicate missing none).set index.toNat (some entry) }

/-- The index at which the next entry is appended. It is never `0` while indices last, and wraps around after that. -/
def nextIndex (p : Pool) : UInt16 :=
  UInt16.ofNat (max p.slots.length 1)

/-- Appends an entry and returns its index. -/
def push (p : Pool) (entry : PoolEntry) : UInt16 × Pool :=
  (p.nextIndex, p.insert p.nextIndex entry)

/-- Appends a row to the bootstrap table and returns its number. -/
def addBootstrap (p : Pool) (row : BootstrapMethod) : UInt16 × Pool :=
  (UInt16.ofNat p.bootstraps.length, { p with bootstraps := p.bootstraps ++ [row] })

def addUtf8 (p : Pool) (text : String) : UInt16 × Pool :=
  p.push (.utf8 text)

def addClass (p : Pool) (name : String) : UInt16 × Pool :=
  let (index, p) := p.addUtf8 name
  p.push (.classRef index)

def addString (p : Pool) (text : String) : UInt16 × Pool :=
  let (index, p) := p.addUtf8 text
  p.push (.string index)

def addNameAndType (p : Pool) (name descriptor : String) : UInt16 × Pool :=
  let (nameIndex, p) := p.addUtf8 name
  let (descriptorIndex, p) := p.addUtf8 descriptor
  p.push (.nameAndType nameIndex descriptorIndex)

/-- Appends a member with everything that it refers to. -/
def addMember (p : Pool) (kind : MemberKind) (member : Member) : UInt16 × Pool :=
  let (owner, p) := p.addClass member.owner
  let (nameAndType, p) := p.addNameAndType member.name member.descriptor
  p.push (.member kind owner nameAndType)

end Pool

end JvmLift
