import JvmLift.Method
import JvmLift.Pool
import JvmLift.Text.Blank

/-!
# Class fixtures

A class written down by hand: a constant pool and methods whose code is hexadecimal text. Access flags and code are
checked only when the methods are asked for.
-/

namespace JvmLift

/-- Why a fixture gives no methods. -/
inductive FixtureError
  /-- The text does not describe a fixture. -/
  | invalid
  | unknownAccess (method keyword : String)
  | badHex (method : String) (error : Text.HexError)
  deriving DecidableEq, Repr

def FixtureError.message : FixtureError → String
  | .invalid => "invalid fixture"
  | .unknownAccess method keyword => s!"{method}: unknown access flag `{keyword}`"
  | .badHex method error => s!"{method}: bad code hex: {error.message}"

/-- The code of a method, with its bytes as text. -/
structure CodeFixture where
  maxStack : UInt16
  maxLocals : UInt16
  /-- Digit pairs with any blanks between digits. -/
  hex : String
  handlers : List HandlerRow
  locals : List LocalRow
  lines : List LineRow

structure MethodFixture where
  name : String
  descriptor : String
  /-- Names of access flags, in any case. -/
  access : List String
  code : Option CodeFixture

structure ClassFixture where
  /-- Internal name of the class. -/
  name : String
  major : UInt16
  minor : UInt16
  /-- Pool entries with the indices at which they are put, in this order. -/
  entries : List (UInt16 × PoolEntry)
  bootstraps : List BootstrapMethod
  methods : List MethodFixture

/-- The code with its bytes read. -/
def CodeFixture.code (c : CodeFixture) : Except Text.HexError Code := do
  let bytes ← Text.readHex (Text.removeBlanks c.hex)
  return { maxStack := c.maxStack, maxLocals := c.maxLocals, bytes, handlers := c.handlers, locals := c.locals,
           lines := c.lines }

namespace MethodFixture

/-- The access flags that are named. -/
def flags (m : MethodFixture) : Except FixtureError Access := do
  let flags ← m.access.mapM fun keyword =>
    match AccessFlag.ofKeyword? keyword with
    | some flag => .ok flag
    | none => .error (.unknownAccess m.name keyword)
  return .ofFlags flags

/-- The method. Its flags are checked before its code. -/
def method (m : MethodFixture) : Except FixtureError Method := do
  let access ← m.flags
  match m.code.map CodeFixture.code with
  | none => return { name := m.name, descriptor := m.descriptor, access, code := none }
  | some (.ok code) => return { name := m.name, descriptor := m.descriptor, access, code := some code }
  | some (.error e) => .error (.badHex m.name e)

end MethodFixture

namespace ClassFixture

def pool (c : ClassFixture) : Pool :=
  let filled := c.entries.foldl (fun p (index, entry) => p.insert index entry) Pool.new
  c.bootstraps.foldl (fun p row => (p.addBootstrap row).2) filled

/-- The methods, or the first error of one. -/
def readMethods (c : ClassFixture) : Except FixtureError (List Method) :=
  c.methods.mapM MethodFixture.method

end ClassFixture

end JvmLift
