import JvmLift.Fixture.Read
import JvmLift.Lift
import JvmLift.Listing

/-!
# Commands

What the program is asked to do, read from its arguments, and what it answers. A command works on the text of one
fixture. It prints as far as it gets, so what stands before a failure is part of the answer.
-/

namespace JvmLift

/-- A command with what it depends on. `only` restricts it to the methods of that name. -/
inductive Command
  | info
  | disassemble (only : Option String)
  | blocks (only : Option String)
  | lift (only : Option String) (options : Options)
  deriving DecidableEq, Repr

/-- A command on a file. -/
structure Invocation where
  command : Command
  file : String
  deriving DecidableEq, Repr

/-- What the program answers. -/
structure Report where
  code : Nat := 0
  stdout : String := ""
  stderr : String := ""
  deriving DecidableEq, Repr

namespace Invocation

/-! ### Arguments -/

/-- What has been read of the arguments behind the name of a command. -/
structure Given where
  files : List String := []
  methods : List String := []
  /-- Switches by name. -/
  switches : List String := []

/-- Whether an argument is an option and not a value. A lone hyphen is a value. -/
def isOption (arg : String) : Bool :=
  arg.startsWith "-" && arg != "-"

/-- The text behind a start that an argument has. -/
def after? (start arg : String) : Option String :=
  if arg.startsWith start then some (String.ofList (arg.toList.drop start.length)) else none

/-- A method that is named inside an argument. -/
def attachedMethod? (arg : String) : Option String :=
  (after? "--method=" arg).or <| (after? "-m=" arg).or <|
    if arg.startsWith "--" then none else (after? "-m" arg).filter (!·.isEmpty)

/-- Reads arguments. `hasMethod` tells whether the command takes the name of a method, and `switches` which switches it
takes. Behind two hyphens there are only files. -/
def readArgs? (hasMethod : Bool) (switches : List String) (given : Given) : List String → Option Given
  | [] => some given
  | "--" :: rest => some { given with files := given.files ++ rest }
  | arg :: rest =>
    if !isOption arg then readArgs? hasMethod switches { given with files := given.files ++ [arg] } rest
    else if switches.contains arg then
      readArgs? hasMethod switches { given with switches := given.switches ++ [arg] } rest
    else if !hasMethod then none
    else if arg == "-m" || arg == "--method" then
      match rest with
      | value :: rest =>
        if isOption value then none
        else readArgs? hasMethod switches { given with methods := given.methods ++ [value] } rest
      | [] => none
    else (attachedMethod? arg).bind fun name =>
      readArgs? hasMethod switches { given with methods := given.methods ++ [name] } rest

/-- Reads arguments and checks that there is one file, and nothing given twice. -/
def given? (hasMethod : Bool) (switches args : List String) : Option (String × Option String × List String) := do
  let given ← readArgs? hasMethod switches {} args
  if 1 < given.methods.length || given.switches.eraseDups.length != given.switches.length then none
  match given.files with
  | [file] => if file.isEmpty then none else return (file, given.methods.head?, given.switches)
  | _ => none

/-- The switches of the command that lifts methods. -/
def liftSwitches : List String := ["--no-regions", "--no-simplify", "--show-intrinsics"]

/-- The options that switches choose. -/
def liftOptions (switches : List String) : Options :=
  { hideKotlinIntrinsics := !switches.contains "--show-intrinsics"
    hideDollarCalls := !switches.contains "--show-intrinsics"
    structureRegions := !switches.contains "--no-regions"
    simplify := !switches.contains "--no-simplify" }

/-- The invocation that arguments ask for, if they follow the rules. -/
def ofArgs? : List String → Option Invocation
  | "info" :: args => (given? false [] args).map fun (file, _, _) => ⟨.info, file⟩
  | "disasm" :: args => (given? true [] args).map fun (file, only, _) => ⟨.disassemble only, file⟩
  | "cfg" :: args => (given? true [] args).map fun (file, only, _) => ⟨.blocks only, file⟩
  | "decompile" :: args =>
    (given? true liftSwitches args).map fun (file, only, switches) => ⟨.lift only (liftOptions switches), file⟩
  | _ => none

end Invocation

namespace Command

/-! ### Answers -/

/-- The answer of a command that failed behind some output. -/
def failed (stdout message : String) : Report :=
  { code := 1, stdout, stderr := "Error: " ++ message ++ "\n" }

/-- The methods that a command is about. -/
def select (fixture : ClassFixture) (only : Option String) : Except String (List Method) :=
  match fixture.readMethods, only with
  | .error e, _ => .error e.message
  | .ok methods, none => .ok methods
  | .ok methods, some name =>
    match methods.filter (·.name == name) with
    | [] => .error s!"no method named `{name}` in {fixture.name}"
    | picked => .ok picked

/-- Prints each method as `text` says, up to the first failure, behind what has been printed. -/
def printFrom (text : Method → Except String String) (printed : String) : List Method → Report
  | [] => { stdout := printed }
  | m :: rest =>
    match text m with
    | .ok shown => printFrom text (printed ++ shown) rest
    | .error message => failed printed message

/-- Prints a head and then each method. -/
def printEach (head : String) (methods : Except String (List Method)) (text : Method → Except String String) : Report :=
  match methods with
  | .error message => failed head message
  | .ok methods => printFrom text head methods

/-- The text of a lifted method. -/
def liftText (fixture : ClassFixture) (pool : Pool) (options : Options) (m : Method) : Except LiftError String := do
  let lifted ← m.lift (some pool) options
  return lifted.tree.print m.access fixture.name (.ofMethod m)

/-- A short account of a class. -/
def infoText (fixture : ClassFixture) : String :=
  "=== Class Info ===\n" ++
  s!"Class:            {fixture.name}\n" ++
  s!"Version:          {fixture.major.toNat} {fixture.minor.toNat}\n" ++
  s!"Pool entries:     {fixture.entries.length}\n" ++
  s!"Bootstrap:        {fixture.bootstraps.length}\n" ++
  s!"Methods:          {fixture.methods.length}\n"

/-- The answer of a command on a fixture. -/
def answer (command : Command) (fixture : ClassFixture) : Report :=
  match command with
  | .info => { stdout := infoText fixture }
  | .disassemble only =>
    printEach s!"# Class: {fixture.name}\n\n" (select fixture only) fun m =>
      .ok (Listing.disassemble m fixture.pool ++ "\n")
  | .blocks only => printEach "" (select fixture only) fun m => .ok (Listing.blocks m ++ "\n")
  | .lift only options =>
    let pool := fixture.pool
    printEach s!"// class {fixture.name}\n" (select fixture only) fun m =>
      match liftText fixture pool options m with
      | .ok text => .ok ("\n" ++ text)
      | .error e => .error e.message

/-- The answer of a command on the text of a fixture. That a text is none is told without a line end, since nothing more
is known about it. -/
def run (command : Command) (text : String) : Report :=
  match ClassFixture.read text with
  | .ok fixture => command.answer fixture
  | .error e => { code := 1, stderr := "Error: " ++ e.message }

end Command

end JvmLift
