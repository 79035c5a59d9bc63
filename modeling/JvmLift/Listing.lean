import JvmLift.Flow.Region
import JvmLift.Number.Text
import JvmLift.Pool
import JvmLift.Text.Quoted

/-!
# Listings

A method as a list of its instructions, with what the operands refer to and the lines of the source, or as a list of its
blocks with their edges.
-/

namespace JvmLift.Listing

open Bytecode JvmLift.Flow Text

/-- A line of a listing, below the head. -/
def entry (text : String) : String :=
  "    " ++ text ++ "\n"

/-- A constant with its kind. -/
def constant : Constant → String
  | .int n => s!"Int({n.toInt})"
  | .long n => s!"Long({n.toInt})"
  | .float x => s!"Float({x.text})"
  | .double x => s!"Double({x.text})"
  | .string s => s!"String({quoted s})"
  | .classRef name => s!"Class({quoted name})"

def className (pool : Pool) (index : UInt16) : String :=
  (pool.className? index).getD s!"#{index.toNat}"

/-- What a pool index refers to: a member, a call site or a constant. -/
def reference (pool : Pool) (index : UInt16) : String :=
  ((pool.member? index).map fun m => m.owner ++ "." ++ m.name ++ ":" ++ m.descriptor).getD <|
  ((pool.callSite? index).map fun site => site.name ++ ":" ++ site.descriptor).getD <|
  ((pool.constant? index).map constant).getD s!"#{index.toNat}"

def operand (pool : Pool) : Operand → String
  | .none => ""
  | .slot slot => s!"v{slot.toNat}"
  | .immediate n => toString n.toInt
  | .branch target => "-> " ++ hexNumber 1 target
  | .pool index => reference pool index
  | .increment slot amount => s!"v{slot.toNat}, {amount.toInt}"
  | .interfaceCall index count => reference pool index ++ s!", {count.toNat}"
  | .multiArray index dimensions => className pool index ++ s!", {dimensions.toNat}"
  | .switch table =>
    let cases := table.cases.map fun (key, target) => s!"{key.toInt}: " ++ hexNumber 1 target
    "\x7b " ++ ", ".intercalate cases ++ ", default: " ++ hexNumber 1 table.default ++ " \x7d"
  | .undecoded bytes reason => s!"<{bytes.length} undecoded bytes: {reason.message}>"

def instruction (pool : Pool) (i : Instruction) : String :=
  let text := operand pool i.operand
  entry (hexNumber 4 i.offset ++ "  " ++ i.opcode.mnemonic ++ if text.isEmpty then "" else " " ++ text)

/-- Instructions, each behind the number of its source line where that changes. -/
def instructions (pool : Pool) (code : Code) (line : Option UInt16) : List Instruction → String
  | [] => ""
  | i :: rest =>
    match (code.line? i.offset).filter (some · != line) with
    | some next => entry s!"# line {next.toNat}" ++ instruction pool i ++ instructions pool code (some next) rest
    | none => instruction pool i ++ instructions pool code line rest

/-- A half-open range of offsets. -/
def range (start stop : Nat) : String :=
  "[" ++ hexNumber 1 start ++ ".." ++ hexNumber 1 stop ++ ")"

def handlerRow (pool : Pool) (row : HandlerRow) : String :=
  let caught := match CatchType.ofIndex row.catchType with
    | .any => "catch_all"
    | .named index => "catch " ++ className pool index
  entry ("# try " ++ range row.start.toNat row.stop.toNat ++ " " ++ caught ++ " -> " ++ hexNumber 1 row.handler.toNat)

/-- The instructions of a method. -/
def disassemble (m : Method) (pool : Pool) : String :=
  ".method " ++ m.name ++ m.descriptor ++ " \x7b\n" ++
    (match m.code with
      | none => entry "# (no code - native or abstract)"
      | some code =>
        entry (s!"# max_stack: {code.maxStack.toNat}, max_locals: {code.maxLocals.toNat}, " ++
          s!"code_size: {code.bytes.length}") ++
        instructions pool code none (decode code.bytes) ++
        String.join (code.handlers.map (handlerRow pool))) ++
    "\x7d\n"

/-- A block with its edges. -/
def block (b : Block) : String :=
  let succs := ", ".intercalate (b.succs.map fun s => s!"B{s}")
  let edge (text : String) : String := entry ("    " ++ text)
  entry (s!"B{b.id} " ++ range b.start b.stop ++ " -> [" ++ succs ++ "]") ++
    match b.switch with
    | none => ""
    | some edges =>
      ((edges.default.map fun target => edge s!"default -> B{target}").getD "") ++
        String.join (edges.cases.map fun (key, target) => edge s!"case {key.toInt} -> B{target}")

def handler (h : Handler) : String :=
  match h.catchType with
  | .any => s!"any -> B{h.block}"
  | .named index => s!"#{index.toNat} -> B{h.block}"

def region (r : Region) : String :=
  entry ("try " ++ range r.start r.stop ++ " " ++ ", ".intercalate (r.handlers.map handler))

/-- The blocks of a method. -/
def blocks (m : Method) : String :=
  ".method " ++ m.name ++ m.descriptor ++ "\n" ++
    match m.code with
    | none => entry "# (no code)"
    | some code =>
      let shape := CodeShape.ofCode code
      String.join (shape.graph.blocks.toList.map block) ++ String.join (shape.regions.map region)

end JvmLift.Listing
