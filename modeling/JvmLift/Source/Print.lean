import JvmLift.Method
import JvmLift.Naming
import JvmLift.Source.Literal
import JvmLift.Source.Stmt

/-!
# Source text

Expressions are written with parentheses around every operation, so that they can be read without knowing precedences.
Statements take one line each, and bodies are indented by four blanks.
-/

namespace JvmLift.Source

/-- What the text depends on besides the tree. A constructor call on the class `thisClass`, given by its simple name, is
a call of `this(…)`; any other is a call of `super(…)`. -/
structure PrintContext where
  thisClass : Option String := none

namespace Expr

/-- The text of an operand of `.` or `[]`, in parentheses unless it is read as one unit. -/
def asOperand : Expr → String → String
  | unary .., text | new .., text | newArray .., text => "(" ++ text ++ ")"
  | _, text => text

/-- A negation in front of a text. Two minus signs in a row would read as a decrement. -/
def prefixed (op : UnOp) (text : String) : String :=
  if op = .neg ∧ text.startsWith "-" then "-(" ++ text ++ ")" else op.symbol ++ text

mutual

def print (ctx : PrintContext) : Expr → String
  | int n => toString n.toInt
  | long n => toString n.toInt ++ "L"
  | float x => floatLiteral x
  | double x => doubleLiteral x
  | string s => stringLiteral s
  | classLit name => name ++ ".class"
  | null => "null"
  | bool b => if b then "true" else "false"
  | var name => name
  | binary op a b =>
    let left := a.print ctx
    let right := b.print ctx
    if op = .cmp then "compare(" ++ left ++ ", " ++ right ++ ")"
    else "(" ++ left ++ " " ++ op.symbol ++ " " ++ right ++ ")"
  | unary op a => prefixed op (a.print ctx)
  | field a name => asOperand a (a.print ctx) ++ "." ++ name
  | index a i => asOperand a (a.print ctx) ++ "[" ++ i.print ctx ++ "]"
  | length a => asOperand a (a.print ctx) ++ ".length"
  | cast type a => "((" ++ type ++ ") " ++ a.print ctx ++ ")"
  | instanceOf a type => "(" ++ a.print ctx ++ " instanceof " ++ type ++ ")"
  | new type args => "new " ++ type ++ "(" ++ ", ".intercalate (printAll ctx args) ++ ")"
  | newArray element dims =>
    "new " ++ element ++ String.join ((printAll ctx dims).map fun d => "[" ++ d ++ "]")
  | uninit type => "new " ++ type
  | call receiver owner name args =>
    let list := "(" ++ ", ".intercalate (printAll ctx args) ++ ")"
    if name = "<init>" then (if ctx.thisClass = some owner then "this" else "super") ++ list
    else asOperand receiver (receiver.print ctx) ++ "." ++ name ++ list
  | staticCall owner name args =>
    let list := "(" ++ ", ".intercalate (printAll ctx args) ++ ")"
    (if owner.isEmpty then name else owner ++ "." ++ name) ++ list
  | ternary cond a b => "(" ++ cond.print ctx ++ " ? " ++ a.print ctx ++ " : " ++ b.print ctx ++ ")"

def printAll (ctx : PrintContext) : List Expr → List String
  | [] => []
  | a :: as => a.print ctx :: printAll ctx as

end

/-- The text of an expression by itself. -/
def text (e : Expr) : String :=
  e.print {}

/-- `++` or `--`, when a value is that of the target plus or minus one. -/
def stepOperator? (target : Expr) : Expr → Option String
  | binary .add a (int n) => if a.same target && n == 1 then some "++" else none
  | binary .sub a (int n) => if a.same target && n == 1 then some "--" else none
  | _ => none

end Expr

namespace Stmt

/-- The text of an assignment or of an expression statement, without the semicolon. -/
def simple? (ctx : PrintContext) : Stmt → Option String
  | assign target value =>
    match target.stepOperator? value with
    | some op => some (target.print ctx ++ op)
    | none => some (target.print ctx ++ " = " ++ value.print ctx)
  | evaluate value => some (value.print ctx)
  | _ => none

/-- The lines of a statement as they stand in the head of a loop: without blanks and semicolons at the end. -/
def trimmed (lines : String) : String :=
  String.ofList (Text.dropEndWhile (· == ';') (Text.dropEndWhile Text.isBlank lines.toList))

def indentation (indent : Nat) : String :=
  String.ofList (List.replicate (4 * indent) ' ')

/-- A line at an indentation. -/
def line (indent : Nat) (text : String) : String :=
  indentation indent ++ text ++ "\n"

mutual

/-- The lines of a statement. -/
def print (ctx : PrintContext) (indent : Nat) : Stmt → String
  | s@(assign ..) | s@(evaluate _) => line indent ((s.simple? ctx).getD "" ++ ";")
  | returnVoid => line indent "return;"
  | returnValue value => line indent ("return " ++ value.print ctx ++ ";")
  | throwValue value => line indent ("throw " ++ value.print ctx ++ ";")
  | ifThen cond body =>
    line indent ("if (" ++ cond.print ctx ++ ") \x7b") ++ printEach ctx (indent + 1) body ++ line indent "\x7d"
  | ifElse cond thenBody elseBody =>
    line indent ("if (" ++ cond.print ctx ++ ") \x7b") ++ printEach ctx (indent + 1) thenBody ++
      line indent "\x7d else \x7b" ++ printEach ctx (indent + 1) elseBody ++ line indent "\x7d"
  | whileLoop cond body =>
    line indent ("while (" ++ cond.print ctx ++ ") \x7b") ++ printEach ctx (indent + 1) body ++ line indent "\x7d"
  | forLoop init cond update body =>
    line indent ("for (" ++ ", ".intercalate (printHead ctx init) ++ "; " ++ cond.print ctx ++ "; " ++
      ", ".intercalate (printHead ctx update) ++ ") \x7b") ++
      printEach ctx (indent + 1) body ++ line indent "\x7d"
  | forEach type name iterable body =>
    line indent ("for (" ++ type ++ " " ++ name ++ " : " ++ iterable.print ctx ++ ") \x7b") ++
      printEach ctx (indent + 1) body ++ line indent "\x7d"
  | switch selector arms =>
    line indent ("switch (" ++ selector.print ctx ++ ") \x7b") ++ printArms ctx indent arms ++ line indent "\x7d"
  | tryCatch body clauses =>
    line indent "try \x7b" ++ printEach ctx (indent + 1) body ++ printClauses ctx indent clauses ++
      line indent "\x7d"
  | synchronized monitor body =>
    line indent ("synchronized (" ++ monitor.print ctx ++ ") \x7b") ++ printEach ctx (indent + 1) body ++
      line indent "\x7d"
  | breakOut => line indent "break;"
  | continueLoop => line indent "continue;"
  | block body => line indent "\x7b" ++ printEach ctx (indent + 1) body ++ line indent "\x7d"
  | comment text => line indent ("// " ++ text)

/-- The lines of a body. -/
def printEach (ctx : PrintContext) (indent : Nat) : List Stmt → String
  | [] => ""
  | s :: rest => s.print ctx indent ++ printEach ctx indent rest

/-- The statements of a part of a loop's head, each on its own. -/
def printHead (ctx : PrintContext) : List Stmt → List String
  | [] => []
  | s :: rest => (s.simple? ctx).getD (trimmed (s.print ctx 0)) :: printHead ctx rest

def printArms (ctx : PrintContext) (indent : Nat) : Arms → String
  | .done => ""
  | .case key body rest =>
    line (indent + 1) ("case " ++ toString key.toInt ++ ":") ++ printEach ctx (indent + 2) body ++
      printArms ctx indent rest
  | .default body => line (indent + 1) "default:" ++ printEach ctx (indent + 2) body

def printClauses (ctx : PrintContext) (indent : Nat) : Clauses → String
  | .done => ""
  | .handler type binding body rest =>
    line indent ("\x7d catch (" ++ type ++ " " ++ binding ++ ") \x7b") ++ printEach ctx (indent + 1) body ++
      printClauses ctx indent rest
  | .finally body => line indent "\x7d finally \x7b" ++ printEach ctx (indent + 1) body

end

end Stmt

/-- The text of a body by itself. -/
def bodyText (body : List Stmt) : String :=
  Stmt.printEach {} 0 body

/-- A method ready to be printed. -/
structure MethodTree where
  name : String
  descriptor : String
  body : List Stmt

namespace MethodTree

/-- The head of a declaration. Parameters have the names that they have at the start of the code, and a descriptor that
cannot be read has none. -/
def signature (m : MethodTree) (access : Access) (className : String) (names : Naming) : String :=
  let d := MethodDescriptor.parseD m.descriptor
  let params := (d.placedParams (access.contains .accStatic)).map fun (slot, type) =>
    type.javaName ++ " " ++ names slot 0
  let words :=
    if m.name = "<init>" then [simpleClassName className] else [d.returnJavaName, m.name]
  " ".intercalate (access.keywords ++ words) ++ "(" ++ ", ".intercalate params ++ ")"

/-- The text of a whole method. -/
def print (m : MethodTree) (access : Access) (className : String) (names : Naming) : String :=
  let head := if m.name = "<clinit>" then "static" else m.signature access className names
  head ++ " \x7b\n" ++ Stmt.printEach { thisClass := some (simpleClassName className) } 1 m.body ++ "\x7d\n"

/-- The text of a whole method with the names of its own signature. Without a readable descriptor slots are numbered. -/
def printSigned (m : MethodTree) (access : Access) (className : String) : String :=
  let names := match MethodDescriptor.read? m.descriptor.toList with
    | some d => Naming.params (access.contains .accStatic) d
    | none => Naming.numbered
  m.print access className names

end MethodTree

end JvmLift.Source
