import JvmLift.Descriptor
import JvmLift.Pool
import JvmLift.Recovery.Effect

/-!
# String concatenation

A dynamic call site may stand for a concatenation of strings. Its recipe is a text in which the character `1` takes the
next argument and the character `2` the next constant; all else stands for itself. The parts are joined by `+` from the
left, behind an empty string where the first two parts would not make it a concatenation.
-/

namespace JvmLift.Recovery

open Source

/-- A loaded constant. -/
def constantValue : Constant → StackValue
  | .int n => ⟨.int n, false⟩
  | .float x => ⟨.float x, false⟩
  | .long n => ⟨.long n, true⟩
  | .double x => ⟨.double x, true⟩
  | .string s => ⟨.string s, false⟩
  | .classRef name => ⟨.classLit (classOperandName name), false⟩

/-- A run of plain characters as a part, unless it is empty. -/
def textPart (text : List Char) : List Expr :=
  if text.isEmpty then [] else [.string (String.ofList text)]

/-- The parts of a recipe. `text` holds the plain characters since the last part. -/
def recipeParts (text : List Char) : List Char → List Expr → List Constant → List Expr
  | [], _, _ => textPart text
  | c :: rest, args, constants =>
    if c = '\x01' then textPart text ++ args.head?.toList ++ recipeParts [] rest args.tail constants
    else if c = '\x02' then
      textPart text ++ (constants.head?.map fun k => (constantValue k).expr).toList ++
        recipeParts [] rest args constants.tail
    else recipeParts (text ++ [c]) rest args constants

def isStringLiteral : Expr → Bool
  | .string _ => true
  | _ => false

/-- Joins parts by `+`. -/
def joinConcat (parts : List Expr) : Expr :=
  let parts := match parts with
    | a :: b :: _ => if isStringLiteral a || isStringLiteral b then parts else .string "" :: parts
    | _ => .string "" :: parts
  match parts with
  | [] => .string ""
  | first :: rest => rest.foldl (Expr.binary .add) first

/-- The concatenation that a recipe describes. -/
def concatFromRecipe (recipe : String) (args : List Expr) (constants : List Constant) : Expr :=
  joinConcat (recipeParts [] recipe.toList args constants)

/-- The value of a dynamic call. The bootstrap methods for concatenation are known by name; any other call site is shown
as a call of its own name. -/
def dynamicCall (site : CallSite) (args : List Expr) : Expr :=
  match site.bootstrap.map Member.name with
  | some "makeConcatWithConstants" =>
    let recipe := match site.arguments with
      | .string recipe :: _ => recipe
      | _ => String.ofList (List.replicate args.length '\x01')
    concatFromRecipe recipe args site.arguments.tail
  | some "makeConcat" => joinConcat args
  | _ => .staticCall "" site.name args

end JvmLift.Recovery
