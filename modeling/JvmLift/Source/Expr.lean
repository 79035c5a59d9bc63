import JvmLift.Number.Floating

/-!
# Expressions

Expression trees in the style of Java source. Literals carry the exact words of the bytecode. Two expressions are the
same when they have the same shape and their literals are equal as numbers, so a tree with a literal that is not a number
is not the same as itself.
-/

namespace JvmLift.Source

open Number

inductive BinOp
  | add | sub | mul | div | rem
  | shl | shr | ushr
  | bitAnd | bitOr | bitXor
  | eq | ne | lt | ge | gt | le
  /-- Short-circuit conjunction. -/
  | and
  /-- Short-circuit disjunction. -/
  | or
  /-- Three-way comparison: negative, zero or positive. -/
  | cmp
  deriving DecidableEq, Repr

namespace BinOp

def all : List BinOp :=
  [.add, .sub, .mul, .div, .rem, .shl, .shr, .ushr, .bitAnd, .bitOr, .bitXor, .eq, .ne, .lt, .ge, .gt, .le, .and, .or,
    .cmp]

def symbol : BinOp → String
  | add => "+"
  | sub => "-"
  | mul => "*"
  | div => "/"
  | rem => "%"
  | shl => "<<"
  | shr => ">>"
  | ushr => ">>>"
  | bitAnd => "&"
  | bitOr => "|"
  | bitXor => "^"
  | eq => "=="
  | ne => "!="
  | lt => "<"
  | ge => ">="
  | gt => ">"
  | le => "<="
  | and => "&&"
  | or => "||"
  | cmp => "<=>"

/-- The operator that holds exactly when a relational operator does not, on ordered operands. -/
def complement? : BinOp → Option BinOp
  | eq => some ne
  | ne => some eq
  | lt => some ge
  | ge => some lt
  | gt => some le
  | le => some gt
  | _ => none

def isRelational (op : BinOp) : Bool :=
  op.complement?.isSome

/-- Whether a relational operator holds of operands that compare as told. On unordered operands none of the three is
true. -/
def holds? (op : BinOp) (less equal greater : Bool) : Option Bool :=
  match op with
  | eq => some equal
  | ne => some !equal
  | lt => some less
  | ge => some (greater || equal)
  | gt => some greater
  | le => some (less || equal)
  | _ => none

/-- Whether a relational operator holds of two integers. -/
def holdsInt? (op : BinOp) (a b : Int) : Option Bool :=
  op.holds? (a < b) (a == b) (b < a)

/-- Whether a relational operator holds of two floating-point words. -/
def holdsFloating? {f : Format} (op : BinOp) (a b : Floating f) : Option Bool :=
  op.holds? (a.lt b) (a.eq b) (b.lt a)

end BinOp

inductive UnOp
  | neg
  | not
  deriving DecidableEq, Repr

def UnOp.symbol : UnOp → String
  | .neg => "-"
  | .not => "!"

inductive Expr
  | int (value : Int32)
  | long (value : Int64)
  | float (value : Single)
  | double (value : Double)
  | string (value : String)
  | classLit (name : String)
  | null
  | bool (value : Bool)
  | var (name : String)
  | binary (op : BinOp) (lhs rhs : Expr)
  | unary (op : UnOp) (operand : Expr)
  /-- A field of an object. A static field has the simple name of its class as a variable for the object. -/
  | field (object : Expr) (name : String)
  | index (array position : Expr)
  | length (array : Expr)
  | cast (type : String) (operand : Expr)
  | instanceOf (operand : Expr) (type : String)
  | new (type : String) (args : List Expr)
  | newArray (element : String) (dims : List Expr)
  /-- A new object whose constructor has not run. -/
  | uninit (type : String)
  /-- A call on a receiver. -/
  | call (receiver : Expr) (owner name : String) (args : List Expr)
  /-- A call without a receiver. It goes through the owner, unless that is empty. -/
  | staticCall (owner name : String) (args : List Expr)
  | ternary (cond thenValue elseValue : Expr)
  deriving Repr

namespace Expr

/-- A literal of two stack words. -/
def isWideLiteral : Expr → Bool
  | long _ | double _ => true
  | _ => false

/-- Whether the expression is worth keeping as a statement when its value is not used. -/
def hasSideEffects : Expr → Bool
  | call .. | staticCall .. | new .. => true
  | _ => false

mutual

/-- Equality of trees, with literals compared as numbers. -/
def same : Expr → Expr → Bool
  | int a, int b => a == b
  | long a, long b => a == b
  | float a, float b => a.eq b
  | double a, double b => a.eq b
  | string a, string b => a == b
  | classLit a, classLit b => a == b
  | null, null => true
  | bool a, bool b => a == b
  | var a, var b => a == b
  | binary op a b, binary op' a' b' => op == op' && a.same a' && b.same b'
  | unary op a, unary op' a' => op == op' && a.same a'
  | field a n, field a' n' => a.same a' && n == n'
  | index a i, index a' i' => a.same a' && i.same i'
  | length a, length a' => a.same a'
  | cast t a, cast t' a' => t == t' && a.same a'
  | instanceOf a t, instanceOf a' t' => a.same a' && t == t'
  | new t as, new t' as' => t == t' && sameAll as as'
  | newArray t as, newArray t' as' => t == t' && sameAll as as'
  | uninit t, uninit t' => t == t'
  | call r o n as, call r' o' n' as' => r.same r' && o == o' && n == n' && sameAll as as'
  | staticCall o n as, staticCall o' n' as' => o == o' && n == n' && sameAll as as'
  | ternary c a b, ternary c' a' b' => c.same c' && a.same a' && b.same b'
  | _, _ => false

/-- `same` on lists of equal length. -/
def sameAll : List Expr → List Expr → Bool
  | [], [] => true
  | a :: as, b :: bs => a.same b && sameAll as bs
  | _, _ => false

end

mutual

/-- Whether a variable occurs in an expression. -/
def mentions (name : String) : Expr → Bool
  | var n => n == name
  | binary _ a b => a.mentions name || b.mentions name
  | unary _ a | cast _ a | instanceOf a _ | length a | field a _ => a.mentions name
  | index a i => a.mentions name || i.mentions name
  | new _ args | newArray _ args | staticCall _ _ args => mentionsAny name args
  | call r _ _ args => r.mentions name || mentionsAny name args
  | ternary c a b => c.mentions name || a.mentions name || b.mentions name
  | int _ | long _ | float _ | double _ | string _ | classLit _ | null | bool _ | uninit _ => false

/-- Whether a variable occurs in one of the expressions. -/
def mentionsAny (name : String) : List Expr → Bool
  | [] => false
  | a :: as => a.mentions name || mentionsAny name as

end

/-! ### Negation -/

/-- A comparison with the complement of its operator. Anything else is left as it is. -/
def invert : Expr → Expr
  | binary op a b => binary (op.complement?.getD op) a b
  | e => e

/-- The logical negation: comparisons are inverted, `&&` and `||` are exchanged over negated operands, and `!` is taken
away or, for any other expression, put in front. -/
def negate : Expr → Expr
  | unary .not a => a
  | binary .and a b => binary .or a.negate b.negate
  | binary .or a b => binary .and a.negate b.negate
  | binary op a b =>
    match op.complement? with
    | some op' => binary op' a b
    | none => unary .not (binary op a b)
  | e => unary .not e

/-- What relates every expression to its negation. -/
theorem negate_induction {P : Expr → Expr → Prop} (not : ∀ a, P (unary .not a) a)
    (and : ∀ a b, P a a.negate → P b b.negate → P (binary .and a b) (binary .or a.negate b.negate))
    (or : ∀ a b, P a a.negate → P b b.negate → P (binary .or a b) (binary .and a.negate b.negate))
    (complement : ∀ op op' a b, op.complement? = some op' → P (binary op a b) (binary op' a b))
    (other : ∀ e, P e (unary .not e)) (e : Expr) : P e e.negate := by
  fun_induction negate e with
  | case1 a => exact not a
  | case2 a b iha ihb => exact and a b iha ihb
  | case3 a b iha ihb => exact or a b iha ihb
  | case4 op a b _ _ op' h => exact complement op op' a b h
  | case5 op a b _ _ _ => exact other _
  | case6 e => exact other e

end Expr

end JvmLift.Source
