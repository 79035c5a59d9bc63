import JvmLift.Source.Stmt

/-!
# Simplification

One pass from the leaves up that folds constants and drops neutral operands. Integers wrap around in two's complement and
shift distances are taken modulo the width. A division by a literal zero is kept, since it throws, and so is everything
that may be a concatenation of strings, where `+ 0` appends a digit.
-/

namespace JvmLift.Source

namespace BinOp

/-- The value of an operator on two `int` literals. -/
def foldInt? (op : BinOp) (a b : Int32) : Option Int32 :=
  match op with
  | add => some (a + b)
  | sub => some (a - b)
  | mul => some (a * b)
  | div => if b = 0 then none else some (a / b)
  | rem => if b = 0 then none else some (a % b)
  | shl => some (a <<< b)
  | shr => some (a >>> b)
  | ushr => some (a.toUInt32 >>> b.toUInt32).toInt32
  | bitAnd => some (a &&& b)
  | bitOr => some (a ||| b)
  | bitXor => some (a ^^^ b)
  | _ => none

/-- The value of an operator on two `long` literals. Shifts do not take a `long` distance. -/
def foldLong? (op : BinOp) (a b : Int64) : Option Int64 :=
  match op with
  | add => some (a + b)
  | sub => some (a - b)
  | mul => some (a * b)
  | div => if b = 0 then none else some (a / b)
  | rem => if b = 0 then none else some (a % b)
  | bitAnd => some (a &&& b)
  | bitOr => some (a ||| b)
  | bitXor => some (a ^^^ b)
  | _ => none

/-- The value of a shift of a `long` literal by an `int` literal. -/
def foldLongShift? (op : BinOp) (a : Int64) (distance : Int32) : Option Int64 :=
  match op with
  | shl => some (a <<< distance.toInt64)
  | shr => some (a >>> distance.toInt64)
  | ushr => some (a.toUInt64 >>> distance.toInt64.toUInt64).toInt64
  | _ => none

end BinOp

namespace Expr

def isZero : Expr → Bool
  | int n => n == 0
  | long n => n == 0
  | _ => false

def isOne : Expr → Bool
  | int n => n == 1
  | long n => n == 1
  | _ => false

/-- A string literal, or a sum that holds one as an operand. -/
def isConcat : Expr → Bool
  | string _ => true
  | binary .add a b => a.isConcat || b.isConcat
  | _ => false

/-- The literal that an operator yields on two literals. -/
def foldLiterals? (op : BinOp) : Expr → Expr → Option Expr
  | int a, int b => (op.foldInt? a b).map int
  | long a, long b => (op.foldLong? a b).map long
  | long a, int b => (op.foldLongShift? a b).map long
  | string a, string b => if op = .add then some (string (a ++ b)) else none
  | _, _ => none

/-- What is left of an operation whose right operand is zero. -/
def rightZero? (op : BinOp) (a zero : Expr) : Option Expr :=
  match op with
  | .add | .sub | .bitOr | .bitXor | .shl | .shr | .ushr => some a
  | .mul | .bitAnd => if a.hasSideEffects then none else some zero
  | _ => none

/-- What is left of an operation whose left operand is zero. -/
def leftZero? (op : BinOp) (zero b : Expr) : Option Expr :=
  match op with
  | .add | .bitOr | .bitXor => some b
  | .mul => if b.hasSideEffects then none else some zero
  | _ => none

/-- What is left of an operation whose right operand is one. -/
def rightOne? (op : BinOp) (a : Expr) : Option Expr :=
  match op with
  | .mul | .div => some a
  | _ => none

/-- What is left of an operation whose left operand is one. -/
def leftOne? (op : BinOp) (b : Expr) : Option Expr :=
  match op with
  | .mul => some b
  | _ => none

/-- What is left of an operation with a neutral or an absorbing operand. -/
def dropOperand? (op : BinOp) (a b : Expr) : Option Expr :=
  (if b.isZero then rightZero? op a b else none).or <|
  (if b.isOne then rightOne? op a else none).or <|
  (if a.isZero then leftZero? op a b else none).or <|
  (if a.isOne then leftOne? op b else none)

/-- An operation on simplified operands. -/
def foldBinary (op : BinOp) (a b : Expr) : Expr :=
  match foldLiterals? op a b with
  | some e => e
  | none =>
    if a.isConcat || b.isConcat then binary op a b
    else (dropOperand? op a b).getD (binary op a b)

/-- An operation on a simplified operand: a negated literal becomes a literal, and a doubled operator goes away. -/
def foldUnary : UnOp → Expr → Expr
  | .neg, int n => int (-n)
  | .neg, long n => long (-n)
  | .neg, float x => float (-x)
  | .neg, double x => double (-x)
  | op, unary op' a => if op = op' then a else unary op (unary op' a)
  | op, a => unary op a

mutual

/-- The simplified form of an expression. -/
def simplify : Expr → Expr
  | binary op a b => foldBinary op a.simplify b.simplify
  | unary op a => foldUnary op a.simplify
  | field a name => field a.simplify name
  | index a i => index a.simplify i.simplify
  | length a => length a.simplify
  | cast type a => cast type a.simplify
  | instanceOf a type => instanceOf a.simplify type
  | new type args => new type (simplifyAll args)
  | newArray element dims => newArray element (simplifyAll dims)
  | call receiver owner name args => call receiver.simplify owner name (simplifyAll args)
  | staticCall owner name args => staticCall owner name (simplifyAll args)
  | ternary cond a b => ternary cond.simplify a.simplify b.simplify
  | int n => int n
  | long n => long n
  | float x => float x
  | double x => double x
  | string s => string s
  | classLit name => classLit name
  | null => null
  | bool b => bool b
  | var name => var name
  | uninit type => uninit type

def simplifyAll : List Expr → List Expr
  | [] => []
  | a :: as => a.simplify :: simplifyAll as

end

end Expr

/-- The body with every expression simplified. -/
def simplifyBody (body : List Stmt) : List Stmt :=
  Stmt.mapExprsEach Expr.simplify body

end JvmLift.Source
