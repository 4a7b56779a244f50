import Estimation.Position

/-!
Programs as they are written. Names are not resolved yet, and operators still stand for
themselves.
-/

namespace Estimation.Syntax

inductive BinaryOp where
  | add
  | subtract
  | multiply
  | divide
  | power
  | equal
  | unequal
  | smaller
  | smallerEq
  | larger
  | largerEq
  | both
  | either
  | spread
  deriving DecidableEq, Repr

inductive UnaryOp where
  | minus
  | not
  deriving DecidableEq, Repr

/-- `name = value` or `name(parameters) = body`, the latter with a lambda as its value. -/
structure Statement (ε : Type) where
  name : String
  nameSpan : Span
  value : ε
  exported : Bool
  span : Span

/-- A parameter, with its range of values where one is given. -/
structure Parameter (ε : Type) where
  name : String
  span : Span
  range : Option ε

/-- One `key: value` of a dictionary. -/
structure Entry (ε : Type) where
  key : String
  keySpan : Span
  value : ε

inductive Expr where
  | number (value : Float) (span : Span)
  | string (content : String) (span : Span)
  | bool (value : Bool) (span : Span)
  | identifier (name : String) (span : Span)
  | list (items : List Expr) (span : Span)
  | dict (entries : List (Entry Expr)) (span : Span)
  | block (statements : List (Statement Expr)) (result : Expr) (span : Span)
  | lambda (name : Option String) (parameters : List (Parameter Expr)) (body : Expr) (span : Span)
  | call (callee : Expr) (args : List Expr) (span : Span)
  | binary (op : BinaryOp) (left right : Expr) (span : Span)
  | unary (op : UnaryOp) (operand : Expr) (span : Span)
  /-- `left -> callee(args)` -/
  | pipe (left callee : Expr) (args : List Expr) (span : Span)
  /-- `target.key` -/
  | member (target : Expr) (key : String) (span : Span)
  /-- `target[index]` -/
  | lookup (target index : Expr) (span : Span)
  /-- `condition ? ifTrue : ifFalse`, also written with `if`, `then` and `else` -/
  | choice (condition ifTrue ifFalse : Expr) (span : Span)
  deriving Inhabited

namespace Expr

def span : Expr → Span
  | .number _ span => span
  | .string _ span => span
  | .bool _ span => span
  | .identifier _ span => span
  | .list _ span => span
  | .dict _ span => span
  | .block _ _ span => span
  | .lambda _ _ _ span => span
  | .call _ _ span => span
  | .binary _ _ _ span => span
  | .unary _ _ span => span
  | .pipe _ _ _ span => span
  | .member _ _ span => span
  | .lookup _ _ span => span
  | .choice _ _ _ span => span

/-- The same expression at another span: brackets around an expression are part of it. -/
def withSpan (span : Span) : Expr → Expr
  | .number value _ => .number value span
  | .string content _ => .string content span
  | .bool value _ => .bool value span
  | .identifier name _ => .identifier name span
  | .list items _ => .list items span
  | .dict entries _ => .dict entries span
  | .block statements result _ => .block statements result span
  | .lambda name parameters body _ => .lambda name parameters body span
  | .call callee args _ => .call callee args span
  | .binary op left right _ => .binary op left right span
  | .unary op operand _ => .unary op operand span
  | .pipe left callee args _ => .pipe left callee args span
  | .member target key _ => .member target key span
  | .lookup target index _ => .lookup target index span
  | .choice condition ifTrue ifFalse _ => .choice condition ifTrue ifFalse span

@[simp] theorem span_withSpan (span : Span) (e : Expr) : (e.withSpan span).span = span := by
  cases e <;> rfl

/-- A lambda takes the name of the statement that defines it, unless it has one. -/
def named (name : String) : Expr → Expr
  | .lambda none parameters body span => .lambda (some name) parameters body span
  | e => e

@[simp] theorem span_named (name : String) (e : Expr) : (e.named name).span = e.span := by
  cases e with
  | lambda own => cases own <;> rfl
  | _ => rfl

end Expr

/-- `import "path" as name` -/
structure Import where
  path : String
  name : String
  span : Span
  deriving DecidableEq, Repr

structure Program where
  imports : List Import
  statements : List (Statement Expr)
  result : Option Expr
  span : Span

end Estimation.Syntax
