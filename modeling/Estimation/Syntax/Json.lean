import Estimation.Json
import Estimation.Native
import Estimation.Syntax

/-!
Programs as JSON, for tools that read them. Each expression is an object with its kind, its span,
and its parts; numbers are given by their bits.
-/

namespace Estimation.Syntax

def BinaryOp.name : BinaryOp → String
  | .add => "Add"
  | .subtract => "Subtract"
  | .multiply => "Multiply"
  | .divide => "Divide"
  | .power => "Pow"
  | .equal => "Equal"
  | .unequal => "Unequal"
  | .smaller => "Smaller"
  | .smallerEq => "SmallerEq"
  | .larger => "Larger"
  | .largerEq => "LargerEq"
  | .both => "And"
  | .either => "Or"
  | .spread => "To"

def UnaryOp.name : UnaryOp → String
  | .minus => "Minus"
  | .not => "Not"

def spanJson (span : Span) : Json := .string span.fullText

def node (kind : String) (span : Span) (parts : List (String × Json)) : Json :=
  .object (("k", .string kind) :: ("at", spanJson span) :: parts)

mutual

def Expr.json : Expr → Json
  | .number value span => node "Number" span [("n", .string (Number.bitsText value))]
  | .string content span => node "String" span [("s", .string content)]
  | .bool value span => node "Boolean" span [("b", .bool value)]
  | .identifier name span => node "Identifier" span [("name", .string name)]
  | .list items span => node "Array" span [("items", .array (exprJsons items))]
  | .dict entries span => node "Dict" span [("entries", .array (entryJsons entries))]
  | .block statements result span =>
    node "Block" span [("statements", .array (statementJsons statements)), ("result", result.json)]
  | .lambda name parameters body span =>
    node "Lambda" span [("name", .optional .string name),
      ("params", .array (parameterJsons parameters)), ("body", body.json)]
  | .call callee args span =>
    node "Call" span [("callee", callee.json), ("args", .array (exprJsons args))]
  | .binary op left right span =>
    node "Infix" span [("op", .string op.name), ("function", .string (Native.ofBinary op).name),
      ("left", left.json), ("right", right.json)]
  | .unary op operand span =>
    node "Unary" span [("op", .string op.name), ("function", .string (Native.ofUnary op).name),
      ("operand", operand.json)]
  | .pipe left callee args span =>
    node "Pipe" span [("left", left.json), ("callee", callee.json), ("args", .array (exprJsons args))]
  | .member target key span =>
    node "DotLookup" span [("target", target.json), ("key", .string key)]
  | .lookup target index span =>
    node "Bracket" span [("target", target.json), ("index", index.json)]
  | .choice condition ifTrue ifFalse span =>
    node "Ternary" span [("condition", condition.json), ("if_true", ifTrue.json),
      ("if_false", ifFalse.json)]

def exprJsons : List Expr → List Json
  | [] => []
  | e :: es => e.json :: exprJsons es

def entryJson : Entry Expr → Json
  | ⟨key, span, value⟩ => .array [node "String" span [("s", .string key)], value.json]

def entryJsons : List (Entry Expr) → List Json
  | [] => []
  | entry :: entries => entryJson entry :: entryJsons entries

def parameterJson : Parameter Expr → Json
  | ⟨name, span, range⟩ => .array [.string name, spanJson span, optionalJson range]

def parameterJsons : List (Parameter Expr) → List Json
  | [] => []
  | p :: ps => parameterJson p :: parameterJsons ps

def statementJson : Statement Expr → Json
  | ⟨name, nameSpan, value, exported, span⟩ =>
    .object [("name", .string name), ("name_at", spanJson nameSpan), ("exported", .bool exported),
      ("at", spanJson span), ("value", value.json)]

def statementJsons : List (Statement Expr) → List Json
  | [] => []
  | s :: ss => statementJson s :: statementJsons ss

def optionalJson : Option Expr → Json
  | none => .null
  | some e => e.json

end

namespace Program

def json (p : Program) : Json :=
  .object
    [("imports", .array (p.imports.map fun i =>
        .array [.string i.path, .string i.name, spanJson i.span])),
      ("statements", .array (statementJsons p.statements)), ("result", optionalJson p.result),
      ("at", spanJson p.span)]

end Program

end Estimation.Syntax
