import Gauge.Span

/-!
# Syntax trees

Programs as they are written: modules of items, blocks of statements, expressions and type
annotations, each with the span of source it covers.  Names are not resolved and numbers not
checked.
-/

namespace Gauge

/-- A type as written in the source. -/
inductive TypeExpr where
  | named (span : Span) (name : String)
  | pointer (span : Span) (pointed : TypeExpr)
  | mutable (span : Span) (inner : TypeExpr)
deriving DecidableEq

namespace TypeExpr

def span : TypeExpr → Span
  | .named s _ | .pointer s _ | .mutable s _ => s

def text : TypeExpr → String
  | .named _ n => n
  | .pointer _ t => "*" ++ t.text
  | .mutable _ t => "mut " ++ t.text

/-- The named type that a value of this type holds inside itself: a pointer holds none. -/
def byValueName? : TypeExpr → Option String
  | .named _ n => some n
  | .mutable _ t => t.byValueName?
  | .pointer _ _ => none

end TypeExpr

inductive PrefixOp where
  | negate
  | not
  | addressOf
  | dereference
deriving DecidableEq

inductive BinaryOp where
  | add
  | subtract
  | multiply
  | divide
  | modulo
  | equals
  | notEquals
  | less
  | lessEquals
  | greater
  | greaterEquals
deriving DecidableEq

def BinaryOp.symbol : BinaryOp → String
  | .add => "+"
  | .subtract => "-"
  | .multiply => "*"
  | .divide => "/"
  | .modulo => "%"
  | .equals => "=="
  | .notEquals => "!="
  | .less => "<"
  | .lessEquals => "<="
  | .greater => ">"
  | .greaterEquals => ">="

inductive LogicalOp where
  | and
  | or
deriving DecidableEq

def LogicalOp.symbol : LogicalOp → String
  | .and => "&&"
  | .or => "||"

/-- A literal as written; the digits of a number are not checked yet. -/
inductive Literal where
  | number (text : String)
  | bool (value : Bool)
  | null
deriving DecidableEq

mutual

/-- An expression. -/
inductive Expr where
  | literal (span : Span) (value : Literal)
  | identifier (span : Span) (name : String)
  | prefixed (span : Span) (op : PrefixOp) (operand : Expr)
  | binary (span : Span) (op : BinaryOp) (left right : Expr)
  | logical (span : Span) (op : LogicalOp) (left right : Expr)
  | assign (span : Span) (target value : Expr)
  | call (span : Span) (callee : Expr) (arguments : List Expr)
  | conditional (span : Span) (condition : Expr) (thenBlock : Block) (elseBlock : Option Block)
  | block (block : Block)
  | cast (span : Span) (operand : Expr) (target : TypeExpr)

/-- A statement.  A variable is defined with a type, a first value or both; what is read from tokens
never has neither. -/
inductive Stmt where
  | expr (span : Span) (value : Expr)
  | define (span : Span) (name : String) (type : Option TypeExpr) (init : Option Expr)
  | ret (span : Span) (value : Option Expr)
  | loop (span : Span) (condition : Expr) (body : Block)

/-- Statements between braces. -/
inductive Block where
  | mk (span : Span) (statements : List Stmt)

end

def Block.span : Block → Span
  | .mk s _ => s

def Block.statements : Block → List Stmt
  | .mk _ ss => ss

namespace Expr

def span : Expr → Span
  | .literal s _ | .identifier s _ | .prefixed s _ _ | .binary s _ _ _ | .logical s _ _ _
  | .assign s _ _ | .call s _ _ | .conditional s _ _ _ | .cast s _ _ => s
  | .block b => b.span

/-- Expressions that end in a block. -/
def isBlockLike : Expr → Bool
  | .conditional _ _ _ _ | .block _ => true
  | _ => false

end Expr

def Stmt.span : Stmt → Span
  | .expr s _ | .define s _ _ _ | .ret s _ | .loop s _ _ => s

/-- A parameter of a function. -/
structure Parameter where
  name : String
  type : TypeExpr
  span : Span
deriving DecidableEq

/-- What stands behind a function's head: its body, or the name of the convention by which code
outside the program is called. -/
inductive FunctionBody where
  | block (body : Block)
  | foreign (abi : String) (span : Span)

/-- A function, defined here or elsewhere. -/
structure FunctionDecl where
  name : String
  parameters : List Parameter
  result : Option TypeExpr
  body : FunctionBody
  span : Span

structure StructDecl where
  name : String
  members : List (String × TypeExpr)
  span : Span
deriving DecidableEq

inductive Item where
  | function (decl : FunctionDecl)
  | struct (decl : StructDecl)

/-- A whole program text. -/
structure ModuleSyntax where
  items : List Item
  span : Span

end Gauge
