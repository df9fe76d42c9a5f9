import Gauge.Proofs.Syntax.Forms

/-!
# Proofs — writing syntax trees

The tokens of a syntax tree, with parentheses only where the power of an operand asks for them, and
around a statement that would otherwise be taken for a block or a conditional.  A tree is well
formed if its names are not reserved words; trees are compared without their spans (`Expr.erase`).
-/

namespace Gauge

/-! ### Lexemes -/

/-- What a token says, wherever it stands. -/
structure Lexeme where
  kind : TokenKind
  value : String
deriving DecidableEq

def Token.lexeme (t : Token) : Lexeme := ⟨t.kind, t.value⟩

namespace TokenKind

/-- The marks and the text of each. -/
def marks : List (String × TokenKind) :=
  [("\x7b", .openCurly), ("\x7d", .closeCurly), ("(", .openParen), (")", .closeParen),
    (";", .semicolon),
   (":", .colon), (",", .comma)]

/-- The text of a mark, an operator or a reserved word. -/
def spelling (k : TokenKind) : String :=
  (((marks ++ operators ++ reserved).find? (·.2 = k)).map (·.1)).getD ""

/-- The word is not reserved. -/
def IsName (s : String) : Prop := s ∉ reserved.map Prod.fst

instance (s : String) : Decidable (IsName s) := inferInstanceAs (Decidable (s ∉ _))

theorem ofWord_of_isName {s : String} (h : IsName s) : ofWord s = .identifier := by
  rw [ofWord, List.lookup_eq_none_iff.mpr]
  · rfl
  · intro p hp
    rw [bne_iff_ne]
    rintro rfl
    exact h (List.mem_map_of_mem hp)

end TokenKind

namespace Lexeme

/-- A mark, an operator or a reserved word. -/
def mark (k : TokenKind) : Lexeme := ⟨k, k.spelling⟩

/-- A word: a name, unless it is reserved. -/
def word (s : String) : Lexeme := ⟨.ofWord s, s⟩

theorem word_of_isName {s : String} (h : TokenKind.IsName s) : word s = ⟨.identifier, s⟩ := by
  rw [word, TokenKind.ofWord_of_isName h]

end Lexeme

/-! ### Operators -/

/-- The operator of an infix form; a call starts with a parenthesis. -/
def InfixForm.kind : InfixForm → TokenKind
  | .assign => .assignment
  | .logical .or => .or
  | .logical .and => .and
  | .binary .less => .less
  | .binary .lessEquals => .lessEquals
  | .binary .greater => .greater
  | .binary .greaterEquals => .greaterEquals
  | .binary .equals => .equals
  | .binary .notEquals => .notEquals
  | .binary .add => .plus
  | .binary .subtract => .dash
  | .binary .multiply => .star
  | .binary .divide => .slash
  | .binary .modulo => .percent
  | .cast => .kwAs
  | .call => .openParen

theorem InfixForm.ofKind?_kind (f : InfixForm) : InfixForm.ofKind? f.kind = some f := by
  cases f with
  | assign | cast | call => rfl
  | logical op | binary op => cases op <;> rfl

def PrefixOp.kind : PrefixOp → TokenKind
  | .negate => .dash
  | .not => .not
  | .addressOf => .ampersand
  | .dereference => .star

/-! ### Tokens of a tree -/

/-- Puts parentheses around some tokens where they are needed. -/
def bracket (needed : Bool) (ts : List Lexeme) : List Lexeme :=
  if needed then .mark .openParen :: (ts ++ [.mark .closeParen]) else ts

/-- The tokens start like a block or a conditional. -/
def startsBlock (ts : List Lexeme) : Bool :=
  ts.head?.any fun l => l.kind = .openCurly || l.kind = .kwIf

def TypeExpr.render : TypeExpr → List Lexeme
  | .named _ name => [.word name]
  | .pointer _ t => .mark .star :: t.render
  | .mutable _ t => .mark .kwMut :: t.render

def Literal.lexeme : Literal → Lexeme
  | .number text => ⟨.number, text⟩
  | .bool true => .mark .kwTrue
  | .bool false => .mark .kwFalse
  | .null => .mark .kwNull

/-- How tightly the parts of an expression are held together; where it has but one part, nothing
comes between. -/
def Expr.rank : Expr → Nat
  | .assign _ _ _ => InfixForm.assign.power.rank
  | .logical _ op _ _ => (InfixForm.logical op).power.rank
  | .binary _ op _ _ => (InfixForm.binary op).power.rank
  | .cast _ _ _ => InfixForm.cast.power.rank
  | .prefixed _ _ _ => Power.unary.rank
  | .call _ _ _ => InfixForm.call.power.rank
  | .literal _ _ | .identifier _ _ | .conditional _ _ _ _ | .block _ => Power.call.rank + 1

mutual

/-- The tokens of an expression. -/
def Expr.render : Expr → List Lexeme
  | .literal _ l => [l.lexeme]
  | .identifier _ name => [.word name]
  | .prefixed _ op e => .mark op.kind :: bracket (e.rank < Power.unary.rank) e.render
  | .binary _ op l r =>
    let form := InfixForm.binary op
    bracket (l.rank < form.power.rank) l.render ++
      .mark form.kind :: bracket (r.rank < form.power.rank + 1) r.render
  | .logical _ op l r =>
    let form := InfixForm.logical op
    bracket (l.rank < form.power.rank) l.render ++
      .mark form.kind :: bracket (r.rank < form.power.rank + 1) r.render
  | .assign _ l r =>
    let form := InfixForm.assign
    bracket (l.rank < form.power.rank + 1) l.render ++
      .mark form.kind :: bracket (r.rank < form.power.rank) r.render
  | .call _ f es =>
    bracket (f.rank < InfixForm.call.power.rank) f.render ++
      .mark .openParen :: (Expr.renderAll es ++ [.mark .closeParen])
  | .cast _ e t =>
    bracket (e.rank < InfixForm.cast.power.rank) e.render ++ .mark .kwAs :: t.render
  | .conditional _ c t none => .mark .kwIf :: (c.render ++ t.render)
  | .conditional _ c t (some e) =>
    .mark .kwIf :: (c.render ++ (t.render ++ .mark .kwElse :: e.render))
  | .block b => b.render

/-- The arguments of a call. -/
def Expr.renderAll : List Expr → List Lexeme
  | [] => []
  | [e] => e.render
  | e :: f :: es => e.render ++ .mark .comma :: Expr.renderAll (f :: es)

/-- The tokens of a statement. -/
def Stmt.render : Stmt → List Lexeme
  | .expr _ e =>
    if e.isBlockLike then e.render
    else bracket (startsBlock e.render) e.render ++ [.mark .semicolon]
  | .define _ name (some t) none =>
    .mark .kwDef :: .word name :: .mark .colon :: (t.render ++ [.mark .semicolon])
  | .define _ name (some t) (some e) =>
    .mark .kwDef :: .word name :: .mark .colon ::
      (t.render ++ .mark .assignment :: (e.render ++ [.mark .semicolon]))
  | .define _ name none (some e) =>
    .mark .kwDef :: .word name :: .mark .assignment :: (e.render ++ [.mark .semicolon])
  | .define _ name none none => [.mark .kwDef, .word name, .mark .semicolon]
  | .ret _ none => [.mark .kwReturn, .mark .semicolon]
  | .ret _ (some e) => .mark .kwReturn :: (e.render ++ [.mark .semicolon])
  | .loop _ c b => .mark .kwWhile :: (c.render ++ b.render)

def Stmt.renderAll : List Stmt → List Lexeme
  | [] => []
  | s :: ss => s.render ++ Stmt.renderAll ss

def Block.render : Block → List Lexeme
  | .mk _ ss => .mark .openCurly :: (Stmt.renderAll ss ++ [.mark .closeCurly])

end

/-- The tokens of an expression where one that is held less tightly than `k` needs parentheses. -/
def Expr.renderAt (k : Nat) (e : Expr) : List Lexeme := bracket (e.rank < k) e.render

namespace Expr

variable {s : Span} {e l r : Expr}

theorem render_prefixed {op : PrefixOp} :
    (Expr.prefixed s op e).render = .mark op.kind :: e.renderAt Power.unary.rank := rfl

theorem render_binary {op : BinaryOp} :
    (Expr.binary s op l r).render = l.renderAt (InfixForm.binary op).power.rank ++
      .mark (InfixForm.binary op).kind :: r.renderAt ((InfixForm.binary op).power.rank + 1) := rfl

theorem render_logical {op : LogicalOp} :
    (Expr.logical s op l r).render = l.renderAt (InfixForm.logical op).power.rank ++
      .mark (InfixForm.logical op).kind :: r.renderAt ((InfixForm.logical op).power.rank + 1) := rfl

theorem render_assign :
    (Expr.assign s l r).render = l.renderAt (InfixForm.assign.power.rank + 1) ++
      .mark InfixForm.assign.kind :: r.renderAt InfixForm.assign.power.rank := rfl

theorem render_cast {t : TypeExpr} :
    (Expr.cast s e t).render =
      e.renderAt InfixForm.cast.power.rank ++ .mark InfixForm.cast.kind :: t.render := rfl

theorem render_call {es : List Expr} :
    (Expr.call s e es).render = e.renderAt InfixForm.call.power.rank ++
      .mark InfixForm.call.kind :: (Expr.renderAll es ++ [.mark .closeParen]) := rfl

end Expr

def Parameter.render (p : Parameter) : List Lexeme :=
  .word p.name :: .mark .colon :: p.type.render

def Parameter.renderAll : List Parameter → List Lexeme
  | [] => []
  | [p] => p.render
  | p :: q :: ps => p.render ++ .mark .comma :: Parameter.renderAll (q :: ps)

/-- Name, parameters and result of a function. -/
def FunctionDecl.renderHead (f : FunctionDecl) : List Lexeme :=
  .mark .kwDef :: .word f.name :: .mark .openParen :: (Parameter.renderAll f.parameters ++
    .mark .closeParen :: (f.result.map fun t => .mark .arrow :: t.render).getD [])

def FunctionDecl.render (f : FunctionDecl) : List Lexeme :=
  match f.body with
  | .block b => f.renderHead ++ b.render
  | .foreign abi _ => .mark .kwExtern :: ⟨.string, abi⟩ :: (f.renderHead ++ [.mark .semicolon])

/-- The members of a struct. -/
def StructDecl.renderMembers : List (String × TypeExpr) → List Lexeme
  | [] => []
  | (name, t) :: ms =>
    .word name :: .mark .colon :: (t.render ++ .mark .semicolon :: StructDecl.renderMembers ms)

def StructDecl.render (d : StructDecl) : List Lexeme :=
  .mark .kwStruct :: .word d.name :: .mark .openCurly ::
    (StructDecl.renderMembers d.members ++ [.mark .closeCurly])

def Item.render : Item → List Lexeme
  | .function f => f.render
  | .struct d => d.render

def Item.renderAll : List Item → List Lexeme
  | [] => []
  | i :: is => i.render ++ Item.renderAll is

/-- The tokens of a module, without the one at its end. -/
def ModuleSyntax.render (m : ModuleSyntax) : List Lexeme := Item.renderAll m.items

/-! ### Well-formed trees -/

open TokenKind (IsName)

/-- No name in the tree is a reserved word. -/
def TypeExpr.WellFormed : TypeExpr → Prop
  | .named _ name => IsName name
  | .pointer _ t | .mutable _ t => t.WellFormed

mutual

def Expr.WellFormed : Expr → Prop
  | .literal _ _ => True
  | .identifier _ name => IsName name
  | .prefixed _ _ e => e.WellFormed
  | .binary _ _ l r | .logical _ _ l r | .assign _ l r => l.WellFormed ∧ r.WellFormed
  | .call _ f es => f.WellFormed ∧ Expr.WellFormedAll es
  | .cast _ e t => e.WellFormed ∧ t.WellFormed
  | .conditional _ c t none => c.WellFormed ∧ t.WellFormed
  | .conditional _ c t (some e) => c.WellFormed ∧ t.WellFormed ∧ e.WellFormed
  | .block b => b.WellFormed

def Expr.WellFormedAll : List Expr → Prop
  | [] => True
  | e :: es => e.WellFormed ∧ Expr.WellFormedAll es

def Stmt.WellFormed : Stmt → Prop
  | .expr _ e => e.WellFormed
  | .define _ name (some t) none => IsName name ∧ t.WellFormed
  | .define _ name (some t) (some e) => IsName name ∧ t.WellFormed ∧ e.WellFormed
  | .define _ name none (some e) => IsName name ∧ e.WellFormed
  | .define _ _ none none => False
  | .ret _ none => True
  | .ret _ (some e) => e.WellFormed
  | .loop _ c b => c.WellFormed ∧ b.WellFormed

def Stmt.WellFormedAll : List Stmt → Prop
  | [] => True
  | s :: ss => s.WellFormed ∧ Stmt.WellFormedAll ss

def Block.WellFormed : Block → Prop
  | .mk _ ss => Stmt.WellFormedAll ss

end

structure Parameter.WellFormed (p : Parameter) : Prop where
  name : IsName p.name
  type : p.type.WellFormed

def FunctionBody.WellFormed : FunctionBody → Prop
  | .block b => b.WellFormed
  | .foreign _ _ => True

structure FunctionDecl.WellFormed (f : FunctionDecl) : Prop where
  name : IsName f.name
  parameters : ∀ p ∈ f.parameters, p.WellFormed
  result : ∀ t, f.result = some t → t.WellFormed
  body : f.body.WellFormed

structure StructDecl.WellFormed (d : StructDecl) : Prop where
  name : IsName d.name
  members : ∀ m ∈ d.members, IsName m.1 ∧ m.2.WellFormed

def Item.WellFormed : Item → Prop
  | .function f => f.WellFormed
  | .struct d => d.WellFormed

/-- A module whose names are not reserved words and whose variables have a type or a first value. 
That a function has a body or a convention but not both is in the shape of the tree. -/
def ModuleSyntax.WellFormed (m : ModuleSyntax) : Prop := ∀ i ∈ m.items, i.WellFormed

/-! ### Trees without spans -/

def TypeExpr.erase : TypeExpr → TypeExpr
  | .named _ name => .named .null name
  | .pointer _ t => .pointer .null t.erase
  | .mutable _ t => .mutable .null t.erase

mutual

/-- The expression as if it stood nowhere. -/
def Expr.erase : Expr → Expr
  | .literal _ l => .literal .null l
  | .identifier _ name => .identifier .null name
  | .prefixed _ op e => .prefixed .null op e.erase
  | .binary _ op l r => .binary .null op l.erase r.erase
  | .logical _ op l r => .logical .null op l.erase r.erase
  | .assign _ l r => .assign .null l.erase r.erase
  | .call _ f es => .call .null f.erase (Expr.eraseAll es)
  | .cast _ e t => .cast .null e.erase t.erase
  | .conditional _ c t none => .conditional .null c.erase t.erase none
  | .conditional _ c t (some e) => .conditional .null c.erase t.erase (some e.erase)
  | .block b => .block b.erase

def Expr.eraseAll : List Expr → List Expr
  | [] => []
  | e :: es => e.erase :: Expr.eraseAll es

def Stmt.erase : Stmt → Stmt
  | .expr _ e => .expr .null e.erase
  | .define _ name t none => .define .null name (t.map TypeExpr.erase) none
  | .define _ name t (some e) => .define .null name (t.map TypeExpr.erase) (some e.erase)
  | .ret _ none => .ret .null none
  | .ret _ (some e) => .ret .null (some e.erase)
  | .loop _ c b => .loop .null c.erase b.erase

def Stmt.eraseAll : List Stmt → List Stmt
  | [] => []
  | s :: ss => s.erase :: Stmt.eraseAll ss

def Block.erase : Block → Block
  | .mk _ ss => .mk .null (Stmt.eraseAll ss)

end

def Parameter.erase (p : Parameter) : Parameter := ⟨p.name, p.type.erase, .null⟩

def FunctionBody.erase : FunctionBody → FunctionBody
  | .block b => .block b.erase
  | .foreign abi _ => .foreign abi .null

def FunctionDecl.erase (f : FunctionDecl) : FunctionDecl :=
  ⟨f.name, f.parameters.map Parameter.erase, f.result.map TypeExpr.erase, f.body.erase, .null⟩

def StructDecl.erase (d : StructDecl) : StructDecl :=
  ⟨d.name, d.members.map fun m => (m.1, m.2.erase), .null⟩

def Item.erase : Item → Item
  | .function f => .function f.erase
  | .struct d => .struct d.erase

def ModuleSyntax.erase (m : ModuleSyntax) : ModuleSyntax := ⟨m.items.map Item.erase, .null⟩

end Gauge
