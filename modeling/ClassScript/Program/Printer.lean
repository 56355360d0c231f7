import ClassScript.Program

namespace ClassScript

/-!
# Programs as text

A statement is written on one line, operators and keywords in front of what they apply to and each
construct in parentheses. Texts of string literals are written as they are.

* `Expr.render`, `Stmt.render`: the text of an expression and of a statement;
* `Literal.render`: an integer has every digit and ends in `.0`, any other number is positional.
-/

/-- The text of a constant. -/
def Literal.render : Literal → String
  | number value =>
    match Number.exactWhole? value with
    | some digits => digits ++ ".0"
    | none => Number.positional value
  | string text => "\"" ++ text ++ "\""
  | boolean true => "true"
  | boolean false => "false"
  | null => "null"

/-- The text of an annotation. -/
def TypeName.render : TypeName → String
  | boolean => "Boolean"
  | number => "Number"
  | string => "String"
  | void => "Void"
  | named ref => ref.name.text

/-- The text of a parameter. -/
def Param.render (p : Param) : String :=
  p.name.text ++ ": " ++ p.type.render

mutual

/-- The text of an expression. -/
def Expr.render : Expr → String
  | .literal value => value.render
  | .grouping inner => "(group " ++ inner.render ++ ")"
  | .unary operator operand => "(" ++ operator.lexeme ++ " " ++ operand.render ++ ")"
  | .binary left operator right =>
    "(" ++ operator.lexeme ++ " " ++ left.render ++ " " ++ right.render ++ ")"
  | .logical left operator right =>
    "(" ++ operator.lexeme ++ " " ++ left.render ++ " " ++ right.render ++ ")"
  | .ternary condition _ yes no =>
    "(?: " ++ condition.render ++ " " ++ yes.render ++ " " ++ no.render ++ ")"
  | .var ref => ref.name.text
  | .assign target value => "(= " ++ target.name.text ++ " " ++ value.render ++ ")"
  | .call callee _ arguments => "(call " ++ callee.render ++ Expr.renderEach arguments ++ ")"
  | .get object name => "(. " ++ object.render ++ " " ++ name.text ++ ")"
  | .set object name value =>
    "(.= " ++ object.render ++ " " ++ name.text ++ " " ++ value.render ++ ")"
  | .this _ => "this"
  | .super _ method => "(super " ++ method.text ++ ")"

/-- The texts of expressions, each after a blank. -/
def Expr.renderEach : List Expr → String
  | [] => ""
  | e :: es => " " ++ e.render ++ Expr.renderEach es

end

/-- The text of an optional part after the mark in front of it. -/
def optional {α : Type} (mark : String) (render : α → String) : Option α → String
  | some a => mark ++ render a
  | none => ""

mutual

/-- The text of a statement. -/
def Stmt.render : Stmt → String
  | .expression e => "(expr " ++ e.render ++ ")"
  | .val name type initializer =>
    "(val " ++ name.text ++ optional ": " TypeName.render type
      ++ optional " " Expr.render initializer ++ ")"
  | .block body => "(block" ++ Stmt.renderEach body ++ ")"
  | .ifThen _ condition yes => "(if " ++ condition.render ++ " " ++ yes.render ++ ")"
  | .ifElse _ condition yes no =>
    "(if " ++ condition.render ++ " " ++ yes.render ++ " " ++ no.render ++ ")"
  | .whileLoop _ condition body => "(while " ++ condition.render ++ " " ++ body.render ++ ")"
  | .funDecl decl => decl.render
  | .ret _ value =>
    match value with
    | some e => "(return " ++ e.render ++ ")"
    | none => "(return)"
  | .classDecl name superclass methods =>
    "(class " ++ name.text ++ optional " < " (fun ref : Reference => ref.name.text) superclass
      ++ FunctionDecl.renderEach methods ++ ")"

/-- The texts of statements, each after a blank. -/
def Stmt.renderEach : List Stmt → String
  | [] => ""
  | s :: ss => " " ++ s.render ++ Stmt.renderEach ss

/-- The text of a function. One without an annotation is written as returning `Void`. -/
def FunctionDecl.render : FunctionDecl → String
  | ⟨name, params, returns, body⟩ =>
    "(def " ++ name.text ++ " (" ++ String.intercalate ", " (params.map Param.render) ++ ") -> "
      ++ (returns.getD .void).render ++ " (block" ++ Stmt.renderEach body ++ "))"

/-- The texts of functions, each after a blank. -/
def FunctionDecl.renderEach : List FunctionDecl → String
  | [] => ""
  | d :: ds => " " ++ d.render ++ FunctionDecl.renderEach ds

end

end ClassScript
