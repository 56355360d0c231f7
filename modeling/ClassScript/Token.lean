import ClassScript.Position
import ClassScript.Number.Layout

namespace ClassScript

/-!
# Tokens

A token is a kind, the text it was written as, and the position of that text.

* `Symbol`, `Keyword`: the kinds that always read alike, with their spelling;
* `Kind`: all kinds; a string and a number carry what they denote;
* `Token.text`: the line that describes a token.
-/

/-- Punctuation and operators. -/
inductive Symbol where
  | leftParen
  | rightParen
  | leftBrace
  | rightBrace
  | comma
  | dot
  | semicolon
  | colon
  | question
  | minus
  | arrow
  | plus
  | slash
  | star
  | percent
  | caret
  | bang
  | bangEqual
  | equal
  | equalEqual
  | greater
  | greaterEqual
  | less
  | lessEqual
deriving DecidableEq

namespace Symbol

/-- Every symbol. -/
def all : List Symbol :=
  [leftParen, rightParen, leftBrace, rightBrace, comma, dot, semicolon, colon, question, minus,
    arrow, plus, slash, star, percent, caret, bang, bangEqual, equal, equalEqual, greater,
    greaterEqual, less, lessEqual]

/-- How a symbol is spelt. -/
def spelling : Symbol → List Char
  | leftParen => ['(']
  | rightParen => [')']
  | leftBrace => ['\x7b']
  | rightBrace => ['\x7d']
  | comma => [',']
  | dot => ['.']
  | semicolon => [';']
  | colon => [':']
  | question => ['?']
  | minus => ['-']
  | arrow => ['-', '>']
  | plus => ['+']
  | slash => ['/']
  | star => ['*']
  | percent => ['%']
  | caret => ['^']
  | bang => ['!']
  | bangEqual => ['!', '=']
  | equal => ['=']
  | equalEqual => ['=', '=']
  | greater => ['>']
  | greaterEqual => ['>', '=']
  | less => ['<']
  | lessEqual => ['<', '=']

/-- The name under which a symbol is reported. -/
def name : Symbol → String
  | leftParen => "LEFT_PAREN"
  | rightParen => "RIGHT_PAREN"
  | leftBrace => "LEFT_BRACE"
  | rightBrace => "RIGHT_BRACE"
  | comma => "COMMA"
  | dot => "DOT"
  | semicolon => "SEMICOLON"
  | colon => "COLON"
  | question => "QUESTION"
  | minus => "MINUS"
  | arrow => "ARROW"
  | plus => "PLUS"
  | slash => "SLASH"
  | star => "STAR"
  | percent => "PERCENT"
  | caret => "CARET"
  | bang => "BANG"
  | bangEqual => "BANG_EQUAL"
  | equal => "EQUAL"
  | equalEqual => "EQUAL_EQUAL"
  | greater => "GREATER"
  | greaterEqual => "GREATER_EQUAL"
  | less => "LESS"
  | lessEqual => "LESS_EQUAL"

/-- The symbol spelt by the two characters `c` and `d`. -/
def ofPair? (c d : Char) : Option Symbol :=
  match c, d with
  | '-', '>' => some arrow
  | '!', '=' => some bangEqual
  | '=', '=' => some equalEqual
  | '>', '=' => some greaterEqual
  | '<', '=' => some lessEqual
  | _, _ => none

/-- The symbol spelt by the one character `c`. -/
def ofChar? : Char → Option Symbol
  | '(' => some leftParen
  | ')' => some rightParen
  | '\x7b' => some leftBrace
  | '\x7d' => some rightBrace
  | ',' => some comma
  | '.' => some dot
  | ';' => some semicolon
  | ':' => some colon
  | '?' => some question
  | '-' => some minus
  | '+' => some plus
  | '/' => some slash
  | '*' => some star
  | '%' => some percent
  | '^' => some caret
  | '!' => some bang
  | '=' => some equal
  | '>' => some greater
  | '<' => some less
  | _ => none

theorem spelling_ofPair? {c d : Char} {s : Symbol} (h : ofPair? c d = some s) :
    s.spelling = [c, d] := by
  unfold ofPair? at h
  split at h <;> simp_all [spelling, eq_comm]

theorem spelling_ofChar? {c : Char} {s : Symbol} (h : ofChar? c = some s) :
    s.spelling = [c] := by
  unfold ofChar? at h
  split at h <;> simp_all <;> subst h <;> rfl

end Symbol

/-- Words that are no identifiers. -/
inductive Keyword where
  | kwAnd
  | kwClass
  | kwDef
  | kwElse
  | kwFalse
  | kwFor
  | kwIf
  | kwNull
  | kwOr
  | kwReturn
  | kwSuper
  | kwThis
  | kwTrue
  | kwVal
  | kwWhile
  | kwBoolean
  | kwNumber
  | kwString
  | kwVoid
deriving DecidableEq

namespace Keyword

/-- Every keyword. -/
def all : List Keyword :=
  [kwAnd, kwClass, kwDef, kwElse, kwFalse, kwFor, kwIf, kwNull, kwOr, kwReturn, kwSuper, kwThis,
    kwTrue, kwVal, kwWhile, kwBoolean, kwNumber, kwString, kwVoid]

/-- How a keyword is spelt. -/
def spelling : Keyword → String
  | kwAnd => "and"
  | kwClass => "class"
  | kwDef => "def"
  | kwElse => "else"
  | kwFalse => "false"
  | kwFor => "for"
  | kwIf => "if"
  | kwNull => "null"
  | kwOr => "or"
  | kwReturn => "return"
  | kwSuper => "super"
  | kwThis => "this"
  | kwTrue => "true"
  | kwVal => "val"
  | kwWhile => "while"
  | kwBoolean => "Boolean"
  | kwNumber => "Number"
  | kwString => "String"
  | kwVoid => "Void"

/-- The name under which a keyword is reported. -/
def name : Keyword → String
  | kwAnd => "AND"
  | kwClass => "CLASS"
  | kwDef => "DEF"
  | kwElse => "ELSE"
  | kwFalse => "FALSE"
  | kwFor => "FOR"
  | kwIf => "IF"
  | kwNull => "NULL"
  | kwOr => "OR"
  | kwReturn => "RETURN"
  | kwSuper => "SUPER"
  | kwThis => "THIS"
  | kwTrue => "TRUE"
  | kwVal => "VAL"
  | kwWhile => "WHILE"
  | kwBoolean => "BOOLEAN_TYPE"
  | kwNumber => "NUMBER_TYPE"
  | kwString => "STRING_TYPE"
  | kwVoid => "VOID_TYPE"

/-- The keyword spelt `word`. -/
def ofWord? (word : String) : Option Keyword :=
  all.find? fun k => k.spelling == word

end Keyword

/-- What a token is. -/
inductive Kind where
  | symbol (s : Symbol)
  | keyword (k : Keyword)
  | identifier
  /-- A string literal; `text` is what stands between the quotes. -/
  | string (text : String)
  /-- A number literal and the number it denotes. -/
  | number (value : Float)
  /-- The end of the text. -/
  | endOfInput
deriving DecidableEq

namespace Kind

/-- The name under which a kind is reported; what a literal denotes does not show in it. -/
def name : Kind → String
  | symbol s => s.name
  | keyword k => k.name
  | identifier => "IDENTIFIER"
  | string _ => "STRING"
  | number _ => "NUMBER"
  | endOfInput => "EOF"

/-- The kind with the given name. A string is then empty and a number zero. -/
def ofName? (name : String) : Option Kind :=
  let fixed := Symbol.all.map symbol ++ Keyword.all.map keyword
  (fixed ++ [identifier, string "", number 0.0, endOfInput]).find? fun k => k.name == name

/-- What a literal denotes, as text: an integer below `10 ^ 15` in size ends in `.0`, and a kind
    that is no literal denotes nothing. -/
def literalText : Kind → String
  | string text => text
  | number value =>
    match Number.small? value with
    | some n => Number.ofInt n ++ ".0"
    | none => Number.positional value
  | _ => "null"

end Kind

/-- A token: its kind, the text it was written as, and where that text starts. -/
structure Token where
  kind : Kind
  lexeme : String
  pos : Position
deriving DecidableEq

namespace Token

/-- The line that describes a token: kind, text and literal. -/
def text (t : Token) : String :=
  t.kind.name ++ " " ++ t.lexeme ++ " " ++ t.kind.literalText

/-- Whether the token ends the input. -/
def isEnd (t : Token) : Bool :=
  match t.kind with
  | .endOfInput => true
  | _ => false

end Token

end ClassScript
