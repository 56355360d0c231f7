import ClassScript.Token

namespace ClassScript

/-!
# From text to tokens

A text is cut into pieces that follow each other without gaps: blanks, comments, tokens and faulty
stretches. The longest piece of its class is taken. The position of a piece is that of the text
before it, so lines and columns need no bookkeeping of their own.

* `Piece.front`: the piece at the front of a text;
* `pieces`: the text, cut up;
* `items`: tokens and faults in order with their positions, and the end of input after them;
* `scan`: the tokens, or every fault.
-/

/-- What can be wrong with a stretch of text. -/
inductive LexFault where
  | unexpectedCharacter (c : Char)
  | unterminatedString
  | unterminatedComment
deriving DecidableEq

/-- The wording of a fault. -/
def LexFault.message : LexFault → String
  | unexpectedCharacter c => "Unexpected character '" ++ String.singleton c ++ "'"
  | unterminatedString => "Unterminated string literal"
  | unterminatedComment => "Unterminated block comment"

/-- What a piece of text is. -/
inductive Shape where
  | blank
  | comment
  | token (kind : Kind)
  | fault (fault : LexFault)
deriving DecidableEq

/-- A stretch of text and what it is. -/
structure Piece where
  shape : Shape
  text : List Char
deriving DecidableEq

/-! ### Character classes -/

/-- Blanks separate tokens and mean nothing else. -/
def isBlank (c : Char) : Bool :=
  c == ' ' || c == '\t' || c == '\r' || c == '\n'

/-- The first character of a word: a letter or an underscore. The language knows ASCII letters
    only. -/
def isWordStart (c : Char) : Bool := c.isAlpha || c == '_'

/-- A later character of a word. -/
def isWordPart (c : Char) : Bool := c.isAlphanum || c == '_'

/-! ### Pieces by class -/

namespace Piece

/-- A word that starts with `c`: a keyword, or an identifier. -/
def word (c : Char) (rest : List Char) : Piece :=
  let text := c :: rest.takeWhile isWordPart
  match Keyword.ofWord? (String.ofList text) with
  | some k => ⟨.token (.keyword k), text⟩
  | none => ⟨.token .identifier, text⟩

/-- The fraction at the front of a text: a point and at least one digit, else nothing. -/
def fraction : List Char → List Char
  | '.' :: d :: rest => if d.isDigit then '.' :: d :: rest.takeWhile Char.isDigit else []
  | _ => []

/-- The natural number that a row of digits denotes. -/
def digitsValue (digits : List Char) : Nat :=
  digits.foldl (fun n d => 10 * n + (d.toNat - '0'.toNat)) 0

/-- The number nearest to a decimal, given by its digits before and after the point. -/
def numberValue (whole part : List Char) : Float :=
  Float.ofScientific (digitsValue (whole ++ part)) true part.length

/-- A number that starts with the digit `c`. -/
def number (c : Char) (rest : List Char) : Piece :=
  let whole := c :: rest.takeWhile Char.isDigit
  let part := fraction (rest.dropWhile Char.isDigit)
  ⟨.token (.number (numberValue whole part.tail)), whole ++ part⟩

/-- A string; `rest` is the text after the opening quote. A string without a closing quote is a
    fault that takes all of the text. -/
def string (rest : List Char) : Piece :=
  let body := rest.takeWhile (· != '"')
  match rest.dropWhile (· != '"') with
  | _ :: _ => ⟨.token (.string (String.ofList body)), '"' :: (body ++ ['"'])⟩
  | [] => ⟨.fault .unterminatedString, '"' :: rest⟩

/-- The text up to the end of a block comment inside which `depth` further comments are open, the
    end included. Opening and closing marks are counted from left to right and do not overlap. -/
def commentBody (depth : Nat) : List Char → Option (List Char)
  | [] => none
  | '*' :: '/' :: rest =>
    match depth with
    | 0 => some ['*', '/']
    | depth + 1 => (commentBody depth rest).map fun text => '*' :: '/' :: text
  | '/' :: '*' :: rest => (commentBody (depth + 1) rest).map fun text => '/' :: '*' :: text
  | c :: rest => (commentBody depth rest).map fun text => c :: text

/-- A block comment; `rest` is the text after its opening mark. -/
def blockComment (rest : List Char) : Piece :=
  match commentBody 0 rest with
  | some body => ⟨.comment, '/' :: '*' :: body⟩
  | none => ⟨.fault .unterminatedComment, '/' :: '*' :: rest⟩

/-- A line comment; `rest` is the text after its mark. The line feed is not part of it. -/
def lineComment (rest : List Char) : Piece :=
  ⟨.comment, '/' :: '/' :: rest.takeWhile (· != '\n')⟩

/-- A symbol, two characters long if there is such a symbol; else a character that starts no
    token. -/
def symbol (c : Char) (rest : List Char) : Piece :=
  let single : Piece :=
    match Symbol.ofChar? c with
    | some s => ⟨.token (.symbol s), [c]⟩
    | none => ⟨.fault (.unexpectedCharacter c), [c]⟩
  match rest with
  | d :: _ =>
    match Symbol.ofPair? c d with
    | some s => ⟨.token (.symbol s), [c, d]⟩
    | none => single
  | [] => single

/-- The piece at the front of the text `c :: rest`. -/
def front (c : Char) (rest : List Char) : Piece :=
  if isBlank c then ⟨.blank, [c]⟩
  else if c == '"' then string rest
  else if c.isDigit then number c rest
  else if isWordStart c then word c rest
  else
    match c, rest with
    | '/', '/' :: rest => lineComment rest
    | '/', '*' :: rest => blockComment rest
    | _, _ => symbol c rest

end Piece

/-- The pieces of a text whose first `skip` characters belong to the piece before. -/
def cut (skip : Nat) : List Char → List Piece
  | [] => []
  | c :: rest =>
    match skip with
    | skip + 1 => cut skip rest
    | 0 =>
      let piece := Piece.front c rest
      piece :: cut (piece.text.length - 1) rest

/-- The pieces of a text. -/
def pieces (text : List Char) : List Piece := cut 0 text

/-! ### Items -/

/-- What scanning yields: a token, or a fault where a token was looked for. -/
inductive Item where
  | token (token : Token)
  | fault (fault : Located LexFault)
deriving DecidableEq

/-- The items of the pieces from position `pos` on. The end of input stands where the text ends. -/
def items (pos : Position) : List Piece → List Item
  | [] => [.token ⟨.endOfInput, "", pos⟩]
  | piece :: more =>
    let later := items (pos.advance piece.text) more
    match piece.shape with
    | .token kind => .token ⟨kind, String.ofList piece.text, pos⟩ :: later
    | .fault fault => .fault ⟨fault, pos⟩ :: later
    | .blank => later
    | .comment => later

/-- The items of a source text. -/
def itemsOf (source : String) : List Item :=
  items .start (pieces source.toList)

namespace Item

/-- The token that an item is. -/
def token? : Item → Option Token
  | token t => some t
  | fault _ => none

/-- The fault that an item is. -/
def fault? : Item → Option (Located LexFault)
  | token _ => none
  | fault f => some f

end Item

/-- The tokens of a source text, the end of input last; or every fault, in order. -/
def scan (source : String) : Except (List (Located LexFault)) (List Token) :=
  let all := itemsOf source
  match all.filterMap Item.fault? with
  | [] => .ok (all.filterMap Item.token?)
  | faults => .error faults

end ClassScript
