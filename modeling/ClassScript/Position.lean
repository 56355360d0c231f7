namespace ClassScript

/-!
# Positions in a source text

A position is a line and a column, both counted from one. The column counts bytes of
UTF-8, so a character moves it on by the width of its encoding.

* `Position.step`: the position after one character;
* `Position.advance`: the position after a stretch of text;
* `Located`: something that was found at a position.
-/

/-- A place in a source text: a line and a byte column, both counted from one. -/
structure Position where
  line : Nat
  column : Nat
deriving DecidableEq, Inhabited

namespace Position

/-- The position of the first character of a text. -/
def start : Position := ⟨1, 1⟩

/-- The position after `c`: a line feed opens the next line, any other character moves the
    column on by its width in UTF-8. -/
def step (p : Position) (c : Char) : Position :=
  if c = '\n' then ⟨p.line + 1, 1⟩ else ⟨p.line, p.column + c.utf8Size⟩

/-- The position after all of `text`. -/
def advance (p : Position) (text : List Char) : Position :=
  text.foldl step p

@[simp] theorem advance_nil (p : Position) : p.advance [] = p := rfl

@[simp] theorem advance_cons (p : Position) (c : Char) (text : List Char) :
    p.advance (c :: text) = (p.step c).advance text := rfl

theorem advance_append (p : Position) (s t : List Char) :
    p.advance (s ++ t) = (p.advance s).advance t :=
  List.foldl_append

/-- Order of the reading direction: by line, then by column. -/
protected def le (p q : Position) : Prop :=
  p.line < q.line ∨ p.line = q.line ∧ p.column ≤ q.column

instance : LE Position := ⟨Position.le⟩

instance (p q : Position) : Decidable (p ≤ q) :=
  inferInstanceAs (Decidable (p.line < q.line ∨ p.line = q.line ∧ p.column ≤ q.column))

end Position

/-- Something that was found at a position, such as a fault. -/
structure Located (α : Type) where
  what : α
  pos : Position
deriving DecidableEq

end ClassScript
