import ClassScript.Bindings

namespace ClassScript

/-!
# Nested scopes

A global frame and the local frames that are open, innermost first. A name is looked for from the
inside out, so the position of a frame in the list is its distance from the place of use.

* `Place`: where a name was found;
* `Scopes.find?`: the innermost frame that binds a name;
* `Scopes.get?`, `Scopes.set?`: the binding of a name in a given frame.
-/

/-- Where a name is bound. -/
inductive Place where
  /-- In the local frame `distance` frames further out than the innermost. -/
  | frame (distance : Nat)
  | global
deriving DecidableEq

/-- A global frame and the open local frames, innermost first. -/
structure Scopes (α : Type) where
  globals : Bindings α
  frames : List (Bindings α)

namespace Scopes

variable {α : Type}

/-- No local frame is open and no name is bound. -/
def empty : Scopes α := ⟨.empty, []⟩

/-- Opens a frame inside the others. -/
def openFrame (s : Scopes α) : Scopes α := { s with frames := .empty :: s.frames }

/-- Closes the innermost frame; nothing happens if none is open. -/
def closeFrame (s : Scopes α) : Scopes α := { s with frames := s.frames.tail }

/-- How many local frames are open. -/
def depth (s : Scopes α) : Nat := s.frames.length

/-- Whether no local frame is open. -/
def isGlobal (s : Scopes α) : Bool := s.frames.isEmpty

/-- The frame that declarations go to: the innermost one, or the global one. -/
def current (s : Scopes α) : Bindings α := s.frames.headD s.globals

/-- Whether `name` is bound in the frame that declarations go to. -/
def declaredHere (s : Scopes α) (name : String) : Bool := s.current.contains name

/-- Binds `name` in the global frame. -/
def declareGlobal (s : Scopes α) (name : String) (value : α) : Scopes α :=
  { s with globals := s.globals.insert name value }

/-- Binds `name` in the innermost frame, or in the global one if none is open. -/
def declare (s : Scopes α) (name : String) (value : α) : Scopes α :=
  match s.frames with
  | [] => s.declareGlobal name value
  | frame :: outer => { s with frames := frame.insert name value :: outer }

/-- The innermost place that binds `name`. -/
def find? (s : Scopes α) (name : String) : Option Place :=
  match s.frames.findIdx? fun frame => frame.contains name with
  | some distance => some (.frame distance)
  | none => if s.globals.contains name then some .global else none

/-- The frame at a place. -/
def frame? (s : Scopes α) : Place → Option (Bindings α)
  | .global => some s.globals
  | .frame distance => s.frames[distance]?

/-- What `name` is bound to in the frame at `place`. -/
def get? (s : Scopes α) (place : Place) (name : String) : Option α :=
  (s.frame? place).bind fun frame => frame.find? name

/-- The scopes with the binding of `name` in the frame at `place` replaced; nothing if that frame
    does not bind it. -/
def set? (s : Scopes α) (place : Place) (name : String) (value : α) : Option (Scopes α) :=
  if (s.get? place name).isNone then none
  else
    match place with
    | .global => some { s with globals := s.globals.insert name value }
    | .frame distance =>
      some { s with frames := s.frames.modify distance fun frame => frame.insert name value }

end Scopes

end ClassScript
