import ClassScript.Bindings

namespace ClassScript

/-!
# Frames at run time

A heap of frames. A frame binds names and may stand inside another frame, which was there before it,
so that following the enclosing frames comes to an end. Frames are shared: whoever knows the number
of a frame sees what others bind in it.

* `Heap.alloc`, `Heap.define`: a new frame, and a binding in a frame;
* `Heap.holder?`: the nearest frame outward that binds a name; `get?` and `assign?` go by it;
* `Heap.ancestor?`: the frame a number of steps outward; `getAt?` and `assignAt?` go by it.
-/

/-- The number of a frame. -/
structure FrameId where
  index : Nat
deriving DecidableEq

/-- A frame: its bindings, and the frame that it stands inside. -/
structure Frame (α : Type) where
  enclosing : Option FrameId
  bindings : Bindings α

/-- All frames made so far, by number. -/
structure Heap (α : Type) where
  frames : Array (Frame α)

namespace Heap

variable {α : Type}

/-- There is no frame. -/
def empty : Heap α := ⟨#[]⟩

/-- The frame with a number. -/
def frame? (h : Heap α) (f : FrameId) : Option (Frame α) := h.frames[f.index]?

/-- The number that the next frame gets. -/
def next (h : Heap α) : FrameId := ⟨h.frames.size⟩

/-- Makes a frame, whose number is that of `next`. -/
def alloc (h : Heap α) (enclosing : Option FrameId) (bindings : Bindings α) : Heap α :=
  ⟨h.frames.push ⟨enclosing, bindings⟩⟩

/-- Binds `name` in the frame `f`, whatever it was bound to there. -/
def define (h : Heap α) (f : FrameId) (name : String) (value : α) : Heap α :=
  ⟨h.frames.modify f.index fun frame =>
    { frame with bindings := frame.bindings.insert name value }⟩

/-- What `name` is bound to in the frame `f` alone. -/
def lookup? (h : Heap α) (f : FrameId) (name : String) : Option α :=
  (h.frame? f).bind fun frame => frame.bindings.find? name

/-- The frame that `f` stands inside. -/
def enclosing? (h : Heap α) (f : FrameId) : Option FrameId :=
  (h.frame? f).bind fun frame => frame.enclosing

/-! ### By steps outward -/

/-- The frame `distance` steps outward from `f`. -/
def ancestor? (h : Heap α) (f : FrameId) : Nat → Option FrameId
  | 0 => some f
  | distance + 1 =>
    match h.enclosing? f with
    | some outer => h.ancestor? outer distance
    | none => none

/-- The frame `distance` steps outward from `f`, if it binds `name`. -/
def holderAt? (h : Heap α) (f : FrameId) (distance : Nat) (name : String) : Option FrameId :=
  match h.ancestor? f distance with
  | some frame => if (h.lookup? frame name).isSome then some frame else none
  | none => none

/-- What `name` is bound to in the frame `distance` steps outward from `f`. -/
def getAt? (h : Heap α) (f : FrameId) (distance : Nat) (name : String) : Option α :=
  (h.ancestor? f distance).bind fun frame => h.lookup? frame name

/-- Replaces the binding of `name` in the frame `distance` steps outward; nothing happens if that
    frame does not bind it. -/
def assignAt? (h : Heap α) (f : FrameId) (distance : Nat) (name : String) (value : α) :
    Option (Heap α) :=
  (h.holderAt? f distance name).map fun frame => h.define frame name value

/-! ### By name -/

/-- The nearest frame outward from `f` that binds `name`, within `fuel` frames. -/
def holderWithin? (h : Heap α) (name : String) : Nat → FrameId → Option FrameId
  | 0, _ => none
  | fuel + 1, f =>
    if (h.lookup? f name).isSome then some f
    else
      match h.enclosing? f with
      | some outer => h.holderWithin? name fuel outer
      | none => none

/-- The nearest frame outward from `f` that binds `name`. Frames stand inside older frames only, so
    there are no more of them outward than the number of `f` says. -/
def holder? (h : Heap α) (f : FrameId) (name : String) : Option FrameId :=
  h.holderWithin? name (f.index + 1) f

/-- What `name` is bound to in the nearest frame outward from `f` that binds it. -/
def get? (h : Heap α) (f : FrameId) (name : String) : Option α :=
  (h.holder? f name).bind fun frame => h.lookup? frame name

/-- Replaces the binding of `name` in the nearest frame outward from `f` that binds it; nothing
    happens if there is none. -/
def assign? (h : Heap α) (f : FrameId) (name : String) (value : α) : Option (Heap α) :=
  (h.holder? f name).map fun frame => h.define frame name value

end Heap

end ClassScript
