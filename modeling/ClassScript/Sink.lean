namespace ClassScript

/-!
# Where programs write to

A sink takes bytes. It may be bounded, and then it takes as many bytes as fit and refuses the rest.

* `Sink.write`: writes a text, as far as it fits.
-/

/-- A sink and what was written to it. -/
structure Sink where
  written : ByteArray
  /-- How many bytes the sink takes in all; no bound if absent. -/
  capacity : Option Nat
  /-- The words with which a full sink refuses. -/
  refusal : String
  /-- The words with which the sink fails when a program has ended, if it does. -/
  flushFault : Option String

namespace Sink

/-- A sink without a bound. -/
def unbounded : Sink := ⟨.empty, none, "", none⟩

/-- A sink that takes `capacity` bytes. -/
def bounded (capacity : Nat) (refusal : String) : Sink := ⟨.empty, some capacity, refusal, none⟩

/-- How many of `size` further bytes the sink takes. -/
def room (s : Sink) (size : Nat) : Nat :=
  match s.capacity with
  | some capacity => min size (capacity - s.written.size)
  | none => size

/-- The sink after `text`, of which it keeps the bytes that fit, and whether all of them do. -/
def write (s : Sink) (text : String) : Bool × Sink :=
  let bytes := text.toUTF8
  let taken := s.room bytes.size
  (taken == bytes.size, { s with written := s.written ++ bytes.extract 0 taken })

end Sink

end ClassScript
