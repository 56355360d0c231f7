import ClassScript.Distances
import ClassScript.Number.Arithmetic
import ClassScript.Position
import ClassScript.Sink
import ClassScript.Value

namespace ClassScript

/-!
# The machine

The state that a running program changes, and the steps on it. A computation ends with a result,
with a failure of the program or without fuel; the state is kept either way.

* `RuntimeFault`: failures of a program;
* `Machine`: frames, fields of instances, the current frame, the table of distances and the sink;
* `Eval`: computations;
* `Eval.within`: runs a computation in another frame, and comes back whatever happens.
-/

/-- What can go wrong while a program runs. -/
inductive RuntimeFault where
  | undefinedVariable (name : String)
  | unresolvedSuper
  | superclass (actual : Tag)
  | condition (actual : Tag)
  | unaryOperand (operator : String) (actual : Tag)
  | logicalOperand (operator : String) (actual : Tag)
  | operands (operator : String) (left right : Tag)
  | unknownOperator (operator : String)
  | noProperties (actual : Tag)
  | noFields (actual : Tag)
  | undefinedProperty (name : String)
  | notCallable (actual : Tag)
  | argumentCount (expected actual : Nat)
  | unboundInitializer
  | absArgument
  | lenArgument
  | charAtArguments
  /-- The index, cut toward zero, does not stand for a character of the string. -/
  | indexRange (index : Float) (length : Nat)
  /-- The sink refused, in its own words. -/
  | refused (text : String)

/-- The wording of a failure. -/
def RuntimeFault.message : RuntimeFault → String
  | undefinedVariable name => "Undefined variable '" ++ name ++ "'"
  | unresolvedSuper => "Unresolved 'super'"
  | superclass actual => "Superclass must be a class, got " ++ actual.name
  | condition actual => "Condition must be a Boolean, got " ++ actual.name
  | unaryOperand operator actual =>
    "Invalid operand for unary '" ++ operator ++ "': " ++ actual.name
  | logicalOperand operator actual =>
    "Operand of '" ++ operator ++ "' must be a Boolean, got " ++ actual.name
  | operands operator left right =>
    "Operands of '" ++ operator ++ "' must be Numbers, got " ++ left.name ++ " and " ++ right.name
  | unknownOperator operator => "Unknown binary operator '" ++ operator ++ "'"
  | noProperties actual => "Only instances have properties, got " ++ actual.name
  | noFields actual => "Only instances have fields, got " ++ actual.name
  | undefinedProperty name => "Undefined property '" ++ name ++ "'"
  | notCallable actual => "Can only call functions and classes, got " ++ actual.name
  | argumentCount expected actual =>
    "Expected " ++ toString expected ++ " arguments but got " ++ toString actual
  | unboundInitializer => "Initializer has no bound instance"
  | absArgument => "abs expects a Number"
  | lenArgument => "len expects a String"
  | charAtArguments => "charAt expects a String and a Number"
  | indexRange index length =>
    "Index " ++ Number.positional index ++ " out of range for string of length " ++ toString length
  | refused text => text

/-- Why a computation stopped without a result. -/
inductive Stop where
  | failure (fault : Located RuntimeFault)
  | outOfFuel

/-- The state of a running program. -/
structure Machine where
  heap : Heap Value
  /-- The fields of the instances, by their number. -/
  fields : Array (Bindings Value)
  /-- The frame that names are bound in. -/
  current : FrameId
  globals : FrameId
  /-- How many frames up the binding of each local use of a name is. -/
  table : Distances
  /-- The identity of the next function or class. -/
  nextIdentity : Nat
  sink : Sink

/-- A computation: it changes the machine and gives a result, or stops. -/
abbrev Eval := EStateM Stop Machine

namespace Machine

/-- A machine on which nothing has run: the built-in functions are the globals. -/
def fresh (sink : Sink) : Machine :=
  let builtins := Bindings.ofList (Builtin.all.map fun b => (b.name, Value.builtin b))
  let heap : Heap Value := .empty
  { heap := heap.alloc none builtins
    fields := #[]
    current := heap.next
    globals := heap.next
    table := .empty
    nextIdentity := 0
    sink }

/-- What a use of a name is bound to: in the frame at the recorded distance, or as a global. -/
def lookUp? (m : Machine) (ref : Reference) : Option Value :=
  match m.table.get? ref.id with
  | some distance => m.heap.getAt? m.current distance ref.name.text
  | none => m.heap.get? m.globals ref.name.text

/-- The frame whose binding an assignment to a name replaces: the one at the recorded distance, or
    the globals. -/
def holder? (m : Machine) (ref : Reference) : Option FrameId :=
  match m.table.get? ref.id with
  | some distance => m.heap.holderAt? m.current distance ref.name.text
  | none => m.heap.holder? m.globals ref.name.text

/-- A field of an instance. -/
def field? (m : Machine) (object : Instance) (name : String) : Option Value :=
  m.fields[object.index]?.bind fun fields => fields.find? name

end Machine

namespace Eval

variable {α : Type}

/-- Stops because the program failed. -/
def fail (pos : Position) (fault : RuntimeFault) : Eval α :=
  fun m => .error (.failure ⟨fault, pos⟩) m

/-- Stops because there is no fuel left. -/
def exhausted : Eval α :=
  fun m => .error .outOfFuel m

/-- The result of a step that may fail at `pos`. -/
def lift (pos : Position) (result : Except RuntimeFault α) : Eval α :=
  match result with
  | .ok a => pure a
  | .error fault => fail pos fault

/-- Runs a computation in the frame `frame`. The current frame is put back however it ends. -/
def within (frame : FrameId) (act : Eval α) : Eval α :=
  fun m =>
    let previous := m.current
    match act { m with current := frame } with
    | .ok a m => .ok a { m with current := previous }
    | .error stop m => .error stop { m with current := previous }

/-- Makes a frame inside `enclosing`. -/
def newFrame (enclosing : FrameId) (bindings : Bindings Value) : Eval FrameId :=
  fun m =>
    let frame := m.heap.next
    .ok frame { m with heap := m.heap.alloc (some enclosing) bindings }

/-- The frame that names are bound in. -/
def currentFrame : Eval FrameId :=
  fun m => .ok m.current m

/-- Binds a name in the current frame. -/
def define (name : String) (value : Value) : Eval Unit :=
  fun m => .ok () { m with heap := m.heap.define m.current name value }

/-- What a use of a name is bound to. -/
def lookUp (ref : Reference) : Eval Value :=
  fun m =>
    match m.lookUp? ref with
    | some value => .ok value m
    | none => .error (.failure ⟨.undefinedVariable ref.name.text, ref.name.pos⟩) m

/-- Assigns to a name. -/
def assign (ref : Reference) (value : Value) : Eval Unit :=
  fun m =>
    match m.holder? ref with
    | some frame => .ok () { m with heap := m.heap.define frame ref.name.text value }
    | none => .error (.failure ⟨.undefinedVariable ref.name.text, ref.name.pos⟩) m

/-- An identity that nothing has yet. -/
def newIdentity : Eval Nat :=
  fun m => .ok m.nextIdentity { m with nextIdentity := m.nextIdentity + 1 }

/-- Makes an instance without fields. -/
def newInstance (cls : Class) : Eval Instance :=
  fun m => .ok ⟨m.fields.size, cls⟩ { m with fields := m.fields.push .empty }

/-- A method with its receiver: its free names are looked up from a frame of their own that binds
    the receiver. -/
def bindReceiver (method : Closure) (object : Instance) : Eval Closure := do
  let frame ← newFrame method.frame (Bindings.empty.insert thisName (.instanceValue object))
  return { method with frame }

/-- A method with its receiver, as a value. -/
def boundMethod (method : Closure) (object : Instance) : Eval Value := do
  let closure ← bindReceiver method object
  let identity ← newIdentity
  return .function identity closure

/-- A property of an instance: a field, or else a method with the instance as its receiver. -/
def property (object : Instance) (name : Name) : Eval Value := do
  let m ← get
  match m.field? object name.text with
  -- A field hides the method of its name.
  | some value => return value
  | none =>
    match object.cls.findMethod? name.text with
    | some method => boundMethod method object
    | none => fail name.pos (.undefinedProperty name.text)

/-- Sets a field of an instance. -/
def setField (object : Instance) (name : String) (value : Value) : Eval Unit :=
  fun m =>
    .ok () { m with fields := m.fields.modify object.index fun fields => fields.insert name value }

/-- Writes a text to the sink; a refusal is reported at `pos`. -/
def write (pos : Position) (text : String) : Eval Unit :=
  fun m =>
    match m.sink.write text with
    | (true, sink) => .ok () { m with sink }
    -- What fitted before the refusal stays written.
    | (false, sink) => .error (.failure ⟨.refused sink.refusal, pos⟩) { m with sink }

end Eval

end ClassScript
