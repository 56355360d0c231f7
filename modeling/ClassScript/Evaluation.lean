import ClassScript.Machine

namespace ClassScript

/-!
# Running programs

Evaluation of expressions and execution of statements on a machine. Every call to evaluate or to
execute a part gets less fuel than the whole had, and without fuel a computation stops. A `return`
is a way for a statement to end; it passes through blocks and loops up to the call.

* `Operator.unary`, `Operator.binary`: operators on values;
* `Builtin.apply`: built-in functions;
* `Eval.evaluate`, `Eval.execute`, `Eval.call`: expressions, statements and calls;
* `Machine.interpret`: a program.
-/

/-! ### Operators -/

namespace Operator

/-- A unary operator applied to a value. -/
def unary (operator : Token) (operand : Value) : Except RuntimeFault Value :=
  match operator.kind, operand with
  | .symbol .bang, .boolean b => .ok (.boolean (!b))
  | .symbol .minus, .number x => .ok (.number (-x))
  | _, other => .error (.unaryOperand operator.lexeme other.tag)

/-- A binary operator applied to two numbers. -/
def numeric (operator : Token) (x y : Float) : Except RuntimeFault Value :=
  match operator.kind with
  | .symbol .plus => .ok (.number (x + y))
  | .symbol .minus => .ok (.number (x - y))
  | .symbol .star => .ok (.number (x * y))
  | .symbol .slash => .ok (.number (x / y))
  | .symbol .percent => .ok (.number (Number.remainder x y))
  | .symbol .caret => .ok (.number (Number.power x y))
  | .symbol .greater => .ok (.boolean (decide (y < x)))
  | .symbol .greaterEqual => .ok (.boolean (decide (y ≤ x)))
  | .symbol .less => .ok (.boolean (decide (x < y)))
  | .symbol .lessEqual => .ok (.boolean (decide (x ≤ y)))
  | _ => .error (.unknownOperator operator.lexeme)

/-- A binary operator applied to two values: equality takes any values, all else takes numbers. -/
def binary (operator : Token) (left right : Value) : Except RuntimeFault Value :=
  match operator.kind with
  | .symbol .equalEqual => .ok (.boolean (left.equals right))
  | .symbol .bangEqual => .ok (.boolean (!left.equals right))
  | _ =>
    match left, right with
    | .number x, .number y => numeric operator x y
    | _, _ => .error (.operands operator.lexeme left.tag right.tag)

/-- Whether the left side of `and` or `or` decides the result: `or` is decided by true, any other
    operator by false. -/
def decides (operator : Token) (left : Bool) : Bool :=
  match operator.kind with
  | .keyword .kwOr => left
  | _ => !left

end Operator

/-! ### Built-in functions -/

namespace Builtin

/-- The character of `text` at an index, which is cut toward zero. -/
def characterAt (text : String) (index : Float) : Except RuntimeFault Value :=
  -- The index counts characters, not bytes of their encoding.
  let chars := text.toList
  let found :=
    match Number.truncate? index with
    | some n => if n < 0 then none else chars[n.toNat]?
    | none => none
  match found with
  | some c => .ok (.string (String.singleton c))
  | none => .error (.indexRange (Number.truncated index) chars.length)

/-- A call of a built-in function; `paren` is where its failure is reported. -/
def apply (b : Builtin) (arguments : List Value) (paren : Position) : Eval Value :=
  match b with
  | abs =>
    match arguments with
    | [.number x] => return .number x.abs
    | _ => Eval.fail paren .absArgument
  | len =>
    match arguments with
    | [.string text] => return .number (Float.ofNat text.length)
    | _ => Eval.fail paren .lenArgument
  | charAt =>
    match arguments with
    | [.string text, .number index] => Eval.lift paren (characterAt text index)
    | _ => Eval.fail paren .charAtArguments
  | print => do
    Eval.write paren (String.join (arguments.map Value.render))
    return .void
  | println => do
    Eval.write paren (String.join (arguments.map Value.render) ++ "\n")
    return .void

end Builtin

/-! ### Expressions and statements -/

/-- How a statement ended. -/
inductive Flow where
  | normal
  | returned (value : Value)

namespace Eval

/-- The truth of a condition, which has to be a Boolean; `pos` is where it is reported if not. -/
def truth (pos : Position) : Value → Eval Bool
  | .boolean b => return b
  | other => fail pos (.condition other.tag)

/-- `super.method`: the method is looked up from the superclass that the class knew when it was
    declared, and its receiver is the one of the method at hand, whose frame is one step inside that
    of the superclass. -/
def superMethod (keyword : Reference) (method : Name) : Eval Value := do
  let m ← get
  let unresolved : Eval Value := fail keyword.name.pos .unresolvedSuper
  match m.table.get? keyword.id with
  | none => unresolved
  | some distance =>
    match m.heap.getAt? m.current distance keyword.name.text with
    | none => fail keyword.name.pos (.undefinedVariable keyword.name.text)
    | some (.classValue superclass) =>
      let receiver :=
        match distance with
        | 0 => none
        | inner + 1 => m.heap.getAt? m.current inner thisName
      match receiver with
      | some (.instanceValue object) =>
        match superclass.findMethod? method.text with
        | some found => boundMethod found object
        | none => fail method.pos (.undefinedProperty method.text)
      | _ => unresolved
    | some _ => unresolved

/-- The class that a superclass names. -/
def superclassValue (ref : Reference) : Eval Class := do
  match ← lookUp ref with
  | .classValue cls => return cls
  | other => fail ref.name.pos (.superclass other.tag)

/-- Declares a class. Its methods see a frame of their own that binds the superclass, if there is
    one; of two methods with one name the later counts. -/
def declareClass (name : Name) (superclass : Option Reference) (decls : List FunctionDecl) :
    Eval Unit := do
  -- The name of the class is bound last: the superclass is looked up without it.
  let superclass ← superclass.mapM superclassValue
  let outer ← currentFrame
  let frame ←
    match superclass with
    | some cls => newFrame outer (Bindings.empty.insert superName (.classValue cls))
    | none => pure outer
  let methods := Bindings.ofList <| decls.map fun decl =>
    (decl.name.text, ⟨decl, frame, decl.name.text == constructorName⟩)
  let identity ← newIdentity
  define name.text (.classValue ⟨identity, name.text, superclass, methods⟩)

/-- Refuses a call with a wrong number of arguments. -/
def checkCount (expected : Nat) (arguments : List Value) (paren : Position) : Eval Unit :=
  if arguments.length = expected then return ()
  else fail paren (.argumentCount expected arguments.length)

mutual

/-- The value of an expression. -/
def evaluate : Nat → Expr → Eval Value
  | 0, _ => exhausted
  | _ + 1, .literal value => return .ofLiteral value
  | n + 1, .grouping inner => evaluate n inner
  | n + 1, .unary operator operand => do
    let value ← evaluate n operand
    lift operator.pos (Operator.unary operator value)
  | n + 1, .binary left operator right => do
    let x ← evaluate n left
    let y ← evaluate n right
    lift operator.pos (Operator.binary operator x y)
  | n + 1, .logical left operator right => do
    match ← evaluate n left with
    -- Only the left side is tested; the right side is the result whatever it is.
    | .boolean b => if Operator.decides operator b then return .boolean b else evaluate n right
    | other => fail operator.pos (.logicalOperand operator.lexeme other.tag)
  | n + 1, .ternary condition question yes no => do
    let value ← evaluate n condition
    if ← truth question value then evaluate n yes else evaluate n no
  | _ + 1, .var ref => lookUp ref
  | n + 1, .assign target value => do
    let value ← evaluate n value
    assign target value
    return value
  | n + 1, .call callee paren arguments => do
    let callee ← evaluate n callee
    let arguments ← evaluateAll n arguments
    call n callee arguments paren
  | n + 1, .get object name => do
    match ← evaluate n object with
    | .instanceValue object => property object name
    | other => fail name.pos (.noProperties other.tag)
  | n + 1, .set object name value => do
    match ← evaluate n object with
    -- On anything but an instance the value is not evaluated at all.
    | .instanceValue object =>
      let value ← evaluate n value
      setField object name.text value
      return value
    | other => fail name.pos (.noFields other.tag)
  | _ + 1, .this ref => lookUp ref
  | _ + 1, .super keyword method => superMethod keyword method

/-- The values of expressions in order. -/
def evaluateAll : Nat → List Expr → Eval (List Value)
  | 0, _ => exhausted
  | _ + 1, [] => return []
  | n + 1, e :: es => do
    let value ← evaluate n e
    let values ← evaluateAll n es
    return value :: values

/-- A call: what can be called are functions and classes. A class makes an instance and sets it up
    by its constructor, if it has one. -/
def call : Nat → Value → List Value → Position → Eval Value
  | 0, _, _, _ => exhausted
  | n + 1, callee, arguments, paren =>
    match callee with
    | .builtin b => do
      checkCount b.arity arguments paren
      b.apply arguments paren
    | .function _ closure => do
      checkCount closure.arity arguments paren
      invoke n closure arguments
    | .classValue cls => do
      checkCount cls.arity arguments paren
      let object ← newInstance cls
      match cls.initializer? with
      | some method =>
        let bound ← bindReceiver method object
        -- What the constructor gives is dropped.
        let _ ← invoke n bound arguments
        return .instanceValue object
      | none => return .instanceValue object
    | other => fail paren (.notCallable other.tag)

/-- Runs the body of a function in a frame that binds its parameters. -/
def invoke : Nat → Closure → List Value → Eval Value
  | 0, _, _ => exhausted
  | n + 1, closure, arguments => do
    let names := closure.decl.params.map fun p => p.name.text
    let frame ← newFrame closure.frame (Bindings.ofList (names.zip arguments))
    let flow ← within frame (executeAll n closure.decl.body)
    if closure.isInitializer then
      -- A constructor gives its receiver, which is bound in the frame that it closes over, and not
      -- what its body returned.
      let m ← get
      match m.heap.lookup? closure.frame thisName with
      | some object => return object
      | none => fail closure.decl.name.pos .unboundInitializer
    else
      match flow with
      | .returned value => return value
      | .normal => return .void

/-- Executes a statement. -/
def execute : Nat → Stmt → Eval Flow
  | 0, _ => exhausted
  | n + 1, .expression e => do
    let _ ← evaluate n e
    return .normal
  | n + 1, .val name _ initializer => do
    let value ←
      match initializer with
      | some e => evaluate n e
      | none => pure .void
    define name.text value
    return .normal
  | n + 1, .block body => do
    let outer ← currentFrame
    let frame ← newFrame outer .empty
    within frame (executeAll n body)
  | n + 1, .ifThen keyword condition yes => do
    let value ← evaluate n condition
    if ← truth keyword value then execute n yes else return .normal
  | n + 1, .ifElse keyword condition yes no => do
    let value ← evaluate n condition
    if ← truth keyword value then execute n yes else execute n no
  | n + 1, .whileLoop keyword condition body => do
    let value ← evaluate n condition
    if ← truth keyword value then
      match ← execute n body with
      | .returned value => return .returned value
      -- The remaining rounds are the same loop once more, with less fuel.
      | .normal => execute n (.whileLoop keyword condition body)
    else return .normal
  | _ + 1, .funDecl decl => do
    let frame ← currentFrame
    let identity ← newIdentity
    define decl.name.text (.function identity ⟨decl, frame, false⟩)
    return .normal
  | n + 1, .ret _ value => do
    match value with
    | some e =>
      let value ← evaluate n e
      return .returned value
    | none => return .returned .void
  | _ + 1, .classDecl name superclass decls => do
    declareClass name superclass decls
    return .normal

/-- Executes statements in order, up to the first that returns. -/
def executeAll : Nat → List Stmt → Eval Flow
  | 0, _ => exhausted
  | _ + 1, [] => return .normal
  | n + 1, s :: ss => do
    match ← execute n s with
    | .returned value => return .returned value
    | .normal => executeAll n ss

end

end Eval

/-! ### Programs -/

/-- How a run ended. -/
inductive Ending where
  | finished
  | failed (fault : Located RuntimeFault)
  /-- The sink failed after the program had ended, in its own words. -/
  | flushFailed (text : String)
  | outOfFuel

namespace Machine

/-- Runs a program under a table of distances, which replaces the one before. A failure of the sink
    at the end counts more than a failure of the program. -/
def interpret (fuel : Nat) (program : Program) (table : Distances) (m : Machine) :
    Ending × Machine :=
  match Eval.executeAll fuel program { m with table } with
  | .ok _ m =>
    match m.sink.flushFault with
    | some text => (.flushFailed text, m)
    | none => (.finished, m)
  | .error (.failure fault) m =>
    match m.sink.flushFault with
    | some text => (.flushFailed text, m)
    | none => (.failed fault, m)
  -- A run that is cut off has not ended, so the sink is not asked.
  | .error .outOfFuel m => (.outOfFuel, m)

end Machine

end ClassScript
