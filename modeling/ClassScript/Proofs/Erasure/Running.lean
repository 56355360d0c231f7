import ClassScript.Evaluation
import ClassScript.Proofs.Erasure.Trees

namespace ClassScript

/-!
# Running without positions

A function value keeps its declaration, and so a machine holds positions: in the frames, in the
fields of instances and in the methods of classes. Nothing that a program does depends on them. An
erased machine runs an erased program step by step as the machine runs the program, and it writes
the same to the sink.

* `Bindings.map`, `Heap.map`: frames with every value changed, and what lookups give there;
* `Value.erase`, `Machine.erase`: values and machines without positions;
* `Eval.Erases`, `Eval.runsErase`: computations on erased machines;
* `Machine.interpret_erase`: whole runs.
-/

/-! ### Frames with every value changed -/

section Frames

variable {α β : Type} (f : α → β)

theorem modify_map (g : α → α) (h : β → β) (hcomm : ∀ a, h (f a) = f (g a)) (as : Array α)
    (i : Nat) : (as.map f).modify i h = (as.modify i g).map f := by
  apply Array.ext_getElem?
  intro j
  rw [Array.getElem?_modify, Array.getElem?_map, Array.getElem?_map, Array.getElem?_modify]
  split
  · rw [Option.map_map, Option.map_map]
    exact congrArg (Option.map · _) (funext hcomm)
  · rfl

namespace Bindings

/-- The bindings with every value changed. -/
def map (b : Bindings α) : Bindings β := ⟨b.entries.map fun entry => (entry.1, f entry.2)⟩

/-- A name is bound to the changed value. -/
theorem find?_map (b : Bindings α) (name : String) :
    (b.map f).find? name = (b.find? name).map f := by
  obtain ⟨entries⟩ := b
  show lookup name (entries.map _) = (lookup name entries).map f
  induction entries with
  | nil => rfl
  | cons entry rest ih =>
    rw [List.map_cons, lookup, lookup, ih]
    split <;> rfl

theorem insert_map (b : Bindings α) (name : String) (value : α) :
    (b.map f).insert name (f value) = (b.insert name value).map f := by
  obtain ⟨entries⟩ := b
  apply congrArg Bindings.mk
  show put name (f value) (entries.map _) = (put name value entries).map _
  induction entries with
  | nil => rfl
  | cons entry rest ih =>
    rw [List.map_cons, put, put, ih]
    split <;> rfl

/-- Bindings from a list of changed values. -/
theorem ofList_map (pairs : List (String × α)) :
    ofList (pairs.map fun pair => (pair.1, f pair.2)) = (ofList pairs).map f := by
  have hfold (b : Bindings α) :
      (pairs.map fun pair => (pair.1, f pair.2)).foldl (fun b pair => b.insert pair.1 pair.2)
          (b.map f)
        = (pairs.foldl (fun b pair => b.insert pair.1 pair.2) b).map f := by
    induction pairs generalizing b with
    | nil => rfl
    | cons pair pairs ih =>
      rw [List.map_cons, List.foldl_cons, List.foldl_cons, insert_map, ih]
  exact hfold empty

end Bindings

/-- The frame with every value changed. -/
def Frame.map (frame : Frame α) : Frame β := ⟨frame.enclosing, frame.bindings.map f⟩

namespace Heap

/-- The frames with every value changed. -/
def map (h : Heap α) : Heap β := ⟨h.frames.map (Frame.map f)⟩

variable (h : Heap α)

/-- Each frame is changed by itself. -/
theorem frame?_map (i : FrameId) : (h.map f).frame? i = (h.frame? i).map (Frame.map f) :=
  Array.getElem?_map

theorem next_map : (h.map f).next = h.next := congrArg FrameId.mk Array.size_map

theorem alloc_map (enclosing : Option FrameId) (bindings : Bindings α) :
    (h.map f).alloc enclosing (bindings.map f) = (h.alloc enclosing bindings).map f := by
  simp only [alloc, map, Array.map_push]
  rfl

theorem define_map (i : FrameId) (name : String) (value : α) :
    (h.map f).define i name (f value) = (h.define i name value).map f := by
  apply congrArg Heap.mk
  refine modify_map (Frame.map f) (fun frame => ⟨frame.enclosing, frame.bindings.insert name value⟩)
    (fun frame => ⟨frame.enclosing, frame.bindings.insert name (f value)⟩) (fun frame => ?_)
    h.frames i.index
  exact congrArg (Frame.mk frame.enclosing) (frame.bindings.insert_map f name value)

/-- What a frame binds a name to is changed. -/
theorem lookup?_map (i : FrameId) (name : String) :
    (h.map f).lookup? i name = (h.lookup? i name).map f := by
  rw [lookup?, lookup?, frame?_map]
  cases h.frame? i with
  | none => rfl
  | some frame => exact frame.bindings.find?_map f name

theorem enclosing?_map (i : FrameId) : (h.map f).enclosing? i = h.enclosing? i := by
  rw [enclosing?, enclosing?, frame?_map]
  cases h.frame? i <;> rfl

theorem ancestor?_map (i : FrameId) (distance : Nat) :
    (h.map f).ancestor? i distance = h.ancestor? i distance := by
  induction distance generalizing i with
  | zero => rfl
  | succ distance ih =>
    rw [ancestor?, ancestor?, enclosing?_map]
    cases h.enclosing? i with
    | none => rfl
    | some outer => exact ih outer

/-- What lies some steps away is changed. -/
theorem getAt?_map (i : FrameId) (distance : Nat) (name : String) :
    (h.map f).getAt? i distance name = (h.getAt? i distance name).map f := by
  rw [getAt?, getAt?, ancestor?_map]
  cases h.ancestor? i distance with
  | none => rfl
  | some frame => exact h.lookup?_map f frame name

theorem holderAt?_map (i : FrameId) (distance : Nat) (name : String) :
    (h.map f).holderAt? i distance name = h.holderAt? i distance name := by
  rw [holderAt?, holderAt?, ancestor?_map]
  cases h.ancestor? i distance with
  | none => rfl
  | some frame => simp only [lookup?_map, Option.isSome_map]

theorem holder?_map (i : FrameId) (name : String) :
    (h.map f).holder? i name = h.holder? i name := by
  have hwithin (fuel : Nat) (i : FrameId) :
      (h.map f).holderWithin? name fuel i = h.holderWithin? name fuel i := by
    induction fuel generalizing i with
    | zero => rfl
    | succ fuel ih =>
      rw [holderWithin?, holderWithin?, lookup?_map, enclosing?_map, Option.isSome_map]
      cases h.enclosing? i with
      | none => rfl
      | some outer => simp only [ih]
  exact hwithin _ i

theorem get?_map (i : FrameId) (name : String) :
    (h.map f).get? i name = (h.get? i name).map f := by
  rw [get?, get?, holder?_map]
  cases h.holder? i name with
  | none => rfl
  | some frame => exact h.lookup?_map f frame name

end Heap

end Frames

/-! ### Values -/

/-- A function without positions. -/
def Closure.erase (c : Closure) : Closure := { c with decl := c.decl.erase }

/-- An erased function takes as many arguments. -/
@[simp] theorem Closure.arity_erase (c : Closure) : c.erase.arity = c.arity := by
  simp only [arity, erase, FunctionDecl.erase_params, List.length_map]

namespace Class

/-- A class whose methods are without positions, and those of its superclasses. -/
def erase : Class → Class
  | ⟨identity, name, none, methods⟩ => ⟨identity, name, none, methods.map Closure.erase⟩
  | ⟨identity, name, some superclass, methods⟩ =>
    ⟨identity, name, some superclass.erase, methods.map Closure.erase⟩

@[simp] theorem erase_identity (c : Class) : c.erase.identity = c.identity := by
  obtain ⟨identity, name, superclass, methods⟩ := c
  cases superclass <;> rfl

@[simp] theorem erase_name (c : Class) : c.erase.name = c.name := by
  obtain ⟨identity, name, superclass, methods⟩ := c
  cases superclass <;> rfl

theorem erase_mk (identity : Nat) (name : String) (superclass : Option Class)
    (methods : Bindings Closure) :
    (Class.mk identity name superclass methods).erase
      = ⟨identity, name, superclass.map erase, methods.map Closure.erase⟩ := by
  cases superclass <;> rfl

theorem findMethod?_erase (name : String) : ∀ c : Class,
    c.erase.findMethod? name = (c.findMethod? name).map Closure.erase
  | ⟨_, _, none, methods⟩ => by
    rw [erase, findMethod?_eq, findMethod?_eq, Bindings.find?_map, Option.map_or]
    rfl
  | ⟨_, _, some superclass, methods⟩ => by
    rw [erase, findMethod?_eq, findMethod?_eq, Bindings.find?_map, Option.map_or]
    exact congrArg _ (findMethod?_erase name superclass)

/-- An erased class has the erased initializer. -/
theorem initializer?_erase (c : Class) : c.erase.initializer? = c.initializer?.map Closure.erase :=
  findMethod?_erase constructorName c

/-- An erased class takes as many arguments. -/
@[simp] theorem arity_erase (c : Class) : c.erase.arity = c.arity := by
  rw [arity, arity, initializer?_erase]
  cases c.initializer? with
  | none => rfl
  | some method => exact method.arity_erase

end Class

/-- An instance whose class is without positions. -/
def Instance.erase (object : Instance) : Instance := { object with cls := object.cls.erase }

namespace Value

/-- A value without positions. -/
def erase : Value → Value
  | function identity closure => .function identity closure.erase
  | classValue cls => .classValue cls.erase
  | instanceValue object => .instanceValue object.erase
  | value => value

/-- An erased value is of the same kind. -/
@[simp] theorem tag_erase (v : Value) : v.erase.tag = v.tag := by cases v <;> rfl

theorem equals_erase (v w : Value) : v.erase.equals w.erase = v.equals w := by
  cases v with
  | classValue cls =>
    cases w with
    | classValue other => simp only [erase, equals, Class.erase_identity]
    | _ => rfl
  | _ => cases w <;> rfl

theorem render_erase (v : Value) : v.erase.render = v.render := by
  cases v with
  | function identity closure =>
    simp only [erase, render, Closure.erase, FunctionDecl.erase_name]
    rfl
  | classValue cls => exact cls.erase_name
  | instanceValue object => simp only [erase, render, Instance.erase, Class.erase_name]
  | _ => rfl

theorem map_render_erase (vs : List Value) : (vs.map erase).map render = vs.map render := by
  rw [List.map_map]
  exact List.map_congr_left fun v _ => v.render_erase

theorem erase_ofLiteral (l : Literal) : (ofLiteral l).erase = ofLiteral l := by cases l <;> rfl

end Value

/-! ### Operators and built-in functions -/

namespace Operator

/-- Signs do the same to erased values. -/
theorem unary_erase (operator : Token) (operand : Value) :
    unary operator.erase operand.erase = (unary operator operand).map Value.erase := by
  obtain ⟨kind, lexeme, pos⟩ := operator
  cases kind with
  | symbol s => cases s <;> cases operand <;> rfl
  | _ => cases operand <;> rfl

theorem numeric_erase (operator : Token) (x y : Float) :
    numeric operator.erase x y = (numeric operator x y).map Value.erase := by
  simp only [numeric, Token.erase]
  split <;> rfl

/-- Operators do the same to erased values. -/
theorem binary_erase (operator : Token) (left right : Value) :
    binary operator.erase left.erase right.erase
      = (binary operator left right).map Value.erase := by
  simp only [binary, Token.erase, Value.equals_erase, Value.tag_erase]
  split
  · rfl
  · rfl
  · cases left with
    | number x =>
      cases right with
      | number y => exact numeric_erase operator x y
      | _ => rfl
    | _ => rfl

end Operator

/-- A character of a text has no positions. -/
theorem Builtin.characterAt_erase (text : String) (index : Float) :
    characterAt text index = (characterAt text index).map Value.erase := by
  simp only [characterAt]
  cases Number.truncate? index with
  | none => rfl
  | some n =>
    by_cases hn : n < 0
    · simp only [hn, if_true]
      rfl
    · simp only [hn, if_false]
      cases text.toList[n.toNat]? <;> rfl

/-! ### Machines -/

/-- A machine without positions. -/
def Machine.erase (m : Machine) : Machine :=
  { m with heap := m.heap.map Value.erase, fields := m.fields.map (Bindings.map Value.erase) }

/-- The reason for a stop without its position. -/
def Stop.erase : Stop → Stop
  | failure fault => .failure fault.erase
  | outOfFuel => .outOfFuel

/-- The end of a statement without positions. -/
def Flow.erase : Flow → Flow
  | normal => .normal
  | returned value => .returned value.erase

namespace Machine

variable (m : Machine)

/-- A use of a name finds the erased value. -/
theorem lookUp?_erase (ref : Reference) :
    m.erase.lookUp? ref.erase = (m.lookUp? ref).map Value.erase := by
  have htable : m.erase.table.get? ref.erase.id = m.table.get? ref.id := rfl
  rw [lookUp?, lookUp?, htable]
  cases m.table.get? ref.id with
  | none => exact m.heap.get?_map Value.erase m.globals ref.name.text
  | some distance => exact m.heap.getAt?_map Value.erase m.current distance ref.name.text

/-- A use of a name leads to the same frame. -/
theorem holder?_erase (ref : Reference) : m.erase.holder? ref.erase = m.holder? ref := by
  have htable : m.erase.table.get? ref.erase.id = m.table.get? ref.id := rfl
  rw [holder?, holder?, htable]
  cases m.table.get? ref.id with
  | none => exact m.heap.holder?_map Value.erase m.globals ref.name.text
  | some distance => exact m.heap.holderAt?_map Value.erase m.current distance ref.name.text

theorem field?_erase (object : Instance) (name : String) :
    m.erase.field? object.erase name = (m.field? object name).map Value.erase := by
  show (m.fields.map (Bindings.map Value.erase))[object.index]?.bind _ = _
  rw [Array.getElem?_map, field?]
  cases m.fields[object.index]? with
  | none => rfl
  | some fields => exact fields.find?_map Value.erase name

end Machine

namespace Eval

/-- On an erased machine the second computation does what the first one does on the machine. -/
abbrev Erases {α β : Type} (f : α → β) (x : Eval α) (y : Eval β) : Prop :=
  Commutes Stop.erase Machine.erase f x y

/-! ### Steps -/

section Steps

variable {α β : Type} {f : α → β}

theorem erases_fail (pos : Position) (fault : RuntimeFault) :
    Erases f (fail pos fault) (fail .start fault) :=
  fun _ => rfl

theorem erases_exhausted : Erases f exhausted exhausted := fun _ => rfl

theorem erases_lift (pos : Position) {x : Except RuntimeFault α} {y : Except RuntimeFault β}
    (h : y = x.map f) : Erases f (lift pos x) (lift .start y) := by
  subst h
  cases x with
  | ok a => exact .pure rfl
  | error fault => exact erases_fail pos fault

theorem erases_within (frame : FrameId) {x : Eval α} {y : Eval β} (h : Erases f x y) :
    Erases f (within frame x) (within frame y) := by
  intro m
  have hm : y { m.erase with current := frame }
      = outcome Stop.erase Machine.erase f (x { m with current := frame }) :=
    h { m with current := frame }
  unfold within
  simp only [hm]
  cases x { m with current := frame } <;> rfl

theorem erases_get : Erases Machine.erase get get := fun _ => rfl

/-- A new frame with erased values. -/
theorem erases_newFrame (enclosing : FrameId) (bindings : Bindings Value) :
    Erases id (newFrame enclosing bindings) (newFrame enclosing (bindings.map Value.erase)) := by
  intro m
  unfold newFrame Machine.erase
  simp only [Heap.next_map, Heap.alloc_map]
  rfl

theorem erases_currentFrame : Erases id currentFrame currentFrame := fun _ => rfl

/-- A name is bound to an erased value. -/
theorem erases_define (name : String) (value : Value) :
    Erases id (define name value) (define name value.erase) := by
  intro m
  show EStateM.Result.ok ()
    { m.erase with heap := (m.heap.map Value.erase).define m.current name value.erase } = _
  rw [Heap.define_map]
  rfl

/-- A use of a name gives the erased value. -/
theorem erases_lookUp (ref : Reference) : Erases Value.erase (lookUp ref) (lookUp ref.erase) := by
  intro m
  unfold lookUp
  rw [Machine.lookUp?_erase]
  cases m.lookUp? ref <;> rfl

/-- An erased value is assigned. -/
theorem erases_assign (ref : Reference) (value : Value) :
    Erases id (assign ref value) (assign ref.erase value.erase) := by
  intro m
  unfold assign
  rw [Machine.holder?_erase]
  cases m.holder? ref with
  | none => rfl
  | some frame =>
    show EStateM.Result.ok ()
      { m.erase with heap := (m.heap.map Value.erase).define frame ref.name.text value.erase } = _
    rw [Heap.define_map]
    rfl

theorem erases_newIdentity : Erases id newIdentity newIdentity := fun _ => rfl

/-- A new instance of an erased class. -/
theorem erases_newInstance (cls : Class) :
    Erases Instance.erase (newInstance cls) (newInstance cls.erase) := by
  intro m
  show EStateM.Result.ok (Instance.mk (m.fields.map (Bindings.map Value.erase)).size cls.erase)
    { m.erase with fields := (m.fields.map (Bindings.map Value.erase)).push .empty } = _
  rw [Array.size_map]
  show _ = EStateM.Result.ok _ (Machine.erase { m with fields := m.fields.push .empty })
  simp only [Machine.erase, Array.map_push]
  rfl

theorem erases_bindReceiver (method : Closure) (object : Instance) :
    Erases Closure.erase (bindReceiver method object) (bindReceiver method.erase object.erase) :=
  .bind (erases_newFrame method.frame _) fun _ => .pure rfl

theorem erases_boundMethod (method : Closure) (object : Instance) :
    Erases Value.erase (boundMethod method object) (boundMethod method.erase object.erase) :=
  .bind (erases_bindReceiver method object) fun _ => .bind erases_newIdentity fun _ => .pure rfl

/-- The method of a class that a name stands for, with its receiver. -/
theorem erases_method (cls : Class) (object : Instance) (name : Name) :
    Erases Value.erase
      (match cls.findMethod? name.text with
        | some method => boundMethod method object
        | none => fail name.pos (.undefinedProperty name.text))
      (match cls.erase.findMethod? name.text with
        | some method => boundMethod method object.erase
        | none => fail .start (.undefinedProperty name.text)) := by
  rw [Class.findMethod?_erase]
  cases cls.findMethod? name.text with
  | some method => exact erases_boundMethod method object
  | none => exact erases_fail name.pos _

/-- A property of an erased instance. -/
theorem erases_property (object : Instance) (name : Name) :
    Erases Value.erase (property object name) (property object.erase name.erase) := by
  refine .bind erases_get fun m => ?_
  have hfield : m.erase.field? object.erase name.erase.text = (m.field? object name.text).map _ :=
    m.field?_erase object name.text
  simp only [hfield]
  cases m.field? object name.text with
  | some value => exact .pure rfl
  | none => exact erases_method object.cls object name

theorem erases_setField (object : Instance) (name : String) (value : Value) :
    Erases id (setField object name value) (setField object.erase name value.erase) := by
  intro m
  have hfields := modify_map (Bindings.map Value.erase) (·.insert name value)
    (·.insert name value.erase) (fun fields => fields.insert_map Value.erase name value)
    m.fields object.index
  unfold setField Machine.erase
  simp only [Instance.erase, hfields]
  rfl

theorem erases_write (pos : Position) (text : String) :
    Erases id (write pos text) (write .start text) := by
  intro m
  have hsink : m.erase.sink = m.sink := rfl
  unfold write
  rw [hsink]
  cases m.sink.write text with
  | mk accepted sink => cases accepted <;> rfl

theorem erases_truth (pos : Position) (value : Value) :
    Erases id (truth pos value) (truth .start value.erase) := by
  cases value with
  | boolean b => exact .pure rfl
  | _ => exact erases_fail pos _

/-- What is done depends on a condition. -/
theorem erases_branch (pos : Position) (value : Value) {x y : Eval α} {x' y' : Eval β}
    (hyes : Erases f x x') (hno : Erases f y y') :
    Erases f (do if ← truth pos value then x else y)
      (do if ← truth .start value.erase then x' else y') := by
  refine .bind (erases_truth pos value) fun b => ?_
  cases b with
  | true => exact hyes
  | false => exact hno

theorem erases_checkCount {expected expected' : Nat} (h : expected' = expected)
    (arguments : List Value) (paren : Position) :
    Erases id (checkCount expected arguments paren)
      (checkCount expected' (arguments.map Value.erase) .start) := by
  unfold checkCount
  rw [h, List.length_map]
  split
  · exact .pure rfl
  · exact erases_fail paren _

theorem erases_superMethod (keyword : Reference) (method : Name) :
    Erases Value.erase (superMethod keyword method) (superMethod keyword.erase method.erase) := by
  refine .bind erases_get fun m => ?_
  have htable : m.erase.table.get? keyword.erase.id = m.table.get? keyword.id := rfl
  simp only [htable]
  cases m.table.get? keyword.id with
  | none => exact erases_fail keyword.name.pos _
  | some distance =>
    -- Both lookups go by distance, and distances do not change with the values in the frames.
    have hget (d : Nat) (name : String) : m.erase.heap.getAt? m.erase.current d name
        = (m.heap.getAt? m.current d name).map Value.erase :=
      m.heap.getAt?_map Value.erase m.current d name
    simp only [hget, Reference.erase, Name.erase]
    cases m.heap.getAt? m.current distance keyword.name.text with
    | none => exact erases_fail keyword.name.pos _
    | some parent =>
      cases parent with
      | classValue superclass =>
        cases distance with
        | zero => exact erases_fail keyword.name.pos _
        | succ inner =>
          dsimp only [Option.map, Value.erase]
          cases m.heap.getAt? m.current inner thisName with
          | none => exact erases_fail keyword.name.pos _
          | some receiver =>
            cases receiver with
            | instanceValue object => exact erases_method superclass object method
            | _ => exact erases_fail keyword.name.pos _
      | _ => exact erases_fail keyword.name.pos _

theorem erases_superclassValue (ref : Reference) :
    Erases Class.erase (superclassValue ref) (superclassValue ref.erase) := by
  refine .bind (erases_lookUp ref) fun value => ?_
  cases value with
  | classValue cls => exact .pure rfl
  | _ => exact erases_fail ref.name.pos _

/-- An erased declaration makes an erased class. -/
theorem erases_declareClass (name : Name) (superclass : Option Reference)
    (decls : List FunctionDecl) : Erases id (declareClass name superclass decls)
      (declareClass name.erase (superclass.map Reference.erase) (FunctionDecl.eraseAll decls)) := by
  -- The methods are made in the same order, so they are bound alike.
  have hmethods (frame : FrameId) :
      Bindings.ofList ((FunctionDecl.eraseAll decls).map fun decl =>
          (decl.name.text, Closure.mk decl frame (decl.name.text == constructorName)))
        = (Bindings.ofList (decls.map fun decl =>
          (decl.name.text, Closure.mk decl frame (decl.name.text == constructorName)))).map
            Closure.erase := by
    rw [← Bindings.ofList_map, FunctionDecl.eraseAll_eq_map, List.map_map, List.map_map]
    apply congrArg
    apply List.map_congr_left
    rintro ⟨declName, params, returns, body⟩ -
    rfl
  have hdefine (parent : Option Class) (frame : FrameId) (identity : Nat) :=
    erases_define name.text (.classValue ⟨identity, name.text, parent, Bindings.ofList (decls.map
      fun decl => (decl.name.text, ⟨decl, frame, decl.name.text == constructorName⟩))⟩)
  simp only [Value.erase, Class.erase_mk, ← hmethods] at hdefine
  refine .bind (.option_mapM erases_superclassValue superclass) fun parent =>
    .bind erases_currentFrame fun outer => ?_
  cases parent with
  | none =>
    exact .bind (.pure rfl) fun frame => .bind erases_newIdentity fun identity =>
      hdefine none frame identity
  | some cls =>
    exact .bind (erases_newFrame outer _) fun frame => .bind erases_newIdentity fun identity =>
      hdefine (some cls) frame identity

theorem erases_apply (b : Builtin) (arguments : List Value) (paren : Position) :
    Erases Value.erase (b.apply arguments paren)
      (b.apply (arguments.map Value.erase) .start) := by
  -- What a function does depends on how many arguments there are and of which kinds they are.
  cases b with
  | abs =>
    rcases arguments with _ | ⟨v, _ | ⟨w, rest⟩⟩
    · exact erases_fail paren _
    · cases v with
      | number x => exact .pure rfl
      | _ => exact erases_fail paren _
    · cases v <;> exact erases_fail paren _
  | len =>
    rcases arguments with _ | ⟨v, _ | ⟨w, rest⟩⟩
    · exact erases_fail paren _
    · cases v with
      | string text => exact .pure rfl
      | _ => exact erases_fail paren _
    · cases v <;> exact erases_fail paren _
  | charAt =>
    rcases arguments with _ | ⟨v, _ | ⟨w, _ | ⟨u, rest⟩⟩⟩
    · exact erases_fail paren _
    · cases v <;> exact erases_fail paren _
    · cases v with
      | string text =>
        cases w with
        | number index => exact erases_lift paren (Builtin.characterAt_erase text index)
        | _ => exact erases_fail paren _
      | _ => exact erases_fail paren _
    · cases v <;> cases w <;> exact erases_fail paren _
  | print =>
    simp only [Builtin.apply, Value.map_render_erase]
    exact .bind (erases_write paren _) fun _ => .pure rfl
  | println =>
    simp only [Builtin.apply, Value.map_render_erase]
    exact .bind (erases_write paren _) fun _ => .pure rfl

end Steps

/-! ### Expressions, statements and calls -/

/-- Evaluation and execution under one fuel. -/
structure RunsErase (n : Nat) : Prop where
  evaluate (e : Expr) : Erases Value.erase (evaluate n e) (evaluate n e.erase)
  evaluateAll (es : List Expr) :
    Erases (List.map Value.erase) (evaluateAll n es) (evaluateAll n (Expr.eraseAll es))
  call (callee : Value) (arguments : List Value) (paren : Position) :
    Erases Value.erase (call n callee arguments paren)
      (call n callee.erase (arguments.map Value.erase) .start)
  invoke (closure : Closure) (arguments : List Value) :
    Erases Value.erase (invoke n closure arguments)
      (invoke n closure.erase (arguments.map Value.erase))
  execute (s : Stmt) : Erases Flow.erase (execute n s) (execute n s.erase)
  executeAll (ss : List Stmt) :
    Erases Flow.erase (executeAll n ss) (executeAll n (Stmt.eraseAll ss))

section Runs

variable {n : Nat}

theorem evaluate_erases (ih : RunsErase n) (e : Expr) :
    Erases Value.erase (evaluate (n + 1) e) (evaluate (n + 1) e.erase) := by
  cases e with
  | literal value => exact .pure (Value.erase_ofLiteral value)
  | grouping inner => exact ih.evaluate inner
  | unary operator operand =>
    exact .bind (ih.evaluate operand) fun value =>
      erases_lift operator.pos (Operator.unary_erase operator value)
  | binary left operator right =>
    exact .bind (ih.evaluate left) fun x => .bind (ih.evaluate right) fun y =>
      erases_lift operator.pos (Operator.binary_erase operator x y)
  | logical left operator right =>
    refine .bind (ih.evaluate left) fun value => ?_
    cases value with
    | boolean b =>
      -- The kind of the operator decides, and erasing keeps it.
      show Erases _ (if Operator.decides operator b then _ else _)
        (if Operator.decides operator b then _ else _)
      split
      · exact .pure rfl
      · exact ih.evaluate right
    | _ => exact erases_fail operator.pos _
  | ternary condition question yes no =>
    exact .bind (ih.evaluate condition) fun value =>
      erases_branch question value (ih.evaluate yes) (ih.evaluate no)
  | var ref => exact erases_lookUp ref
  | assign target value =>
    exact .bind (ih.evaluate value) fun v => .bind (erases_assign target v) fun _ => .pure rfl
  | call callee paren arguments =>
    exact .bind (ih.evaluate callee) fun f => .bind (ih.evaluateAll arguments) fun vs =>
      ih.call f vs paren
  | get object name =>
    refine .bind (ih.evaluate object) fun value => ?_
    cases value with
    | instanceValue object => exact erases_property object name
    | _ => exact erases_fail name.pos _
  | set object name value =>
    refine .bind (ih.evaluate object) fun target => ?_
    cases target with
    | instanceValue object =>
      exact .bind (ih.evaluate value) fun v => .bind (erases_setField object name.text v) fun _ =>
        .pure rfl
    | _ => exact erases_fail name.pos _
  | this ref => exact erases_lookUp ref
  | super keyword method => exact erases_superMethod keyword method

/-- Lists of expressions. -/
theorem evaluateAll_erases (ih : RunsErase n) (es : List Expr) :
    Erases (List.map Value.erase) (evaluateAll (n + 1) es)
      (evaluateAll (n + 1) (Expr.eraseAll es)) := by
  cases es with
  | nil => exact .pure rfl
  | cons e es =>
    exact .bind (ih.evaluate e) fun value => .bind (ih.evaluateAll es) fun values => .pure rfl

/-- Calls, of whatever kind. -/
theorem call_erases (ih : RunsErase n) (callee : Value) (arguments : List Value)
    (paren : Position) : Erases Value.erase (call (n + 1) callee arguments paren)
      (call (n + 1) callee.erase (arguments.map Value.erase) .start) := by
  cases callee with
  | builtin b =>
    exact .bind (erases_checkCount rfl arguments paren) fun _ => erases_apply b arguments paren
  | function identity closure =>
    exact .bind (erases_checkCount closure.arity_erase arguments paren) fun _ =>
      ih.invoke closure arguments
  | classValue cls =>
    refine .bind (erases_checkCount cls.arity_erase arguments paren) fun _ =>
      .bind (erases_newInstance cls) fun object => ?_
    rw [Class.initializer?_erase]
    cases cls.initializer? with
    | none => exact .pure rfl
    | some method =>
      exact .bind (erases_bindReceiver method object) fun bound =>
        .bind (ih.invoke bound arguments) fun _ => .pure rfl
  | _ => exact erases_fail paren _

/-- Bodies of functions. -/
theorem invoke_erases (ih : RunsErase n) (closure : Closure) (arguments : List Value) :
    Erases Value.erase (invoke (n + 1) closure arguments)
      (invoke (n + 1) closure.erase (arguments.map Value.erase)) := by
  obtain ⟨⟨name, params, returns, body⟩, outer, isInitializer⟩ := closure
  -- The frame of the call binds the same names, each to its argument without positions.
  have hbindings : Bindings.ofList
      (((params.map Param.erase).map fun p => p.name.text).zip (arguments.map Value.erase))
      = (Bindings.ofList ((params.map fun p => p.name.text).zip arguments)).map Value.erase := by
    rw [← Bindings.ofList_map, List.zip_map_right, List.map_map]
    rfl
  simp only [Closure.erase, FunctionDecl.erase, invoke, hbindings]
  refine .bind (erases_newFrame outer _) fun frame =>
    .bind (erases_within frame (ih.executeAll body)) fun flow => ?_
  cases isInitializer with
  | true =>
    -- A constructor gives its receiver, whatever it returned.
    refine .bind erases_get fun m => ?_
    have hthis : m.erase.heap.lookup? outer thisName = (m.heap.lookup? outer thisName).map _ :=
      m.heap.lookup?_map Value.erase outer thisName
    simp only [hthis]
    cases m.heap.lookup? outer thisName with
    | none => exact erases_fail name.pos _
    | some object => exact .pure rfl
  | false => cases flow <;> exact .pure rfl

theorem execute_erases (ih : RunsErase n) (s : Stmt) :
    Erases Flow.erase (execute (n + 1) s) (execute (n + 1) s.erase) := by
  cases s with
  | expression e => exact .bind (ih.evaluate e) fun _ => .pure rfl
  | val name type initializer =>
    have hdefine (value : Value) := erases_define name.text value
    cases initializer with
    | none => exact .bind (.pure rfl) fun value => .bind (hdefine value) fun _ => .pure rfl
    | some e =>
      exact .bind (ih.evaluate e) fun value => .bind (hdefine value) fun _ => .pure rfl
  | block body =>
    exact .bind erases_currentFrame fun outer => .bind (erases_newFrame outer .empty) fun frame =>
      erases_within frame (ih.executeAll body)
  | ifThen keyword condition yes =>
    exact .bind (ih.evaluate condition) fun value =>
      erases_branch keyword value (ih.execute yes) (.pure rfl)
  | ifElse keyword condition yes no =>
    exact .bind (ih.evaluate condition) fun value =>
      erases_branch keyword value (ih.execute yes) (ih.execute no)
  | whileLoop keyword condition body =>
    refine .bind (ih.evaluate condition) fun value =>
      erases_branch keyword value (.bind (ih.execute body) fun flow => ?_) (.pure rfl)
    cases flow with
    | returned value => exact .pure rfl
    -- The next round is a run of the same loop under less fuel.
    | normal => exact ih.execute (.whileLoop keyword condition body)
  | funDecl decl =>
    obtain ⟨name, params, returns, body⟩ := decl
    refine .bind erases_currentFrame fun frame => .bind erases_newIdentity fun identity => ?_
    have hdefine := erases_define name.text
      (.function identity ⟨⟨name, params, returns, body⟩, frame, false⟩)
    exact .bind hdefine fun _ => .pure rfl
  | ret keyword value =>
    cases value with
    | none => exact .pure rfl
    | some e => exact .bind (ih.evaluate e) fun _ => .pure rfl
  | classDecl name superclass decls =>
    exact .bind (erases_declareClass name superclass decls) fun _ => .pure rfl

/-- Lists of statements. -/
theorem executeAll_erases (ih : RunsErase n) (ss : List Stmt) :
    Erases Flow.erase (executeAll (n + 1) ss) (executeAll (n + 1) (Stmt.eraseAll ss)) := by
  cases ss with
  | nil => exact .pure rfl
  | cons s ss =>
    refine .bind (ih.execute s) fun flow => ?_
    cases flow with
    | returned value => exact .pure rfl
    | normal => exact ih.executeAll ss

theorem runsErase (n : Nat) : RunsErase n := by
  induction n with
  | zero => constructor <;> intros <;> exact erases_exhausted
  | succ n ih =>
    exact
      { evaluate := evaluate_erases ih
        evaluateAll := evaluateAll_erases ih
        call := call_erases ih
        invoke := invoke_erases ih
        execute := execute_erases ih
        executeAll := executeAll_erases ih }

end Runs

end Eval

/-! ### Programs -/

/-- How a run ended, without positions. -/
def Ending.erase : Ending → Ending
  | failed fault => .failed fault.erase
  | ending => ending

/-- An erased program runs on an erased machine as the program does on the machine. -/
theorem Machine.interpret_erase (fuel : Nat) (program : Program) (table : Distances) (m : Machine) :
    m.erase.interpret fuel (Stmt.eraseAll program) table
      = ((m.interpret fuel program table).1.erase, (m.interpret fuel program table).2.erase) := by
  have hrun : Eval.executeAll fuel (Stmt.eraseAll program) { m.erase with table }
      = outcome Stop.erase Machine.erase Flow.erase
        (Eval.executeAll fuel program { m with table }) :=
    (Eval.runsErase fuel).executeAll program { m with table }
  unfold interpret
  rw [hrun]
  cases Eval.executeAll fuel program { m with table } with
  | ok flow m' =>
    have hsink : m'.erase.sink = m'.sink := rfl
    dsimp only [outcome]
    rw [hsink]
    cases m'.sink.flushFault <;> rfl
  | error stop m' =>
    cases stop with
    | failure fault =>
      have hsink : m'.erase.sink = m'.sink := rfl
      dsimp only [outcome, Stop.erase]
      rw [hsink]
      cases m'.sink.flushFault <;> rfl
    | outOfFuel => rfl

end ClassScript
