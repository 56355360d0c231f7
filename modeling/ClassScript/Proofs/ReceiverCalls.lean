import ClassScript.Proofs.ClassSafety

namespace ClassScript

/-!
# Calls of methods on the receiver

In a method of a class `C` the checker takes `this` for an instance of `C`, and the call
`this.m(..)` for a call of the method `m` that it finds from `C`. But the method may run for an
instance of a descendant of `C`, which may declare `m` anew with other parameters, or hold a field
of that name, set where the checker knows of no such method.

* `Typing.FindsMethod`: the method that the checker finds for such a call;
* `ClassSafety.Dispatch`: what the call comes to, by the class of the receiver;
* `run_dispatches_calls`: every such call of a run comes to that;
* `receiver_calls_fail`: with other parameters, or with a field, such calls do fail.
-/

/-- The call `this.name(arguments)`. -/
structure ReceiverCall where
  ref : Reference
  name : Name
  paren : Position
  arguments : List Expr

namespace ReceiverCall

def callee (c : ReceiverCall) : Expr :=
  .get (.this c.ref) c.name

def expr (c : ReceiverCall) : Expr :=
  .call c.callee c.paren c.arguments

section

open Typing (Site start walk)

variable {table : Distances} {program : Program} {c : ReceiverCall} {site : Site}

/-- Where the checker comes to the call, it comes to the callee. -/
theorem visits_callee (h : walk.Visits (start table program) ⟨.expr c.expr, site⟩) :
    walk.Visits (start table program) ⟨.expr c.callee, site⟩ :=
  .tail h (List.mem_map_of_mem (by simp [expr, Expr.parts]))

/-- Where the checker comes to the call, it comes to the receiver. -/
theorem visits_this (h : walk.Visits (start table program) ⟨.expr c.expr, site⟩) :
    walk.Visits (start table program) ⟨.expr (.this c.ref), site⟩ :=
  .tail (visits_callee h) (List.mem_map_of_mem (by simp [callee, Expr.parts]))

end

end ReceiverCall

namespace Typing

/-- The checker comes to the call in a method of the class, and finds the method from there, of this
    type. -/
def FindsMethod (table : Distances) (program : Program) (c : ReceiverCall) (id : ClassId)
    (s : Signature) : Prop :=
  ∃ site, walk.Visits (start table program) ⟨.expr c.expr, site⟩ ∧
    site.context.current = some id ∧ site.typing.classes.findMethod? c.name.text id.index = some s

theorem typeOf_get_method {context : TypeContext} {t : Typing} {object : Expr} {id : ClassId}
    {name : Name} {s : Signature} (hobject : typeOf context t object = .ok (.instanceType id))
    (hs : t.classes.findMethod? name.text id.index = some s) :
    typeOf context t (.get object name) = .ok (.function s) := by
  rw [typeOf, hobject]
  show property context t id name = _
  rw [property, hs]

end Typing

namespace Eval

variable {m : Machine}

theorem bind_congr_of_ok {α β : Type} {x : Eval α} {f g : α → Eval β}
    (h : ∀ a m', x m = .ok a m' → f a m' = g a m') : (x >>= f) m = (x >>= g) m := by
  cases hx : x m with
  | ok a m' =>
    rw [bind_of_ok hx, bind_of_ok hx]
    exact h a m' hx
  | error reason m' => rw [bind_of_error hx, bind_of_error hx]

/-- A field comes before a method. -/
theorem property_of_field {object : Instance} {name : Name} {v : Value}
    (h : m.field? object name.text = some v) : property object name m = .ok v m := by
  rw [property, bind_of_ok (show (get : Eval Machine) m = .ok m m from rfl), h]
  rfl

/-- Without a field, a method is bound to the receiver in a frame of its own. -/
theorem property_of_method {object : Instance} {name : Name} {f : Closure}
    (hfield : m.field? object name.text = none)
    (hmethod : object.cls.findMethod? name.text = some f) : ∃ m₁,
    m₁.heap = m.heap.alloc (some f.frame) (Bindings.empty.insert thisName (.instanceValue object)) ∧
      property object name m
        = .ok (.function m.nextIdentity { f with frame := m.heap.next }) m₁ := by
  rw [property, bind_of_ok (show (get : Eval Machine) m = .ok m m from rfl), hfield, hmethod]
  exact ⟨_, rfl, rfl⟩

/-- A call of a function, where the number of the arguments is known. -/
theorem call_function {k identity : Nat} {f : Closure} {values : List Value} {paren : Position}
    {count : Nat} (hcount : values.length = count) :
    call (k + 1) (.function identity f) values paren
      = if f.arity = count then invoke k f values
        else fail paren (.argumentCount f.arity count) := by
  rw [call, checkCount, hcount]
  by_cases h : count = f.arity
  · rw [if_pos h, if_pos h.symm]
    rfl
  · rw [if_neg h, if_neg (Ne.symm h)]
    rfl

end Eval

namespace ClassSafety

open Eval
open Typing (Site MethodOf FindsMethod start walk)

variable {T : Typing} {program : Program} {table : Distances} {m₀ m : Machine}

/-- What a call of a method on the receiver comes to, where the checker has found the method from
    the class `id`, of the type `s`. The receiver is an instance of the class `index`, which
    inherits from `id`, and this class has the method `f`, of the type `s'`. -/
structure Dispatch (T : Typing) (program : Program) (table : Distances) (k : Nat) (m : Machine)
    (c : ReceiverCall) (id : ClassId) (s : Signature) (object : Instance) (index : Nat)
    (f : Closure) (s' : Signature) : Prop where
  receiver : evaluate (k + 1) (.this c.ref) m = .ok (.instanceValue object) m
  class_eq : T.classes.classAt? m.heap m.globals index = some object.cls
  inherits : T.classes.inherits id.index index = true
  method : object.cls.findMethod? c.name.text = some f
  type : T.classes.findMethod? c.name.text index = some s'
  declared : MethodOf table program c.name.text index f.decl s'
  /-- A field of that name comes first. -/
  field : ∀ v, m.field? object c.name.text = some v → evaluate (k + 2) c.callee m = .ok v m
  /-- Without such a field the callee is the method, with the receiver bound. The call then comes to
      its body, unless it takes another number of arguments than the method that the checker found.
      -/
  call : m.field? object c.name.text = none → ∃ m₁,
    m₁.heap = m.heap.alloc (some f.frame) (Bindings.empty.insert thisName (.instanceValue object)) ∧
      evaluate (k + 2) c.callee m
        = .ok (.function m.nextIdentity { f with frame := m.heap.next }) m₁ ∧
      evaluate (k + 3) c.expr m
        = (evaluateAll (k + 2) c.arguments >>= fun values =>
            if s'.params.length = s.params.length then
              invoke (k + 1) { f with frame := m.heap.next } values
            else fail c.paren (.argumentCount s'.params.length s.params.length)) m₁

namespace Accepted

variable (hA : Accepted T program table)

include hA

variable {site : Site} {id : ClassId}

/-- The checker takes the receiver for an instance of the class at hand, and its value is an
    instance of a class that inherits from this one. -/
theorem exists_receiver {ref : Reference} (hm : Good T program table m₀ m)
    (hvisit : walk.Visits (start table program) ⟨.expr (.this ref), site⟩)
    (hstands : Stands T m site.typing.scopes) : ∃ id, site.context.current = some id ∧
      Typing.typeOf site.context site.typing (.this ref) = .ok (.instanceType id) ∧
      ∃ object index, m.lookUp? ref = some (.instanceValue object) ∧
        T.classes.classAt? m.heap m.globals index = some object.cls ∧
        T.classes.inherits id.index index = true := by
  have hc := hA.checked _ hvisit
  have hname : ref.name.text = thisName := hc.wellFormed
  obtain ⟨type, htype⟩ := hc.accepted
  have hlookUp : Typing.lookUp site.context site.typing ref = .ok type := by
    rw [Typing.typeOf] at htype
    exact htype
  obtain ⟨place, -, hget, -⟩ := Typing.lookUp_ok hlookUp
  rw [hname] at hget
  obtain ⟨id, -, hcurrent, rfl, -, -⟩ := (hA.known _ hvisit).framed.receiver hget
  obtain ⟨g, v, -, -, hfound, -, hrespects⟩ :=
    hstands.fits.lookUp? (hc.table.trans hm.table_eq.symm) hlookUp
  obtain ⟨object, rfl, index, hcls, hinherits⟩ := hrespects (.inl hname)
  exact ⟨id, hcurrent, htype, object, index, hfound, hcls, hinherits⟩

/-- Where every class of the program has the method, the checker finds one for each call of it on
    the receiver that a run comes to. -/
theorem exists_findsMethod {c : ReceiverCall} (h : Runs T program table m₀ m (.expr c.expr))
    (hall : ∀ index < T.classes.length, (T.classes.findMethod? c.name.text index).isSome = true) :
    ∃ id s, FindsMethod table program c id s := by
  obtain ⟨site, hvisit, hstands⟩ := h.stands
  obtain ⟨id, hcurrent, hreceiver, -⟩ :=
    hA.exists_receiver h.good (ReceiverCall.visits_this hvisit) hstands
  have hknown := (Typing.admitted_of_typeOf (hA.known _ hvisit).contained _ hreceiver).1
  have hlt : id.index < T.classes.length :=
    Nat.lt_of_lt_of_le (Typing.lt_length_classes hknown)
      (hA.checked _ hvisit).within.classes.length_le
  obtain ⟨s, hs⟩ := Option.isSome_iff_exists.mp (hall id.index hlt)
  exact ⟨id, s, site, hvisit, hcurrent, (hA.findMethod?_eq hvisit hknown _).symm.trans hs⟩

/-- The method that an instance has in the place of one that the checker has found. -/
theorem exists_method {x : String} {index : Nat} {cls : Class} {s : Signature}
    (hm : Good T program table m₀ m) (hcls : T.classes.classAt? m.heap m.globals index = some cls)
    (hinherits : T.classes.inherits id.index index = true)
    (hs : T.classes.findMethod? x id.index = some s) :
    ∃ f s', cls.findMethod? x = some f ∧ T.classes.findMethod? x index = some s' ∧
      MethodOf table program x index f.decl s' := by
  have hsome := ClassTable.isSome_findMethod?_of_inherits hA.complete.ordered hinherits
    (by rw [hs]; rfl)
  obtain ⟨s', hs'⟩ := Option.isSome_iff_exists.mp hsome
  have hrel := rel_findMethod? hA.complete hm.classes hcls x
  rw [hs'] at hrel
  generalize cls.findMethod? x = found at hrel ⊢
  cases hrel with
  | some h => exact ⟨_, s', rfl, hs', h.1⟩

/-- The checker has accepted the arguments for the method that it has found. -/
theorem length_of_receiverCall {k : Nat} {c : ReceiverCall} {s : Signature} {values : List Value}
    {m₁ m₂ : Machine} (h : Runs T program table m₀ m (.expr c.expr))
    (hvisit : walk.Visits (start table program) ⟨.expr c.expr, site⟩)
    (hreceiver : Typing.typeOf site.context site.typing (.this c.ref) = .ok (.instanceType id))
    (hs : site.typing.classes.findMethod? c.name.text id.index = some s)
    (hlater : Later T program table m₀ m m₁)
    (hvalues : evaluateAll k c.arguments m₁ = .ok values m₂) : values.length = s.params.length := by
  have harguments : Runs T program table m₀ m (.exprs c.arguments) :=
    h.parts (by simp [ReceiverCall.expr, Expr.parts])
  obtain ⟨type, htype⟩ := (hA.checked _ hvisit).accepted
  obtain ⟨calleeType, types, hcallee, htypes, hcall⟩ := Typing.typeOf_call_ok htype
  rw [ReceiverCall.callee, Typing.typeOf_get_method hreceiver hs] at hcallee
  cases hcallee
  obtain ⟨haccepted, -⟩ := Typing.call_function_ok hcall
  rw [hA.length_of_evaluateAll (hA.exprLaws.later harguments hlater) htypes hvalues]
  exact (length_of_accepts haccepted).symm

/-- A call on the receiver that a run comes to is dispatched by the class of the receiver. -/
theorem dispatch {k : Nat} {c : ReceiverCall} {s : Signature}
    (h : Runs T program table m₀ m (.expr c.expr)) (hfinds : FindsMethod table program c id s) :
    ∃ object index f s', Dispatch T program table k m c id s object index f s' := by
  obtain ⟨site, hvisit, hcurrent, hs⟩ := hfinds
  obtain ⟨site', hvisit', hstands⟩ := h.stands
  -- The call uses a name, so the checker comes to it at one place only.
  obtain rfl := Walk.place_unique hA.nodup
    (by simp [ReceiverCall.expr, ReceiverCall.callee, Part.references, Expr.references])
    hvisit hvisit'
  obtain ⟨id', hcurrent', hreceiver, object, index, hfound, hcls, hinherits⟩ :=
    hA.exists_receiver h.good (ReceiverCall.visits_this hvisit) hstands
  obtain rfl : id' = id := Option.some.inj (hcurrent'.symm.trans hcurrent)
  -- The class of the object inherits from the one at hand, so it has a method of that name.
  have hknown := (Typing.admitted_of_typeOf (hA.known _ hvisit).contained _ hreceiver).1
  obtain ⟨f, s', hmethod, htype, hdeclared⟩ := hA.exists_method h.good hcls hinherits
    ((hA.findMethod?_eq hvisit hknown _).trans hs)
  have hthisValue : evaluate (k + 1) (.this c.ref) m = .ok (.instanceValue object) m := by
    rw [evaluate, lookUp, hfound]
  have hcalleeValue : evaluate (k + 2) c.callee m = property object c.name m := by
    rw [ReceiverCall.callee, evaluate, bind_of_ok hthisValue]
  refine ⟨object, index, f, s', hthisValue, hcls, hinherits, hmethod, htype, hdeclared, ?_, ?_⟩
  · intro v hv
    rw [hcalleeValue, property_of_field hv]
  · intro hfield
    obtain ⟨m₁, hheap, hproperty⟩ := property_of_method hfield hmethod
    rw [← hcalleeValue] at hproperty
    refine ⟨m₁, hheap, hproperty, ?_⟩
    have hready : (discipline T program table m₀).Ready ⟨.evaluate c.callee, m⟩ :=
      ⟨h.good, site, ReceiverCall.visits_callee hvisit, hstands⟩
    have hlater := ((hA.lawful.done (k + 2) hready).of_ok hproperty).1
    rw [ReceiverCall.expr, evaluate, bind_of_ok hproperty]
    refine bind_congr_of_ok fun values m₂ hvalues => ?_
    rw [call_function (hA.length_of_receiverCall h hvisit hreceiver hs hlater hvalues),
      hdeclared.length_eq]
    rfl

end Accepted

end ClassSafety

open ClassSafety

/-- **Calls on the receiver.** Whenever a run comes to a call `this.m(..)` in a method of a class,
    where the checker has found the method `m` from this class, the receiver is an instance of the
    class or of a descendant. The callee is the field `m` of the receiver, if there is one;
    otherwise it is the method that the class of the receiver has, and if this takes as many
    arguments as the one that the checker has found, then the call comes to its body. -/
theorem run_dispatches_calls {source : String} {program : Program} {table : Distances}
    (hchecked : Source.checked source = .ok (program, table)) :
    ∃ T, Typing.stmts ⟨table, none, none⟩ program .initial = .ok T ∧
      ∀ sink fuel k c m id s,
        Job.Reaches fuel ⟨.executeAll program, { Machine.fresh sink with table }⟩ (k + 3)
          ⟨.evaluate (ReceiverCall.expr c), m⟩ →
        Typing.FindsMethod table program c id s →
        ∃ object index f s', Dispatch T program table k m c id s object index f s' := by
  obtain ⟨T, hT, hA⟩ := exists_accepted hchecked
  refine ⟨T, hT, fun sink fuel k c m id s hreach hfinds => ?_⟩
  have hruns : Runs T program table { Machine.fresh sink with table } m (.expr c.expr) :=
    hA.ready_of_reaches hreach
  exact hA.dispatch hruns hfinds

/-- Whether the job is a call of the method `x` on the receiver, and has the fuel to come to its
    body. -/
def Job.callsOnReceiver (x : String) : Nat × Job → Bool
  | (_ + 3, ⟨.evaluate (.call (.get (.this _) name) _ _), _⟩) => name.text == x
  | _ => false

theorem Job.exists_call_of_callsOnReceiver {x : String} {n : Nat} {j : Job}
    (h : Job.callsOnReceiver x (n, j) = true) :
    ∃ k c m, n = k + 3 ∧ j = ⟨.evaluate (ReceiverCall.expr c), m⟩ ∧ c.name.text = x := by
  unfold callsOnReceiver at h
  split at h
  · next k ref name paren arguments m heq =>
    cases heq
    exact ⟨k, ⟨ref, name, paren, arguments⟩, m, rfl, rfl, eq_of_beq h⟩
  · cases h

/-- A method that is declared anew, with as many parameters, and called by one that is inherited.
    The run comes to that call, for which the checker has found a method. -/
theorem run_dispatches_calls_override :
    ∃ program table, Source.checked
        "class A \x7b m(x: Boolean) \x7b \x7d go() \x7b this.m(true); \x7d \x7d
        class B < A \x7b m(y: String) \x7b println(y); \x7d \x7d
        B().go();" = .ok (program, table) ∧
      ∃ T, Typing.stmts ⟨table, none, none⟩ program .initial = .ok T ∧
        (∃ k c m id s,
          Job.Reaches 12 ⟨.executeAll program, { Machine.fresh .unbounded with table }⟩ (k + 3)
            ⟨.evaluate (ReceiverCall.expr c), m⟩ ∧
          Typing.FindsMethod table program c id s) ∧
        ∀ sink fuel k c m id s,
          Job.Reaches fuel ⟨.executeAll program, { Machine.fresh sink with table }⟩ (k + 3)
            ⟨.evaluate (ReceiverCall.expr c), m⟩ →
          Typing.FindsMethod table program c id s →
          ∃ object index f s', Dispatch T program table k m c id s object index f s' := by
  have hfound : (Source.checked
        "class A \x7b m(x: Boolean) \x7b \x7d go() \x7b this.m(true); \x7d \x7d
        class B < A \x7b m(y: String) \x7b println(y); \x7d \x7d
        B().go();").toOption.any (fun checked =>
      ((Typing.stmts ⟨checked.2, none, none⟩ checked.1 .initial).toOption.any fun T =>
        decide (∀ index < T.classes.length, (T.classes.findMethod? "m" index).isSome = true)) &&
      (Job.reached 12 ⟨.executeAll checked.1, { Machine.fresh .unbounded with
        table := checked.2 }⟩).any (Job.callsOnReceiver "m")) = true := by
    decide +kernel
  obtain ⟨⟨program, table⟩, hchecked, hfound⟩ := exists_ok_of_any hfound
  obtain ⟨hmethods, hany⟩ := Bool.and_eq_true_iff.mp hfound
  obtain ⟨T, hT, hdispatch⟩ := run_dispatches_calls hchecked
  obtain ⟨T', hT', hA⟩ := exists_accepted hchecked
  obtain rfl : T' = T := Except.ok.inj (hT'.symm.trans hT)
  rw [hT] at hmethods
  obtain ⟨n, j, hreach, hcalls⟩ := Job.exists_reaches_of_any hany
  obtain ⟨k, c, m, rfl, rfl, hname⟩ := Job.exists_call_of_callsOnReceiver hcalls
  obtain ⟨id, s, hfinds⟩ := hA.exists_findsMethod (hA.ready_of_reaches hreach)
    (hname ▸ of_decide_eq_true hmethods)
  exact ⟨program, table, hchecked, T', hT, ⟨k, c, m, id, s, hreach, hfinds⟩, hdispatch⟩

/-- What a run has failed for, and where. -/
def Ending.fault? : Ending → Option (String × Position)
  | .failed fault => some (fault.what.message, fault.pos)
  | _ => none

/-- The source passes the checks, and a run of it fails. -/
def Source.FailsRunning (source message : String) (pos : Position) : Prop :=
  ∃ program table, checked source = .ok (program, table) ∧
    ∃ fuel, ((Machine.fresh .unbounded).interpret fuel program table).1.fault? = some (message, pos)

theorem Source.failsRunning_of_any {source message : String} {pos : Position} (fuel : Nat)
    (h : (checked source).toOption.any (fun found =>
      ((Machine.fresh .unbounded).interpret fuel found.1 found.2).1.fault? == some (message, pos))
        = true) : FailsRunning source message pos := by
  obtain ⟨⟨program, table⟩, hchecked, hfault⟩ := exists_ok_of_any h
  exact ⟨program, table, hchecked, fuel, eq_of_beq hfault⟩

/-- Two programs that pass the checks, in which a call of a method on the receiver fails: one where
    a descendant declares the method without the parameter, and one where an ancestor has set a
    field of its name. -/
theorem receiver_calls_fail :
    Source.FailsRunning
        "class A \x7b m(x: Boolean) \x7b \x7d go() \x7b this.m(true); \x7d \x7d
class B < A \x7b m() \x7b \x7d \x7d
B().go();"
        "Expected 0 arguments but got 1" ⟨1, 47⟩ ∧
      Source.FailsRunning
        "class A \x7b put() \x7b this.foo = true; \x7d \x7d
class B < A \x7b foo() \x7b \x7d go() \x7b this.foo(); \x7d \x7d
val b = B(); b.put(); b.go();"
        "Can only call functions and classes, got Boolean" ⟨2, 41⟩ :=
  ⟨Source.failsRunning_of_any 30 (by decide +kernel),
    Source.failsRunning_of_any 30 (by decide +kernel)⟩

end ClassScript
