import ClassScript.Proofs.CheckerInvariants
import ClassScript.Proofs.Compatibility
import ClassScript.Proofs.ReceiverCalls

namespace ClassScript

/-!
# Calls of ternaries

A ternary has the type of its first branch, and the second branch has a compatible type. A call
`(c ? f : g)(…)` is checked by the type of `f` alone. The arguments suit `g` as well, except that
functions which print go with every function of one parameter: if `f` prints, then `g` may be given
what it does not take.

* `Signature.accepts_eq_false_iff`: which arguments of a function a compatible one does not take;
* `Typing.CanGive`: the types of expressions of programs that pass the checks;
* `TernaryCall.OccursIn`: calls of ternaries in such programs;
* `ternary_callees_accept`: the arguments of these calls.
-/

/-! ### Functions that the checker knows -/

theorem StaticType.Written.concrete {names : List String} {type : StaticType}
    (h : type.Written names) : type.Concrete := by
  cases type with
  | function s => exact h.elim
  | generic tags => exact h.elim
  | _ => trivial

namespace Signature

/-- The first function prints, and the second one does not take the argument. -/
def PrintsFor (s s' : Signature) (types : List StaticType) : Prop :=
  s.Prints ∧ ∃ param type, s'.params = [param] ∧ types = [type] ∧ param.compatible type = false

theorem Prints.params {s : Signature} (h : s.Prints) : s.params = [.any] := by
  rcases h with rfl | rfl <;> rfl

variable {names names' : List String} {s s' : Signature} {types : List StaticType}

theorem Formed.concrete_or_any (h : s.Formed names) : ∀ p ∈ s.params, p.Concrete ∨ p = .any := by
  intro p hp
  rcases h.1 with hwritten | hprints
  · exact .inl (hwritten p hp).concrete
  · rw [hprints.params] at hp
    exact .inr (List.mem_singleton.mp hp)

/-- What goes with a list of one type is a list of one type. -/
theorem exists_of_compatibleAll_singleton {a : StaticType} {bs : List StaticType}
    (h : StaticType.compatibleAll [a] bs = true) : ∃ b, bs = [b] :=
  List.length_eq_one_iff.mp (StaticType.compatibleAll_iff.mp h).1.symm

/-- Of two compatible functions the second takes what the first does, unless the first prints. -/
theorem accepts_eq_false_iff (hs : s.Formed names) (hs' : s'.Formed names')
    (h : s.compatible s' = true) (haccepts : s.accepts types = true) :
    s'.accepts types = false ↔ s.PrintsFor s' types := by
  constructor
  · intro hrefuses
    rcases hs.1 with hwritten | hprints
    · have htaken : s'.accepts types = true :=
        accepts_of_compatible (fun p hp => (hwritten p hp).concrete) hs'.concrete_or_any h haccepts
      rw [hrefuses] at htaken
      cases htaken
    · rw [accepts, hprints.params] at haccepts
      have hparams := compatible_params h
      rw [hprints.params] at hparams
      obtain ⟨type, rfl⟩ := exists_of_compatibleAll_singleton haccepts
      obtain ⟨param, hparam⟩ := exists_of_compatibleAll_singleton hparams
      refine ⟨hprints, param, type, hparam, rfl, ?_⟩
      rw [accepts, hparam] at hrefuses
      simpa [StaticType.compatibleAll] using hrefuses
  · rintro ⟨-, param, type, hparam, rfl, hne⟩
    rw [accepts, hparam, StaticType.compatibleAll, hne, Bool.false_and]

end Signature

/-! ### Calls of ternaries -/

/-- A call `(c ? f : g)(…)`. -/
structure TernaryCall where
  condition : Expr
  question : Position
  yes : Expr
  no : Expr
  paren : Position
  arguments : List Expr

namespace TernaryCall

def callee (c : TernaryCall) : Expr :=
  .grouping (.ternary c.condition c.question c.yes c.no)

def expr (c : TernaryCall) : Expr :=
  .call c.callee c.paren c.arguments

end TernaryCall

namespace Typing

/-- The type of an expression of some program that passes the checks. -/
def CanGive (type : StaticType) : Prop :=
  ∃ source program table e, Source.checked source = .ok (program, table) ∧
    Gives table program e type

variable {s s' : Signature} {types : List StaticType}

/-- The function that an expression is takes what can be written down, or it prints. -/
theorem CanGive.formed (h : CanGive (.function s)) : ∃ names, s.Formed names := by
  obtain ⟨-, program, table, e, -, site, hvisit, htype⟩ := h
  exact ⟨site.typing.names, (admitted_of_typeOf (contained_of_visits hvisit) e htype).1⟩

/-- Of two compatible functions, the second refuses what the first accepts exactly if the first one
    prints it. -/
theorem CanGive.accepts_eq_false_iff (hs : CanGive (.function s)) (hs' : CanGive (.function s'))
    (h : s.compatible s' = true) (haccepts : s.accepts types = true) :
    s'.accepts types = false ↔ s.PrintsFor s' types := by
  obtain ⟨names, hformed⟩ := hs.formed
  obtain ⟨names', hformed'⟩ := hs'.formed
  exact Signature.accepts_eq_false_iff hformed hformed' h haccepts

end Typing

open Typing

namespace TernaryCall

variable {c : TernaryCall} {source : String} {site : Site} {s s' : Signature}

/-- The call stands at this place of a program that passes the checks, and its branches are
    functions of these types. -/
def OccursIn (c : TernaryCall) (source : String) (site : Site) (s s' : Signature) : Prop :=
  ∃ program table, Source.checked source = .ok (program, table) ∧
    walk.Visits (start table program) ⟨.expr c.expr, site⟩ ∧
    typeOf site.context site.typing c.yes = .ok (.function s) ∧
    typeOf site.context site.typing c.no = .ok (.function s')

/-- The checker has compared the branches, and the arguments to what the first one takes. -/
theorem OccursIn.accepts (h : OccursIn c source site s s') :
    ∃ types, typesOf site.context site.typing c.arguments = .ok types ∧
      s.compatible s' = true ∧ s.accepts types = true := by
  obtain ⟨program, table, hchecked, hvisit, hyes, hno⟩ := h
  obtain ⟨-, -, hcheck⟩ := Source.checked_eq_ok hchecked
  obtain ⟨type, htype⟩ := accepts_of_visits hcheck hvisit
  obtain ⟨calleeType, types, hcallee, htypes, hcall⟩ := typeOf_call_ok htype
  rw [callee, typeOf] at hcallee
  obtain ⟨-, noType, -, -, hyes', hno', hcompatible⟩ := typeOf_ternary_ok hcallee
  cases hyes.symm.trans hyes'
  cases hno.symm.trans hno'
  rw [StaticType.compatible] at hcompatible
  exact ⟨types, htypes, hcompatible, (call_function_ok hcall).1⟩

/-- The types of the branches are types that the checker gives. -/
theorem OccursIn.canGive (h : OccursIn c source site s s') :
    CanGive (.function s) ∧ CanGive (.function s') := by
  obtain ⟨program, table, hchecked, hvisit, hyes, hno⟩ := h
  have hcallee : walk.Visits (start table program) ⟨.expr c.callee, site⟩ :=
    .tail hvisit (by simp [Walk.enters, expr, Expr.parts])
  have hternary : walk.Visits (start table program)
      ⟨.expr (.ternary c.condition c.question c.yes c.no), site⟩ :=
    .tail hcallee (by simp [Walk.enters, callee, Expr.parts])
  refine ⟨⟨source, program, table, c.yes, hchecked, site, ?_, hyes⟩,
    ⟨source, program, table, c.no, hchecked, site, ?_, hno⟩⟩
  · exact .tail hternary (by simp [Walk.enters, Expr.parts])
  · exact .tail hternary (by simp [Walk.enters, Expr.parts])

end TernaryCall

/-- **Calls of ternaries.** If a type that the checker gives to a function is compatible with
    another one, the other function takes the same arguments, unless the first is that of a function
    which prints, and the other has one parameter, of another type than the argument. So a call of a
    ternary gives arguments of the right types to either branch, or its first branch prints. -/
theorem ternary_callees_accept :
    (∀ (s s' : Signature) (types : List StaticType), CanGive (.function s) →
      CanGive (.function s') → s.compatible s' = true → s.accepts types = true →
      (s'.accepts types = false ↔ s.PrintsFor s' types)) ∧
      ∀ (source : String) (c : TernaryCall) (site : Site) (s s' : Signature),
        c.OccursIn source site s s' →
        ∃ types, typesOf site.context site.typing c.arguments = .ok types ∧
          s.compatible s' = true ∧ s.accepts types = true ∧
          (s'.accepts types = false ↔ s.PrintsFor s' types) := by
  constructor
  · exact fun s s' types => CanGive.accepts_eq_false_iff
  · intro source c site s s' hoccurs
    obtain ⟨types, htypes, hcompatible, haccepts⟩ := hoccurs.accepts
    obtain ⟨hs, hs'⟩ := hoccurs.canGive
    exact ⟨types, htypes, hcompatible, haccepts, hs.accepts_eq_false_iff hs' hcompatible haccepts⟩

/-! ### Programs of two statements -/

namespace TernaryCall

variable {c : TernaryCall} {site : Site} {s : Signature}

/-- The call after the first statement of a program. -/
def second? : Program → Option (Stmt × TernaryCall)
  | [first, .expression (.call (.grouping (.ternary condition question yes no)) paren arguments)] =>
    some (first, ⟨condition, question, yes, no, paren, arguments⟩)
  | _ => none

theorem eq_of_second? {program : Program} {first : Stmt}
    (h : second? program = some (first, c)) : program = [first, .expression c.expr] := by
  unfold second? at h
  split at h
  · cases h
    rfl
  · cases h

/-- The type of an expression that is a function. -/
def signatureOf? (site : Site) (e : Expr) : Option Signature :=
  match typeOf site.context site.typing e with
  | .ok (.function s) => some s
  | _ => none

theorem typeOf_of_signatureOf? {e : Expr} (h : signatureOf? site e = some s) :
    typeOf site.context site.typing e = .ok (.function s) := by
  unfold signatureOf? at h
  split at h
  · next htype =>
    cases h
    exact htype
  · cases h

/-- What the checker knows after the first statement of a program. -/
def afterFirst (table : Distances) (first : Stmt) : Site :=
  walk.after first ⟨⟨table, none, none⟩, .initial⟩

/-- A call in a program of two statements is found by running the checker. -/
theorem exists_occursIn (source : String) (p : TernaryCall → Site → Signature → Signature → Bool)
    (h : (Source.checked source).toOption.any (fun found =>
      (second? found.1).any fun (first, c) =>
        (signatureOf? (afterFirst found.2 first) c.yes).any fun s =>
          (signatureOf? (afterFirst found.2 first) c.no).any fun s' =>
            p c (afterFirst found.2 first) s s') = true) :
    ∃ c site s s', OccursIn c source site s s' ∧ p c site s s' = true := by
  obtain ⟨⟨program, table⟩, hchecked, h⟩ := exists_ok_of_any h
  obtain ⟨⟨first, c⟩, hprogram, h⟩ := (Option.any_eq_true _ _).mp h
  obtain ⟨s, hyes, h⟩ := (Option.any_eq_true _ _).mp h
  obtain ⟨s', hno, h⟩ := (Option.any_eq_true _ _).mp h
  refine ⟨c, afterFirst table first, s, s', ⟨program, table, hchecked, ?_,
    typeOf_of_signatureOf? hyes, typeOf_of_signatureOf? hno⟩, h⟩
  obtain rfl : program = _ := eq_of_second? hprogram
  exact .tail (.tail (.tail .refl (Walk.rest_mem_enters walk first _ _))
    (Walk.first_mem_enters walk _ _ _)) List.mem_cons_self

end TernaryCall

/-- A function that takes a truth value, in place of one that prints: both take the argument. -/
theorem ternary_callees_accept_function :
    ∃ (c : TernaryCall) (site : Site) (s s' : Signature),
      c.OccursIn "def f(x: Boolean) \x7b println(!x); \x7d
(true ? f : print)(false);" site s s' ∧
      CanGive (.function s) ∧ CanGive (.function s') ∧
      ∃ types, typesOf site.context site.typing c.arguments = .ok types ∧
        s.compatible s' = true ∧ s.accepts types = true ∧ s'.accepts types = true ∧
        s'.compatible s = true ∧ ¬ s'.PrintsFor s types := by
  obtain ⟨c, site, s, s', hoccurs, hname⟩ := TernaryCall.exists_occursIn
    "def f(x: Boolean) \x7b println(!x); \x7d
(true ? f : print)(false);"
    (fun _ _ s _ => s.name == "f") (by decide +kernel)
  obtain ⟨hs, hs'⟩ := hoccurs.canGive
  obtain ⟨types, htypes, hcompatible, haccepts, hiff⟩ :=
    ternary_callees_accept.2 _ c site s s' hoccurs
  have hprints : ¬ s.Prints := by
    rintro (rfl | rfl) <;> exact absurd hname (by decide)
  have hboth : s'.accepts types = true := by
    rw [← Bool.not_eq_false, hiff]
    exact fun h => hprints h.1
  have hback : s'.compatible s = true := by
    rw [Signature.compatible_comm]
    exact hcompatible
  have hiff' := ternary_callees_accept.1 s' s types hs' hs hback hboth
  refine ⟨c, site, s, s', hoccurs, hs, hs', types, htypes, hcompatible, haccepts, hboth, hback, ?_⟩
  rw [← hiff', Bool.not_eq_false]
  exact haccepts

/-- A function that prints, in place of one that takes a truth value: the program passes the checks,
    and fails as the function is given a string. -/
theorem ternary_callee_refuses :
    (∃ (c : TernaryCall) (site : Site) (s s' : Signature),
      c.OccursIn "def f(x: Boolean) \x7b println(!x); \x7d
(false ? print : f)(\"s\");" site s s' ∧
      CanGive (.function s) ∧ CanGive (.function s') ∧
      ∃ types, typesOf site.context site.typing c.arguments = .ok types ∧
        s.compatible s' = true ∧ s.accepts types = true ∧ s'.accepts types = false) ∧
      Source.FailsRunning "def f(x: Boolean) \x7b println(!x); \x7d
(false ? print : f)(\"s\");" "Invalid operand for unary '!': String" ⟨1, 29⟩ := by
  refine ⟨?_, Source.failsRunning_of_any 30 (by decide +kernel)⟩
  obtain ⟨c, site, s, s', hoccurs, hrefuses⟩ := TernaryCall.exists_occursIn
    "def f(x: Boolean) \x7b println(!x); \x7d
(false ? print : f)(\"s\");"
    (fun c site _ s' => (typesOf site.context site.typing c.arguments).toOption.any fun types =>
      !s'.accepts types) (by decide +kernel)
  obtain ⟨hs, hs'⟩ := hoccurs.canGive
  obtain ⟨types, htypes, hcompatible, haccepts⟩ := hoccurs.accepts
  obtain ⟨types', htypes', hrefuses⟩ := exists_ok_of_any hrefuses
  cases htypes.symm.trans htypes'
  exact ⟨c, site, s, s', hoccurs, hs, hs', types, htypes, hcompatible, haccepts,
    by simpa using hrefuses⟩

end ClassScript
