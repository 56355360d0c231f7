import ClassScript.Proofs.ClassSafety.Steps

namespace ClassScript

/-!
# Statements that keep classes

A declaration binds a name that the checker knows under its type from then on. At the top level the
name is new on the machine too, so nothing that is fixed is bound again. A class declaration puts
the class under the number that the checker gives it.

* `Stands.declare`: a machine with one more name;
* `Accepted.executed_val`, `Accepted.executed_function`: variables and functions;
* `Accepted.executed_class`: classes;
* `Accepted.lawful`: every single step of a run keeps the discipline.
-/

/-- What a name is bound to is in the last pair with that name. -/
theorem Bindings.find?_ofList_eq {α : Type} (pairs : List (String × α)) (x : String) :
    (ofList pairs).find? x = (pairs.reverse.find? fun pair => pair.1 == x).map Prod.snd := by
  have hfoldl : ∀ b : Bindings α, (pairs.foldl (fun b pair => b.insert pair.1 pair.2) b).find? x
      = ((pairs.reverse.find? fun pair => pair.1 == x).map Prod.snd).or (b.find? x) := by
    induction pairs with
    | nil => exact fun b => rfl
    | cons pair pairs ih =>
      intro b
      rw [List.foldl_cons, ih, List.reverse_cons, List.find?_append, find?_insert]
      cases hfound : pairs.reverse.find? fun pair => pair.1 == x with
      | some found => rfl
      | none =>
        by_cases hx : pair.1 = x
        · simp [hx]
        · simp [hx]
  rw [ofList, hfoldl]
  exact Option.or_none

/-- Of two lists of things that go together, the first ones with a property do, if both of a pair
    have it or neither has. -/
theorem rel_find? {α β : Type} {R : α → β → Prop} {p : α → Bool} {q : β → Bool} {as : List α}
    {bs : List β} (h : List.Forall₂ R as bs) (hpq : ∀ a b, R a b → p a = q b) :
    Option.Rel R (as.find? p) (bs.find? q) := by
  induction h with
  | nil => exact .none
  | @cons a b as bs hab _ ih =>
    rw [List.find?_cons, List.find?_cons, hpq a b hab]
    cases q b with
    | true => exact .some hab
    | false => exact ih

namespace Typing

variable {context : TypeContext} {t : Typing}

/-- A variable is a class only if its initializer is. -/
theorem classType_of_declaredType {name : Name} {written : Option TypeName}
    {initializer : Option Expr} {id : ClassId} (h : Contained ⟨context, t⟩)
    (htype : declaredType context t name written initializer = .ok (.classType id)) :
    ∃ e, initializer = some e ∧ typeOf context t e = .ok (.classType id) := by
  cases initializer with
  | some e =>
    obtain ⟨inferred, hinferred, ⟨rfl, rfl⟩ | ⟨⟨written, hwritten⟩, -⟩⟩ := declaredType_ok htype
    · exact ⟨e, rfl, hinferred⟩
    · exact absurd rfl (ne_classType_of_written (h.annotated hwritten) id)
  | none =>
    rcases declaredType_none_ok htype with heq | ⟨written, hwritten⟩
    · cases heq
    · exact absurd rfl (ne_classType_of_written (h.annotated hwritten) id)

/-- What stands inside a statement declares nothing. -/
theorem declared?_of_mem_parts {s s' : Stmt} (hwf : s.WellFormed) (h : .stmt s' ∈ s.parts) :
    s'.declared? = none := by
  cases s with
  | ifThen keyword condition yes =>
    simp only [Stmt.parts, List.mem_cons, List.not_mem_nil, or_false, reduceCtorEq, false_or,
      Part.stmt.injEq] at h
    subst h
    exact hwf.2.2
  | ifElse keyword condition yes no =>
    simp only [Stmt.parts, List.mem_cons, List.not_mem_nil, or_false, reduceCtorEq, false_or,
      Part.stmt.injEq] at h
    rcases h with rfl | rfl
    · exact hwf.2.1.2
    · exact hwf.2.2.2
  | whileLoop keyword condition body =>
    simp only [Stmt.parts, List.mem_cons, List.not_mem_nil, or_false, reduceCtorEq, false_or,
      Part.stmt.injEq] at h
    subst h
    exact hwf.2.2
  | _ => simp [Stmt.parts] at h

end Typing

namespace ClassSafety

open Eval
open Typing (Site ClassSite ClassChecked FunctionChecked VariableChecked start walk)

variable {T : Typing} {program : Program} {table : Distances} {m₀ m m₁ m' : Machine}

theorem Executed.of_later {s : Stmt} (hlater : Later T program table m₀ m m₁)
    (h : Executed T program table m₀ m₁ s m') : Executed T program table m₀ m s m' :=
  ⟨Later.since_trans hlater.since h.since, fun hplain => hlater.trans (h.later hplain),
    fun site t hvisit ht hstands => h.stands site t hvisit ht (hstands.later hlater)⟩

/-! ### One more name -/

theorem Stands.eq_globals_iff {s : Scopes StaticType} (hs : Stands T m s) :
    m.current = m.globals ↔ s.frames = [] := by
  constructor
  · intro heq
    by_contra hlocal
    exact hs.fits.ne_globals hlocal heq
  · exact hs.fits.eq_globals

/-- The machine with one more name in the current frame. -/
theorem Stands.declare {s : Scopes StaticType} {x : String} {v : Value} {type : StaticType}
    (hs : Stands T m s) (hkeeps : Keeps T m.globals m.heap (m.heap.define m.current x v))
    (hglobal : s.frames = [] → T.scopes.globals.find? x = some type)
    (hrespects : Fixed T m.globals m.current x →
      Respects T m.globals (m.heap.define m.current x v) type v) :
    Stands T { m with heap := m.heap.define m.current x v } (s.declare x type) := by
  have hbound : (m.heap.define m.current x v).lookup? m.current x = some v := by
    rw [Heap.lookup?_define, if_pos ⟨rfl, rfl, hs.fits.isSome_frame?⟩]
  constructor
  · refine Heap.Models.declare (hs.fits.mono hkeeps) fun b hb => ?_
    exact hb.insert (fun heq => hglobal (hs.eq_globals_iff.mp heq)) hbound hrespects
  · intro hframes y hy
    have hnil := (Scopes.frames_declare_eq_nil s x type).mp hframes
    rw [Scopes.declare_global hnil, Scopes.declareGlobal, Bindings.contains, Bindings.find?_insert]
    by_cases hxy : x = y
    · rw [if_pos hxy]
      rfl
    · rw [if_neg hxy]
      refine hs.names hnil y ?_
      rwa [Heap.lookup?_define, if_neg (fun h => hxy h.2.1)] at hy

/-- A name that is new to the checker is not fixed where it is bound already. -/
theorem Stands.not_fixed {s : Scopes StaticType} {name : Name} (hs : Stands T m s)
    (hplain : name.Plain) (hnew : s.declaredHere name.text = false)
    (hbound : (m.heap.lookup? m.current name.text).isSome = true) :
    ¬ Fixed T m.globals m.current name.text := by
  rintro (hthis | hsuper | ⟨heq, -⟩)
  · exact hplain.1 hthis
  · exact hplain.2 hsuper
  · rw [heq, hs.lookup?_eq_none (hs.eq_globals_iff.mp heq) hnew] at hbound
    cases hbound

namespace Accepted

variable (hA : Accepted T program table)

include hA

/-- A statement that binds a name in the current frame, and the type that the checker has for the
    name wherever the statement may stand. -/
theorem executed_define {s : Stmt} {x : String} {v : Value} (hm : Good T program table m₀ m)
    (hs : s.declared? = some x)
    (hx : (m.heap.lookup? m.current x).isSome = true → ¬ Fixed T m.globals m.current x)
    (hv : ValueFits T program table m.globals (m.heap.define m.current x v) v)
    (hclasses : ∀ i cls,
      T.classes.classAt? (m.heap.define m.current x v) m.globals i = some cls →
      T.classes.classAt? m.heap m.globals i = some cls ∨
        ClassFits T program table m.globals (m.heap.define m.current x v) i cls)
    (hsites : ∀ site t, walk.Visits (start table program) ⟨.stmt s, site⟩ →
      Typing.stmt site.context s site.typing = .ok t → Stands T m site.typing.scopes →
      ∃ type, t.scopes = site.typing.scopes.declare x type ∧
        (Fixed T m.globals m.current x →
          Respects T m.globals (m.heap.define m.current x v) type v)) :
    Executed T program table m₀ m s { m with heap := m.heap.define m.current x v } := by
  have hkeeps : Keeps T m.globals m.heap (m.heap.define m.current x v) :=
    .define hA.complete hx v
  have hsince : Since T program table m₀ m { m with heap := m.heap.define m.current x v } := by
    refine ⟨hm.define hA.complete hx hv hclasses, hkeeps, rfl, rfl, fun hlocal y hy => ?_⟩
    rwa [Heap.lookup?_define, if_neg (fun h => hlocal h.1.symm)] at hy
  refine ⟨hsince, fun hplain => ?_, fun site t hvisit ht hstands => ?_⟩
  · rw [hs] at hplain
    cases hplain
  · obtain ⟨type, hscopes, hrespects⟩ := hsites site t hvisit ht hstands
    have hwithin := (hA.checked _ hvisit).within_after ht
    rw [hscopes]
    refine hstands.declare hkeeps (fun hglobal => hwithin.globals x type ?_) hrespects
    rw [hscopes]
    exact Scopes.find?_globals_declare hglobal x type

/-- What the checker knows about a variable where it comes to it. -/
theorem variable_type {site : Site} {t : Typing} {name : Name} {written : Option TypeName}
    {initializer : Option Expr} {v : Value}
    (hvisit : walk.Visits (start table program) ⟨.stmt (.val name written initializer), site⟩)
    (ht : Typing.stmt site.context (.val name written initializer) site.typing = .ok t)
    (hv : ∀ e ∈ initializer, Gives T program table m e v) :
    ∃ type, VariableChecked site name written initializer type ∧
      t.scopes = site.typing.scopes.declare name.text type ∧
      (site.typing.scopes.frames = [] → T.scopes.globals.find? name.text = some type ∧
        ∀ id, type = .classType id → Respects T m.globals m.heap (.classType id) v) := by
  have hc := hA.checked _ hvisit
  have hwithin := hc.within_after ht
  cases hc.after ht with
  | plain hplain => cases hplain
  | @val _ _ _ type hval =>
    refine ⟨type, hval, rfl, fun hglobal => ⟨?_, ?_⟩⟩
    · exact hwithin.globals _ _ (Scopes.find?_globals_declare hglobal _ _)
    · rintro id rfl
      obtain ⟨e, rfl, htype⟩ :=
        Typing.classType_of_declaredType (hA.known _ hvisit).contained hval.type
      refine (hv e rfl).respects site id (.tail hvisit ?_) hglobal htype
      exact List.mem_singleton_self _

theorem executed_val {name : Name} {written : Option TypeName} {initializer : Option Expr}
    {v : Value} (h : Runs T program table m₀ m (.stmt (.val name written initializer)))
    (hv : ∀ e ∈ initializer, Gives T program table m e v)
    (hfits : ValueFits T program table m.globals m.heap v) :
    Executed T program table m₀ m (.val name written initializer)
      { m with heap := m.heap.define m.current name.text v } := by
  obtain ⟨hm, site, hvisit, hstands⟩ := h
  obtain ⟨t, ht⟩ := (hA.checked _ hvisit).accepted
  obtain ⟨type, hval, -, htype⟩ := hA.variable_type hvisit ht hv
  have hx := hstands.not_fixed hval.plain hval.isNew
  have hkeeps : Keeps T m.globals m.heap (m.heap.define m.current name.text v) :=
    .define hA.complete hx v
  -- The name is not that of a class: the class would be bound to it already.
  have hname : m.current = m.globals →
      ∀ i info, T.classes.info? i = some info → info.name ≠ name.text := by
    intro heq i info hinfo hname
    have hglobal := hstands.eq_globals_iff.mp heq
    obtain ⟨hfind, hclass⟩ := htype hglobal
    have hnamed := hA.complete.named i info hinfo
    rw [hname, hfind] at hnamed
    cases hnamed
    obtain ⟨cls, -, hcls⟩ := hclass _ rfl
    obtain ⟨info', hinfo', hlookup⟩ := ClassTable.classAt?_eq_some hcls
    rw [hinfo] at hinfo'
    cases hinfo'
    rw [hname, hstands.lookup?_eq_none hglobal hval.isNew] at hlookup
    cases hlookup
  refine hA.executed_define hm rfl hx (hfits.mono hkeeps) ?_ ?_
  · intro i cls hcls
    rw [classAt?_define v hname] at hcls
    exact .inl hcls
  · intro site' t' hvisit' ht' hstands'
    obtain ⟨type', hval', hscopes', htype'⟩ := hA.variable_type hvisit' ht' hv
    refine ⟨type', hscopes', fun hfixed => ?_⟩
    rcases hfixed with hthis | hsuper | ⟨heq, id, hid⟩
    · exact absurd hthis hval'.plain.1
    · exact absurd hsuper hval'.plain.2
    · obtain ⟨hfind, hclass⟩ := htype' (hstands'.eq_globals_iff.mp heq)
      rw [hid] at hfind
      cases hfind
      exact (hclass id rfl).mono hkeeps

/-- What the checker knows about a function where it comes to it. -/
theorem function_type {site : Site} {t : Typing} {decl : FunctionDecl}
    (hvisit : walk.Visits (start table program) ⟨.stmt (.funDecl decl), site⟩)
    (ht : Typing.stmt site.context (.funDecl decl) site.typing = .ok t) :
    ∃ s, FunctionChecked site decl s ∧
      t.scopes = site.typing.scopes.declare decl.name.text (.function s) ∧
      (site.typing.scopes.frames = [] →
        T.scopes.globals.find? decl.name.text = some (.function s)) := by
  have hc := hA.checked _ hvisit
  have hwithin := hc.within_after ht
  cases hc.after ht with
  | plain hplain => cases hplain
  | @funDecl _ s hfunction =>
    exact ⟨s, hfunction, rfl, fun hglobal =>
      hwithin.globals _ _ (Scopes.find?_globals_declare hglobal _ _)⟩

theorem executed_function {decl : FunctionDecl} (identity : Nat)
    (h : Runs T program table m₀ m (.stmt (.funDecl decl))) :
    Executed T program table m₀ m (.funDecl decl) { m with
      heap := m.heap.define m.current decl.name.text
        (.function identity ⟨decl, m.current, false⟩) } := by
  obtain ⟨hm, site, hvisit, hstands⟩ := h
  obtain ⟨t, ht⟩ := (hA.checked _ hvisit).accepted
  obtain ⟨s, hfunction, -, htype⟩ := hA.function_type hvisit ht
  -- For the checker the name is a function, so it is none of those that stay bound.
  have hfixed : ¬ Fixed T m.globals m.current decl.name.text := by
    rintro (hthis | hsuper | ⟨heq, id, hid⟩)
    · exact hfunction.plain.1 hthis
    · exact hfunction.plain.2 hsuper
    · rw [htype (hstands.eq_globals_iff.mp heq)] at hid
      cases hid
  have hname : m.current = m.globals →
      ∀ i info, T.classes.info? i = some info → info.name ≠ decl.name.text := by
    intro heq i info hinfo hname
    exact hfixed (.inr (.inr ⟨heq, _, hname ▸ hA.complete.named i info hinfo⟩))
  have hkeeps : Keeps T m.globals m.heap (m.heap.define m.current decl.name.text
      (.function identity ⟨decl, m.current, false⟩)) := .define hA.complete (fun _ => hfixed) _
  refine hA.executed_define hm rfl (fun _ => hfixed) ?_ ?_ ?_
  · -- The function sees its own name.
    have hdeclared := hstands.declare hkeeps htype fun hx => absurd hx hfixed
    refine ⟨hfunction.params,
      ⟨site.context, site.typing.declare decl.name.text (.function s)⟩, s, .tail hvisit ?_,
      hdeclared.fits⟩
    rw [← Typing.walk_function hfunction.signature]
    exact List.mem_singleton_self _
  · intro i cls hcls
    rw [classAt?_define _ hname] at hcls
    exact .inl hcls
  · intro site' t' hvisit' ht' _
    obtain ⟨s', -, hscopes, -⟩ := hA.function_type hvisit' ht'
    exact ⟨_, hscopes, fun hx => absurd hx hfixed⟩

end Accepted

/-! ### Classes -/

/-- A class whose methods have the types that the checker knows. -/
theorem Declared.of_decls {globals frame : FrameId} {h : Heap Value}
    {c : ClassSite table program} {info : ClassInfo} {ss : List Signature} {cls : Class}
    (hinfo : T.classes.info? c.index = some info) (hsuper : info.superclass = c.super)
    (hss : info.methods = Typing.methodTypes ss)
    (hcls : cls.methods = Bindings.ofList (c.decls.map fun decl =>
      (decl.name.text, ⟨decl, frame, decl.name.text == constructorName⟩)))
    (hdecls : List.Forall₂ (fun decl s => c.Builds decl s ∧
      ∀ isInitializer, MethodFits T program table globals h c.index ⟨decl, frame, isInitializer⟩)
      c.decls ss) : Declared T program table globals h c c.index cls := by
  have hfind : ∀ x, cls.methods.find? x = (c.method? x).map fun decl =>
      ⟨decl, frame, decl.name.text == constructorName⟩ := by
    intro x
    rw [hcls, Bindings.find?_ofList_eq, ← List.map_reverse, List.find?_map, Option.map_map]
    rfl
  refine ⟨rfl, ?_, fun x => ?_, fun x => ?_⟩
  · rw [ClassTable.superclass?, hinfo, Option.bind_some, hsuper]
  · rw [hfind, Option.map_map]
    exact Option.map_id'.symm
  · have htypes : info.methods.find? x = ss.reverse.find? fun s => s.name == x := by
      rw [hss, Typing.methodTypes, Bindings.find?_ofList_eq, ← List.map_reverse, List.find?_map,
        Option.map_map]
      exact Option.map_id'
    rw [hinfo, Option.bind_some, htypes, hfind]
    -- Of several methods with the name both sides find the last, and the lists go together.
    have hrel := rel_find? (p := fun decl => decl.name.text == x) (q := fun s => s.name == x)
      (List.forall₂_reverse_iff.mpr hdecls) fun decl s hs => by rw [(Typing.signature_ok hs.1).1]
    rw [ClassSite.method?]
    generalize c.decls.reverse.find? _ = found at hrel ⊢
    generalize ss.reverse.find? _ = found' at hrel ⊢
    cases hrel with
    | none => exact .none
    | some hboth => exact .some ⟨hboth.1, hboth.2 _⟩

namespace Accepted

variable (hA : Accepted T program table)

include hA

/-- What the checker knows about a class where it comes to it. -/
theorem class_type {site : Site} {t : Typing} {name : Name} {superclass : Option Reference}
    {decls : List FunctionDecl}
    (hvisit : walk.Visits (start table program) ⟨.stmt (.classDecl name superclass decls), site⟩)
    (ht : Typing.stmt site.context (.classDecl name superclass decls) site.typing = .ok t) :
    ∃ super ss, ClassChecked site name superclass decls super ss ∧
      t = site.typing.withClass name super (Typing.methodTypes ss) ∧
      (site.typing.withClass name super (Typing.methodTypes ss)).Within T ∧
      T.scopes.globals.find? name.text = some (.classType (site.typing.classId name)) := by
  have hc := hA.checked _ hvisit
  have hwithin := hc.within_after ht
  cases hc.after ht with
  | plain hplain => cases hplain
  | @classDecl _ _ _ super ss hclass =>
    exact ⟨super, ss, hclass, rfl, hwithin,
      hwithin.globals _ _ (Scopes.find?_globals_declare hclass.isGlobal _ _)⟩

variable {site : Site} {name : Name} {superclass : Option Reference} {decls : List FunctionDecl}
  {super : Option ClassId} {ss : List Signature}

/-- A method fits once the name of its class is bound, if the frame that it keeps fits the names
    around it but for the receiver. -/
theorem methodFits {globals frame : FrameId} {h : Heap Value} {decl : FunctionDecl} {s : Signature}
    {outer : List (Bindings StaticType)}
    (hvisit : walk.Visits (start table program) ⟨.stmt (.classDecl name superclass decls), site⟩)
    (hclass : ClassChecked site name superclass decls super ss) (hmem : (decl, s) ∈ decls.zip ss)
    (hframes : (Typing.classScopes (site.typing.withClass name super (Typing.methodTypes ss)).scopes
      (site.typing.classId name) super).frames
        = Bindings.empty.insert thisName (.instanceType (site.typing.classId name)) :: outer)
    (hmatch : Matches T globals h
      ⟨(site.typing.withClass name super (Typing.methodTypes ss)).scopes.globals, outer⟩ frame)
    (isInitializer : Bool) :
    MethodFits T program table globals h site.typing.classes.length
      ⟨decl, frame, isInitializer⟩ := by
  have hvisit' := (hA.checked _ hvisit).method_mem hclass hmem
  have hinside : Matches T globals h
      ⟨(Typing.insideClass (site.typing.classId name) super ⟨site.context,
        site.typing.withClass name super (Typing.methodTypes ss)⟩).typing.scopes.globals, outer⟩
      frame := by
    rw [Typing.insideClass_globals]
    exact hmatch
  exact ⟨hclass.params decl (List.of_mem_zip hmem).1, _, s, _, outer, .tail hvisit hvisit', hframes,
    rfl, hinside⟩

/-- The last step of a class declaration. -/
theorem executed_class {frame : FrameId} {parent : Option Class} (identity : Nat)
    (hm : Good T program table m₀ m)
    (hvisit : walk.Visits (start table program) ⟨.stmt (.classDecl name superclass decls), site⟩)
    (hstands : Stands T m site.typing.scopes)
    (hclass : ClassChecked site name superclass decls super ss)
    (hwithin : (site.typing.withClass name super (Typing.methodTypes ss)).Within T)
    (hparent : Option.Rel (fun id cls => T.classes.classAt? m.heap m.globals id.index = some cls)
      super parent)
    (hmethods : ∀ h, Keeps T m.globals m.heap h →
      Matches T m.globals h (site.typing.withClass name super (Typing.methodTypes ss)).scopes
        m.current →
      ∀ decl s, (decl, s) ∈ decls.zip ss → ∀ isInitializer,
        MethodFits T program table m.globals h site.typing.classes.length
          ⟨decl, frame, isInitializer⟩) :
    Executed T program table m₀ m (.classDecl name superclass decls) { m with
      heap := m.heap.define m.current name.text (.classValue ⟨identity, name.text, parent,
        Bindings.ofList <| decls.map fun decl =>
          (decl.name.text, ⟨decl, frame, decl.name.text == constructorName⟩)⟩) } := by
  generalize hcls : (⟨identity, name.text, parent, Bindings.ofList <| decls.map fun decl =>
    (decl.name.text, ⟨decl, frame, decl.name.text == constructorName⟩)⟩ : Class) = cls
  have hx := hstands.not_fixed hclass.plain hclass.isNew
  have hkeeps : Keeps T m.globals m.heap (m.heap.define m.current name.text (.classValue cls)) :=
    .define hA.complete hx _
  have hglobal : m.current = m.globals := hstands.eq_globals_iff.mpr hclass.isGlobal
  have hinfo := Typing.info?_of_within hwithin
  have hfind : T.scopes.globals.find? name.text = some (.classType (site.typing.classId name)) :=
    hwithin.globals _ _ (Scopes.find?_globals_declare hclass.isGlobal _ _)
  -- The class stands under its number.
  have hindex : T.classes.classAt? (m.heap.define m.current name.text (.classValue cls)) m.globals
      site.typing.classes.length = some cls := by
    refine ClassTable.classAt?_of_lookup? hinfo ?_
    rw [Heap.lookup?_define, if_pos ⟨hglobal.symm, rfl, hstands.fits.isSome_frame?⟩]
  have hdeclared := hstands.declare hkeeps (fun _ => hfind) fun _ => ⟨cls, rfl, hindex⟩
  have hfits : ClassFits T program table m.globals
      (m.heap.define m.current name.text (.classValue cls)) site.typing.classes.length cls := by
    have hsuper : cls.superclass = parent := by rw [← hcls]
    constructor
    · rw [ClassTable.superclass?, hinfo, hsuper]
      exact optionRel_imp hparent fun id super hsuper => hkeeps.classes _ super hsuper
    · refine ⟨⟨site, name, superclass, decls, super, hvisit, hclass.superclass⟩, ?_⟩
      refine Declared.of_decls hinfo rfl rfl (by rw [← hcls]) ?_
      refine List.forall₂_iff_zip.mpr ⟨hclass.fits.length_eq, fun {decl s} hmem => ⟨?_, ?_⟩⟩
      · exact (List.forall₂_iff_zip.mp (Typing.signatures_ok hclass.signatures)).2 hmem
      · exact hmethods _ hkeeps hdeclared.fits decl s hmem
  refine hA.executed_define hm rfl hx ⟨_, hindex⟩ ?_ ?_
  · intro i cls' hcls'
    rcases classAt?_define_class hA.complete hfind hcls' with hold | rfl
    · exact .inl hold
    · cases hindex.symm.trans hcls'
      exact .inr hfits
  · intro site' t' hvisit' ht' _
    obtain ⟨super', ss', -, rfl, -, hfind'⟩ := hA.class_type hvisit' ht'
    refine ⟨_, rfl, fun _ => ⟨cls, rfl, ?_⟩⟩
    rw [hfind, Option.some.injEq, StaticType.classType.injEq] at hfind'
    rw [← hfind']
    exact hindex

/-- The frame that binds a superclass. -/
theorem holdsFixed_super {h : Heap Value} {cls : Class} {id : ClassId}
    (hm : Good T program table m₀ m)
    (hcls : T.classes.classAt? m.heap m.globals id.index = some cls)
    (hkeeps : Keeps T m.globals
      (m.heap.alloc (some m.current) (Bindings.empty.insert superName (.classValue cls))) h) :
    HoldsFixed T m.globals h (Bindings.empty.insert superName (.classType id)) m.heap.next := by
  intro x type htype
  obtain ⟨rfl, rfl⟩ := Bindings.eq_of_find?_single htype
  refine ⟨fun heq => absurd heq.symm hm.ne_next, .classValue cls, ?_, fun _ => ⟨cls, rfl, ?_⟩⟩
  · refine hkeeps.fixed _ _ _ (.inr (.inl rfl)) ?_
    rw [Heap.lookup?_alloc_next, Bindings.find?_insert, if_pos rfl]
  · exact hkeeps.classes _ cls ((Keeps.alloc hA.complete m.heap _ _).classes _ cls hcls)

theorem ensures_declareClass
    (h : Runs T program table m₀ m (.stmt (.classDecl name superclass decls))) :
    Ensures (declareClass name superclass decls) m
      (fun _ m' => Executed T program table m₀ m (.classDecl name superclass decls) m')
      fun _ _ => False := by
  obtain ⟨hm, site, hvisit, hstands⟩ := h
  have hc := hA.checked _ hvisit
  obtain ⟨t, ht⟩ := hc.accepted
  obtain ⟨super, ss, hclass, rfl, hwithin, -⟩ := hA.class_type hvisit ht
  have hidentity : ∀ {m : Machine}, Good T program table m₀ m →
      Later T program table m₀ m { m with nextIdentity := m.nextIdentity + 1 } :=
    fun hm => .of_heap_eq hm rfl rfl rfl rfl hm.fields
  cases superclass with
  | none =>
    -- The methods keep the frame that the class is declared in.
    cases Typing.superclass_ok hclass.superclass
    have hlater := hidentity hm
    exact .of_later hlater (hA.executed_class m.nextIdentity hlater.since.good hvisit
      (hstands.later hlater) hclass hwithin .none fun h _ hdeclared decl s hmem =>
        hA.methodFits hvisit hclass hmem rfl hdeclared)
  | some ref =>
    obtain ⟨id, hlookUp, rfl⟩ : ∃ id, Typing.lookUp site.context site.typing ref
        = .ok (.classType id) ∧ super = some id := by
      cases Typing.superclass_ok hclass.superclass with
      | some h => exact ⟨_, h, rfl⟩
    obtain ⟨v, hfound, cls, rfl, hcls⟩ := hstands.fits.lookUp?_global
      (hc.table.trans hm.table_eq.symm) hclass.isGlobal hlookUp
    refine .declareClass ?_ nofun fun ref' href' cls' hcls' => ?_
    · rintro _ ⟨⟩ fault hfault
      unfold Machine.RefusesSuper at hfault
      simp [hfound] at hfault
    cases href'
    cases hfound.symm.trans hcls'
    -- The methods keep a frame of their own, which binds the superclass.
    have hfits : ∀ x v, (Bindings.empty.insert superName (.classValue cls)).find? x = some v →
        ValueFits T program table m.globals m.heap v := by
      intro x v hv
      obtain ⟨-, rfl⟩ := Bindings.eq_of_find?_single hv
      exact ⟨id.index, hcls⟩
    have halloc := Later.alloc hA.complete hm m.current hfits
    have hlater := halloc.trans (hidentity halloc.since.good)
    refine Executed.of_later hlater (hA.executed_class m.nextIdentity hlater.since.good hvisit
      (hstands.later hlater) hclass hwithin (.some (halloc.since.keeps.classes _ cls hcls)) ?_)
    intro h hkeeps hdeclared decl s hmem
    refine hA.methodFits hvisit hclass hmem rfl (hdeclared.cons ?_ ?_)
    · rw [hkeeps.grows.enclosing _ (by simp [Heap.frame?_alloc])]
      exact Heap.enclosing?_alloc_next _ _ _
    · exact hA.holdsFixed_super hm hcls hkeeps

/-! ### Statements -/

/-- The parts of a statement are come to where the statement is. -/
theorem visits_part {s : Stmt} {part : Part}
    (hvisit : walk.Visits (start table program) ⟨.stmt s, site⟩) (hpart : part ∈ s.parts) :
    walk.Visits (start table program) ⟨part, site⟩ := by
  have hwf := (hA.checked _ hvisit).wellFormed
  have henters : ∀ {part}, ⟨part, site⟩ ∈ walk.entersStmt s site →
      walk.Visits (start table program) ⟨part, site⟩ := fun h => .tail hvisit h
  cases s with
  | ifElse keyword condition yes no =>
    have hyes : walk.Visits (start table program) ⟨.stmt yes, site⟩ :=
      henters (by simp [Walk.entersStmt])
    -- After the first branch the checker knows what it knew before.
    have hc := hA.checked _ hyes
    obtain ⟨r, hr⟩ := hc.resolved
    have hafter := Typing.walk_after_eq_self hr hc.table hc.accepted hwf.2.1.2
    refine henters ?_
    simp only [Walk.entersStmt, hafter]
    simpa [Stmt.parts] using hpart
  | val name written initializer =>
    cases initializer with
    | none => cases hpart
    | some e =>
      cases List.mem_singleton.mp hpart
      exact henters (List.mem_singleton_self _)
  | ret keyword value =>
    cases value with
    | none => cases hpart
    | some e =>
      cases List.mem_singleton.mp hpart
      exact henters (List.mem_singleton_self _)
  | expression e => exact henters (by simpa [Walk.entersStmt, Stmt.parts] using hpart)
  | ifThen keyword condition yes =>
    exact henters (by simpa [Walk.entersStmt, Stmt.parts] using hpart)
  | whileLoop keyword condition body =>
    exact henters (by simpa [Walk.entersStmt, Stmt.parts] using hpart)
  | _ => cases hpart

theorem runs_rest {s : Stmt} {ss : List Stmt} (h : Runs T program table m₀ m (.stmts (s :: ss)))
    (hs : Executed T program table m₀ m s m') : Runs T program table m₀ m' (.stmts ss) := by
  obtain ⟨-, site, hvisit, hstands⟩ := h
  have hfirst : walk.Visits (start table program) ⟨.stmt s, site⟩ :=
    .tail hvisit (Walk.first_mem_enters walk s ss site)
  obtain ⟨t, ht⟩ := (hA.checked _ hfirst).accepted
  refine ⟨hs.since.good, ⟨site.context, t⟩, .tail hvisit ?_, hs.stands site t hfirst ht hstands⟩
  rw [← Typing.walk_after ht]
  exact Walk.rest_mem_enters walk s ss site

/-- A statement that declares nothing leaves the names as they are. -/
theorem executed_of_later {s : Stmt} (hplain : s.declared? = none)
    (h : Later T program table m₀ m m') : Executed T program table m₀ m s m' := by
  refine ⟨h.since, fun _ => h, fun site t hvisit ht hstands => ?_⟩
  cases (hA.checked _ hvisit).after ht with
  | plain => exact hstands.later h
  | _ => cases hplain

theorem runs_block {body : List Stmt} (h : Runs T program table m₀ m (.stmt (.block body))) :
    Runs T program table m₀ (m.inside m.current .empty) (.stmts body) := by
  obtain ⟨hm, site, hvisit, hstands⟩ := h
  have hlater : Later T program table m₀ m
      { m with heap := m.heap.alloc (some m.current) .empty } :=
    .alloc hA.complete hm m.current nofun
  refine ⟨hlater.since.good.within _, walk.block site, .tail hvisit (List.mem_singleton_self _),
    ?_, ?_⟩
  · exact hstands.fits.openFrame hA.complete .empty
  · intro hglobal
    cases hglobal

theorem stmtLaws : (discipline T program table m₀).StmtLaws where
  parts := by
    rintro m s part ⟨hm, site, hvisit, hstands⟩ hpart
    exact ⟨hm, site, hA.visits_part hvisit hpart, hstands⟩
  first := by
    rintro m s ss ⟨hm, site, hvisit, hstands⟩
    exact ⟨hm, site, .tail hvisit (Walk.first_mem_enters walk s ss site), hstands⟩
  rest := hA.runs_rest
  raises _ _ h := superclassFound_of_stmt_raises h
  since := Executed.since
  later := Executed.of_later
  plain _ hplain := ⟨fun h => h.later hplain, hA.executed_of_later hplain⟩
  branch := by
    rintro m s s' m' ⟨-, site, hvisit, -⟩ hpart h
    exact h.later (Typing.declared?_of_mem_parts (hA.checked _ hvisit).wellFormed hpart)
  block := hA.runs_block
  val := by
    intro m name written initializer v h hv hnone
    refine hA.executed_val h hv ?_
    cases initializer with
    | some e => exact (hv e rfl).fits
    | none =>
      rw [hnone rfl]
      trivial
  funDecl := by
    intro m decl h
    have hlater : Later T program table m₀ m { m with nextIdentity := m.nextIdentity + 1 } :=
      .of_heap_eq h.good rfl rfl rfl rfl h.good.fields
    exact .of_later hlater (hA.executed_function m.nextIdentity (hA.exprLaws.later h hlater))
  classDecl h := (hA.ensures_declareClass h).mono (fun _ _ h => h) fun _ _ h => h.elim

/-- Every single step of a run keeps the discipline. -/
theorem lawful : (discipline T program table m₀).Lawful :=
  ⟨hA.machineLaws, hA.valueLaws, hA.exprLaws, hA.callLaws, hA.stmtLaws⟩

end Accepted

end ClassSafety

end ClassScript
