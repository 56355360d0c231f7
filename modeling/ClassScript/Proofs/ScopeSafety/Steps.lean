import ClassScript.Proofs.Execution
import ClassScript.Proofs.ScopeSafety.Matching

namespace ClassScript

/-!
# Steps that find their names

The steps on a machine whose frames fit the scopes of a place: what is looked up is there, and what
is made fits again.

* `Executed`: what a statement leaves behind, and `Executed.declare`: declarations;
* `ensures_boundMethod`, `exists_super`: methods and their receivers;
* `Executed.withClass`, `Executed.withSuper`: classes.
-/

open Resolution (Setting start walk)

variable {program : Program} {table : Distances}

namespace ScopeSafety

open Eval

variable {m : Machine} {s : Scopes Readiness} {S : Stop → Machine → Prop}

/-! ### Declarations -/

/-- A statement that has been executed has bound the name that it declares. -/
def Executed (program : Program) (table : Distances) (m : Machine) (s : Stmt) (m' : Machine) :
    Prop :=
  Later program table m m' ∧ ∀ x ∈ s.declared?, (m'.heap.lookup? m'.current x).isSome = true

theorem Executed.declare {statement : Stmt} {name : Name} {v : Value}
    (hname : statement.declared? = some name.text) (hm : Sound program table m)
    (hmatch : Matches m.heap m.globals s m.current) (hplain : name.Plain)
    (hv : ValueFits program (m.heap.define m.current name.text v) m.globals v) (identity : Nat) :
    Executed program table m statement { m with
      heap := m.heap.define m.current name.text v
      nextIdentity := identity } := by
  have hdefine := Later.define hm ⟨hv, fun hx => absurd hx hplain.2, fun hx => absurd hx hplain.1⟩
  refine ⟨hdefine.trans (.of_eq hdefine.sound rfl rfl rfl rfl rfl), fun x hx => ?_⟩
  cases hname.symm.trans hx
  show ((m.heap.define m.current name.text v).lookup? m.current name.text).isSome = true
  rw [Heap.lookup?_define, if_pos ⟨rfl, rfl, hmatch.isSome_frame?⟩]
  rfl

/-! ### Methods -/

theorem ensures_bindReceiver {method : Closure} {object : Instance} (hm : Sound program table m)
    (hmethod : MethodFits program m.heap m.globals method)
    (hobject : ClassFits program m.heap m.globals object.cls) :
    Ensures (bindReceiver method object) m
      (fun bound m' => Later program table m m' ∧ ClosureFits program m'.heap m'.globals bound ∧
        bound.arity = method.arity) S := by
  refine ⟨Later.alloc hm _ ?_, hmethod.bind object, rfl⟩
  intro x v hv
  rw [Bindings.find?_insert] at hv
  split at hv
  · next hx =>
    cases hv
    exact ⟨hobject, fun hsuper => absurd (hx.trans hsuper) (by decide), fun _ => ⟨object, rfl⟩⟩
  · cases hv

theorem ensures_boundMethod {method : Closure} {object : Instance} (hm : Sound program table m)
    (hmethod : MethodFits program m.heap m.globals method)
    (hobject : ClassFits program m.heap m.globals object.cls) :
    Ensures (boundMethod method object) m
      (fun v m' => Later program table m m' ∧ ValueFits program m'.heap m'.globals v) S := by
  refine (ensures_bindReceiver hm hmethod hobject).bind fun bound m₁ _ ⟨hlater, hbound, _⟩ => ?_
  exact ⟨hlater.trans (.of_eq hlater.sound rfl rfl rfl rfl rfl), hbound⟩

/-- The frame of the superclass stands right outside that of the receiver, so both are found. -/
theorem exists_super {keyword : Reference} (hm : Sound program table m)
    (hmatch : Matches m.heap m.globals s m.current) (hbound : Resolution.Bound table s keyword)
    (hname : keyword.name.text = superName) (hsuper : Resolution.SuperOutsideThis s) :
    ∃ inner cls object, m.table.get? keyword.id = some (inner + 1) ∧
      m.heap.getAt? m.current (inner + 1) superName = some (.classValue cls) ∧
      m.heap.getAt? m.current inner thisName = some (.instanceValue object) := by
  obtain ⟨place, hfind, hready, hrecorded⟩ := hbound
  rw [hname] at hfind hready
  cases place with
  | global =>
    have hnone : s.globals.find? superName = some .defined := hready
    rw [hsuper.1] at hnone
    cases hnone
  | frame d =>
    obtain ⟨b, hb, hcontains, -⟩ := Scopes.find?_eq_frame_iff.mp hfind
    obtain ⟨e, c, rfl, hc, hthis⟩ := hsuper.2 d b hb hcontains
    have hget : b.find? superName = some .defined := by
      simpa [Scopes.get?, Scopes.frame?, hb] using hready
    obtain ⟨g, hg, hbinds⟩ := hmatch.frames.ancestor hb
    obtain ⟨v, hv⟩ := Option.isSome_iff_exists.mp (hbinds _ hget)
    obtain ⟨cls, rfl⟩ := (hm.values g _ v hv).super rfl
    obtain ⟨g', hg', hbinds'⟩ := hmatch.frames.ancestor hc
    obtain ⟨v', hv'⟩ := Option.isSome_iff_exists.mp (hbinds' _ hthis)
    obtain ⟨object, rfl⟩ := (hm.values g' _ v' hv').this rfl
    refine ⟨e, cls, object, ?_, ?_, ?_⟩
    · rw [hm.table]
      exact hrecorded
    · rw [Heap.getAt?, hg]
      exact hv
    · rw [Heap.getAt?, hg']
      exact hv'

/-! ### Classes -/

theorem classFits_ofDecls {h : Heap Value} {globals frame : FrameId} {superclass : Option Class}
    {decls : List FunctionDecl} {identity : Nat} {name : String}
    (hsuper : ∀ cls ∈ superclass, ClassFits program h globals cls)
    (hdecls : ∀ decl ∈ decls, ∀ isInitializer,
      MethodFits program h globals ⟨decl, frame, isInitializer⟩) :
    ClassFits program h globals (.ofDecls identity name superclass frame decls) := by
  intro x c hc
  rcases Class.findMethod?_ofDecls hc with ⟨decl, hdecl, rfl⟩ | ⟨cls, hcls, hfind⟩
  · exact hdecls decl hdecl _
  · exact hsuper cls hcls x c hfind

/-- The methods of a class fit once its name is bound, if the frame that they keep is inside the
    one that the class is declared in just as their scopes say. -/
theorem methodFits_of_visits {h : Heap Value} {globals frame : FrameId} {name : Name}
    {superclass : Option Reference} {decl : FunctionDecl} {r : Setting} {isInitializer : Bool}
    {outer : List (Bindings Readiness)} (hplain : ∀ p ∈ decl.params, p.name.Plain)
    (hvisit : walk.Visits (start program)
      ⟨.stmts decl.body, Resolution.inMethod name superclass decl r⟩)
    (hframes : (Resolution.classScopes (r.scopes.declare name.text .defined)
      superclass.isSome).frames = Bindings.empty.insert thisName .defined :: outer)
    (hmatch : Matches h globals
      ⟨(r.scopes.declare name.text .defined).globals, outer⟩ frame) :
    MethodFits program h globals ⟨decl, frame, isInitializer⟩ := by
  have hglobals : (Resolution.classScopes (r.scopes.declare name.text .defined)
      superclass.isSome).globals = (r.scopes.declare name.text .defined).globals := by
    cases superclass <;> rfl
  refine ⟨hplain, _, _, _, outer, hvisit, hframes, ?_, ?_⟩
  · intro x hx
    rw [Bindings.find?_insert] at hx
    split at hx
    · next h => exact h.symm
    · cases hx
  · rw [hglobals]
    exact hmatch

theorem Executed.withClass {statement : Stmt} {name : Name} {superclass : Option Class}
    {decls : List FunctionDecl} {frame : FrameId} (hname : statement.declared? = some name.text)
    (hm : Sound program table m) (hmatch : Matches m.heap m.globals s m.current)
    (hplain : name.Plain) (hsuper : ∀ cls ∈ superclass, ClassFits program m.heap m.globals cls)
    (hmethods : ∀ h', m.heap.Grows h' →
      Matches h' m.globals (s.declare name.text .defined) m.current →
      ∀ decl ∈ decls, ∀ isInitializer,
        MethodFits program h' m.globals ⟨decl, frame, isInitializer⟩) :
    Executed program table m statement (m.withClass name superclass frame decls) := by
  have hgrows := Heap.Grows.define m.heap m.current name.text
    (.classValue (.ofDecls m.nextIdentity name.text superclass frame decls))
  refine .declare hname hm hmatch hplain ?_ _
  refine classFits_ofDecls (fun cls hcls => (hsuper cls hcls).mono hgrows) (hmethods _ hgrows ?_)
  refine (hmatch.mono hgrows).declare ?_
  rw [Heap.lookup?_define, if_pos ⟨rfl, rfl, hmatch.isSome_frame?⟩]
  rfl

theorem Executed.withSuper {name : Name} {ref : Reference} {cls : Class}
    {decls : List FunctionDecl} {r : Setting} (hm : Sound program table m)
    (hmatch : Matches m.heap m.globals r.scopes m.current) (hplain : name.Plain)
    (hcls : ClassFits program m.heap m.globals cls)
    (hparams : ∀ decl ∈ decls, ∀ p ∈ decl.params, p.name.Plain)
    (hvisits : ∀ decl ∈ decls, walk.Visits (start program)
      ⟨.stmts decl.body, Resolution.inMethod name (some ref) decl r⟩) :
    Executed program table m (.classDecl name (some ref) decls)
      ((m.withSuper cls).withClass name (some cls) m.heap.next decls) := by
  have hstorable : ∀ x v, (Bindings.empty.insert superName (.classValue cls)).find? x = some v →
      Storable program m.heap m.globals x v := by
    intro x v hv
    rw [Bindings.find?_insert] at hv
    split at hv
    · next hx =>
      cases hv
      exact ⟨hcls, fun _ => ⟨cls, rfl⟩, fun hthis => absurd (hx.trans hthis) (by decide)⟩
    · cases hv
  have hlater : Later program table m (m.withSuper cls) := Later.alloc hm m.current hstorable
  have hsuper : ∀ cls' ∈ some cls, ClassFits program (m.withSuper cls).heap m.globals cls' := by
    rintro _ ⟨⟩
    exact hlater.valueFits (v := .classValue cls) hcls
  have hclass : Executed program table (m.withSuper cls) (.classDecl name (some ref) decls)
      ((m.withSuper cls).withClass name (some cls) m.heap.next decls) := by
    refine .withClass rfl hlater.sound (hlater.keeps hmatch) hplain hsuper ?_
    intro h' hgrows hdeclared decl hdecl isInitializer
    refine methodFits_of_visits (hparams decl hdecl) (hvisits decl hdecl) rfl
      (hdeclared.cons ?_ ?_)
    · rw [hgrows.enclosing _ (by simp [Machine.withSuper, Heap.frame?_alloc])]
      exact Heap.enclosing?_alloc_next _ _ _
    · intro x hx
      refine hgrows.names _ _ ?_
      rw [Machine.withSuper, Heap.lookup?_alloc_next]
      rw [Bindings.find?_insert] at hx ⊢
      split
      · rfl
      · next hne =>
        rw [if_neg hne] at hx
        cases hx
  exact ⟨hlater.trans hclass.1, hclass.2⟩

end ScopeSafety

end ClassScript
