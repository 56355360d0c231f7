import ClassScript.Proofs.CheckedSites
import ClassScript.Proofs.Positions

namespace ClassScript

/-!
# The frames of methods

A method runs inside a frame for its receiver. If its class has a superclass, the frame of the
receiver stands inside one for the superclass, which was made when the class was declared. All
frames between are those of calls and blocks, also where functions are nested in a method, and none
of these binds the word for the receiver or for the superclass. Classes are declared at the top
level only, so outward from any frame there is at most one receiver and one superclass.

* `Stmt.ClassFree`: statements that declare no class, and `Resolution.classFree_of_scoped`;
* `Layer`, `Encloses`: the frames outward from a frame, by what they bind the two words to;
* `Home`, `CodeRule.homes`: code runs inside the frames of the class that it stands in.
-/

/-! ### Code without classes -/

mutual

/-- The statement declares no class. -/
def Stmt.ClassFree : Stmt → Prop
  | .expression _ => True
  | .val _ _ _ => True
  | .block body => Stmt.AllClassFree body
  | .ifThen _ _ yes => yes.ClassFree
  | .ifElse _ _ yes no => yes.ClassFree ∧ no.ClassFree
  | .whileLoop _ _ body => body.ClassFree
  | .funDecl decl => decl.ClassFree
  | .ret _ _ => True
  | .classDecl _ _ _ => False

/-- The statements declare no class. -/
def Stmt.AllClassFree : List Stmt → Prop
  | [] => True
  | s :: ss => s.ClassFree ∧ Stmt.AllClassFree ss

/-- The function declares no class. -/
def FunctionDecl.ClassFree : FunctionDecl → Prop
  | ⟨_, _, _, body⟩ => Stmt.AllClassFree body

end

/-- The part declares no class. -/
def Part.ClassFree : Part → Prop
  | .expr _ => True
  | .exprs _ => True
  | .stmt s => s.ClassFree
  | .stmts ss => Stmt.AllClassFree ss

theorem Part.classFree_of_stmt {s : Stmt} {part : Part} (h : s.ClassFree)
    (hpart : part ∈ s.parts) : part.ClassFree := by
  cases s with
  | expression e =>
    cases List.mem_singleton.mp hpart
    trivial
  | val name type initializer =>
    obtain ⟨e, -, rfl⟩ := List.mem_map.mp hpart
    trivial
  | ret keyword value =>
    obtain ⟨e, -, rfl⟩ := List.mem_map.mp hpart
    trivial
  | ifThen pos condition yes =>
    simp only [Stmt.parts, List.mem_cons, List.not_mem_nil, or_false] at hpart
    rcases hpart with rfl | rfl
    · trivial
    · exact h
  | ifElse pos condition yes no =>
    simp only [Stmt.parts, List.mem_cons, List.not_mem_nil, or_false] at hpart
    rcases hpart with rfl | rfl | rfl
    · trivial
    · exact h.1
    · exact h.2
  | whileLoop pos condition body =>
    simp only [Stmt.parts, List.mem_cons, List.not_mem_nil, or_false] at hpart
    rcases hpart with rfl | rfl
    · trivial
    · exact h
  | block | funDecl | classDecl => cases hpart

theorem Stmt.sublist_references_of_parts (s : Stmt) :
    (s.parts.flatMap Part.references).Sublist s.references := by
  cases s with
  | val name type initializer =>
    cases initializer with
    | none => exact List.nil_sublist _
    | some e => simp [parts, Part.references, references]
  | ret keyword value => cases value <;> simp [parts, Part.references, references]
  | block | funDecl | classDecl => exact List.nil_sublist _
  | expression | ifThen | ifElse | whileLoop => simp [parts, Part.references, references]

namespace Resolution

variable {table : Distances} {around : Surroundings}

mutual

/-- What is well scoped declares classes at the top level only. -/
theorem classFree_of_scoped : ∀ (s : Stmt) {around : Surroundings} {scopes : Scopes Readiness},
    ScopedStmt table around s scopes → s.WellFormed →
    scopes.isGlobal = false ∨ s.isClass = false → s.ClassFree
  | .expression _, _, _, _, _, _ => trivial
  | .val _ _ _, _, _, _, _, _ => trivial
  | .ret _ _, _, _, _, _, _ => trivial
  | .block body, _, _, hscoped, hwf, _ => classFree_of_scopedAll body hscoped hwf rfl
  | .ifThen _ _ yes, _, _, hscoped, hwf, _ =>
    classFree_of_scoped yes hscoped.2 hwf.2.1 (.inr (Stmt.isClass_eq_false hwf.2.2))
  | .ifElse _ _ yes no, _, _, hscoped, hwf, _ =>
    ⟨classFree_of_scoped yes hscoped.2.1 hwf.2.1.1 (.inr (Stmt.isClass_eq_false hwf.2.1.2)),
      classFree_of_scoped no hscoped.2.2 hwf.2.2.1 (.inr (Stmt.isClass_eq_false hwf.2.2.2))⟩
  | .whileLoop _ _ body, _, _, hscoped, hwf, _ =>
    classFree_of_scoped body hscoped.2 hwf.2.1 (.inr (Stmt.isClass_eq_false hwf.2.2))
  | .funDecl decl, _, _, hscoped, hwf, _ => classFree_of_scopedFunction decl hscoped.2.2 hwf
  | .classDecl _ _ _, _, _, hscoped, _, hplace => by
    -- Resolution accepts a class among the globals only.
    rcases hplace with hlocal | hclass
    · rw [hscoped.1] at hlocal
      cases hlocal
    · cases hclass

/-- Statements in a frame declare no class. -/
theorem classFree_of_scopedAll : ∀ (ss : List Stmt) {around : Surroundings}
    {scopes : Scopes Readiness}, ScopedStmts table around ss scopes → Stmt.AllWellFormed ss →
    scopes.isGlobal = false → Stmt.AllClassFree ss
  | [], _, _, _, _, _ => trivial
  | s :: ss, _, scopes, hscoped, hwf, hlocal => by
    have hlocal' : (s.after scopes).isGlobal = false := by rwa [Stmt.isGlobal_after]
    exact ⟨classFree_of_scoped s hscoped.1 hwf.1 (.inl hlocal),
      classFree_of_scopedAll ss hscoped.2 hwf.2 hlocal'⟩

theorem classFree_of_scopedFunction : ∀ (decl : FunctionDecl) {around : Surroundings}
    {scopes : Scopes Readiness}, ScopedFunction table around decl scopes → decl.WellFormed →
    decl.ClassFree
  | ⟨_, params, _, body⟩, _, scopes, hscoped, hwf => by
    have hlocal : (parameterScopes params scopes).isGlobal = false := by
      rw [parameterScopes_eq]
      rfl
    exact classFree_of_scopedAll body hscoped.2 hwf.2.2.2 hlocal

end

end Resolution

/-! ### Layers -/

/-- A frame, by what it binds the words for the receiver and the superclass to. -/
inductive Layer where
  /-- The frame of a call or a block, or that of the globals. -/
  | names
  | receiver (object : Instance)
  | superclass (cls : Class)

namespace Layer

/-- What the frame binds one of the two words to. -/
def find? : Layer → String → Option Value
  | names, _ => none
  | receiver object, x => if x = thisName then some (.instanceValue object) else none
  | superclass cls, x => if x = superName then some (.classValue cls) else none

/-- The frame is there, and binds the two words as the layer says. -/
def Fits (h : Heap Value) (layer : Layer) (f : FrameId) : Prop :=
  (h.frame? f).isSome = true ∧
    ∀ x, x = thisName ∨ x = superName → h.lookup? f x = layer.find? x

theorem Fits.retains {h h' : Heap Value} {layer : Layer} {f : FrameId} (hf : layer.Fits h f)
    (hr : h.Retains h') : layer.Fits h' f :=
  ⟨hr.grows.frame f hf.1, fun x hx => (hr.words f x hf.1 hx).trans (hf.2 x hx)⟩

end Layer

/-- The frames outward from `f` are as the layers say, and the frame after them is `root`, which
    binds neither of the two words and stands inside no other. -/
structure Encloses (root : FrameId) (h : Heap Value) (layers : List Layer) (f : FrameId) :
    Prop where
  plain : Layer.names.Fits h root
  outermost : h.enclosing? root = none
  chain : h.Chain root (Layer.Fits h) layers f

namespace Encloses

variable {root f : FrameId} {h h' : Heap Value} {layers : List Layer}

theorem retains (he : Encloses root h layers f) (hr : h.Retains h') :
    Encloses root h' layers f where
  plain := he.plain.retains hr
  outermost := (hr.grows.enclosing root he.plain.1).trans he.outermost
  chain := he.chain.mono hr.grows fun _ _ hb => hb.retains hr

/-- A new frame inside the first one. -/
theorem push (he : Encloses root h layers f) {layer : Layer} {bindings : Bindings Value}
    (hb : ∀ x, x = thisName ∨ x = superName → bindings.find? x = layer.find? x) :
    Encloses root (h.alloc (some f) bindings) (layer :: layers) h.next := by
  have hold := he.retains (.alloc h (some f) bindings)
  refine ⟨hold.plain, hold.outermost, ⟨?_, fun x hx => ?_⟩, f, ?_, hold.chain⟩
  · rw [Heap.frame?_alloc, if_pos rfl]
    rfl
  · rw [Heap.lookup?_alloc_next]
    exact hb x hx
  · exact Heap.enclosing?_alloc_next h (some f) bindings

/-- The two words are bound where the layers say, and nowhere else. -/
theorem getAt? (he : Encloses root h layers f) (d : Nat) {x : String}
    (hx : x = thisName ∨ x = superName) :
    h.getAt? f d x = layers[d]?.bind fun layer => layer.find? x := by
  obtain ⟨hroot, houtermost, hchain⟩ := he
  -- One layer and one step outward at a time; after the last layer comes the root.
  induction layers generalizing f d with
  | nil =>
    cases hchain
    cases d with
    | zero => exact hroot.2 x hx
    | succ d => rw [Heap.getAt?, Heap.ancestor?, houtermost]; rfl
  | cons layer layers ih =>
    obtain ⟨hfits, outer, houter, hrest⟩ := hchain
    cases d with
    | zero => exact hfits.2 x hx
    | succ d =>
      rw [Heap.getAt?, Heap.ancestor?, houter]
      exact ih d hrest

/-- Frames of calls and blocks bind neither of the two words. -/
theorem mem_of_getAt? {n d : Nat} {inner : List Layer}
    (he : Encloses root h (List.replicate n .names ++ inner) f) {x : String}
    (hx : x = thisName ∨ x = superName) {v : Value} (hv : h.getAt? f d x = some v) :
    ∃ layer ∈ inner, layer.find? x = some v := by
  rw [he.getAt? d hx] at hv
  obtain ⟨layer, hlayer, hfind⟩ := Option.bind_eq_some_iff.mp hv
  rcases List.mem_append.mp (List.mem_of_getElem? hlayer) with hmem | hmem
  · rw [(List.mem_replicate.mp hmem).2] at hfind
    cases hfind
  · exact ⟨layer, hmem, hfind⟩

/-- The root is the only frame outward that stands inside no other. -/
theorem eq_root (he : Encloses root h layers f) {d : Nat} {g : FrameId}
    (hg : h.ancestor? f d = some g) (hlast : h.enclosing? g = none) : g = root := by
  obtain ⟨-, houtermost, hchain⟩ := he
  induction layers generalizing f d with
  | nil =>
    cases hchain
    cases d with
    | zero => exact (Option.some.inj hg).symm
    | succ d =>
      rw [Heap.ancestor?, houtermost] at hg
      cases hg
  | cons layer layers ih =>
    obtain ⟨-, outer, houter, hrest⟩ := hchain
    cases d with
    | zero =>
      rw [← Option.some.inj hg, houter] at hlast
      cases hlast
    | succ d =>
      rw [Heap.ancestor?, houter] at hg
      exact ih hg hrest

/-- From the root, neither of the two words is found. -/
theorem get?_root (he : Encloses root h layers f) {x : String}
    (hx : x = thisName ∨ x = superName) : h.get? root x = none := by
  have hnone : h.lookup? root x = none := he.plain.2 x hx
  rw [Heap.get?, Heap.holder?, Heap.holderWithin?, hnone, he.outermost]
  rfl

end Encloses

/-! ### Code and where it stands -/

/-- A class that has a superclass: its methods, and what its superclass is. -/
structure Home where
  decls : List FunctionDecl
  superclass : Class

/-- The frames outside that of a receiver; without a home these are the globals alone. -/
def Home.layers : Option Home → List Layer
  | none => []
  | some home => [.superclass home.superclass]

/-- The part declares no class. It stands in the methods of the home, if it has one, and the home
    is one that may be. -/
structure Home.Code (Declared : Home → Prop) (home : Option Home) (part : Part) : Prop where
  wellFormed : part.WellFormed
  classFree : part.ClassFree
  declared : ∀ h ∈ home, Declared h
  references : ∀ h ∈ home, part.references ⊆ FunctionDecl.referencesAll h.decls

namespace Home.Code

variable {Declared : Home → Prop} {home : Option Home} {part : Part}

/-- Code inside other code. -/
theorem inner {whole : Part} (h : Home.Code Declared home whole) (hwf : part.WellFormed)
    (hfree : part.ClassFree) (hrefs : part.references ⊆ whole.references) :
    Home.Code Declared home part :=
  ⟨hwf, hfree, h.declared, fun home hhome => List.Subset.trans hrefs (h.references home hhome)⟩

theorem expr {e : Expr} (h : Home.Code Declared home (.expr e)) (hpart : part ∈ e.parts) :
    Home.Code Declared home part := by
  refine h.inner (Part.wellFormed_of_expr h.wellFormed hpart) ?_ ?_
  · revert part
    cases e <;> simp [Expr.parts, Part.ClassFree]
  · obtain ⟨others, hperm⟩ := Walk.exists_perm_of_parts e
    intro ref href
    exact hperm.subset (List.mem_append_right _ (List.mem_flatMap.mpr ⟨part, hpart, href⟩))

/-- The parts of a statement stand where it does. -/
theorem stmt {s : Stmt} (h : Home.Code Declared home (.stmt s)) (hpart : part ∈ s.parts) :
    Home.Code Declared home part := by
  refine h.inner (Part.wellFormed_of_stmt h.wellFormed hpart)
    (Part.classFree_of_stmt h.classFree hpart) fun ref href => ?_
  exact s.sublist_references_of_parts.subset (List.mem_flatMap.mpr ⟨part, hpart, href⟩)

theorem body {decl : FunctionDecl} (h : Home.Code Declared home (.stmt (.funDecl decl))) :
    Home.Code Declared home (.stmts decl.body) := by
  obtain ⟨name, params, returns, body⟩ := decl
  exact h.inner h.wellFormed.2.2.2 h.classFree (List.subset_append_right _ _)

end Home.Code

/-- The frame is one that code of the home runs in: there are frames of calls and blocks, then that
    of the receiver, then that of the superclass. Code without a home may run without a receiver
    too. -/
def Home.Inside (root : FrameId) (home : Option Home) (h : Heap Value) (f : FrameId) : Prop :=
  ∃ n inner, (home = none ∧ inner = [] ∨ ∃ object, inner = .receiver object :: layers home) ∧
    Encloses root h (List.replicate n .names ++ inner) f

namespace Home.Inside

variable {root f : FrameId} {home : Option Home} {h h' : Heap Value}

theorem retains (hi : Inside root home h f) (hr : h.Retains h') : Inside root home h' f := by
  obtain ⟨n, inner, hinner, he⟩ := hi
  exact ⟨n, inner, hinner, he.retains hr⟩

/-- The frame of a call or a block, inside. -/
theorem push (hi : Inside root home h f) {bindings : Bindings Value}
    (hb : ∀ x, x = thisName ∨ x = superName → bindings.find? x = none) :
    Inside root home (h.alloc (some f) bindings) h.next := by
  obtain ⟨n, inner, hinner, he⟩ := hi
  exact ⟨n + 1, inner, hinner, he.push hb⟩

/-- Where the word for the superclass is bound at all, it is bound to the superclass of the home,
    and the word for the receiver is bound to one instance only. -/
theorem exists_home (hi : Inside root home h f) {d : Nat} {v : Value}
    (hv : h.getAt? f d superName = some v) :
    ∃ home', home = some home' ∧ v = .classValue home'.superclass ∧
      ∃ object, ∀ d w, h.getAt? f d thisName = some w → w = .instanceValue object := by
  obtain ⟨n, inner, hinner, he⟩ := hi
  obtain ⟨layer, hlayer, hfind⟩ := he.mem_of_getAt? (.inr rfl) hv
  -- Only a receiver and a superclass are left to bind the word, and code without a home has none of
  -- the latter.
  rcases hinner with ⟨rfl, rfl⟩ | ⟨object, rfl⟩
  · cases hlayer
  cases home with
  | none =>
    cases List.mem_singleton.mp hlayer
    cases hfind
  | some home' =>
    simp only [layers, List.mem_cons, List.not_mem_nil, or_false] at hlayer
    refine ⟨home', rfl, ?_, object, fun d w hw => ?_⟩
    · rcases hlayer with rfl | rfl
      · cases hfind
      · exact (Option.some.inj hfind).symm
    · obtain ⟨layer', hlayer', hfind'⟩ := he.mem_of_getAt? (.inl rfl) hw
      simp only [layers, List.mem_cons, List.not_mem_nil, or_false] at hlayer'
      rcases hlayer' with rfl | rfl
      · exact (Option.some.inj hfind').symm
      · cases hfind'

end Home.Inside

/-- Code runs inside the frames of its home, and so do the functions that it declares. Methods keep
    the frame of the superclass until they get a receiver. -/
def CodeRule.homes (root : FrameId) (Declared : Home → Prop) : CodeRule where
  Runs h f part := ∃ home, Home.Code Declared home part ∧ Home.Inside root home h f
  Closes h f decl :=
    ∃ home, Home.Code Declared home (.stmt (.funDecl decl)) ∧ Home.Inside root home h f
  Awaits h f decl := ∃ home, Home.Code Declared home (.stmt (.funDecl decl)) ∧
    Encloses root h (Home.layers home) f
  Reports _ := True

namespace CodeRule

variable {root : FrameId} {Declared : Home → Prop}

/-- A class declaration does not run under the rule. -/
theorem homes_not_class {h : Heap Value} {f : FrameId} {name : Name}
    {superclass : Option Reference} {decls : List FunctionDecl}
    (hruns : (homes root Declared).Runs h f (.stmt (.classDecl name superclass decls))) :
    False := by
  obtain ⟨home, hcode, -⟩ := hruns
  exact hcode.classFree

theorem homes_lawful : (homes root Declared).Lawful where
  runs_retains := by
    rintro h h' f part ⟨home, hcode, hinside⟩ hr
    exact ⟨home, hcode, hinside.retains hr⟩
  closes_retains := by
    rintro h h' f decl ⟨home, hcode, hinside⟩ hr
    exact ⟨home, hcode, hinside.retains hr⟩
  awaits_retains := by
    rintro h h' f decl ⟨home, hcode, he⟩ hr
    exact ⟨home, hcode, he.retains hr⟩
  wellFormed := by
    rintro h f part ⟨home, hcode, -⟩
    exact hcode.wellFormed
  expr := by
    rintro h f e part ⟨home, hcode, hinside⟩ hpart
    exact ⟨home, hcode.expr hpart, hinside⟩
  exprs := by
    rintro h f e es ⟨home, hcode, hinside⟩
    have hfirst : Home.Code Declared home (.expr e) :=
      hcode.inner hcode.wellFormed.1 trivial (List.subset_append_left _ _)
    have hrest : Home.Code Declared home (.exprs es) :=
      hcode.inner hcode.wellFormed.2 trivial (List.subset_append_right _ _)
    exact ⟨⟨home, hfirst, hinside⟩, ⟨home, hrest, hinside⟩⟩
  stmt := by
    rintro h f s part ⟨home, hcode, hinside⟩ hpart
    exact ⟨home, hcode.stmt hpart, hinside⟩
  stmts := by
    rintro h f s ss ⟨home, hcode, hinside⟩
    have hfirst : Home.Code Declared home (.stmt s) :=
      hcode.inner hcode.wellFormed.1 hcode.classFree.1 (List.subset_append_left _ _)
    have hrest : Home.Code Declared home (.stmts ss) :=
      hcode.inner hcode.wellFormed.2 hcode.classFree.2 (List.subset_append_right _ _)
    exact ⟨⟨home, hfirst, hinside⟩, ⟨home, hrest, hinside⟩⟩
  block := by
    rintro h f body ⟨home, hcode, hinside⟩
    have hbody : Home.Code Declared home (.stmts body) :=
      hcode.inner hcode.wellFormed hcode.classFree (List.Subset.refl _)
    exact ⟨home, hbody, hinside.push fun _ _ => rfl⟩
  function := id
  params := by
    rintro h f decl ⟨home, hcode, -⟩
    exact (FunctionDecl.plain_of_wellFormed hcode.wellFormed).2
  body := by
    rintro h f decl bindings ⟨home, hcode, hinside⟩ hplain
    refine ⟨home, hcode.body, hinside.push fun x hx => ?_⟩
    cases hfind : bindings.find? x with
    | none => rfl
    | some v =>
      obtain ⟨hthis, hsuper⟩ := hplain x v hfind
      rcases hx with hx | hx
      · exact absurd hx hthis
      · exact absurd hx hsuper
  receiver := by
    rintro h f decl object ⟨home, hcode, he⟩
    -- No call has been made yet: the frame of the receiver is the innermost one.
    refine ⟨home, hcode, 0, _, .inr ⟨object, rfl⟩, he.push fun x _ => ?_⟩
    rw [Bindings.find?_insert]
    simp [Layer.find?, eq_comm]
  base hruns := (homes_not_class hruns).elim
  derived hruns := (homes_not_class hruns).elim
  raises_expr _ _ := trivial
  raises_stmt _ _ := trivial
  paren _ := trivial
  superclass _ := trivial

end CodeRule

end ClassScript
