import ClassScript.Proofs.MethodFrames
import ClassScript.Proofs.ScopeSafety

namespace ClassScript

/-!
# Methods of the superclass

`super.m` stands in a method of a class. Wherever a run comes to it, the method `m` is looked up
from the class that was the superclass when the class was declared, whatever the class of the
receiver is, and gets the receiver of the method at hand. The lookup fails only if no class upward
from there has the method.

* `Class.lineage`: a class and its ancestors, from which `Class.findMethod?` takes the first method;
* `Machine.Receives`, `SuperStarts`: what `this` and `super` stand for in the current frame;
* `Along`, `OnTop`: the places of the top level that a run comes to, each once;
* `Declares`, `AtTop`: what is known there of the classes that have been declared;
* `DeclaredUnder`: the class that a use of a name stands in, and its superclass;
* `super_starts_at_superclass`: what they do in every run of a resolved program.
-/

open Eval

/-! ### Classes upward -/

/-- The class and its ancestors, upward. -/
def Class.lineage : Class → List Class
  | ⟨identity, name, none, methods⟩ => [⟨identity, name, none, methods⟩]
  | ⟨identity, name, some cls, methods⟩ => ⟨identity, name, some cls, methods⟩ :: cls.lineage

/-- A method is that of the nearest class upward that has one. -/
theorem Class.findMethod?_eq_findSome? (name : String) : ∀ cls : Class,
    cls.findMethod? name = cls.lineage.findSome? fun cls => cls.methods.find? name
  | ⟨identity, ownName, none, methods⟩ => by
    rw [findMethod?_eq, lineage, List.findSome?_cons]
    cases methods.find? name <;> rfl
  | ⟨identity, ownName, some cls, methods⟩ => by
    rw [findMethod?_eq, lineage, List.findSome?_cons]
    cases methods.find? name with
    | some method => rfl
    | none => exact Class.findMethod?_eq_findSome? name cls

/-! ### The receiver and the superclass of a frame -/

/-- In the current frame `this` stands for the instance: a frame outward binds the word to it, and
    no use of the word gives anything else. -/
structure Machine.Receives (m : Machine) (object : Instance) : Prop where
  bound : ∃ distance, m.heap.getAt? m.current distance thisName = some (.instanceValue object)
  only : ∀ ref v, ref.name.text = thisName → m.lookUp? ref = some v → v = .instanceValue object

/-- In the current frame `super.method` is the method of the nearest class upward from `superclass`
    that has one, with a frame of its own that binds `this` to the instance. It fails only if there
    is no such class. -/
structure SuperStarts (m : Machine) (keyword : Reference) (method : Name) (superclass : Class)
    (object : Instance) : Prop where
  found : ∀ n c, superclass.lineage.findSome? (fun cls => cls.methods.find? method.text) = some c →
    ∃ bound m', evaluate (n + 1) (.super keyword method) m
        = .ok (.function m.nextIdentity bound) m' ∧
      bound.decl = c.decl ∧ bound.isInitializer = c.isInitializer ∧
      m'.heap.enclosing? bound.frame = some c.frame ∧
      m'.heap.lookup? bound.frame thisName = some (.instanceValue object)
  fails : ∀ n reason m', evaluate (n + 1) (.super keyword method) m = .error reason m' →
    reason = .failure ⟨.undefinedProperty method.text, method.pos⟩ ∧
      ∀ cls ∈ superclass.lineage, cls.methods.find? method.text = none

section Lookup

variable {m : Machine} {keyword : Reference} {method : Name} {inner : Nat} {cls : Class}
  {object : Instance}

theorem superMethod_found {c : Closure} (hdistance : m.table.get? keyword.id = some (inner + 1))
    (hname : keyword.name.text = superName)
    (hclass : m.heap.getAt? m.current (inner + 1) superName = some (.classValue cls))
    (hreceiver : m.heap.getAt? m.current inner thisName = some (.instanceValue object))
    (hmethod : cls.findMethod? method.text = some c) :
    superMethod keyword method m = boundMethod c object m := by
  unfold superMethod
  rw [bind_of_ok (show (get : Eval Machine) m = .ok m m from rfl)]
  simp only [hdistance, hname, hclass, hreceiver, hmethod]

theorem superMethod_missing (hdistance : m.table.get? keyword.id = some (inner + 1))
    (hname : keyword.name.text = superName)
    (hclass : m.heap.getAt? m.current (inner + 1) superName = some (.classValue cls))
    (hreceiver : m.heap.getAt? m.current inner thisName = some (.instanceValue object))
    (hmethod : cls.findMethod? method.text = none) :
    superMethod keyword method m
      = .error (.failure ⟨.undefinedProperty method.text, method.pos⟩) m := by
  unfold superMethod
  rw [bind_of_ok (show (get : Eval Machine) m = .ok m m from rfl)]
  simp only [hdistance, hname, hclass, hreceiver, hmethod]
  rfl

theorem superStarts (hdistance : m.table.get? keyword.id = some (inner + 1))
    (hname : keyword.name.text = superName)
    (hclass : m.heap.getAt? m.current (inner + 1) superName = some (.classValue cls))
    (hreceiver : m.heap.getAt? m.current inner thisName = some (.instanceValue object)) :
    SuperStarts m keyword method cls object := by
  refine ⟨fun n c hc => ?_, fun n reason m' herror => ?_⟩
  · -- Binding a method makes a frame for the receiver inside the frame that the method closes over.
    rw [← Class.findMethod?_eq_findSome?] at hc
    refine ⟨{ c with frame := m.heap.next }, _,
      superMethod_found hdistance hname hclass hreceiver hc, rfl, rfl, ?_, ?_⟩
    · exact Heap.enclosing?_alloc_next ..
    · show (m.heap.alloc _ _).lookup? m.heap.next thisName = _
      rw [Heap.lookup?_alloc_next, Bindings.find?_insert, if_pos rfl]
  · have herror' : superMethod keyword method m = .error reason m' := herror
    cases hmethod : cls.findMethod? method.text with
    | some c =>
      rw [superMethod_found hdistance hname hclass hreceiver hmethod] at herror'
      cases herror'
    | none =>
      rw [superMethod_missing hdistance hname hclass hreceiver hmethod] at herror'
      cases herror'
      rw [Class.findMethod?_eq_findSome?] at hmethod
      exact ⟨rfl, List.findSome?_eq_none_iff.mp hmethod⟩

end Lookup

/-! ### The statements of a program -/

section Statements

variable {table : Distances} {around : Surroundings} {before rest : List Stmt} {s : Stmt}

/-- A use in a statement is a use in the program. -/
theorem Stmt.mem_referencesAll {ref : Reference} (h : ref ∈ s.references) :
    ref ∈ Stmt.referencesAll (before ++ s :: rest) := by
  induction before with
  | nil => exact List.mem_append_left _ h
  | cons first before ih => exact List.mem_append_right _ ih

/-- A use of a name stands in one statement only, if no two uses have the same number. -/
theorem Stmt.place_unique {before' rest' : List Stmt} {s' : Stmt} {ref : Reference}
    (hnodup : (Resolution.ids (Stmt.referencesAll (before ++ s :: rest))).Nodup)
    (h : before ++ s :: rest = before' ++ s' :: rest') (hs : ref ∈ s.references)
    (hs' : ref ∈ s'.references) : before' = before ∧ s' = s := by
  -- Two statements one after the other share no use.
  have hapart : ∀ {first : Stmt} {others : List Stmt},
      (Resolution.ids (Stmt.referencesAll (first :: others))).Nodup → ref ∈ first.references →
      ref ∉ Stmt.referencesAll others := by
    intro first others hnodup hfirst hothers
    have hall : Resolution.ids (Stmt.referencesAll (first :: others))
        = Resolution.ids first.references ++ Resolution.ids (Stmt.referencesAll others) :=
      List.map_append
    rw [hall, List.nodup_append] at hnodup
    exact hnodup.2.2 ref.id (List.mem_map_of_mem hfirst) ref.id (List.mem_map_of_mem hothers) rfl
  induction before generalizing before' with
  | nil =>
    cases before' with
    | nil => exact ⟨rfl, (List.cons.inj h).1.symm⟩
    | cons first before' =>
      obtain ⟨rfl, rfl⟩ := List.cons.inj h
      exact absurd (Stmt.mem_referencesAll hs') (hapart hnodup hs)
  | cons first before ih =>
    cases before' with
    | nil =>
      obtain ⟨rfl, rfl⟩ := List.cons.inj h
      exact absurd (Stmt.mem_referencesAll hs) (hapart hnodup hs')
    | cons first' before' =>
      obtain ⟨rfl, hmore⟩ := List.cons.inj h
      have hrest : (Resolution.ids (Stmt.referencesAll (before ++ s :: rest))).Nodup :=
        hnodup.sublist ((List.sublist_append_right _ _).map _)
      obtain ⟨rfl, rfl⟩ := ih hrest hmore
      exact ⟨rfl, rfl⟩

theorem Stmt.wellFormed_of_append (h : Stmt.AllWellFormed (before ++ s :: rest)) :
    s.WellFormed := by
  induction before with
  | nil => exact h.1
  | cons first before ih => exact ih h.2

/-- A statement of a scoped program is scoped. -/
theorem Resolution.scoped_of_append {scopes : Scopes Readiness}
    (h : ScopedStmts table around (before ++ s :: rest) scopes) :
    ∃ scopes', ScopedStmt table around s scopes' := by
  induction before generalizing scopes with
  | nil => exact ⟨scopes, h.1⟩
  | cons first before ih => exact ih h.2

end Statements

/-! ### The top level -/

/-- A run with fuel `N` has executed the statements, each to its end, and goes on with fuel `n` on
    the machine. -/
inductive Along (N : Nat) (m₀ : Machine) : List Stmt → Nat → Machine → Prop where
  | nil : Along N m₀ [] N m₀
  | snoc {before : List Stmt} {s : Stmt} {n : Nat} {m m' : Machine} :
      Along N m₀ before (n + 1) m → execute n s m = .ok .normal m' →
      Along N m₀ (before ++ [s]) n m'

/-- The job is the rest of the program or its first statement, once what stands before has run. -/
inductive OnTop (program : Program) (N : Nat) (m₀ : Machine) : Nat → Job → Prop where
  | rest {before rest : List Stmt} {n : Nat} {m : Machine} : program = before ++ rest →
      Along N m₀ before n m → OnTop program N m₀ n ⟨.executeAll rest, m⟩
  | first {before rest : List Stmt} {s : Stmt} {n : Nat} {m : Machine} :
      program = before ++ s :: rest → Along N m₀ before (n + 1) m →
      OnTop program N m₀ n ⟨.execute s, m⟩

section Runs

variable {program : Program} {N n n' : Nat} {m₀ m m' : Machine} {before rest : List Stmt} {s : Stmt}

/-- A run comes to each place of the top level once. -/
theorem Along.unique (h : Along N m₀ before n m) (h' : Along N m₀ before n' m') :
    n' = n ∧ m' = m := by
  -- By induction on the first run. The list is an index of `Along`, so it is made a variable before
  -- the other run is taken apart.
  induction h generalizing n' m' with
  | nil =>
    generalize hbefore : ([] : List Stmt) = before at h'
    cases h' with
    | nil => exact ⟨rfl, rfl⟩
    | snoc _ _ => simp at hbefore
  | @snoc before s n m₁ m hfirst hrun ih =>
    generalize hbefore : before ++ [s] = all at h'
    cases h' with
    | nil => simp at hbefore
    | snoc hfirst' hrun' =>
      obtain ⟨rfl, hs⟩ := List.append_inj' hbefore rfl
      cases hs
      obtain ⟨hfuel, rfl⟩ := ih hfirst'
      cases hfuel
      rw [hrun] at hrun'
      cases hrun'
      exact ⟨rfl, rfl⟩

theorem Along.reaches (h : Along N m₀ before n m) (hprogram : program = before ++ rest) :
    Job.Reaches N ⟨.executeAll program, m₀⟩ n ⟨.executeAll rest, m⟩ := by
  induction h generalizing rest with
  | nil =>
    rw [hprogram]
    exact .refl N _
  | @snoc before s n m₁ m hfirst hrun ih =>
    have hreach : Job.Reaches N ⟨.executeAll program, m₀⟩ (n + 1) ⟨.executeAll (s :: rest), m₁⟩ :=
      ih (by rw [hprogram, List.append_assoc]; rfl)
    exact hreach.tail (Job.mem_next_executeAll.mpr (.inr ⟨m, hrun, rfl⟩))

/-- The statements of the top level come one after the other. -/
theorem OnTop.next {j : Job} (hprogram : program = before ++ rest)
    (h : Along N m₀ before (n + 1) m) (hmem : j ∈ Job.next n ⟨.executeAll rest, m⟩) :
    OnTop program N m₀ n j := by
  cases rest with
  | nil => cases hmem
  | cons s ss =>
    rcases Job.mem_next_executeAll.mp hmem with rfl | ⟨m', hrun, rfl⟩
    · exact .first hprogram h
    · refine .rest ?_ (.snoc h hrun)
      rw [hprogram, List.append_assoc]
      rfl

end Runs

/-- A program as the grammar gives it, which resolution accepts. -/
structure IsResolved (program : Program) (table : Distances) : Prop where
  wellFormed : Stmt.AllWellFormed program
  nodup : (Resolution.ids (Stmt.referencesAll program)).Nodup
  resolve : resolve program = .ok table

/-- The class is declared in the program, and its superclass is what the name of the superclass
    stood for when the run came to the declaration. -/
def Declares (program : Program) (N : Nat) (m₀ : Machine) (home : Home) : Prop :=
  ∃ before name ref rest n m, program = before ++ .classDecl name (some ref) home.decls :: rest ∧
    Along N m₀ before (n + 2) m ∧ m.lookUp? ref = some (.classValue home.superclass)

/-- Code runs inside the frames of the classes that have been declared. -/
abbrev homesOf (program : Program) (N : Nat) (m₀ : Machine) : CodeRule :=
  .homes m₀.current (Declares program N m₀)

/-- The homes of a program make a lawful rule. -/
theorem homesOf_lawful (program : Program) (N : Nat) (m₀ : Machine) :
    (homesOf program N m₀).Lawful :=
  CodeRule.homes_lawful

/-- The machine is between two statements of the top level. -/
structure AtTop (program : Program) (N : Nat) (m₀ m : Machine) : Prop where
  good : (homesOf program N m₀).Good m
  current : m.current = m₀.current
  encloses : Encloses m₀.current m.heap [] m₀.current

section TopLevel

variable {program : Program} {table : Distances} {N : Nat} {m₀ m m' : Machine}
  {before rest : List Stmt} {s : Stmt} {name : Name} {superclass : Option Reference}
  {decls : List FunctionDecl}

theorem AtTop.later (h : AtTop program N m₀ m) (hlater : (homesOf program N m₀).Later m m') :
    AtTop program N m₀ m' :=
  ⟨hlater.good, hlater.current.trans h.current, h.encloses.retains hlater.retains⟩

/-- At the start nothing has been declared. -/
theorem AtTop.fresh (program : Program) (N : Nat) (table : Distances) (sink : Sink) :
    AtTop program N { Machine.fresh sink with table } { Machine.fresh sink with table } := by
  have hsince : (homesOf program N { Machine.fresh sink with table }).Since (.fresh sink)
      { Machine.fresh sink with table } := .of_eq (CodeRule.good_fresh _ sink) rfl rfl
  refine ⟨hsince.good, rfl, ⟨rfl, fun x hx => ?_⟩, rfl, rfl⟩
  show (Machine.fresh sink).heap.lookup? (Machine.fresh sink).current x = none
  cases hbound : (Machine.fresh sink).heap.lookup? (Machine.fresh sink).current x with
  | none => rfl
  | some v =>
    obtain ⟨b, -, rfl⟩ := Machine.lookup?_fresh sink hbound
    rcases hx with hx | hx
    · exact absurd hx b.name_plain.1
    · exact absurd hx b.name_plain.2

/-- The uses in a method are uses in the methods. -/
theorem FunctionDecl.references_subset {decl : FunctionDecl} (h : decl ∈ decls) :
    decl.references ⊆ FunctionDecl.referencesAll decls := by
  induction decls with
  | nil => cases h
  | cons first decls ih =>
    rcases List.mem_cons.mp h with rfl | h
    · exact List.subset_append_left _ _
    · exact List.Subset.trans (ih h) (List.subset_append_right _ _)

namespace IsResolved

variable (hR : IsResolved program table)

include hR

theorem wellFormed_stmt (hprogram : program = before ++ s :: rest) : s.WellFormed :=
  Stmt.wellFormed_of_append (hprogram ▸ hR.wellFormed)

theorem scoped_stmt (hprogram : program = before ++ s :: rest) :
    ∃ scopes, Resolution.ScopedStmt table ⟨.topLevel, .outside⟩ s scopes := by
  have hscoped := scoped_of_resolve hR.wellFormed hR.nodup hR.resolve
  rw [hprogram] at hscoped
  exact Resolution.scoped_of_append hscoped

/-- A statement of the top level other than a class may run where it stands. -/
theorem ready_stmt (hprogram : program = before ++ s :: rest) (hclass : s.isClass = false)
    (hm : AtTop program N m₀ m) : (homesOf program N m₀).discipline.Ready ⟨.execute s, m⟩ := by
  obtain ⟨scopes, hscoped⟩ := hR.scoped_stmt hprogram
  have hwf := hR.wellFormed_stmt hprogram
  have hfree := Resolution.classFree_of_scoped s hscoped hwf (.inr hclass)
  refine ⟨hm.good, none, ⟨hwf, hfree, nofun, nofun⟩, 0, [], .inl ⟨rfl, rfl⟩, ?_⟩
  show Encloses m₀.current m.heap [] m.current
  rw [hm.current]
  exact hm.encloses

/-- The methods of a class have the class as their home. -/
theorem code_method (hprogram : program = before ++ .classDecl name superclass decls :: rest)
    {decl : FunctionDecl} (hdecl : decl ∈ decls) {home : Option Home}
    (hhome : ∀ h ∈ home, Declares program N m₀ h ∧ h.decls = decls) :
    Home.Code (Declares program N m₀) home (.stmt (.funDecl decl)) := by
  obtain ⟨scopes, hscoped⟩ := hR.scoped_stmt hprogram
  have hwf := Resolution.Valid.wellFormed_of_mem (hR.wellFormed_stmt hprogram).2.2 hdecl
  have hfunction := Resolution.Valid.scopedFunction_of_mem hscoped.2.2.2.2 hdecl
  refine ⟨hwf, Resolution.classFree_of_scopedFunction decl hfunction hwf,
    fun h hh => (hhome h hh).1, fun h hh => ?_⟩
  rw [(hhome h hh).2]
  exact FunctionDecl.references_subset hdecl

/-- Executing a class declaration makes its superclass, if it has one, that of its methods. -/
theorem atTop_of_class {n : Nat}
    (hprogram : program = before ++ .classDecl name superclass decls :: rest)
    (hbefore : Along N m₀ before (n + 1) m) (hm : AtTop program N m₀ m)
    (hrun : execute n (.classDecl name superclass decls) m = .ok .normal m') :
    AtTop program N m₀ m' := by
  cases n with
  | zero => cases hrun
  | succ n =>
    obtain ⟨_, m₁, hdeclare, hend⟩ := bind_eq_ok.mp hrun
    obtain ⟨-, rfl⟩ := pure_eq_ok.mp hend
    refine hm.later (((homesOf_lawful program N m₀).ensures_declareClass hm.good
      (hR.wellFormed_stmt hprogram).1 ?_ ?_ fun _ _ => trivial).of_ok hdeclare)
    · -- Without a superclass the methods close over the globals, and have no home.
      rintro rfl decl hdecl
      refine ⟨none, hR.code_method hprogram hdecl nofun, ?_⟩
      rw [hm.current]
      exact hm.encloses
    · -- With one they close over the frame that binds it.
      rintro ref ⟨⟩ cls hcls decl hdecl
      have hhome : Declares program N m₀ ⟨decls, cls⟩ :=
        ⟨before, name, ref, rest, n, m, hprogram, hbefore, hcls⟩
      refine ⟨some ⟨decls, cls⟩, hR.code_method hprogram hdecl ?_, ?_⟩
      · rintro h ⟨⟩
        exact ⟨hhome, rfl⟩
      · rw [hm.current]
        refine hm.encloses.push fun x _ => ?_
        rw [Bindings.find?_insert]
        simp [Layer.find?, eq_comm]

/-- Between any two statements of the top level all code is in its place. -/
theorem atTop_of_along {n : Nat} (h : Along N m₀ before n m) (hprogram : program = before ++ rest)
    (hm₀ : AtTop program N m₀ m₀) : AtTop program N m₀ m := by
  induction h generalizing rest with
  | nil => exact hm₀
  | @snoc before s n m₁ m' hbefore hrun ih =>
    have hprogram' : program = before ++ s :: rest := by
      rw [hprogram, List.append_assoc]
      rfl
    have hm₁ := ih hprogram'
    cases hclass : s.isClass with
    | false =>
      have hready := hR.ready_stmt hprogram' hclass hm₁
      have hleaves := ((homesOf_lawful program N m₀).lawful.done n hready).of_ok hrun
      exact hm₁.later (hleaves.executed rfl)
    | true =>
      cases s with
      | classDecl name superclass decls => exact hR.atTop_of_class hprogram' hbefore hm₁ hrun
      | _ => cases hclass

/-- Whatever a run comes to is at the top level, or is code in its place. -/
theorem onTop_or_ready {n k : Nat} {j j' : Job} (hm₀ : AtTop program N m₀ m₀)
    (htop : OnTop program N m₀ n j) (hreach : Job.Reaches n j k j') :
    OnTop program N m₀ k j' ∨ (homesOf program N m₀).discipline.Ready j' := by
  induction hreach with
  | refl => exact .inl htop
  | @step n k j j₁ j' hmem hreach ih =>
    -- The run stays at the top level until it enters a statement there; from then on the rule for
    -- code carries it. A class declaration starts no job.
    cases htop with
    | rest hprogram hbefore => exact ih (.next hprogram hbefore hmem)
    | @first before rest s n m hprogram hbefore =>
      cases hclass : s.isClass with
      | false =>
        have hready := hR.ready_stmt hprogram hclass (hR.atTop_of_along hbefore hprogram hm₀)
        have hlaws := (homesOf_lawful program N m₀).lawful
        exact .inr (hlaws.of_reaches hready (.step hmem hreach)).1
      | true =>
        cases s with
        | classDecl name superclass decls => cases hmem
        | _ => cases hclass

end IsResolved

end TopLevel

/-! ### The class of a method -/

/-- The use of a name stands in the methods of a class of the program, and in no other statement.
    The run executes the declaration of the class once, and the class that it makes has the
    superclass. -/
def DeclaredUnder (program : Program) (fuel : Nat) (m₀ : Machine) (use : Reference)
    (superclass : Class) : Prop :=
  ∃ before name ref decls rest, program = before ++ .classDecl name (some ref) decls :: rest ∧
    use ∈ FunctionDecl.referencesAll decls ∧
    (∀ before' s rest', program = before' ++ s :: rest' → use ∈ s.references →
      before' = before ∧ s = .classDecl name (some ref) decls) ∧
    ∃ k m, (∀ k' m', Job.Reaches fuel ⟨.executeAll program, m₀⟩ k'
        ⟨.execute (.classDecl name (some ref) decls), m'⟩ ↔ k' = k ∧ m' = m) ∧
      ∃ m₁ cls, execute k (.classDecl name (some ref) decls) m = .ok .normal m₁ ∧
        m₁.heap.lookup? m₁.current name.text = some (.classValue cls) ∧
        cls.superclass = some superclass

/-- Executing the declaration of a class binds its name to a class that has the superclass. -/
theorem execute_classDecl {m : Machine} {name : Name} {ref : Reference}
    {decls : List FunctionDecl} {superclass : Class} (n : Nat)
    (hframe : (m.heap.frame? m.current).isSome = true)
    (hlookUp : m.lookUp? ref = some (.classValue superclass)) :
    ∃ m₁ cls, execute (n + 1) (.classDecl name (some ref) decls) m = .ok .normal m₁ ∧
      m₁.heap.lookup? m₁.current name.text = some (.classValue cls) ∧
      cls.superclass = some superclass := by
  -- The superclass is read first, which leaves the machine as it is.
  have hvalue : lookUp ref m = .ok (.classValue superclass) m := by
    unfold lookUp
    rw [hlookUp]
  have hclass : superclassValue ref m = .ok superclass m := by
    unfold superclassValue
    rw [bind_of_ok hvalue]
    rfl
  have hfirst : (some ref).mapM superclassValue m = .ok (some superclass) m := by
    show (superclassValue ref >>= fun cls => pure (some cls)) m = _
    rw [bind_of_ok hclass]
    rfl
  obtain ⟨cls, hcls⟩ : ∃ cls : Class, cls = ⟨m.nextIdentity, name.text, some superclass,
      Bindings.ofList <| decls.map fun decl =>
        (decl.name.text, ⟨decl, m.heap.next, decl.name.text == constructorName⟩)⟩ := ⟨_, rfl⟩
  refine ⟨{ m with
      heap := (m.heap.alloc (some m.current) (Bindings.empty.insert superName
        (.classValue superclass))).define m.current name.text (.classValue cls)
      nextIdentity := m.nextIdentity + 1 }, cls, ?_, ?_, by rw [hcls]⟩
  · show (declareClass name (some ref) decls >>= fun _ => pure Flow.normal) m = _
    unfold declareClass
    rw [bind_assoc, bind_of_ok hfirst, hcls]
    rfl
  · rw [Heap.lookup?_define, if_pos ⟨rfl, rfl, (Heap.Grows.alloc ..).frame _ hframe⟩]

namespace IsResolved

variable {program : Program} {table : Distances} {N : Nat} {m₀ m : Machine}
  (hR : IsResolved program table)

include hR

/-- A class that code has as its home was declared in the run. -/
theorem declaredUnder {home : Home} {use : Reference} (hm₀ : AtTop program N m₀ m₀)
    (hhome : Declares program N m₀ home) (huse : use ∈ FunctionDecl.referencesAll home.decls) :
    DeclaredUnder program N m₀ use home.superclass := by
  obtain ⟨before, name, ref, rest, n, m, hprogram, hbefore, hlookUp⟩ := hhome
  have hstmt : use ∈ (Stmt.classDecl name (some ref) home.decls).references :=
    List.mem_append_right _ huse
  -- Uses have different numbers, so no other statement has this one.
  have honly : ∀ before' s rest', program = before' ++ s :: rest' → use ∈ s.references →
      before' = before ∧ s = .classDecl name (some ref) home.decls := by
    intro before' s rest' hprogram' huse'
    exact Stmt.place_unique (hprogram ▸ hR.nodup) (hprogram ▸ hprogram') hstmt huse'
  have hm := hR.atTop_of_along hbefore hprogram hm₀
  refine ⟨before, name, ref, home.decls, rest, hprogram, huse, honly, n + 1, m, ?_,
    execute_classDecl n (hm.current ▸ hm.encloses.plain.1) hlookUp⟩
  intro k' m'
  constructor
  · intro hreach
    rcases hR.onTop_or_ready hm₀ (.rest rfl .nil) hreach with htop | hready
    · cases htop with
      | first hprogram' hbefore' =>
        obtain ⟨rfl, -⟩ := honly _ _ _ hprogram' hstmt
        obtain ⟨hfuel, rfl⟩ := hbefore.unique hbefore'
        exact ⟨Nat.succ.inj hfuel, rfl⟩
    · -- Below the top level there are no class declarations.
      exact (CodeRule.homes_not_class hready.2).elim
  · rintro ⟨rfl, rfl⟩
    exact (hbefore.reaches hprogram).tail List.mem_cons_self

end IsResolved

/-- The word for the receiver stands for the one instance that it is bound to in the frames
    outward. -/
theorem Home.Inside.receives {root : FrameId} {home : Option Home} {m : Machine}
    {scopes : Scopes Readiness} {object : Instance} {d : Nat}
    (hinside : Home.Inside root home m.heap m.current)
    (hmatch : ScopeSafety.Matches m.heap m.globals scopes m.current)
    (hreceiver : m.heap.getAt? m.current d thisName = some (.instanceValue object))
    (honly : ∀ d v, m.heap.getAt? m.current d thisName = some v → v = .instanceValue object) :
    m.Receives object := by
  refine ⟨⟨d, hreceiver⟩, fun ref v href hv => ?_⟩
  unfold Machine.lookUp? at hv
  cases htable : m.table.get? ref.id with
  | some distance =>
    simp only [htable, href] at hv
    exact honly distance v hv
  | none =>
    -- The globals are the root, which does not bind the word.
    obtain ⟨n, inner, -, hencloses⟩ := hinside
    have hglobals := hencloses.eq_root hmatch.frames.ancestor_length hmatch.outermost
    simp only [htable, href, hglobals] at hv
    rw [hencloses.get?_root (.inl rfl)] at hv
    cases hv

/-- **Methods of the superclass.** Whenever a run of a resolved program comes to `super.m`, it
    stands in the methods of a class that the run has declared. The method is looked up from the
    class that is the superclass of this class, whatever the class of the receiver is, and the
    function that it gives is bound to the instance that `this` stands for. It fails only if no
    class upward from the superclass has such a method. -/
theorem super_starts_at_superclass {source : String} {program : Program} {table : Distances}
    (hprogram : Source.program source = .ok program) (hresolve : resolve program = .ok table)
    {sink : Sink} {fuel k : Nat} {keyword : Reference} {method : Name} {m : Machine}
    (hreach : Job.Reaches fuel ⟨.executeAll program, { Machine.fresh sink with table }⟩ k
      ⟨.evaluate (.super keyword method), m⟩) :
    ∃ superclass object,
      DeclaredUnder program fuel { Machine.fresh sink with table } keyword superclass ∧
      m.Receives object ∧ SuperStarts m keyword method superclass object := by
  have hR : IsResolved program table :=
    ⟨Source.program_wellFormed hprogram, Source.program_nodup hprogram, hresolve⟩
  have hvalid := fun v => Resolution.valid_of_visits (v := v) hR.wellFormed hR.nodup hresolve
  have hm₀ := AtTop.fresh program fuel table sink
  -- The words are found, since the program is resolved.
  obtain ⟨⟨hsound, hplaced⟩, -⟩ :=
    (ScopeSafety.lawful hvalid).of_reaches (ScopeSafety.ready_fresh program table sink) hreach
  obtain ⟨r, hvisit, hmatch⟩ := hplaced
  obtain ⟨hbound, hname, hsuper⟩ := hvalid _ hvisit
  obtain ⟨inner, cls, object, hdistance, hclass, hreceiver⟩ :=
    ScopeSafety.exists_super hsound hmatch hbound.2 hname hsuper
  -- They are found in the frames of the class that the code stands in.
  rcases hR.onTop_or_ready hm₀ (.rest rfl .nil) hreach with htop | hready
  · cases htop
  obtain ⟨-, home, hcode, hinside⟩ := hready
  obtain ⟨home, rfl, hhome, receiver, honly⟩ := hinside.exists_home hclass
  cases hhome
  have hsame := honly inner _ hreceiver
  cases hsame
  refine ⟨home.superclass, object, ?_, hinside.receives hmatch hreceiver honly,
    superStarts hdistance hname hclass hreceiver⟩
  exact hR.declaredUnder hm₀ (hcode.declared home rfl)
    (hcode.references home rfl List.mem_cons_self)

/-- Whether the job is the evaluation of some `super.m`. -/
def Job.looksUpSuper : Job → Bool
  | ⟨.evaluate (.super _ _), _⟩ => true
  | _ => false

theorem Job.exists_super_of_looksUpSuper {j : Job} (h : j.looksUpSuper = true) :
    ∃ keyword method m, j = ⟨.evaluate (.super keyword method), m⟩ := by
  unfold looksUpSuper at h
  split at h
  · exact ⟨_, _, _, rfl⟩
  · cases h

theorem super_starts_at_superclass_inherited :
    ∃ program table k keyword method m, Source.program
        "class A \x7b m() \x7b \x7d \x7d class B < A \x7b m() \x7b super.m(); \x7d \x7d
        class C < B \x7b \x7d C().m();" = .ok program ∧
      resolve program = .ok table ∧
      Job.Reaches 12 ⟨.executeAll program, { Machine.fresh .unbounded with table }⟩ k
        ⟨.evaluate (.super keyword method), m⟩ ∧
      ∃ superclass object,
        DeclaredUnder program 12 { Machine.fresh .unbounded with table } keyword superclass ∧
        m.Receives object ∧ SuperStarts m keyword method superclass object := by
  have hfound : (Source.program
        "class A \x7b m() \x7b \x7d \x7d class B < A \x7b m() \x7b super.m(); \x7d \x7d
        class C < B \x7b \x7d C().m();").toOption.any (fun program =>
      (resolve program).toOption.any fun table =>
        (Job.reached 12 ⟨.executeAll program, { Machine.fresh .unbounded with table }⟩).any
          fun found => found.2.looksUpSuper) = true := by decide +kernel
  obtain ⟨program, hprogram, hfound⟩ := exists_ok_of_any hfound
  obtain ⟨table, hresolve, hfound⟩ := exists_ok_of_any hfound
  obtain ⟨k, j, hreach, hsuper⟩ := Job.exists_reaches_of_any hfound
  obtain ⟨keyword, method, m, rfl⟩ := j.exists_super_of_looksUpSuper hsuper
  exact ⟨program, table, k, keyword, method, m, hprogram, hresolve, hreach,
    super_starts_at_superclass hprogram hresolve hreach⟩

end ClassScript
