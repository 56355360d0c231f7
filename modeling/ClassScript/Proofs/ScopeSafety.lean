import ClassScript.Proofs.Grammar.Trees
import ClassScript.Proofs.Discipline
import ClassScript.Proofs.ScopeSafety.Steps

namespace ClassScript

/-!
# Runs keep to the scopes of resolution

Whenever a part of a resolved program runs, the frames outward from the current one are those that
resolution had open where the part stands: there are as many of them, and each binds the names that
were ready in its counterpart. So a use of a name always finds its binding.

* `ScopeSafety.discipline`: parts run in frames that fit, and names are found;
* `ScopeSafety.lawful`: every step keeps to that;
* `run_keeps_scopes`: every run of a resolved program.
-/

open Resolution (Setting start walk)

variable {program : Program} {table : Distances}

/-- The part of a program that a task is about. -/
def Task.part? : Task → Option Part
  | .evaluate e => some (.expr e)
  | .evaluateAll es => some (.exprs es)
  | .execute s => some (.stmt s)
  | .executeAll ss => some (.stmts ss)
  | .call _ _ _ => none
  | .invoke _ _ => none

/-- The frames of a machine are those of the scopes: outward from the current frame there are as
    many as there are local ones before the globals come, and each binds the names that are
    ready. -/
structure Machine.Fits (m : Machine) (s : Scopes Readiness) : Prop where
  depth : m.heap.ancestor? m.current s.depth = some m.globals
  outermost : m.heap.enclosing? m.globals = none
  locals : ∀ i b, s.frames[i]? = some b → ∃ f, m.heap.ancestor? m.current i = some f ∧
    ∀ x, b.find? x = some .defined → (m.heap.lookup? f x).isSome = true
  globals : ∀ x, s.globals.find? x = some .defined → (m.heap.lookup? m.globals x).isSome = true

namespace ScopeSafety

open Eval

/-- The run did not stop for want of a name. -/
def NamesFound : Stop → Prop
  | .failure fault => ¬ fault.what.OfNames
  | .outOfFuel => True

/-- The part runs where resolution came to it, in a frame that fits the scopes there. -/
def Placed (program : Program) (part : Part) (m : Machine) : Prop :=
  ∃ r, walk.Visits (start program) ⟨part, r⟩ ∧ Matches m.heap m.globals r.scopes m.current

/-- What is to be kept so that names are found. -/
def discipline (program : Program) (table : Distances) : Discipline where
  Good := Sound program table
  Later := Later program table
  Since := Later program table
  Executed := Executed program table
  Allows := NamesFound
  Holds m v := ValueFits program m.heap m.globals v
  Gives m _ v := ValueFits program m.heap m.globals v
  Runs m part := Sound program table m ∧ Placed program part m
  Calls m callee arguments _ := Sound program table m ∧
    ∀ v ∈ callee :: arguments, ValueFits program m.heap m.globals v
  Enters m closure arguments := Sound program table m ∧
    ClosureFits program m.heap m.globals closure ∧
      (∀ v ∈ arguments, ValueFits program m.heap m.globals v) ∧ arguments.length = closure.arity

/-! ### Laws -/

/-- A machine in another frame. -/
theorem Sound.enter {m : Machine} (hm : Sound program table m) (frame : FrameId) :
    Sound program table { m with current := frame } :=
  ⟨hm.table, hm.values, hm.fields⟩

theorem machineLaws : (discipline program table).MachineLaws where
  refl := Later.refl
  trans := Later.trans
  since_of_later := id
  since_trans := Later.trans
  good := Later.sound
  back _ h := ⟨h.sound.enter _, (Heap.Grows.alloc _ _ _).trans h.grows, h.globals, rfl⟩
  outOfFuel := trivial

/-- The values that are around fit. -/
theorem valueLaws : (discipline program table).ValueLaws where
  later hv hlater := hlater.valueFits hv
  current hv := hv
  plain {_ v} _ hv := by
    cases v with
    | function => exact hv.elim
    | classValue => exact hv.elim
    | instanceValue => exact hv.elim
    | _ => trivial
  field hm _ hfield := hm.field? hfield
  method hm hobject hmethod := ensures_boundMethod hm (hobject _ _ hmethod) hobject

/-- A condition does not fail for want of a name. -/
theorem namesFound_of_stmt_raises {s : Stmt} {fault : Located RuntimeFault}
    (hs : s.declared? = none) (h : s.Raises fault) : NamesFound (.failure fault) := by
  cases s with
  | ifThen | ifElse | whileLoop =>
    obtain ⟨-, _, hwhat⟩ := h
    rw [NamesFound, hwhat]
    exact not_false
  | classDecl => cases hs
  | _ => exact h.elim

section Valid

variable (hvalid : ∀ v, walk.Visits (start program) v → Resolution.Valid table v) {m : Machine}

include hvalid

theorem namesFound_of_raises {e : Expr} {fault : Located RuntimeFault} (hm : Sound program table m)
    (hplaced : Placed program (.expr e) m) (h : e.Raises fault) (hmisses : e.Misses m fault.what) :
    NamesFound (.failure fault) := by
  obtain ⟨r, hvisit, hmatch⟩ := hplaced
  obtain ⟨hbound, hwf, hsuper⟩ := hvalid _ hvisit
  have hfound : ∀ {ref}, Resolution.Bound table r.scopes ref →
      ∃ g v, m.holder? ref = some g ∧ m.lookUp? ref = some v := by
    intro ref hbound
    obtain ⟨g, v, hholder, -, hlookUp⟩ := hmatch.lookUp? (hm.table ▸ hbound)
    exact ⟨g, v, hholder, hlookUp⟩
  cases e with
  | var ref =>
    obtain ⟨_, _, -, hlookUp⟩ := hfound hbound
    exact absurd (hmisses.symm.trans hlookUp) nofun
  | this ref =>
    obtain ⟨_, _, -, hlookUp⟩ := hfound hbound.2
    exact absurd (hmisses.symm.trans hlookUp) nofun
  | assign target value =>
    obtain ⟨_, _, hholder, -⟩ := hfound hbound.2
    exact absurd (hmisses.symm.trans hholder) nofun
  | super keyword method =>
    obtain ⟨inner, cls, object, hdistance, hclass, hreceiver⟩ :=
      exists_super hm hmatch hbound.2 hwf hsuper
    exact fun hnames => hmisses hnames inner cls object hdistance (hwf ▸ hclass) hreceiver
  | _ =>
    -- What else fails does not fail for want of a name.
    grind [Expr.Raises, NamesFound, RuntimeFault.OfNames]

/-- Expressions find their names. -/
theorem exprLaws : (discipline program table).ExprLaws where
  good h := h.1
  later := by
    rintro m m' part ⟨-, r, hvisit, hmatch⟩ hlater
    exact ⟨hlater.sound, r, hvisit, hlater.keeps hmatch⟩
  parts := by
    rintro m e part ⟨hm, r, hvisit, hmatch⟩ hpart
    exact ⟨hm, r, hvisit.tail (List.mem_map_of_mem hpart), hmatch⟩
  list := by
    rintro m e es ⟨hm, r, hvisit, hmatch⟩
    exact ⟨⟨hm, r, hvisit.tail (by simp [Walk.enters]), hmatch⟩,
      hm, r, hvisit.tail (by simp [Walk.enters]), hmatch⟩
  raises h := namesFound_of_raises hvalid h.1 h.2
  holds hv := hv
  gives_later hv hlater := hlater.valueFits hv
  read := by
    rintro m e v ⟨hm, -⟩ ref - hv
    obtain ⟨g, hg⟩ := Machine.lookup?_of_lookUp? hv
    exact (hm.values g _ v hg).fits
  result _ _ _ hv := hv
  computed _ _ _ hv := hv
  assign := by
    rintro m target value v f ⟨hm, r, hvisit, -⟩ hv -
    have hplain := (hvalid _ hvisit).wellFormed.1
    exact Later.define hm ⟨hv.mono (.define _ _ _ _), fun hx => absurd hx hplain.2,
      fun hx => absurd hx hplain.1⟩
  setField h _ hv := Later.setField h.1 _ _ hv
  superMethod := by
    rintro m keyword method inner superclass object c ⟨hm, -⟩ - hclass hreceiver hmethod
    obtain ⟨g, hg⟩ := Heap.lookup?_of_getAt? hclass
    obtain ⟨g', hg'⟩ := Heap.lookup?_of_getAt? hreceiver
    exact ensures_boundMethod hm ((hm.values g _ _ hg).fits _ _ hmethod) (hm.values g' _ _ hg').fits

/-- Calls find the names of what is called. -/
theorem callLaws : (discipline program table).CallLaws where
  calls h hf hvalues := ⟨h.1, List.forall_mem_cons.mpr ⟨hf, (exprLaws hvalid).holds_all hvalues⟩⟩
  good h := h.1
  raises {_ _ _ _ fault} _ h := by cases fault <;> first | exact h.elim | exact not_false
  write _ h := Later.of_eq h.1 rfl rfl rfl rfl rfl
  function h hlength := by
    obtain ⟨hm, hvalues⟩ := h
    obtain ⟨hclosure, harguments⟩ := List.forall_mem_cons.mp hvalues
    exact ⟨hm, hclosure, harguments, hlength⟩
  construct := by
    rintro m cls values paren ⟨hm, hvalues⟩ hlength
    obtain ⟨hcls, hvalues⟩ := List.forall_mem_cons.mp hvalues
    have hlater := Later.newInstance hm
    refine ⟨hlater, hcls, fun method hmethod => ?_⟩
    refine (ensures_bindReceiver hlater.sound (hcls _ _ hmethod) (by exact hcls)).mono ?_
      fun _ _ h => h
    rintro bound m₂ ⟨hlater', hbound, harity⟩
    have hall := fun v hv => (hlater.trans hlater').valueFits (hvalues v hv)
    refine ⟨hlater', hlater'.sound, hbound, hall, ?_⟩
    rw [hlength, harity, Class.arity, hmethod]
    rfl
  entered h := h.1
  invoke := by
    rintro m c values ⟨hm, ⟨hplain, around, s, hvisit, hmatch⟩, hvalues, hlength⟩
    -- The new frame binds the parameters, none of which is a word for the receiver or superclass.
    have hstorable : ∀ x v, (Bindings.ofList ((c.decl.params.map fun p => p.name.text).zip
        values)).find? x = some v → Storable program m.heap m.globals x v := by
      intro x v hv
      obtain ⟨hx, hmem⟩ := List.of_mem_zip (Bindings.find?_ofList hv)
      obtain ⟨p, hp, rfl⟩ := List.mem_map.mp hx
      exact ⟨hvalues v hmem, fun h => absurd h (hplain p hp).2, fun h => absurd h (hplain p hp).1⟩
    exact ⟨(Later.alloc hm _ hstorable).sound.enter _, _, hvisit, hmatch.params hlength⟩
  receiver _ hlater hv := (hlater.sound.values _ _ _ hv).fits
  unbound _ _ _ _ := not_false

theorem placed_part {s : Stmt} {part : Part} (hplaced : Placed program (.stmt s) m)
    (hpart : part ∈ s.parts) : Placed program part m := by
  obtain ⟨r, hvisit, hmatch⟩ := hplaced
  -- What the walk enters with the scopes of the statement.
  have hsame : ⟨part, r⟩ ∈ walk.entersStmt s r → Placed program part m :=
    fun hmem => ⟨r, hvisit.tail hmem, hmatch⟩
  cases s with
  | val name type initializer =>
    obtain ⟨e, he, rfl⟩ := List.mem_map.mp hpart
    cases Option.mem_toList.mp he
    exact ⟨_, hvisit.tail (by simp [Walk.enters, Walk.entersStmt]; rfl), hmatch.declare_declared⟩
  | ifElse keyword condition yes no =>
    have hafter : walk.after yes r = r := by
      show (⟨r.around, yes.after r.scopes⟩ : Setting) = r
      rw [Stmt.after_eq_self (hvalid _ hvisit).wellFormed.2.1.2]
    refine hsame ?_
    simp only [Walk.entersStmt, hafter]
    simpa [Stmt.parts] using hpart
  | block | funDecl | classDecl => cases hpart
  | _ => exact hsame (by simpa [Walk.entersStmt, Stmt.parts] using hpart)

theorem stmtLaws : (discipline program table).StmtLaws where
  parts h hpart := ⟨h.1, placed_part hvalid h.2 hpart⟩
  first := by
    rintro m s ss ⟨hm, r, hvisit, hmatch⟩
    exact ⟨hm, r, hvisit.tail (by simp [Walk.enters]), hmatch⟩
  rest := by
    rintro m m' s ss ⟨-, r, hvisit, hmatch⟩ ⟨hlater, hdeclared⟩
    refine ⟨hlater.sound, walk.after s r, hvisit.tail (by simp [Walk.enters]), ?_⟩
    exact (hlater.keeps hmatch).after hdeclared
  raises _ := namesFound_of_stmt_raises
  since h := h.1
  later hlater h := ⟨hlater.trans h.1, h.2⟩
  plain _ hs := by
    refine ⟨fun h => h.1, fun hlater => ⟨hlater, fun x hx => ?_⟩⟩
    rw [hs] at hx
    cases hx
  branch _ _ h := h.1
  block := by
    rintro m body ⟨hm, r, hvisit, hmatch⟩
    have hlater : Later program table m { m with heap := m.heap.alloc (some m.current) .empty } :=
      Later.alloc hm _ fun _ _ hv => by cases hv
    exact ⟨hlater.sound.enter _, walk.block r,
      hvisit.tail (by simp [Walk.enters, Walk.entersStmt]), hmatch.openFrame .empty⟩
  val := by
    rintro m name type initializer v ⟨hm, r, hvisit, hmatch⟩ hgives hvoid
    have hv : ValueFits program m.heap m.globals v := by
      cases initializer with
      | none => exact hvoid rfl ▸ trivial
      | some e => exact hgives e rfl
    exact .declare rfl hm hmatch (hvalid _ hvisit).wellFormed.1 (hv.mono (.define _ _ _ _)) _
  funDecl := by
    rintro m decl ⟨hm, r, hvisit, hmatch⟩
    obtain ⟨hname, hparams⟩ := FunctionDecl.plain_of_wellFormed (hvalid _ hvisit).wellFormed
    have hbody : walk.Visits (start program) ⟨.stmts decl.body, walk.function decl r⟩ :=
      hvisit.tail (by simp [Walk.enters, Walk.entersStmt])
    refine .declare rfl hm hmatch hname (v := .function m.nextIdentity ⟨decl, m.current, false⟩)
      ⟨hparams, _, r.scopes.declare decl.name.text .defined, hbody, ?_⟩ _
    refine (hmatch.mono (.define _ _ _ _)).declare ?_
    rw [Heap.lookup?_define, if_pos ⟨rfl, rfl, hmatch.isSome_frame?⟩]
    rfl
  classDecl := by
    rintro m name superclass decls ⟨hm, r, hvisit, hmatch⟩
    obtain ⟨hbound, hwf, -⟩ := hvalid _ hvisit
    have hparams : ∀ decl ∈ decls, ∀ p ∈ decl.params, p.name.Plain := fun decl hdecl =>
      (FunctionDecl.plain_of_wellFormed (Resolution.Valid.wellFormed_of_mem hwf.2.2 hdecl)).2
    have hvisits : ∀ decl ∈ decls, walk.Visits (start program)
        ⟨.stmts decl.body, Resolution.inMethod name superclass decl r⟩ := by
      intro decl hdecl
      refine hvisit.tail ?_
      rw [Walk.enters, Resolution.walk_entersStmt_classDecl]
      exact List.mem_map_of_mem hdecl
    -- The superclass is bound, so it is found, and is a class that fits if it is one.
    have hfound : ∀ ref ∈ superclass, ∃ g v, m.heap.lookup? g ref.name.text = some v ∧
        m.lookUp? ref = some v := by
      intro ref href
      obtain ⟨hne, hbound'⟩ := hbound.2.2.1 ref href
      obtain ⟨g, v, -, hv, hlookUp⟩ := hmatch.lookUp? (hm.table ▸ hbound'.of_declare hne)
      exact ⟨g, v, hv, hlookUp⟩
    refine Ensures.declareClass (fun ref href fault hrefuses => ⟨?_, .refl hm⟩) ?_ ?_
    · obtain ⟨_, v, -, hlookUp⟩ := hfound ref href
      rw [Machine.RefusesSuper, hlookUp] at hrefuses
      cases v with
      | classValue cls => exact hrefuses.elim
      | _ =>
        cases hrefuses
        exact not_false
    · rintro rfl
      refine .withClass rfl hm hmatch hwf.1 (fun _ hcls => by cases hcls) ?_
      intro h' _ hdeclared decl hdecl isInitializer
      exact methodFits_of_visits (hparams decl hdecl) (hvisits decl hdecl) rfl hdeclared
    · intro ref href cls hcls
      cases href
      obtain ⟨g, _, hg, hlookUp⟩ := hfound ref rfl
      cases hlookUp.symm.trans hcls
      exact .withSuper hm hmatch hwf.1 (hm.values g _ _ hg).fits hparams hvisits

theorem lawful : (discipline program table).Lawful :=
  ⟨machineLaws, valueLaws, exprLaws hvalid, callLaws hvalid, stmtLaws hvalid⟩

end Valid

/-! ### Programs -/

/-- Every run starts on a machine that fits. -/
theorem ready_fresh (program : Program) (table : Distances) (sink : Sink) :
    (discipline program table).Ready
      ⟨.executeAll program, { Machine.fresh sink with table }⟩ := by
  refine ⟨⟨rfl, ?_, ?_⟩, _, .refl, ?_⟩
  · intro f x v hv
    obtain ⟨b, rfl, rfl⟩ := Machine.lookup?_fresh sink hv
    exact ⟨trivial, fun hsuper => absurd hsuper b.name_plain.2,
      fun hthis => absurd hthis b.name_plain.1⟩
  · intro b hb
    exact absurd hb (Array.not_mem_empty b)
  · refine ⟨rfl, rfl, ?_, rfl⟩
    intro x hx
    -- Resolution and the machine take their globals from the same list.
    have hmem : (x, Readiness.defined) ∈ Builtin.all.map fun b => (b.name, Readiness.defined) :=
      Bindings.find?_ofList hx
    show ((Machine.fresh sink).heap.lookup? (Heap.empty : Heap Value).next x).isSome = true
    rw [Machine.fresh, Heap.lookup?_alloc_next]
    refine Bindings.isSome_find?_ofList ?_
    simpa using hmem

/-- Frames that match the scopes fit them. -/
theorem Matches.fits {m : Machine} {s : Scopes Readiness}
    (h : Matches m.heap m.globals s m.current) : m.Fits s :=
  ⟨h.frames.ancestor_length, h.outermost, fun _ _ hb => h.frames.ancestor hb, h.global⟩

theorem placed_of_ready {j : Job} {part : Part} (hj : (discipline program table).Ready j)
    (hpart : j.task.part? = some part) : Placed program part j.machine := by
  obtain ⟨task, m⟩ := j
  cases task <;> cases hpart <;> exact hj.2

end ScopeSafety

open ScopeSafety

/-- Whatever a run of a resolved program comes to, it evaluates and executes the parts of the
    program in frames that fit the scopes in which resolution came to them, and it never fails to
    find a name. -/
theorem run_keeps_scopes {source : String} {program : Program} {table : Distances}
    (hprogram : Source.program source = .ok program) (hresolve : resolve program = .ok table)
    (sink : Sink) (fuel : Nat) :
    (∀ k j part,
      Job.Reaches fuel ⟨.executeAll program, { Machine.fresh sink with table }⟩ k j →
      j.task.part? = some part →
      (∃ r, walk.Visits (start program) ⟨part, r⟩ ∧ j.machine.Fits r.scopes) ∧
        (part.references ≠ [] →
          ∀ r, walk.Visits (start program) ⟨part, r⟩ → j.machine.Fits r.scopes)) ∧
      ∀ fault m, (Machine.fresh sink).interpret fuel program table = (.failed fault, m) →
        ¬ fault.what.OfNames := by
  have hwf := Source.program_wellFormed hprogram
  have hnodup : ((start program).part.references.map Reference.id).Nodup :=
    Source.program_nodup hprogram
  have laws := lawful fun _ hv => Resolution.valid_of_visits hwf hnodup hresolve hv
  have hfresh := ready_fresh program table sink
  constructor
  · intro k j part hreach hpart
    obtain ⟨hready, -⟩ := laws.of_reaches hfresh hreach
    obtain ⟨r, hvisit, hmatch⟩ := placed_of_ready hready hpart
    refine ⟨⟨r, hvisit, hmatch.fits⟩, fun hrefs r' hvisit' => ?_⟩
    rw [← Walk.place_unique hnodup hrefs hvisit hvisit']
    exact hmatch.fits
  · intro fault m hrun
    exact ((laws.done fuel hfresh).of_error (Machine.executeAll_of_interpret hrun)).1

/-- Whether the job is the evaluation of a variable that is bound `distance` frames out. -/
def Job.readsAt (table : Distances) (distance : Nat) : Job → Bool
  | ⟨.evaluate (.var ref), _⟩ => table.get? ref.id == some distance
  | _ => false

theorem Job.exists_var_of_readsAt {table : Distances} {distance : Nat} {j : Job}
    (h : j.readsAt table distance = true) :
    ∃ ref m, j = ⟨.evaluate (.var ref), m⟩ ∧ table.get? ref.id = some distance := by
  unfold readsAt at h
  split at h
  · exact ⟨_, _, rfl, eq_of_beq h⟩
  · cases h

/-- A closure over a parameter, which the run comes to read, a loop that assigns to the parameter,
    and a method that calls the one of its superclass. -/
theorem run_keeps_scopes_subclass :
    ∃ program table, Source.program
        "def f(x: Boolean) \x7b def g() \x7b x; \x7d while (x) \x7b g(); x = false; \x7d \x7d
        class A \x7b m() \x7b f(true); \x7d \x7d
        class B < A \x7b m() \x7b super.m(); \x7d \x7d B().m();" = .ok program ∧
      resolve program = .ok table ∧ table = .ofList [(0, 1), (1, 0), (2, 1), (3, 1), (6, 2)] ∧
      (∃ k ref m, Job.Reaches 30 ⟨.executeAll program, { Machine.fresh .unbounded with table }⟩ k
        ⟨.evaluate (.var ref), m⟩ ∧ table.get? ref.id = some 1) ∧
      ∀ sink fuel,
        (∀ k j part,
          Job.Reaches fuel ⟨.executeAll program, { Machine.fresh sink with table }⟩ k j →
          j.task.part? = some part →
          (∃ r, walk.Visits (start program) ⟨part, r⟩ ∧ j.machine.Fits r.scopes) ∧
            (part.references ≠ [] →
              ∀ r, walk.Visits (start program) ⟨part, r⟩ → j.machine.Fits r.scopes)) ∧
          ∀ fault m, (Machine.fresh sink).interpret fuel program table = (.failed fault, m) →
            ¬ fault.what.OfNames := by
  have hfound : (Source.program
        "def f(x: Boolean) \x7b def g() \x7b x; \x7d while (x) \x7b g(); x = false; \x7d \x7d
        class A \x7b m() \x7b f(true); \x7d \x7d
        class B < A \x7b m() \x7b super.m(); \x7d \x7d B().m();").toOption.any
      (fun program => (resolve program).toOption
          = some (.ofList [(0, 1), (1, 0), (2, 1), (3, 1), (6, 2)]) ∧
        ((Job.reached 30 ⟨.executeAll program, { Machine.fresh .unbounded with
          table := .ofList [(0, 1), (1, 0), (2, 1), (3, 1), (6, 2)] }⟩).any fun found =>
            found.2.readsAt (.ofList [(0, 1), (1, 0), (2, 1), (3, 1), (6, 2)]) 1) = true)
        = true := by
    decide +kernel
  obtain ⟨program, hprogram, hfound⟩ := exists_ok_of_any hfound
  obtain ⟨htable, hany⟩ := of_decide_eq_true hfound
  have hresolve := ok_of_toOption htable
  obtain ⟨k, j, hreach, hreads⟩ := Job.exists_reaches_of_any hany
  obtain ⟨ref, m, rfl, hdistance⟩ := Job.exists_var_of_readsAt hreads
  exact ⟨program, _, hprogram, hresolve, rfl, ⟨k, ref, m, hreach, hdistance⟩,
    run_keeps_scopes hprogram hresolve⟩

end ClassScript
