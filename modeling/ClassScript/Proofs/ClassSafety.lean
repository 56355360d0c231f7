import ClassScript.Proofs.ClassSafety.Statements
import ClassScript.Proofs.TypeSafety

namespace ClassScript

/-!
# Programs that pass the checks keep their classes

Classes are declared at the top level, one after the other, and the checker numbers them in this
order. Once a class declaration has been executed, the name of the class is bound to the same class
for the rest of the run, although the types of most names are not to be relied on.

* `Machine.RunsTo`: statements run one after the other;
* `ClassSafety.Realizes`: a class on a machine is the one that the checker has under a number;
* `ClassSafety.ClassesKept`, `run_keeps_classes`: every class is, from its declaration on.
-/

/-- The statements run in order from the first machine to the other, each of them to its end. -/
inductive Machine.RunsTo (m : Machine) : List Stmt → Machine → Prop where
  | nil : RunsTo m [] m
  | snoc {before : List Stmt} {s : Stmt} {m₁ m' : Machine} {n : Nat} (hbefore : RunsTo m before m₁)
      (hs : Eval.execute n s m₁ = .ok .normal m') : RunsTo m (before ++ [s]) m'

namespace ClassSafety

open Eval
open Typing (Site MethodOf start walk Checked)

variable {T : Typing} {program : Program} {table : Distances} {m₀ m m' : Machine}

/-! ### The top level -/

/-- The job runs no statements of the top level. -/
def Inner (j : Job) : Prop :=
  match j.task with
  | .execute s => s.declared? = none ∨ j.machine.current ≠ j.machine.globals
  | .executeAll _ => j.machine.current ≠ j.machine.globals
  | _ => True

/-- The job runs statements of the top level, once those before them have run. -/
def Outer (program : Program) (m₀ : Machine) (j : Job) : Prop :=
  ∃ before rest, program = before ++ rest ∧ m₀.RunsTo before j.machine ∧
    (j.task = .executeAll rest ∨ ∃ s ss, rest = s :: ss ∧ j.task = .execute s)

theorem inner_of_mem_after {α : Type} {x : Eval α} {next : α → Machine → List Job}
    (h : ∀ a m', ∀ j ∈ next a m', Inner j) : ∀ j ∈ Job.after x m next, Inner j :=
  Job.forall_mem_after.mpr fun a m' _ => h a m'

/-- The jobs of an expression are inside. -/
theorem inner_ofExpr (n : Nat) (m : Machine) (e : Expr) : ∀ j ∈ Job.ofExpr n m e, Inner j := by
  have hsingle : ∀ (e : Expr) (m : Machine), ∀ j ∈ [(⟨.evaluate e, m⟩ : Job)], Inner j :=
    fun _ _ => List.forall_mem_singleton.mpr trivial
  cases e with
  | literal value => exact List.forall_mem_nil _
  | var ref => exact List.forall_mem_nil _
  | this ref => exact List.forall_mem_nil _
  | super keyword method => exact List.forall_mem_nil _
  | grouping inner => exact hsingle _ _
  | unary operator operand => exact hsingle _ _
  | assign target value => exact hsingle _ _
  | get object name => exact hsingle _ _
  | binary left operator right =>
    exact List.forall_mem_cons.mpr ⟨trivial, inner_of_mem_after fun _ _ => hsingle _ _⟩
  | logical left operator right =>
    refine List.forall_mem_cons.mpr ⟨trivial, inner_of_mem_after fun v m' => ?_⟩
    cases v with
    | boolean b =>
      simp only
      split
      · exact List.forall_mem_nil _
      · exact hsingle _ _
    | _ => exact List.forall_mem_nil _
  | ternary condition question yes no =>
    refine List.forall_mem_cons.mpr ⟨trivial, inner_of_mem_after fun v m' => ?_⟩
    cases v with
    | boolean b => exact hsingle _ _
    | _ => exact List.forall_mem_nil _
  | set object name value =>
    refine List.forall_mem_cons.mpr ⟨trivial, inner_of_mem_after fun v m' => ?_⟩
    cases v with
    | instanceValue object => exact hsingle _ _
    | _ => exact List.forall_mem_nil _
  | call callee paren arguments =>
    refine List.forall_mem_cons.mpr ⟨trivial, inner_of_mem_after fun f m₁ => ?_⟩
    exact List.forall_mem_cons.mpr ⟨trivial, inner_of_mem_after fun values m₂ =>
      List.forall_mem_singleton.mpr trivial⟩

/-- The jobs of a call are inside. -/
theorem inner_ofCallee (m : Machine) (arguments : List Value) (f : Value) :
    ∀ j ∈ Job.ofCallee m arguments f, Inner j := by
  cases f with
  | function identity closure =>
    simp only [Job.ofCallee]
    split
    · exact List.forall_mem_singleton.mpr trivial
    · exact List.forall_mem_nil _
  | classValue cls =>
    simp only [Job.ofCallee]
    split
    · refine inner_of_mem_after fun object m₁ => ?_
      cases cls.initializer? with
      | some method => exact inner_of_mem_after fun _ _ => List.forall_mem_singleton.mpr trivial
      | none => exact List.forall_mem_nil _
    · exact List.forall_mem_nil _
  | _ => exact List.forall_mem_nil _

/-- What stands inside a statement is no statement of the top level: blocks have frames of their
    own, and branches declare nothing. -/
theorem inner_ofStmt {s : Stmt} (n : Nat) (hwf : s.WellFormed) (hm : m.globals ≠ m.heap.next) :
    ∀ j ∈ Job.ofStmt n m s, Inner j := by
  cases s with
  | expression e => exact List.forall_mem_singleton.mpr trivial
  | val name written initializer =>
    cases initializer with
    | none => exact List.forall_mem_nil _
    | some e => exact List.forall_mem_singleton.mpr trivial
  | ret keyword value =>
    cases value with
    | none => exact List.forall_mem_nil _
    | some e => exact List.forall_mem_singleton.mpr trivial
  | funDecl decl => exact List.forall_mem_nil _
  | classDecl name superclass decls => exact List.forall_mem_nil _
  | block body => exact List.forall_mem_singleton.mpr hm.symm
  | ifThen keyword condition yes =>
    refine List.forall_mem_cons.mpr ⟨trivial, inner_of_mem_after fun v m' => ?_⟩
    rcases v with (_ | _) | _ | _ | _ | _ | _ | _ | _
    case boolean.true => exact List.forall_mem_singleton.mpr (.inl hwf.2.2)
    all_goals exact List.forall_mem_nil _
  | ifElse keyword condition yes no =>
    refine List.forall_mem_cons.mpr ⟨trivial, inner_of_mem_after fun v m' => ?_⟩
    cases v with
    | boolean b =>
      refine List.forall_mem_singleton.mpr (.inl ?_)
      cases b
      · exact hwf.2.2.2
      · exact hwf.2.1.2
    | _ => exact List.forall_mem_nil _
  | whileLoop keyword condition body =>
    refine List.forall_mem_cons.mpr ⟨trivial, inner_of_mem_after fun v m' => ?_⟩
    rcases v with (_ | _) | _ | _ | _ | _ | _ | _ | _
    case boolean.true =>
      refine List.forall_mem_cons.mpr ⟨.inl hwf.2.2, inner_of_mem_after fun flow m₂ => ?_⟩
      -- The loop runs again as a statement, and declares nothing.
      cases flow with
      | normal => exact List.forall_mem_singleton.mpr (.inl rfl)
      | returned v => exact List.forall_mem_nil _
    all_goals exact List.forall_mem_nil _

/-- A job that is ready starts on a good machine. -/
theorem good_of_ready {j : Job} (hj : (discipline T program table m₀).Ready j) :
    Good T program table m₀ j.machine := by
  obtain ⟨task, m⟩ := j
  cases task with
  | call f arguments paren => exact hj.1
  | invoke closure arguments => exact Enters.good hj
  | _ => exact Runs.good hj

namespace Accepted

variable (hA : Accepted T program table)

include hA

/-- What is inside starts only jobs inside. -/
theorem inner_next {n : Nat} {j j' : Job} (hj : (discipline T program table m₀).Ready j)
    (hinner : Inner j) (hmem : j' ∈ j.next n) : Inner j' := by
  have hm := good_of_ready hj
  obtain ⟨task, m⟩ := j
  cases task with
  | evaluate e => exact inner_ofExpr n m e j' hmem
  | evaluateAll es =>
    cases es with
    | nil => cases hmem
    | cons e es =>
      rcases List.mem_cons.mp hmem with rfl | hmem
      · trivial
      · obtain ⟨v, m', -, hmem⟩ := Job.mem_after.mp hmem
        cases List.mem_singleton.mp hmem
        trivial
  | call f arguments paren => exact inner_ofCallee m arguments f j' hmem
  | invoke closure arguments =>
    cases List.mem_singleton.mp hmem
    exact hm.ne_next.symm
  | execute s =>
    obtain ⟨-, site, hvisit, -⟩ := hj
    exact inner_ofStmt n (hA.checked _ hvisit).wellFormed hm.ne_next j' hmem
  | executeAll ss =>
    cases ss with
    | nil => cases hmem
    | cons s ss =>
      rcases Job.mem_next_executeAll.mp hmem with rfl | ⟨m', hrun, rfl⟩
      · exact .inr hinner
      · have hfirst : (discipline T program table m₀).Ready ⟨.execute s, m⟩ :=
          hA.stmtLaws.first hj
        have hsince := ((hA.lawful.done n hfirst).of_ok hrun).since
        show m'.current ≠ m'.globals
        rw [hsince.current, hsince.globals]
        exact hinner

theorem outer_next {n : Nat} {j j' : Job} (hj : (discipline T program table m₀).Ready j)
    (houter : Outer program m₀ j) (hmem : j' ∈ j.next n) : Outer program m₀ j' ∨ Inner j' := by
  have hm := good_of_ready hj
  obtain ⟨task, m⟩ := j
  obtain ⟨before, rest, hprogram, hbefore, rfl | ⟨s, ss, rfl, rfl⟩⟩ := houter
  · cases rest with
    | nil => cases hmem
    | cons s ss =>
      rcases Job.mem_next_executeAll.mp hmem with rfl | ⟨m', hrun, rfl⟩
      · exact .inl ⟨before, s :: ss, hprogram, hbefore, .inr ⟨s, ss, rfl, rfl⟩⟩
      · refine .inl ⟨before ++ [s], ss, ?_, .snoc hbefore hrun, .inl rfl⟩
        rw [hprogram, List.append_assoc]
        rfl
  · obtain ⟨-, site, hvisit, -⟩ := hj
    exact .inr (inner_ofStmt n (hA.checked _ hvisit).wellFormed hm.ne_next j' hmem)

/-- Whatever a run comes to is at the top level, in the order of the program, or inside of it. -/
theorem outer_or_inner {n k : Nat} {j j' : Job} (hj : (discipline T program table m₀).Ready j)
    (h : Outer program m₀ j ∨ Inner j) (hreach : Job.Reaches n j k j') :
    Outer program m₀ j' ∨ Inner j' := by
  induction hreach with
  | refl => exact h
  | @step n k j j₁ j' hmem _ ih =>
    have hj₁ := (hA.lawful.of_reaches hj (.step hmem (.refl n j₁))).1
    refine ih hj₁ ?_
    rcases h with houter | hinner
    · exact hA.outer_next hj houter hmem
    · exact .inr (hA.inner_next hj hinner hmem)

/-- The statements after others are come to, and there the classes of the others are known. -/
theorem exists_site {before rest : List Stmt} {site : Site}
    (hvisit : walk.Visits (start table program) ⟨.stmts (before ++ rest), site⟩) :
    ∃ t, walk.Visits (start table program) ⟨.stmts rest, site.context, t⟩ ∧
      t.classes.length = site.typing.classes.length + (before.filter Stmt.isClass).length := by
  induction before generalizing site with
  | nil => exact ⟨site.typing, hvisit, rfl⟩
  | cons s before ih =>
    have hfirst : walk.Visits (start table program) ⟨.stmt s, site⟩ :=
      .tail hvisit (Walk.first_mem_enters walk s (before ++ rest) site)
    have hrest : walk.Visits (start table program) ⟨.stmts (before ++ rest), walk.after s site⟩ :=
      .tail hvisit (Walk.rest_mem_enters walk s (before ++ rest) site)
    obtain ⟨t₁, ht₁⟩ := (hA.checked _ hfirst).accepted
    rw [Typing.walk_after ht₁] at hrest
    obtain ⟨t, hvisit', hlength⟩ := ih hrest
    refine ⟨t, hvisit', ?_⟩
    have hafter := ((hA.checked _ hfirst).after ht₁).length_classes
    rw [hlength, hafter, List.filter_cons]
    cases s.isClass with
    | true =>
      simp only [if_true, List.length_cons]
      omega
    | false => simp

end Accepted

/-! ### Classes along runs -/

/-- The name of the class is bound to it, and it is the class that the checker has under the number:
    its superclass is the class with the number that the checker has for it, and both have the same
    methods, each of the type that the checker builds from its declaration. -/
structure Realizes (T : Typing) (program : Program) (table : Distances) (m : Machine)
    (name : String) (index : Nat) (cls : Class) : Prop where
  named : (T.classes.info? index).map ClassInfo.name = some name
  bound : m.heap.lookup? m.globals name = some (.classValue cls)
  superclass : Option.Rel
    (fun id super => T.classes.classAt? m.heap m.globals id.index = some super)
    (T.classes.superclass? index) cls.superclass
  methods : ∀ x, Option.Rel (fun s f => MethodOf table program x index f.decl s)
    (T.classes.findMethod? x index) (cls.findMethod? x)

/-- Accepted arguments are as many as parameters. -/
theorem length_of_accepts {s : Signature} {types : List StaticType} (h : s.accepts types = true) :
    s.params.length = types.length := by
  have hall : ∀ params types, StaticType.compatibleAll params types = true →
      params.length = types.length := by
    intro params
    induction params with
    | nil =>
      intro types h
      cases types with
      | nil => rfl
      | cons => cases h
    | cons param params ih =>
      intro types h
      cases types with
      | nil => cases h
      | cons type types =>
        rw [StaticType.compatibleAll, Bool.and_eq_true] at h
        rw [List.length_cons, List.length_cons, ih types h.2]
  exact hall s.params types h

/-- There are as many types as expressions. -/
theorem length_of_typesOf {context : TypeContext} {t : Typing} {es : List Expr}
    {types : List StaticType} (h : Typing.typesOf context t es = .ok types) :
    types.length = es.length := by
  induction es generalizing types with
  | nil =>
    cases h
    rfl
  | cons e es ih =>
    obtain ⟨first, rest, -, hrest, rfl⟩ := Typing.typesOf_cons_ok h
    rw [List.length_cons, List.length_cons, ih hrest]

namespace Accepted

variable (hA : Accepted T program table)

include hA

theorem realizes {index : Nat} {info : ClassInfo} {cls : Class} (hm : Good T program table m₀ m)
    (hinfo : T.classes.info? index = some info)
    (hcls : T.classes.classAt? m.heap m.globals index = some cls) :
    Realizes T program table m info.name index cls := by
  obtain ⟨info', hinfo', hbound⟩ := ClassTable.classAt?_eq_some hcls
  rw [hinfo] at hinfo'
  cases hinfo'
  refine ⟨by rw [hinfo]; rfl, hbound, (hm.classes index cls hcls).superclass, fun x => ?_⟩
  exact optionRel_imp (rel_findMethod? hA.complete hm.classes hcls x) fun s f h => h.1

/-- A class that is bound stays so. -/
theorem realizes_since {index : Nat} {info : ClassInfo} {cls : Class}
    (hinfo : T.classes.info? index = some info)
    (hcls : T.classes.classAt? m.heap m.globals index = some cls)
    (hm' : Good T program table m m') : Realizes T program table m' info.name index cls := by
  refine hA.realizes hm' hinfo (hm'.since.classes index cls ?_)
  rw [hm'.globals_eq]
  exact hcls

variable {name : Name} {superclass : Option Reference} {decls : List FunctionDecl}

/-- The declaration of a class binds its name to the class. -/
theorem exists_class (n : Nat)
    (h : Runs T program table m₀ m (.stmt (.classDecl name superclass decls))) :
    ∃ m' site info cls, execute (n + 1) (.classDecl name superclass decls) m = .ok .normal m' ∧
      Executed T program table m₀ m (.classDecl name superclass decls) m' ∧
      walk.Visits (start table program) ⟨.stmt (.classDecl name superclass decls), site⟩ ∧
      T.classes.info? site.typing.classes.length = some info ∧ info.name = name.text ∧
      T.classes.classAt? m'.heap m'.globals site.typing.classes.length = some cls := by
  have hensures := hA.ensures_declareClass h
  obtain ⟨hm, site, hvisit, hstands⟩ := h
  obtain ⟨t, ht⟩ := (hA.checked _ hvisit).accepted
  obtain ⟨super, ss, hclass, rfl, hwithin, -⟩ := hA.class_type hvisit ht
  cases hdeclare : declareClass name superclass decls m with
  | error reason m' => exact (hensures.of_error hdeclare).elim
  | ok u m' =>
    have hexecuted := hensures.of_ok hdeclare
    have hstands' := hexecuted.stands site _ hvisit ht hstands
    obtain ⟨htype, v, hv, hrespects⟩ := hstands'.fits.global _ _
      (Scopes.find?_globals_declare hclass.isGlobal name.text _)
    obtain ⟨cls, -, hcls⟩ := hrespects (.inr (.inr ⟨rfl, _, htype rfl⟩))
    exact ⟨m', site, _, cls, bind_of_ok hdeclare, hexecuted, hvisit,
      Typing.info?_of_within hwithin, rfl, hcls⟩

/-- All class declarations of one name have one number. -/
theorem index_unique {site site' : Site} {superclass' : Option Reference}
    {decls' : List FunctionDecl}
    (hvisit : walk.Visits (start table program) ⟨.stmt (.classDecl name superclass decls), site⟩)
    (hvisit' : walk.Visits (start table program)
      ⟨.stmt (.classDecl name superclass' decls'), site'⟩) :
    site.typing.classes.length = site'.typing.classes.length := by
  obtain ⟨t, ht⟩ := (hA.checked _ hvisit).accepted
  obtain ⟨t', ht'⟩ := (hA.checked _ hvisit').accepted
  obtain ⟨-, -, -, -, -, hfind⟩ := hA.class_type hvisit ht
  obtain ⟨-, -, -, -, -, hfind'⟩ := hA.class_type hvisit' ht'
  rw [hfind, Option.some.injEq, StaticType.classType.injEq] at hfind'
  exact congrArg ClassId.index hfind'

/-- The number of a class is that of its declaration among the class declarations. -/
theorem index_eq {before rest : List Stmt} {site : Site}
    (hprogram : program = before ++ .classDecl name superclass decls :: rest)
    (hvisit : walk.Visits (start table program) ⟨.stmt (.classDecl name superclass decls), site⟩) :
    site.typing.classes.length = (before.filter Stmt.isClass).length := by
  have hstart : walk.Visits (start table program)
      ⟨.stmts (before ++ .classDecl name superclass decls :: rest),
        ⟨table, none, none⟩, .initial⟩ := by
    rw [← hprogram]
    exact .refl
  obtain ⟨t, hvisit', hlength⟩ := hA.exists_site hstart
  have hfirst := Walk.first_mem_enters walk (.classDecl name superclass decls) rest
    ⟨⟨table, none, none⟩, t⟩
  rw [hA.index_unique hvisit (.tail hvisit' hfirst), hlength]
  exact Nat.zero_add _

/-- What a run comes to after a class declaration, and what it ends on, still has the class. -/
theorem realizes_rest {rest : List Stmt} {index : Nat} {info : ClassInfo} {cls : Class}
    (h : Runs T program table m₀ m (.stmts rest)) (hinfo : T.classes.info? index = some info)
    (hcls : T.classes.classAt? m.heap m.globals index = some cls) (n : Nat) :
    (∀ k j, Job.Reaches n ⟨.executeAll rest, m⟩ k j →
      Realizes T program table j.machine info.name index cls) ∧
      Ensures (executeAll n rest) m (fun _ m' => Realizes T program table m' info.name index cls)
        fun _ m' => Realizes T program table m' info.name index cls := by
  have hready : (discipline T program table m).Ready ⟨.executeAll rest, m⟩ :=
    ⟨h.good.restart, h.stands⟩
  constructor
  · intro k j hreach
    exact hA.realizes_since hinfo hcls (good_of_ready (hA.lawful.of_reaches hready hreach).1)
  · exact (hA.lawful.done n hready).mono
      (fun _ _ hend => hA.realizes_since hinfo hcls hend.1.good)
      fun _ _ hend => hA.realizes_since hinfo hcls hend.2.good

/-! ### Calls of classes -/

/-- A class of the checker takes as many arguments as the checker has accepted. -/
theorem arity_eq {index : Nat} {cls : Class} {types : List StaticType}
    (hm : Good T program table m₀ m) (hcls : T.classes.classAt? m.heap m.globals index = some cls)
    (haccepted : (T.classes.findMethod? constructorName index).elim (types = [])
      fun s => s.accepts types = true) : types.length = cls.arity := by
  have hrel := rel_findMethod? hA.complete hm.classes hcls constructorName
  rw [Class.arity, Class.initializer?]
  generalize T.classes.findMethod? constructorName index = found at hrel haccepted
  generalize cls.findMethod? constructorName = method at hrel ⊢
  cases hrel with
  | none =>
    rw [show types = [] from haccepted]
    rfl
  | some h =>
    rw [← length_of_accepts haccepted, h.1.length_eq]
    rfl

/-- The values that arguments evaluate to are as many as their types. -/
theorem length_of_evaluateAll {k : Nat} {site : Site} {arguments : List Expr} {values : List Value}
    {types : List StaticType} (h : Runs T program table m₀ m (.exprs arguments))
    (htypes : Typing.typesOf site.context site.typing arguments = .ok types)
    (hvalues : evaluateAll k arguments m = .ok values m') : values.length = types.length := by
  have hready : (discipline T program table m₀).Ready ⟨.evaluateAll arguments, m⟩ := h
  have hgives := ((hA.lawful.done k hready).of_ok hvalues).2
  rw [length_of_typesOf htypes]
  exact hgives.length_eq.symm

/-- Classes that the checker comes to later do not change the methods of those that it knows. -/
theorem findMethod?_eq {part : Part} {site : Site} {id : ClassId}
    (hvisit : walk.Visits (start table program) ⟨part, site⟩)
    (hknown : id.KnownIn site.typing.names) (x : String) :
    T.classes.findMethod? x id.index = site.typing.classes.findMethod? x id.index :=
  ClassTable.findMethod?_of_suffix (hA.checked _ hvisit).within.classes
    (Typing.lt_length_classes hknown)

/-- A call of an expression that the checker takes for a class, if its value is that class. -/
theorem checkCount_class {k : Nat} {callee : Expr} {paren : Position} {arguments : List Expr}
    {id : ClassId} {cls : Class} {values : List Value} {m₁ m₂ : Machine}
    (h : Runs T program table m₀ m (.expr (.call callee paren arguments)))
    (hgives : Typing.Gives table program callee (.classType id))
    (hcallee : evaluate k callee m = .ok (.classValue cls) m₁)
    (hcls : T.classes.classAt? m₁.heap m₁.globals id.index = some cls)
    (hvalues : evaluateAll k arguments m₁ = .ok values m₂) :
    checkCount cls.arity values paren m₂ = .ok () m₂ := by
  have hcalleeRuns : Runs T program table m₀ m (.expr callee) := h.parts (by simp [Expr.parts])
  have hargumentRuns : Runs T program table m₀ m (.exprs arguments) :=
    h.parts (by simp [Expr.parts])
  obtain ⟨-, site, hvisit, -⟩ := h
  obtain ⟨type, htype⟩ := (hA.checked _ hvisit).accepted
  obtain ⟨calleeType, types, hcalleeType, htypes, hcall⟩ := Typing.typeOf_call_ok htype
  -- The checker gives the callee one type only.
  have hvisit' : walk.Visits (start table program) ⟨.expr callee, site⟩ :=
    .tail hvisit (List.mem_map_of_mem (by simp [Expr.parts]))
  obtain rfl := Typing.Gives.unique hA.nodup ⟨site, hvisit', hcalleeType⟩ hgives
  obtain ⟨haccepted, -⟩ := Typing.call_class_ok hcall
  have hknown := (Typing.admitted_of_typeOf (hA.known _ hvisit).contained callee hcalleeType).1
  rw [← hA.findMethod?_eq hvisit hknown] at haccepted
  have hready : (discipline T program table m₀).Ready ⟨.evaluate callee, m⟩ := hcalleeRuns
  have hlater := ((hA.lawful.done k hready).of_ok hcallee).1
  refine checkCount_eq_ok ?_
  rw [hA.length_of_evaluateAll (hA.exprLaws.later hargumentRuns hlater) htypes hvalues]
  exact hA.arity_eq hlater.since.good hcls haccepted

/-! ### Programs -/

/-- A run starts on a machine that fits the start of the check. -/
theorem runs_fresh (sink : Sink) :
    Runs T program table { Machine.fresh sink with table } { Machine.fresh sink with table }
      (.stmts program) := by
  have hwithin := (hA.checked _ .refl).within
  have hglobals : HoldsFixed T (Machine.fresh sink).globals (Machine.fresh sink).heap
      Typing.initial.scopes.globals (Machine.fresh sink).globals := by
    intro x type htype
    -- The checker and the machine take their globals from the same list.
    obtain ⟨b, rfl, rfl⟩ := Typing.builtin_of_initial htype
    exact ⟨fun _ => hwithin.globals _ _ htype, .builtin b,
      TypeSafety.lookup?_fresh_builtin sink b, fun _ => trivial⟩
  refine ⟨⟨rfl, rfl, rfl, .refl _, ?_, ?_, ?_⟩, _, .refl, ⟨rfl, rfl, hglobals, rfl⟩, ?_⟩
  · intro f x v hv
    obtain ⟨b, rfl, -⟩ := Machine.lookup?_fresh sink hv
    trivial
  · intro b hb
    exact absurd hb (Array.not_mem_empty b)
  · intro i cls hcls
    obtain ⟨info, -, hlookup⟩ := ClassTable.classAt?_eq_some hcls
    obtain ⟨b, heq, -⟩ := Machine.lookup?_fresh sink hlookup
    cases heq
  · intro _ x hx
    obtain ⟨v, hv⟩ := Option.isSome_iff_exists.mp hx
    obtain ⟨b, -, rfl⟩ := Machine.lookup?_fresh sink hv
    cases b <;> rfl

/-- The discipline holds wherever a run of the program comes to. -/
theorem ready_of_reaches {sink : Sink} {n k : Nat} {j : Job}
    (hreach : Job.Reaches n ⟨.executeAll program, { Machine.fresh sink with table }⟩ k j) :
    (discipline T program table { Machine.fresh sink with table }).Ready j := by
  have hstart : (discipline T program table { Machine.fresh sink with table }).Ready
      ⟨.executeAll program, { Machine.fresh sink with table }⟩ := hA.runs_fresh sink
  exact (hA.lawful.of_reaches hstart hreach).1

/-- Once some statements of the program have run, the others may. -/
theorem runs_of_runsTo {before rest : List Stmt}
    (hstart : Runs T program table m₀ m (.stmts program)) (hbefore : m.RunsTo before m')
    (hprogram : program = before ++ rest) : Runs T program table m₀ m' (.stmts rest) := by
  induction hbefore generalizing rest with
  | nil =>
    rw [show rest = program from hprogram.symm]
    exact hstart
  | @snoc before s m₁ m' n _ hs ih =>
    have hsplit : program = before ++ s :: rest := by
      rw [hprogram, List.append_assoc]
      rfl
    have hruns := ih hsplit
    have hready : (discipline T program table m₀).Ready ⟨.execute s, m₁⟩ := hA.stmtLaws.first hruns
    exact hA.runs_rest hruns (((hA.lawful.done n hready).of_ok hs).executed rfl)

/-- Every class declaration that a run comes to is at the top level. -/
theorem outer_of_class {sink : Sink} {n k : Nat} {name : Name} {superclass : Option Reference}
    {decls : List FunctionDecl}
    (hreach : Job.Reaches n ⟨.executeAll program, { Machine.fresh sink with table }⟩ k
      ⟨.execute (.classDecl name superclass decls), m⟩) :
    ∃ before rest, program = before ++ .classDecl name superclass decls :: rest ∧
      Machine.RunsTo { Machine.fresh sink with table } before m := by
  have hstart : (discipline T program table { Machine.fresh sink with table }).Ready
      ⟨.executeAll program, { Machine.fresh sink with table }⟩ := hA.runs_fresh sink
  have hready : Runs T program table { Machine.fresh sink with table } m
      (.stmt (.classDecl name superclass decls)) := hA.ready_of_reaches hreach
  have houter : Outer program { Machine.fresh sink with table }
      ⟨.executeAll program, { Machine.fresh sink with table }⟩ :=
    ⟨[], program, rfl, .nil, .inl rfl⟩
  rcases hA.outer_or_inner hstart (.inl houter) hreach with
    ⟨before, rest, hprogram, hbefore, heq | ⟨s, ss, rfl, heq⟩⟩ | hinner
  · cases heq
  · cases heq
    exact ⟨before, ss, hprogram, hbefore⟩
  · -- Inside of the top level there would be a frame around the class.
    obtain ⟨-, site, hvisit, hstands⟩ := hready
    obtain ⟨t, ht⟩ := (hA.checked _ hvisit).accepted
    obtain ⟨super, ss, hclass, -⟩ := hA.class_type hvisit ht
    rcases hinner with hplain | hlocal
    · cases hplain
    · exact absurd (hstands.eq_globals_iff.mpr hclass.isGlobal) hlocal

end Accepted

theorem exists_accepted {source : String} {program : Program} {table : Distances}
    (hchecked : Source.checked source = .ok (program, table)) :
    ∃ T, Typing.stmts ⟨table, none, none⟩ program .initial = .ok T ∧ Accepted T program table := by
  obtain ⟨hprogram, hresolve, hcheck⟩ := Source.checked_eq_ok hchecked
  obtain ⟨T, hT, -⟩ := except_bind_eq_ok.mp hcheck
  have hnodup := Source.program_nodup hprogram
  have hvisits : ∀ v, walk.Visits (start table program) v → Checked T table v := fun _ hv =>
    Typing.checked_of_visits (Source.program_wellFormed hprogram) hnodup hresolve hT hv
  exact ⟨T, hT, (Typing.known_end hvisits hT).complete, hvisits,
    fun _ hv => Typing.known_of_visits hvisits hv, hnodup⟩

/-- What becomes of the classes of a program along one run of it, where the checker ends with `T`.
    -/
structure ClassesKept (T : Typing) (program : Program) (table : Distances) (sink : Sink)
    (fuel : Nat) : Prop where
  /-- A class declaration that the run comes to stands at the top level, and it succeeds. Whatever
      the rest of the program comes to and however it ends, the name of the class stays bound to the
      class that the checker has under the number of the declaration. -/
  declared : ∀ k name superclass decls m,
    Job.Reaches fuel ⟨.executeAll program, { Machine.fresh sink with table }⟩ (k + 1)
      ⟨.execute (.classDecl name superclass decls), m⟩ →
    ∃ before rest m' cls,
      program = before ++ .classDecl name superclass decls :: rest ∧
      Machine.RunsTo { Machine.fresh sink with table } before m ∧
      execute (k + 1) (.classDecl name superclass decls) m = .ok .normal m' ∧
      ∀ n,
        (∀ l j, Job.Reaches n ⟨.executeAll rest, m'⟩ l j →
          Realizes T program table j.machine name.text (before.filter Stmt.isClass).length cls) ∧
        Ensures (executeAll n rest) m'
          (fun _ m'' =>
            Realizes T program table m'' name.text (before.filter Stmt.isClass).length cls)
          fun _ m'' =>
            Realizes T program table m'' name.text (before.filter Stmt.isClass).length cls
  /-- Every superclass is a class. -/
  superclass : ∀ fault m, (Machine.fresh sink).interpret fuel program table = (.failed fault, m) →
    ∀ tag, fault.what ≠ .superclass tag
  /-- Where the checker takes the callee for a class and its value is this class, the number of
      arguments is right. -/
  count : ∀ k callee paren arguments id cls values m m₁ m₂,
    Job.Reaches fuel ⟨.executeAll program, { Machine.fresh sink with table }⟩ (k + 1)
      ⟨.evaluate (.call callee paren arguments), m⟩ →
    Typing.Gives table program callee (.classType id) →
    evaluate k callee m = .ok (.classValue cls) m₁ →
    T.classes.classAt? m₁.heap m₁.globals id.index = some cls →
    evaluateAll k arguments m₁ = .ok values m₂ →
    checkCount cls.arity values paren m₂ = .ok () m₂

end ClassSafety

open ClassSafety

/-- **Runs keep classes.** Once a class declaration has been executed, the name of the class is
    bound to the same class for the rest of the run: its superclass is the one that the checker has
    found, and it has the methods that the checker knows. So no run fails for a superclass that is
    no class, nor for the number of arguments of a class that the checker knows the callee to be. -/
theorem run_keeps_classes {source : String} {program : Program} {table : Distances}
    (hchecked : Source.checked source = .ok (program, table)) :
    ∃ T, Typing.stmts ⟨table, none, none⟩ program .initial = .ok T ∧
      ∀ sink fuel, ClassesKept T program table sink fuel := by
  obtain ⟨T, hT, hA⟩ := exists_accepted hchecked
  refine ⟨T, hT, fun sink fuel => ?_⟩
  refine ⟨?_, ?_, ?_⟩
  · intro k name superclass decls m hreach
    obtain ⟨before, rest, hprogram, hbefore⟩ := hA.outer_of_class hreach
    have hruns := hA.runs_of_runsTo (hA.runs_fresh sink) hbefore hprogram
    obtain ⟨m', site, info, cls, hexecute, hexecuted, hvisit, hinfo, hname, hcls⟩ :=
      hA.exists_class k (hA.stmtLaws.first hruns)
    refine ⟨before, rest, m', cls, hprogram, hbefore, hexecute, fun n => ?_⟩
    rw [← hname, ← hA.index_eq hprogram hvisit]
    exact hA.realizes_rest (hA.runs_rest hruns hexecuted) hinfo hcls n
  · intro fault m hrun
    have hstart : (discipline T program table { Machine.fresh sink with table }).Ready
        ⟨.executeAll program, { Machine.fresh sink with table }⟩ := hA.runs_fresh sink
    exact ((hA.lawful.done fuel hstart).of_error (Machine.executeAll_of_interpret hrun)).1
  · intro k callee paren arguments id cls values m m₁ m₂ hreach hgives hcallee hcls hvalues
    have hruns : Runs T program table { Machine.fresh sink with table } m
        (.expr (.call callee paren arguments)) := hA.ready_of_reaches hreach
    exact hA.checkCount_class hruns hgives hcallee hcls hvalues

/-- Whether the job is the execution of a declaration of a class with a superclass, and has fuel. -/
def Job.declaresSubclass : Nat × Job → Bool
  | (_ + 1, ⟨.execute (.classDecl _ (some _) _), _⟩) => true
  | _ => false

theorem Job.exists_class_of_declaresSubclass {k : Nat} {j : Job}
    (h : Job.declaresSubclass (k, j) = true) :
    ∃ n name superclass decls m, k = n + 1 ∧
      j = ⟨.execute (.classDecl name (some superclass) decls), m⟩ := by
  unfold declaresSubclass at h
  split at h
  · next heq =>
    cases heq
    exact ⟨_, _, _, _, _, rfl, rfl⟩
  · cases h

/-- A superclass named by a variable, whose subclass the run comes to declare, a method that is
    declared twice, a constructor and a method that are inherited. -/
theorem run_keeps_classes_alias :
    ∃ program table, Source.checked
        "class A \x7b m() \x7b \x7d m(x: Boolean) \x7b \x7d constructor(b: Boolean) \x7b \x7d \x7d
        val K = A;
        class B < K \x7b \x7d
        B(true).m(false);" = .ok (program, table) ∧
      (∃ k name superclass decls m,
        Job.Reaches 12 ⟨.executeAll program, { Machine.fresh .unbounded with table }⟩ (k + 1)
          ⟨.execute (.classDecl name (some superclass) decls), m⟩) ∧
      ∃ T, Typing.stmts ⟨table, none, none⟩ program .initial = .ok T ∧
        ∀ sink fuel, ClassesKept T program table sink fuel := by
  have hfound : (Source.checked
        "class A \x7b m() \x7b \x7d m(x: Boolean) \x7b \x7d constructor(b: Boolean) \x7b \x7d \x7d
        val K = A;
        class B < K \x7b \x7d
        B(true).m(false);").toOption.any (fun checked =>
      (Job.reached 12 ⟨.executeAll checked.1, { Machine.fresh .unbounded with
        table := checked.2 }⟩).any Job.declaresSubclass) = true := by
    decide +kernel
  obtain ⟨⟨program, table⟩, hchecked, hany⟩ := exists_ok_of_any hfound
  obtain ⟨k, j, hreach, hdeclares⟩ := Job.exists_reaches_of_any hany
  obtain ⟨k, name, superclass, decls, m, rfl, rfl⟩ :=
    Job.exists_class_of_declaresSubclass hdeclares
  exact ⟨program, table, hchecked, ⟨k, name, superclass, decls, m, hreach⟩,
    run_keeps_classes hchecked⟩

end ClassScript
