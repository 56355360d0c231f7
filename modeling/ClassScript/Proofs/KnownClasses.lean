import ClassScript.Proofs.CheckerInvariants
import ClassScript.Proofs.CheckerSteps
import ClassScript.Proofs.SuperclassChains
import ClassScript.Pipeline

namespace ClassScript

/-!
# The classes that the checker knows

Types hold classes by their number and their name. A class is in the table before its methods have
types and before their bodies are checked, so that it can be used while it is half built, and a
variable can hold it under another name. All the same, at every step of a check, whether it fails
later or not, each class that the checker holds is in its table under the name that it carries, and
superclasses are older than their classes. So a search along the superclasses always ends.

* `StaticType.classIds`: the classes that occur in a type;
* `Typing.Sound`: what every step of a check keeps;
* `Typing.Steps.Ensures`: every place that a check passes is sound;
* `Typing.Site.Holds`: the classes that the checker holds;
* `check_passes_wellClassed`: the main result.
-/

/-! ### Classes in types -/

mutual

/-- The classes that occur in a type. -/
def StaticType.classIds : StaticType → List ClassId
  | .function s => s.classIds
  | .classType id => [id]
  | .instanceType id => [id]
  | _ => []

/-- The classes that occur in the type of a function. -/
def Signature.classIds : Signature → List ClassId
  | ⟨_, params, returns⟩ => StaticType.classIdsAll params ++ returns.classIds

/-- The classes that occur in types. -/
def StaticType.classIdsAll : List StaticType → List ClassId
  | [] => []
  | type :: types => type.classIds ++ StaticType.classIdsAll types

end

/-- A class in some types is in one of them. -/
theorem StaticType.mem_classIdsAll {types : List StaticType} {id : ClassId}
    (h : id ∈ classIdsAll types) : ∃ type ∈ types, id ∈ type.classIds := by
  induction types with
  | nil => cases h
  | cons type types ih =>
    rcases List.mem_append.mp h with h | h
    · exact ⟨type, List.mem_cons_self, h⟩
    · obtain ⟨type', htype', hid⟩ := ih h
      exact ⟨type', List.mem_cons_of_mem _ htype', hid⟩

theorem StaticType.Written.knownIn {names : List String} {type : StaticType} {id : ClassId}
    (h : type.Written names) (hid : id ∈ type.classIds) : id.KnownIn names := by
  cases type with
  | instanceType id' =>
    cases List.mem_singleton.mp hid
    exact h
  | function s => exact h.elim
  | classType id' => exact h.elim
  | _ => cases hid

theorem Signature.Formed.knownIn {names : List String} {s : Signature} {id : ClassId}
    (h : s.Formed names) (hid : id ∈ s.classIds) : id.KnownIn names := by
  obtain ⟨hparams, hreturns⟩ := h
  obtain ⟨name, params, returns⟩ := s
  rcases List.mem_append.mp hid with hid | hid
  · rcases hparams with hwritten | hprints
    · obtain ⟨type, htype, hid⟩ := StaticType.mem_classIdsAll hid
      exact (hwritten type htype).knownIn hid
    · -- No class occurs in what the functions that print take.
      rcases hprints with hprints | hprints <;> cases hprints <;> cases hid
  · exact hreturns.knownIn hid

theorem StaticType.Formed.knownIn {names : List String} {type : StaticType} {id : ClassId}
    (h : type.Formed names) (hid : id ∈ type.classIds) : id.KnownIn names := by
  cases type with
  | function s => exact Signature.Formed.knownIn h hid
  | classType id' =>
    cases List.mem_singleton.mp hid
    exact h
  | instanceType id' =>
    cases List.mem_singleton.mp hid
    exact h
  | _ => cases hid

theorem ClassId.KnownIn.mono {names names' : List String} {id : ClassId} (h : id.KnownIn names)
    (hnames : names <:+ names') : id.KnownIn names' :=
  forall_suffix (P := fun names => id.KnownIn names) (fun name _ h => h.cons name) hnames h

/-- A class is known exactly if the table has it under its name. -/
theorem ClassId.knownIn_iff {classes : ClassTable} {id : ClassId} :
    id.KnownIn (classes.map ClassInfo.name)
      ↔ (classes.info? id.index).map ClassInfo.name = some id.name := by
  induction classes with
  | nil => simp [KnownIn, ClassTable.info?]
  | cons info older ih =>
    rw [ClassTable.info?, KnownIn, List.map_cons, List.reverse_cons]
    rcases Nat.lt_trichotomy id.index older.length with hlt | heq | hgt
    · rw [List.getElem?_append_left (by simpa using hlt), if_neg (by omega)]
      exact ih
    · simp [heq]
    · rw [List.getElem?_eq_none (by simp; omega), if_neg (by omega), ← ih, KnownIn,
        List.getElem?_eq_none (by simp; omega)]

namespace Typing

/-! ### What every change keeps -/

/-- Each class that the checker knows of is in its table under its name, and superclasses are older
    than their classes. -/
structure Sound (site : Site) : Prop where
  contained : Contained site
  superclass : ∀ info ∈ site.typing.classes, ∀ id ∈ info.superclass,
    id.KnownIn site.typing.names
  current : ∀ id ∈ site.context.current, id.KnownIn site.typing.names
  returns : ∀ type ∈ site.context.returns, type.Written site.typing.names

/-- The superclass of an accepted class is known. -/
theorem Contained.superclass_knownIn {site : Site} {superclass : Option Reference}
    {super : Option ClassId} (h : Contained site)
    (hsuper : superclass.mapM (superclassId site.context site.typing) = .ok super) :
    ∀ id ∈ super, id.KnownIn site.typing.names := by
  rintro id ⟨⟩
  cases superclass_ok hsuper with
  | some hlookUp => exact (h.lookUp hlookUp).1

namespace Sound

variable {site site' : Site}

theorem initial (table : Distances) (program : Program) :
    Sound (start table program).place where
  contained := .initial table
  superclass := nofun
  current := nofun
  returns := nofun

/-- A new frame names no class. -/
theorem openFrame (h : Sound site) : Sound site.openFrame where
  contained := ⟨h.contained.scopes.openFrame, h.contained.methods, h.contained.ordered⟩
  superclass := h.superclass
  current := h.current
  returns := h.returns

/-- A name with an admitted type. -/
theorem declare {x : String} {type : StaticType} (h : Sound site)
    (htype : type.Admitted site.typing.names site.context.current) :
    Sound (site.declare x type) where
  contained := h.contained.declare htype
  superclass := h.superclass
  current := h.current
  returns := h.returns

/-- A class is added whose superclass is known. -/
theorem addClass (h : Sound site) {super : Option ClassId}
    (hsuper : ∀ id ∈ super, id.KnownIn site.typing.names) (name : String) :
    Sound (site.addClass name super) where
  contained := by
    refine ⟨h.contained.scopes.imp fun _ type htype => htype.cons name, ?_, ?_, h.contained.ordered⟩
    · intro info hinfo x s hs
      rcases List.mem_cons.mp hinfo with rfl | hinfo
      · cases hs
      · exact (h.contained.methods info hinfo x s hs).cons name
    · -- The class gets the next number, and a class that is known has a smaller one.
      intro id hid
      exact lt_length_classes (hsuper id hid)
  superclass := by
    intro info hinfo id hid
    rcases List.mem_cons.mp hinfo with rfl | hinfo
    · exact (hsuper id hid).cons name
    · exact (h.superclass info hinfo id hid).cons name
  current id hid := (h.current id hid).cons name
  returns type htype := (h.returns type htype).cons name

/-- A new method is no new class. -/
theorem names_addMethod (s : Signature) (site : Site) :
    (site.addMethod s).typing.names = site.typing.names := by
  obtain ⟨context, scopes, classes⟩ := site
  cases classes <;> rfl

/-- The latest class gets a method, in the type of which the class itself may occur. -/
theorem addMethod (h : Sound site) {s : Signature} (hs : s.Formed site.typing.names) :
    Sound (site.addMethod s) := by
  obtain ⟨context, scopes, classes⟩ := site
  cases classes with
  | nil => exact ⟨⟨h.contained.scopes, nofun, trivial⟩, nofun, h.current, h.returns⟩
  | cons info older =>
    obtain ⟨hinfo, holder⟩ := List.forall_mem_cons.mp h.contained.methods
    obtain ⟨hsuper, hsupers⟩ := List.forall_mem_cons.mp h.superclass
    refine ⟨⟨h.contained.scopes, List.forall_mem_cons.mpr ⟨fun x s' hs' => ?_, holder⟩,
      h.contained.ordered⟩, List.forall_mem_cons.mpr ⟨hsuper, hsupers⟩, h.current, h.returns⟩
    -- A method is the new one or one that the class had before.
    rw [Bindings.find?_insert] at hs'
    split at hs'
    · cases hs'
      exact hs
    · exact hinfo x s' hs'

theorem setReturns (h : Sound site) {type : StaticType} (htype : type.Written site.typing.names) :
    Sound (site.setContext { site.context with returns := some type }) where
  contained := ⟨h.contained.scopes, h.contained.methods, h.contained.ordered⟩
  superclass := h.superclass
  current := h.current
  returns := by
    rintro _ ⟨⟩
    exact htype

/-- A class is entered that is known. -/
theorem setCurrent (h : Sound site) {id : ClassId} (hid : id.KnownIn site.typing.names) :
    Sound (site.setContext { site.context with current := some id }) where
  contained := ⟨h.contained.scopes.imp fun _ type htype => htype.inside id, h.contained.methods,
    h.contained.ordered⟩
  superclass := h.superclass
  current := by
    rintro _ ⟨⟩
    exact hid
  returns := h.returns

/-- Frames are closed and the context is put back, but classes stay. -/
theorem withClassesOf (h : Sound site) (h' : Sound site')
    (hnames : site.typing.names <:+ site'.typing.names) : Sound (site.withClassesOf site') where
  contained := (Contained.invariant (start .empty [])).restore h.contained h'.contained hnames
  superclass := h'.superclass
  current id hid := (h.current id hid).mono hnames
  returns type htype := (h.returns type htype).mono hnames

end Sound

/-! ### What checks in steps keep -/

namespace Steps

variable {α β : Type} {m : Steps α} {k : α → Steps β} {site : Site} {Q : α → Site → Prop}
  {R : β → Site → Prop}

/-- From the place on, the check passes only sound places and forgets no class, and if it does not
    fail then its result and the place where it ends satisfy `Q`. -/
structure Ensures (m : Steps α) (site : Site) (Q : α → Site → Prop) : Prop where
  passed : ∀ place ∈ (m site).passed, Sound place
  last : Sound (m site).last
  names : site.typing.names <:+ (m site).last.typing.names
  result : ∀ a, (m site).result = .ok a → Q a (m site).last

/-- The check passes only sound places. -/
abbrev Safe (m : Steps α) (site : Site) : Prop := m.Ensures site fun _ _ => True

namespace Ensures

theorem look {f : TypeContext → Typing → Result α} (h : Sound site)
    (hQ : ∀ a, f site.context site.typing = .ok a → Q a site) : (look f).Ensures site Q :=
  ⟨nofun, h, List.suffix_rfl, hQ⟩

/-- A result without a step. -/
theorem pure {a : α} (h : Sound site) (hQ : Q a site) : (pure a : Steps α).Ensures site Q :=
  .look h fun _ heq => Except.ok.inj heq ▸ hQ

theorem change {f : Site → Site} {Q : Unit → Site → Prop} (h : Sound (f site))
    (hnames : site.typing.names <:+ (f site).typing.names) (hQ : Q () (f site)) :
    (change f).Ensures site Q :=
  ⟨List.forall_mem_singleton.mpr h, h, hnames, fun _ _ => hQ⟩

theorem bind (hm : m.Ensures site Q)
    (hk : ∀ a site', Sound site' → site.typing.names <:+ site'.typing.names → Q a site' →
      (k a).Ensures site' R) : (m >>= k).Ensures site R := by
  cases h : (m site).result with
  | ok a =>
    have hnext := hk a _ hm.last hm.names (hm.result a h)
    refine ⟨?_, ?_, ?_, ?_⟩ <;> rw [bind_of_ok h]
    · exact List.forall_mem_append.mpr ⟨hm.passed, hnext.passed⟩
    · exact hnext.last
    · exact hm.names.trans hnext.names
    · exact hnext.result
  | error fault =>
    refine ⟨?_, ?_, ?_, ?_⟩ <;> rw [bind_of_error h]
    · exact hm.passed
    · exact hm.last
    · exact hm.names
    · nofun

/-- A change leads on from a sound place to a sound place. -/
theorem change_bind {f : Site → Site} {m : Unit → Steps β} (h : Sound (f site))
    (hnames : site.typing.names <:+ (f site).typing.names) (hm : (m ()).Ensures (f site) R) :
    (Steps.change f >>= m).Ensures site R := by
  have hchange : (Steps.change f).Ensures site fun _ site' => f site = site' :=
    .change h hnames rfl
  refine hchange.bind ?_
  rintro _ _ - - rfl
  exact hm

/-- A frame of its own is closed again, also if the check inside fails. -/
theorem framed (h : Sound site) (hstays : m.Stays) (hm : m.Ensures site.openFrame Q) :
    (framed m).Safe site := by
  have hclosed : (m site.openFrame).last.closeFrame = site.withClassesOf (m site.openFrame).last :=
    hstays.framed site
  have hfinal : Sound (m site.openFrame).last.closeFrame := by
    rw [hclosed]
    exact h.withClassesOf hm.last hm.names
  exact change_bind h.openFrame List.suffix_rfl
    ⟨List.forall_mem_append.mpr ⟨hm.passed, List.forall_mem_singleton.mpr hfinal⟩, hfinal, hm.names,
      fun _ _ => trivial⟩

theorem framedWith {name : String} {type : StaticType} (h : Sound site) (hstays : m.Stays)
    (htype : type.Admitted site.typing.names site.context.current)
    (hm : Sound (site.openFrame.declare name type) →
      m.Safe (site.openFrame.declare name type)) :
    (framedWith name type m).Safe site := by
  have hdeclared : Sound (site.openFrame.declare name type) := h.openFrame.declare htype
  exact .framed h ((stays_declare name type).bind fun _ => hstays)
    (.change_bind hdeclared List.suffix_rfl (hm hdeclared))

/-- The context is put back, also if the check under the other context fails. -/
theorem under {f : TypeContext → TypeContext} (h : Sound site) (hrestores : m.Restores)
    (hcontext : Sound (site.setContext (f site.context)))
    (hm : m.Ensures (site.setContext (f site.context)) Q) : (m.under f).Safe site := by
  have hback : (m (site.setContext (f site.context))).last.setContext site.context
      = site.withClassesOf (m (site.setContext (f site.context))).last := by
    rw [hrestores (site.setContext (f site.context))]
    rfl
  have hfinal : Sound ((m (site.setContext (f site.context))).last.setContext site.context) := by
    rw [hback]
    exact h.withClassesOf hm.last hm.names
  have hlook : (Steps.look fun context _ => .ok context).Ensures site fun context site' =>
      site.context = context ∧ site = site' :=
    .look h fun context heq => ⟨Except.ok.inj heq, rfl⟩
  refine hlook.bind ?_
  rintro _ _ - - ⟨rfl, rfl⟩
  exact change_bind hcontext List.suffix_rfl
    ⟨List.forall_mem_append.mpr ⟨hm.passed, List.forall_mem_singleton.mpr hfinal⟩, hfinal, hm.names,
      fun _ _ => trivial⟩

end Ensures

/-- The function takes and returns types that can be written down. -/
def Plain (s : Signature) (site : Site) : Prop :=
  s.Formed site.typing.names ∧ ∀ type ∈ s.params, type.Written site.typing.names

theorem Plain.mono {s : Signature} {site site' : Site} (h : Plain s site)
    (hnames : site.typing.names <:+ site'.typing.names) : Plain s site' :=
  ⟨h.1.mono hnames, fun type htype => (h.2 type htype).mono hnames⟩

/-- The parameters of a function, one by one. -/
theorem safe_params {ps : List (Param × StaticType)} (h : Sound site)
    (hps : ∀ p ∈ ps, p.2.Written site.typing.names) : (params ps).Safe site := by
  induction ps generalizing site with
  | nil => exact .pure h trivial
  | cons p ps ih =>
    obtain ⟨hp, hps⟩ := List.forall_mem_cons.mp hps
    have hdeclared := h.declare (x := p.1.name.text) hp.admitted
    exact .change_bind hdeclared List.suffix_rfl (ih hdeclared hps)

/-- The types of methods may use the class itself, and all that is known. -/
theorem ensures_signatures (decls : List FunctionDecl) (h : Sound site) :
    (signatures decls).Ensures site fun ss site' => ∀ s ∈ ss, Plain s site' := by
  induction decls generalizing site with
  | nil => exact .pure h (List.forall_mem_nil _)
  | cons decl decls ih =>
    have hlook : (look fun context t => signature context t decl).Ensures site fun s site' =>
        site = site' ∧ Plain s site :=
      .look h fun s hs => ⟨rfl, h.contained.signature hs⟩
    refine hlook.bind ?_
    rintro s _ - - ⟨rfl, hplain⟩
    have hnames := Sound.names_addMethod s site
    have hadded := h.addMethod hplain.1
    refine .change_bind hadded (hnames ▸ List.suffix_rfl) ((ih hadded).bind ?_)
    intro ss site' h' hgrown hss
    exact .pure h' (List.forall_mem_cons.mpr ⟨hplain.mono (hnames ▸ hgrown), hss⟩)

/-- A check inside a class is safe if it is so wherever it may start. -/
theorem safe_inClass {id : ClassId} {super : Option ClassId} (h : Sound site)
    (hid : id.KnownIn site.typing.names) (hsuper : ∀ id ∈ super, id.KnownIn site.typing.names)
    (hrestores : m.Restores)
    (hm : ∀ site', Sound site' → site.typing.names <:+ site'.typing.names → m.Safe site') :
    (inClass id super m).Safe site := by
  have hstays := (hrestores.under fun context => { context with current := some id }).stays
  have hinner {site' : Site} (h' : Sound site')
      (hnames : site.typing.names <:+ site'.typing.names) :
      (framedWith thisName (.instanceType id) <|
        m.under fun context => { context with current := some id }).Safe site' := by
    have hid' := hid.mono hnames
    refine .framedWith h' hstays ⟨hid', nofun⟩ fun hthis => ?_
    have hcurrent := hthis.setCurrent hid'
    exact .under hthis hrestores hcurrent (hm _ hcurrent hnames)
  cases super with
  | none => exact hinner h List.suffix_rfl
  | some super =>
    exact .framedWith h (hstays.framedWith _ _).stays ⟨hsuper super rfl, nofun⟩ fun hsuperName =>
      hinner hsuperName List.suffix_rfl

/-- What is only looked at changes nothing. -/
theorem safe_look_bind {f : TypeContext → Typing → Result α} (h : Sound site)
    (hk : ∀ a, f site.context site.typing = .ok a → (k a).Safe site) :
    (look f >>= k).Safe site := by
  have hlook : (look f).Ensures site fun a site' =>
      site = site' ∧ f site.context site.typing = .ok a :=
    .look h fun a ha => ⟨rfl, ha⟩
  refine hlook.bind ?_
  rintro a _ - - ⟨rfl, ha⟩
  exact hk a ha

mutual

/-- Every place that the check of a statement passes is sound. -/
theorem safe_stmt : ∀ (s : Stmt) {site : Site}, Sound site → (stmt s).Safe site
  | .expression _, _, h => by
    rw [stmt]
    exact safe_look_bind h fun _ _ => .pure h trivial
  | .val name _ _, site, h => by
    rw [stmt]
    refine safe_look_bind h fun type htype => ?_
    have hdeclared := h.declare (x := name.text) (admitted_of_declaredType h.contained htype)
    exact .change hdeclared List.suffix_rfl trivial
  | .block body, site, h => by
    rw [stmt]
    exact .framed h (stays_stmts body) (safe_stmts body h.openFrame)
  | .ifThen _ _ yes, _, h => by
    rw [stmt]
    exact safe_look_bind h fun _ _ => safe_stmt yes h
  | .ifElse _ _ yes no, _, h => by
    rw [stmt]
    exact safe_look_bind h fun _ _ => (safe_stmt yes h).bind fun _ _ h' _ _ => safe_stmt no h'
  | .whileLoop _ _ body, _, h => by
    rw [stmt]
    exact safe_look_bind h fun _ _ => safe_stmt body h
  | .funDecl decl, site, h => by
    rw [stmt]
    refine safe_look_bind h fun s hs => ?_
    have hplain : Plain s site := h.contained.signature hs
    have hdeclared := h.declare (x := decl.name.text) (StaticType.admitted_function hplain.1)
    exact .change_bind hdeclared List.suffix_rfl (safe_function decl hdeclared hplain)
  | .ret _ _, _, h => by
    rw [stmt]
    exact safe_look_bind h fun _ _ => .pure h trivial
  | .classDecl name superclass decls, site, h => by
    rw [stmt]
    refine safe_look_bind h fun super hsuper => safe_look_bind h fun id hid => ?_
    cases hid
    have hsuper := h.contained.superclass_knownIn hsuper
    have hgrown : site.typing.names <:+ name.text :: site.typing.names := List.suffix_cons _ _
    -- The class is known from here on, also in the types of its own methods.
    have hid : (site.typing.classId name).KnownIn (name.text :: site.typing.names) :=
      classId_known site.typing name
    have hadded := h.addClass hsuper name.text
    have hdeclared : Sound ((site.addClass name.text super).declare name.text
        (.classType (site.typing.classId name))) := hadded.declare ⟨hid, nofun⟩
    refine .change_bind hadded hgrown (.change_bind hdeclared List.suffix_rfl ?_)
    refine (ensures_signatures decls hdeclared).bind fun ss site' h' hnames hss => ?_
    refine safe_inClass h' (hid.mono hnames)
      (fun id hid => (hsuper id hid).mono (hgrown.trans hnames)) (restores_methods decls ss) ?_
    exact fun site'' h'' hnames' => safe_methods decls h'' fun s hs => (hss s hs).mono hnames'

/-- Statements pass only sound places. -/
theorem safe_stmts : ∀ (ss : List Stmt) {site : Site}, Sound site → (stmts ss).Safe site
  | [], _, h => by
    rw [stmts]
    exact .pure h trivial
  | s :: ss, _, h => by
    rw [stmts]
    exact (safe_stmt s h).bind fun _ _ h' _ _ => safe_stmts ss h'

/-- A function passes only sound places. -/
theorem safe_function : ∀ (decl : FunctionDecl) {s : Signature} {site : Site}, Sound site →
    Plain s site → (function decl s).Safe site
  | ⟨_, ps, _, body⟩, s, site, h, hplain => by
    rw [function]
    have hreturns := h.setReturns hplain.1.2
    have hparams : ∀ p ∈ ps.zip s.params, p.2.Written site.typing.names :=
      fun p hp => hplain.2 p.2 (List.of_mem_zip hp).2
    exact .under h ((stays_params _).bind fun _ => stays_stmts body).framed hreturns
      (.framed hreturns ((stays_params _).bind fun _ => stays_stmts body)
        ((safe_params hreturns.openFrame hparams).bind fun _ _ h' _ _ => safe_stmts body h'))

/-- Methods pass only sound places. -/
theorem safe_methods : ∀ (decls : List FunctionDecl) {ss : List Signature} {site : Site},
    Sound site → (∀ s ∈ ss, Plain s site) → (methods decls ss).Safe site
  | [], _, _, h, _ => by
    rw [methods]
    · exact .pure h trivial
    · nofun
  | _ :: _, [], _, h, _ => by
    rw [methods]
    · exact .pure h trivial
    · nofun
  | decl :: decls, s :: ss, _, h, hss => by
    rw [methods]
    obtain ⟨hs, hss⟩ := List.forall_mem_cons.mp hss
    exact (safe_function decl h hs).bind fun _ _ h' hnames _ =>
      safe_methods decls h' fun s' hs' => (hss s' hs').mono hnames

end

/-- All places that the checker passes are sound. -/
theorem sound_of_mem_places {table : Distances} {program : Program} {site : Site}
    (h : site ∈ places table program) : Sound site := by
  have hstart := Sound.initial table program
  rcases List.mem_cons.mp h with rfl | h
  · exact hstart
  · exact (safe_stmts program hstart).passed site h

end Steps

/-! ### The main result -/

/-- The checker holds a class: in a type that a name is bound to, in the type of a method, as a
    superclass, as the class at hand, in the return type at hand, or in a type that it gives an
    expression. -/
inductive Site.Holds (site : Site) : ClassId → Prop where
  | bound {b : Bindings StaticType} {x : String} {type : StaticType} {id : ClassId}
      (hb : b ∈ site.typing.scopes.globals :: site.typing.scopes.frames)
      (htype : b.find? x = some type) (hid : id ∈ type.classIds) : Holds site id
  | method {info : ClassInfo} {x : String} {s : Signature} {id : ClassId}
      (hinfo : info ∈ site.typing.classes) (hs : info.methods.find? x = some s)
      (hid : id ∈ s.classIds) : Holds site id
  | superclass {info : ClassInfo} {id : ClassId} (hinfo : info ∈ site.typing.classes)
      (hid : info.superclass = some id) : Holds site id
  | current {id : ClassId} (hid : site.context.current = some id) : Holds site id
  | returns {type : StaticType} {id : ClassId} (htype : site.context.returns = some type)
      (hid : id ∈ type.classIds) : Holds site id
  | typed {e : Expr} {type : StaticType} {id : ClassId}
      (htype : typeOf site.context site.typing e = .ok type) (hid : id ∈ type.classIds) :
      Holds site id

theorem Sound.knownIn {site : Site} {id : ClassId} (h : Sound site) (hid : site.Holds id) :
    id.KnownIn site.typing.names := by
  cases hid with
  | bound hb htype hid => exact (h.contained.scopes _ hb _ _ htype).1.knownIn hid
  | method hinfo hs hid => exact (h.contained.methods _ hinfo _ _ hs).knownIn hid
  | superclass hinfo hid => exact h.superclass _ hinfo id hid
  | current hid => exact h.current id hid
  | returns htype hid => exact (h.returns _ htype).knownIn hid
  | typed htype hid => exact (admitted_of_typeOf h.contained _ htype).1.knownIn hid

/-- The classes of a place are in order: superclasses are older than their classes, each class that
    is held is in the table under its name, and searches along the superclasses end. -/
structure Site.WellClassed (site : Site) : Prop where
  superclass_lt : ∀ index id, site.typing.classes.superclass? index = some id → id.index < index
  known : ∀ id, site.Holds id → id.index < site.typing.classes.length ∧
    (site.typing.classes.info? id.index).map ClassInfo.name = some id.name
  /-- The search for a method ends within as many rounds as there are classes up to this one, with
      the method of the nearest class of the chain that has one. -/
  method : ∀ id, site.Holds id → ∃ chain, site.typing.classes.Chain id.index chain ∧ ∀ name,
    (∀ rounds, id.index < rounds → site.typing.classes.methodWithin rounds name id
        = some (site.typing.classes.findMethod? name id.index)) ∧
      site.typing.classes.findMethod? name id.index
        = chain.findSome? (site.typing.classes.ownMethod? name)
  /-- So does the search for an ancestor, and it finds those that the superclasses lead to. -/
  inherits : ∀ id, site.Holds id → ∀ ancestor : ClassId,
    (∀ rounds, id.index < rounds → site.typing.classes.inheritsWithin rounds ancestor id
        = some (site.typing.classes.inherits ancestor.index id.index)) ∧
      (site.typing.classes.inherits ancestor.index id.index = true ↔
        Relation.ReflTransGen site.typing.classes.Derives id.index ancestor.index)

theorem Sound.wellClassed {site : Site} (h : Sound site) : site.WellClassed where
  superclass_lt _ _ hid := h.contained.ordered.superclass?_lt hid
  known id hid := by
    have hknown := h.knownIn hid
    exact ⟨lt_length_classes hknown, ClassId.knownIn_iff.mp hknown⟩
  method id _ := by
    have hordered := h.contained.ordered
    obtain ⟨chain, hchain, -⟩ := hordered.exists_chain id.index
    exact ⟨chain, hchain, fun name => ⟨fun _ hrounds => hordered.methodWithin_eq hrounds name,
      hchain.findMethod?_eq hordered name⟩⟩
  inherits id _ ancestor := by
    have hordered := h.contained.ordered
    exact ⟨fun _ hrounds => hordered.inheritsWithin_eq hrounds ancestor,
      ClassTable.inherits_iff hordered⟩

end Typing

open Typing

/-- **Every place that a check passes has its classes in order.** This holds for any program and any
    table of distances, whether the check fails later or not. -/
theorem check_passes_wellClassed (table : Distances) (program : Program) :
    (Steps.course table program).result = typecheck table program ∧
      ∀ site ∈ Steps.places table program, site.WellClassed :=
  ⟨Steps.result_course table program, fun _ hsite => (Steps.sound_of_mem_places hsite).wellClassed⟩

/-- A class whose superclass has been given another name, when one of its two methods has a type and
    the other has none yet; the check fails later, in the body of the second. -/
theorem check_passes_wellClassed_halfBuilt :
    ∃ program table site, Source.program
        "class A \x7b \x7d val X = A;
         class B < X \x7b m(b: B) \x7b \x7d n() \x7b this.m(1); \x7d \x7d" = .ok program ∧
      resolve program = .ok table ∧ (typecheck table program).toOption = none ∧
      site ∈ Steps.places table program ∧
      site.typing.classes.superclass? 1 = some ⟨0, "A"⟩ ∧
      (site.typing.classes.ownMethod? "m" 1).isSome = true ∧
      (site.typing.classes.ownMethod? "n" 1).isNone = true ∧ site.WellClassed := by
  have hpassed : (Source.program
        "class A \x7b \x7d val X = A;
         class B < X \x7b m(b: B) \x7b \x7d n() \x7b this.m(1); \x7d \x7d").toOption.any
      (fun program => (resolve program).toOption.any fun table =>
        (typecheck table program).toOption.isNone &&
        (Steps.places table program).any fun site =>
          site.typing.classes.superclass? 1 == some ⟨0, "A"⟩ &&
          (site.typing.classes.ownMethod? "m" 1).isSome &&
          (site.typing.classes.ownMethod? "n" 1).isNone) = true := by
    decide +kernel
  obtain ⟨program, hprogram, htable⟩ := exists_ok_of_any hpassed
  obtain ⟨table, hresolve, hcheck⟩ := exists_ok_of_any htable
  rw [Bool.and_eq_true, Option.isNone_iff_eq_none] at hcheck
  obtain ⟨hfails, hsome⟩ := hcheck
  obtain ⟨site, hsite, htest⟩ := List.any_eq_true.mp hsome
  simp only [Bool.and_eq_true, beq_iff_eq] at htest
  obtain ⟨⟨hsuper, hm⟩, hn⟩ := htest
  exact ⟨program, table, site, hprogram, hresolve, hfails, hsite, hsuper, hm, hn,
    (check_passes_wellClassed table program).2 site hsite⟩

end ClassScript
