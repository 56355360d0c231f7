import ClassScript.Proofs.CheckedVisits

namespace ClassScript

/-!
# The type checker step by step

The type checker is given as a function of what is known before a statement to what is known after
it. Here the same check is taken apart into single changes: a frame is opened or closed, a name is
bound, a class is added, a method gets its type, and the class or the return type at hand is
replaced. A check that fails has passed through all that came before, and it still closes the frames
that it has opened.

* `Typing.Steps`: checks that go step by step, and where they pass;
* `Typing.Steps.stmt`, `Typing.Steps.program`: the check of a statement and of a program;
* `Typing.Steps.stays_stmt`: frames are closed again, also if the check fails;
* `Typing.Steps.run?_stmt`: the steps lead to what the checker gives.
-/

/-! ### Scopes that differ in the innermost frame -/

/-- The scopes differ at most in the innermost frame. -/
structure Scopes.Beside {α : Type} (s s' : Scopes α) : Prop where
  length : s'.frames.length = s.frames.length
  tail : s'.frames.tail = s.frames.tail
  globals : s.frames ≠ [] → s'.globals = s.globals

namespace Scopes.Beside

variable {α : Type} {s s' s'' : Scopes α}

theorem refl (s : Scopes α) : s.Beside s := ⟨rfl, rfl, fun _ => rfl⟩

theorem trans (h : s.Beside s') (h' : s'.Beside s'') : s.Beside s'' where
  length := h'.length.trans h.length
  tail := h'.tail.trans h.tail
  globals hne := by
    have hne' : s'.frames ≠ [] := by
      rw [← List.length_pos_iff] at hne ⊢
      exact h.length ▸ hne
    exact (h'.globals hne').trans (h.globals hne)

theorem declare (s : Scopes α) (x : String) (a : α) : s.Beside (s.declare x a) := by
  obtain ⟨globals, frames⟩ := s
  cases frames with
  | nil => exact ⟨rfl, rfl, fun hne => absurd rfl hne⟩
  | cons frame outer => exact ⟨rfl, rfl, fun _ => rfl⟩

theorem closeFrame_eq (h : s.openFrame.Beside s') : s'.closeFrame = s := by
  obtain ⟨globals, frames⟩ := s
  have hglobals : s'.globals = globals := h.globals (List.cons_ne_nil _ _)
  have htail : s'.frames.tail = frames := h.tail
  rw [closeFrame, hglobals, htail]

end Scopes.Beside

namespace Typing

/-! ### Changes -/

namespace Site

def openFrame (site : Site) : Site :=
  ⟨site.context, { site.typing with scopes := site.typing.scopes.openFrame }⟩

def closeFrame (site : Site) : Site :=
  ⟨site.context, { site.typing with scopes := site.typing.scopes.closeFrame }⟩

def declare (name : String) (type : StaticType) (site : Site) : Site :=
  ⟨site.context, site.typing.declare name type⟩

/-- A class without methods is added to the table. -/
def addClass (name : String) (superclass : Option ClassId) (site : Site) : Site :=
  ⟨site.context, { site.typing with
    classes := ⟨name, superclass, .empty⟩ :: site.typing.classes }⟩

/-- The latest class gets a method. -/
def addMethod (s : Signature) (site : Site) : Site :=
  ⟨site.context, { site.typing with
    classes := site.typing.classes.modifyHead fun info =>
      { info with methods := info.methods.insert s.name s } }⟩

def setContext (context : TypeContext) (site : Site) : Site := ⟨context, site.typing⟩

end Site

/-! ### Checks in steps -/

/-- How a check goes that starts somewhere: the places that it passes, one after each change, the
    place where it ends, and its result. -/
structure Course (α : Type) where
  passed : List Site
  last : Site
  result : Result α

/-- A check that goes step by step. -/
def Steps (α : Type) : Type := Site → Course α

namespace Steps

variable {α β : Type}

/-- Changes what is known. -/
def change (f : Site → Site) : Steps Unit := fun site => ⟨[f site], f site, .ok ()⟩

/-- Finds something out by what is known. -/
def look (f : TypeContext → Typing → Result α) : Steps α := fun site =>
  ⟨[], site, f site.context site.typing⟩

/-- One check after the other, unless the first one fails. -/
def andThen (m : Steps α) (k : α → Steps β) : Steps β := fun site =>
  match (m site).result with
  | .ok a => ⟨(m site).passed ++ (k a (m site).last).passed, (k a (m site).last).last,
      (k a (m site).last).result⟩
  | .error fault => ⟨(m site).passed, (m site).last, .error fault⟩

instance : Monad Steps where
  pure a := look fun _ _ => .ok a
  bind := andThen

/-- A change after a check, also after one that fails. -/
def finishing (m : Steps α) (f : Site → Site) : Steps α := fun site =>
  ⟨(m site).passed ++ [f (m site).last], f (m site).last, (m site).result⟩

/-- A check inside a frame of its own. -/
def framed (m : Steps α) : Steps α := do
  change .openFrame
  m.finishing .closeFrame

/-- A check inside a frame of its own that has a name bound already. -/
def framedWith (name : String) (type : StaticType) (m : Steps α) : Steps α := framed do
  change (.declare name type)
  m

/-- A check for which the context is another, and is put back after it. -/
def under (f : TypeContext → TypeContext) (m : Steps α) : Steps α := do
  let enclosing ← look fun context _ => .ok context
  change (.setContext (f enclosing))
  m.finishing (.setContext enclosing)

/-- Binds parameters in order. -/
def params : List (Param × StaticType) → Steps Unit
  | [] => pure ()
  | (p, type) :: rest => do
    change (.declare p.name.text type)
    params rest

/-- Gives the latest class the types of its methods in order. -/
def signatures : List FunctionDecl → Steps (List Signature)
  | [] => pure []
  | decl :: decls => do
    let s ← look fun context t => signature context t decl
    change (.addMethod s)
    let ss ← signatures decls
    return s :: ss

/-- Checks inside the class with the given superclass, in a frame for the receiver, which is inside
    one for the superclass if there is one. -/
def inClass (id : ClassId) (superclass : Option ClassId) (m : Steps α) : Steps α :=
  -- The receiver is bound inside of the frame for the superclass.
  let inner := framedWith thisName (.instanceType id) <|
    m.under fun context => { context with current := some id }
  match superclass with
  | some superclass => framedWith superName (.classType superclass) inner
  | none => inner

mutual

/-- The check of a statement. -/
def stmt : Stmt → Steps Unit
  | .expression e => do
    let _ ← look fun context t => typeOf context t e
  | .val name type initializer => do
    let type ← look fun context t => declaredType context t name type initializer
    change (.declare name.text type)
  | .block body => framed (stmts body)
  | .ifThen keyword e yes => do
    look fun context t => condition context t keyword e
    stmt yes
  | .ifElse keyword e yes no => do
    look fun context t => condition context t keyword e
    stmt yes
    stmt no
  | .whileLoop keyword e body => do
    look fun context t => condition context t keyword e
    stmt body
  | .funDecl decl => do
    let s ← look fun context t => signature context t decl
    change (.declare decl.name.text (.function s))
    function decl s
  | .ret keyword value => do
    let _ ← look fun context t => Typing.stmt context (.ret keyword value) t
  | .classDecl name superclass decls => do
    let superclass ← look fun context t => superclass.mapM (superclassId context t)
    let id ← look fun _ t => .ok (t.classId name)
    -- The class is known before its methods are, so that their types can name it.
    change (.addClass name.text superclass)
    change (.declare name.text (.classType id))
    let ss ← signatures decls
    inClass id superclass (methods decls ss)

/-- The check of statements in order. -/
def stmts : List Stmt → Steps Unit
  | [] => pure ()
  | s :: ss => do
    stmt s
    stmts ss

/-- The check of the body of a function, in a frame with its parameters. -/
def function : FunctionDecl → Signature → Steps Unit
  | ⟨_, ps, _, body⟩, s =>
    under (fun context => { context with returns := some s.returns }) <| framed do
      params (ps.zip s.params)
      stmts body

/-- The check of the methods of a class and their types. -/
def methods : List FunctionDecl → List Signature → Steps Unit
  | decl :: decls, s :: ss => do
    function decl s
    methods decls ss
  | _, _ => pure ()

end

/-! ### Frames are closed again -/

end Steps

/-- The places differ at most in the innermost frame and in the classes. -/
structure Site.Beside (site site' : Site) : Prop where
  context : site'.context = site.context
  scopes : site.typing.scopes.Beside site'.typing.scopes

/-- The place, but with the classes that are known at another. -/
def Site.withClassesOf (site site' : Site) : Site :=
  ⟨site.context, site.typing.scopes, site'.typing.classes⟩

namespace Steps

variable {α β : Type} {m : Steps α} {k : α → Steps β}

/-- Wherever the check starts, it ends with the same frames open. It may have bound names in the
    innermost of them. -/
def Stays (m : Steps α) : Prop := ∀ site : Site, site.Beside (m site).last

/-- Wherever the check starts, it ends there, but with classes added. -/
def Restores (m : Steps α) : Prop :=
  ∀ site : Site, (m site).last = site.withClassesOf (m site).last

theorem bind_of_ok {site : Site} {a : α} (h : (m site).result = .ok a) :
    (m >>= k) site = ⟨(m site).passed ++ (k a (m site).last).passed, (k a (m site).last).last,
      (k a (m site).last).result⟩ := by
  show andThen m k site = _
  rw [andThen, h]

/-- After a step that fails nothing is passed. -/
theorem bind_of_error {site : Site} {fault : Located TypeFault}
    (h : (m site).result = .error fault) :
    (m >>= k) site = ⟨(m site).passed, (m site).last, .error fault⟩ := by
  show andThen m k site = _
  rw [andThen, h]

/-- What restores the scopes stays beside them. -/
theorem Restores.stays (h : m.Restores) : m.Stays := by
  intro site
  rw [h site]
  exact ⟨rfl, .refl _⟩

/-- Two steps that stay beside the scopes. -/
theorem Stays.bind (hm : m.Stays) (hk : ∀ a, (k a).Stays) : (m >>= k).Stays := by
  intro site
  cases h : (m site).result with
  | ok a =>
    rw [bind_of_ok h]
    obtain ⟨hcontext, hscopes⟩ := hm site
    obtain ⟨hcontext', hscopes'⟩ := hk a (m site).last
    exact ⟨hcontext'.trans hcontext, hscopes.trans hscopes'⟩
  | error fault =>
    rw [bind_of_error h]
    exact hm site

/-- Two steps that restore the scopes. -/
theorem Restores.bind (hm : m.Restores) (hk : ∀ a, (k a).Restores) : (m >>= k).Restores := by
  intro site
  cases h : (m site).result with
  | ok a =>
    rw [bind_of_ok h]
    show (k a (m site).last).last = _
    rw [hk a (m site).last, hm site]
    rfl
  | error fault =>
    rw [bind_of_error h]
    exact hm site

/-- To look at a place restores the scopes. -/
theorem restores_look (f : TypeContext → Typing → Result α) : (look f).Restores := fun _ => rfl

/-- A new class is no change of the scopes. -/
theorem restores_addClass (name : String) (superclass : Option ClassId) :
    (change (.addClass name superclass)).Restores := fun _ => rfl

/-- A declaration stays beside the scopes. -/
theorem stays_declare (name : String) (type : StaticType) :
    (change (.declare name type)).Stays := fun site =>
  ⟨rfl, .declare site.typing.scopes name type⟩

/-- A frame that is opened is closed again. -/
theorem Stays.framed (h : m.Stays) : (framed m).Restores := by
  intro site
  obtain ⟨hcontext, hscopes⟩ := h site.openFrame
  -- What the check has bound is in the frame that is closed.
  have hclosed : (m site.openFrame).last.typing.scopes.closeFrame = site.typing.scopes :=
    hscopes.closeFrame_eq
  show (m site.openFrame).last.closeFrame = site.withClassesOf (m site.openFrame).last.closeFrame
  rw [Site.closeFrame, hcontext, hclosed]
  rfl

theorem Stays.framedWith (h : m.Stays) (name : String) (type : StaticType) :
    (framedWith name type m).Restores :=
  ((stays_declare name type).bind fun _ => h).framed

theorem Restores.under (h : m.Restores) (f : TypeContext → TypeContext) :
    (m.under f).Restores := by
  intro site
  show (m (site.setContext (f site.context))).last.setContext site.context = site.withClassesOf _
  rw [h (site.setContext (f site.context))]
  rfl

/-- Parameters are declared in one frame. -/
theorem stays_params (ps : List (Param × StaticType)) : (params ps).Stays := by
  induction ps with
  | nil => exact (restores_look _).stays
  | cons p ps ih => exact (stays_declare _ _).bind fun _ => ih

theorem restores_signatures (decls : List FunctionDecl) : (signatures decls).Restores := by
  induction decls with
  | nil => exact restores_look _
  | cons decl decls ih =>
    refine (restores_look _).bind fun s => Restores.bind (fun _ => rfl) fun _ => ?_
    exact ih.bind fun _ => restores_look _

theorem Restores.inClass (h : m.Restores) (id : ClassId) (superclass : Option ClassId) :
    (inClass id superclass m).Restores := by
  have hinner := (h.under fun context => { context with current := some id }).stays.framedWith
    thisName (.instanceType id)
  cases superclass with
  | none => exact hinner
  | some superclass => exact hinner.stays.framedWith superName (.classType superclass)

mutual

/-- Statements stay beside the scopes. -/
theorem stays_stmt : ∀ s : Stmt, (stmt s).Stays
  | .expression _ => by
    rw [stmt]
    exact (restores_look _).stays.bind fun _ => (restores_look _).stays
  | .val name _ _ => by
    rw [stmt]
    exact (restores_look _).stays.bind fun type => stays_declare name.text type
  | .block body => by
    rw [stmt]
    exact (stays_stmts body).framed.stays
  | .ifThen _ _ yes => by
    rw [stmt]
    exact (restores_look _).stays.bind fun _ => stays_stmt yes
  | .ifElse _ _ yes no => by
    rw [stmt]
    exact (restores_look _).stays.bind fun _ => (stays_stmt yes).bind fun _ => stays_stmt no
  | .whileLoop _ _ body => by
    rw [stmt]
    exact (restores_look _).stays.bind fun _ => stays_stmt body
  | .funDecl decl => by
    rw [stmt]
    exact (restores_look _).stays.bind fun s => (stays_declare _ _).bind fun _ =>
      (restores_function decl s).stays
  | .ret _ _ => by
    rw [stmt]
    exact (restores_look _).stays.bind fun _ => (restores_look _).stays
  | .classDecl name superclass decls => by
    rw [stmt]
    refine (restores_look _).stays.bind fun super => (restores_look _).stays.bind fun id => ?_
    refine (restores_addClass _ _).stays.bind fun _ => (stays_declare _ _).bind fun _ => ?_
    exact (restores_signatures decls).stays.bind fun ss =>
      ((restores_methods decls ss).inClass id super).stays

/-- Statements in order stay beside the scopes. -/
theorem stays_stmts : ∀ ss : List Stmt, (stmts ss).Stays
  | [] => by
    rw [stmts]
    exact (restores_look _).stays
  | s :: ss => by
    rw [stmts]
    exact (stays_stmt s).bind fun _ => stays_stmts ss

/-- A function restores the scopes. -/
theorem restores_function : ∀ (decl : FunctionDecl) (s : Signature), (function decl s).Restores
  | ⟨_, ps, _, body⟩, s => by
    rw [function]
    exact ((stays_params _).bind fun _ => stays_stmts body).framed.under _

/-- The methods of a class restore the scopes. -/
theorem restores_methods : ∀ (decls : List FunctionDecl) (ss : List Signature),
    (methods decls ss).Restores
  | [], _ => by
    rw [methods]
    · exact restores_look _
    · nofun
  | _ :: _, [] => by
    rw [methods]
    · exact restores_look _
    · nofun
  | decl :: decls, s :: ss => by
    rw [methods]
    exact (restores_function decl s).bind fun _ => restores_methods decls ss

end

/-! ### The steps lead to what the checker gives -/

/-- The result of a check and where it ends, if it does not fail. -/
def run? (m : Steps α) (site : Site) : Result (α × Site) :=
  match (m site).result with
  | .ok a => .ok (a, (m site).last)
  | .error fault => .error fault

theorem run?_bind (m : Steps α) (k : α → Steps β) (site : Site) :
    (m >>= k).run? site = m.run? site >>= fun r => (k r.1).run? r.2 := by
  cases h : (m site).result with
  | ok a =>
    have hm : m.run? site = .ok (a, (m site).last) := by rw [run?, h]
    rw [run?, bind_of_ok h, hm]
    rfl
  | error fault =>
    have hm : m.run? site = .error fault := by rw [run?, h]
    rw [run?, bind_of_error h, hm]
    rfl

theorem run?_look (f : TypeContext → Typing → Result α) (site : Site) :
    (look f).run? site = f site.context site.typing >>= fun a => .ok (a, site) := by
  cases h : f site.context site.typing <;> simp only [run?, look, h] <;> rfl

theorem run?_finishing (m : Steps α) (f : Site → Site) (site : Site) :
    (m.finishing f).run? site = m.run? site >>= fun r => .ok (r.1, f r.2) := by
  cases h : (m site).result <;> simp only [run?, finishing, h] <;> rfl

/-- A change, and then what follows it. -/
theorem run?_change_bind (f : Site → Site) (m : Unit → Steps α) (site : Site) :
    (change f >>= m).run? site = (m ()).run? (f site) := run?_bind _ _ _

/-- After a check in a frame of its own only the classes are others. -/
theorem run?_framed (h : m.Stays) (site : Site) :
    (framed m).run? site
      = m.run? site.openFrame >>= fun r => .ok (r.1, site.withClassesOf r.2) := by
  have hclosed : (m site.openFrame).last.closeFrame = site.withClassesOf (m site.openFrame).last :=
    h.framed site
  rw [framed, run?_change_bind, run?_finishing, run?]
  cases (m site.openFrame).result with
  | error fault => rfl
  | ok a => exact congrArg (fun site' => Except.ok (a, site')) hclosed

theorem run?_framedWith (h : m.Stays) (name : String) (type : StaticType) (site : Site) :
    (framedWith name type m).run? site = m.run? (site.openFrame.declare name type) >>= fun r =>
      .ok (r.1, site.withClassesOf r.2) := by
  rw [framedWith, run?_framed ((stays_declare name type).bind fun _ => h), run?_change_bind]

theorem run?_under (m : Steps α) (f : TypeContext → TypeContext) (site : Site) :
    (m.under f).run? site = m.run? (site.setContext (f site.context)) >>= fun r =>
      .ok (r.1, r.2.setContext site.context) :=
  (run?_bind _ _ site).trans ((run?_change_bind _ _ site).trans (run?_finishing m _ _))

/-- The parameters are declared one by one. -/
theorem run?_params (ps : List (Param × StaticType)) (site : Site) :
    (params ps).run? site = .ok ((), ⟨site.context, { site.typing with
      scopes := ps.foldl (fun scopes (p, type) => scopes.declare p.name.text type)
        site.typing.scopes }⟩) := by
  induction ps generalizing site with
  | nil => rfl
  | cons p ps ih =>
    rw [params, run?_change_bind, ih]
    rfl

/-- What is written down as a type stands for a type by the scopes alone. -/
theorem signature_eq_of_scopes {context : TypeContext} {t t' : Typing}
    (h : t'.scopes = t.scopes) : signature context t' = signature context t := by
  obtain ⟨scopes, classes⟩ := t
  cases h
  have hannotated : annotated context t' = annotated context ⟨t'.scopes, classes⟩ := by
    funext written
    cases written <;> rfl
  funext decl
  rw [signature, signature, hannotated]

theorem run?_signatures (decls : List FunctionDecl) (site : Site) :
    (signatures decls).run? site = Typing.signatures site.context site.typing decls >>= fun ss =>
      .ok (ss, ss.foldl (fun site s => Site.addMethod s site) site) := by
  induction decls generalizing site with
  | nil => rfl
  | cons decl decls ih =>
    rw [signatures, Typing.signatures, List.mapM_cons, run?_bind, run?_look]
    cases hs : signature site.context site.typing decl with
    | error fault => rfl
    | ok s =>
      -- The method that was just added does not matter for the types of the others.
      show (change (.addMethod s) >>= fun _ => signatures decls >>= fun ss => pure (s :: ss)).run?
        site = _
      have hmapM : Typing.signatures (site.addMethod s).context (site.addMethod s).typing decls
          = decls.mapM fun decl => signature site.context site.typing decl := by
        have hscopes : (site.addMethod s).typing.scopes = site.typing.scopes := rfl
        rw [Typing.signatures, signature_eq_of_scopes hscopes]
        rfl
      rw [run?_change_bind, run?_bind, ih, hmapM]
      cases decls.mapM fun decl => signature site.context site.typing decl <;> rfl

/-- Methods that are added one after the other are the methods of the class. -/
theorem foldl_addMethod (ss : List Signature) (context : TypeContext) (scopes : Scopes StaticType)
    (info : ClassInfo) (older : ClassTable) :
    ss.foldl (fun site s => Site.addMethod s site) ⟨context, scopes, info :: older⟩
      = ⟨context, scopes, { info with
          methods := ss.foldl (fun b s => b.insert s.name s) info.methods } :: older⟩ := by
  induction ss generalizing info with
  | nil => rfl
  | cons s ss ih => exact ih _

theorem methodTypes_eq_foldl (ss : List Signature) :
    methodTypes ss = ss.foldl (fun b s => b.insert s.name s) .empty := by
  rw [methodTypes, Bindings.ofList, List.foldl_map]

/-- Inside a class the check starts with the receiver and the superclass bound. -/
theorem run?_inClass (h : m.Restores) (id : ClassId) (superclass : Option ClassId) (site : Site) :
    (inClass id superclass m).run? site = m.run? (insideClass id superclass site) >>= fun r =>
      .ok (r.1, site.withClassesOf r.2) := by
  have hunder := h.under fun context => { context with current := some id }
  have hinner (site : Site) := run?_framedWith hunder.stays thisName (.instanceType id) site
  cases superclass with
  | none =>
    rw [inClass, hinner, run?_under]
    show (m.run? (insideClass id none site) >>= _) >>= _ = _
    cases m.run? (insideClass id none site) <;> rfl
  | some superclass =>
    rw [inClass, run?_framedWith (hunder.stays.framedWith _ _).stays, hinner, run?_under]
    show ((m.run? (insideClass id (some superclass) site) >>= _) >>= _) >>= _ = _
    cases m.run? (insideClass id (some superclass) site) <;> rfl

mutual

/-- **The steps of a statement lead to what the checker gives**, and fail if it fails. -/
theorem run?_stmt : ∀ (s : Stmt) (site : Site),
    (stmt s).run? site = Typing.stmt site.context s site.typing >>= fun t =>
      .ok ((), ⟨site.context, t⟩)
  | .expression e, site => by
    rw [stmt, run?_bind, run?_look, Typing.stmt]
    cases typeOf site.context site.typing e <;> rfl
  | .val name type initializer, site => by
    rw [stmt, run?_bind, run?_look, Typing.stmt]
    cases declaredType site.context site.typing name type initializer <;> rfl
  | .block body, site => by
    rw [stmt, run?_framed (stays_stmts body), run?_stmts body, Typing.stmt]
    show (Typing.stmts site.context body (walk.block site).typing >>= _) >>= _
      = (Typing.stmts site.context body (walk.block site).typing >>= _) >>= _
    cases Typing.stmts site.context body (walk.block site).typing <;> rfl
  | .ifThen keyword e yes, site => by
    rw [stmt, run?_bind, run?_look, Typing.stmt]
    cases condition site.context site.typing keyword e with
    | error fault => rfl
    | ok _ => exact run?_stmt yes site
  | .ifElse keyword e yes no, site => by
    rw [stmt, run?_bind, run?_look, Typing.stmt]
    cases condition site.context site.typing keyword e with
    | error fault => rfl
    | ok _ =>
      show (stmt yes >>= fun _ => stmt no).run? site = _
      rw [run?_bind, run?_stmt yes site]
      show _ = (Typing.stmt site.context yes site.typing >>= _) >>= _
      cases Typing.stmt site.context yes site.typing with
      | error fault => rfl
      | ok t => exact run?_stmt no ⟨site.context, t⟩
  | .whileLoop keyword e body, site => by
    rw [stmt, run?_bind, run?_look, Typing.stmt]
    cases condition site.context site.typing keyword e with
    | error fault => rfl
    | ok _ => exact run?_stmt body site
  | .funDecl decl, site => by
    rw [stmt, run?_bind, run?_look, Typing.stmt]
    cases signature site.context site.typing decl with
    | error fault => rfl
    | ok s => exact run?_function decl s (site.declare decl.name.text (.function s))
  | .ret keyword value, site => by
    rw [stmt, run?_bind, run?_look]
    cases hret : Typing.stmt site.context (.ret keyword value) site.typing with
    | error fault => rfl
    | ok t =>
      -- A return statement changes nothing that is known.
      obtain ⟨-, -, -, -, -, rfl⟩ := stmt_ret_ok hret
      rfl
  | .classDecl name superclass decls, site => by
    rw [stmt, run?_bind, run?_look, Typing.stmt]
    cases superclass.mapM (superclassId site.context site.typing) with
    | error fault => rfl
    | ok super =>
      show (signatures decls >>= fun ss => inClass (site.typing.classId name) super
        (methods decls ss)).run? ⟨site.context, site.typing.withClass name super .empty⟩ = _
      -- The steps add the methods one by one, the checker adds them all at once.
      rw [run?_bind, run?_signatures]
      show _ = (Typing.signatures site.context (site.typing.withClass name super .empty) decls
        >>= _) >>= _
      cases Typing.signatures site.context (site.typing.withClass name super .empty) decls with
      | error fault => rfl
      | ok ss =>
        let inside := insideClass (site.typing.classId name) super
          ⟨site.context, site.typing.withClass name super (methodTypes ss)⟩
        have hadded : ss.foldl (fun site s => Site.addMethod s site)
            ⟨site.context, site.typing.withClass name super .empty⟩
            = ⟨site.context, site.typing.withClass name super (methodTypes ss)⟩ := by
          rw [methodTypes_eq_foldl]
          exact foldl_addMethod ss _ _ _ _
        show (inClass (site.typing.classId name) super (methods decls ss)).run? (ss.foldl _ _) = _
        rw [hadded, run?_inClass (restores_methods decls ss), run?_methods decls ss inside]
        show (Typing.methods inside.context decls ss inside.typing >>= _) >>= _
          = (Typing.methods inside.context decls ss inside.typing >>= _) >>= _
        cases Typing.methods inside.context decls ss inside.typing <;> rfl

theorem run?_stmts : ∀ (ss : List Stmt) (site : Site),
    (stmts ss).run? site = Typing.stmts site.context ss site.typing >>= fun t =>
      .ok ((), ⟨site.context, t⟩)
  | [], _ => by
    rw [stmts, Typing.stmts]
    rfl
  | s :: ss, site => by
    rw [stmts, run?_bind, run?_stmt s site, Typing.stmts]
    cases Typing.stmt site.context s site.typing with
    | error fault => rfl
    | ok t => exact run?_stmts ss ⟨site.context, t⟩

theorem run?_function : ∀ (decl : FunctionDecl) (s : Signature) (site : Site),
    (function decl s).run? site = Typing.function site.context decl s site.typing >>= fun t =>
      .ok ((), ⟨site.context, t⟩)
  | ⟨name, ps, returns, body⟩, s, site => by
    let inside := inBody ⟨name, ps, returns, body⟩ s site
    rw [function, run?_under, run?_framed ((stays_params _).bind fun _ => stays_stmts body),
      run?_bind, run?_params, Typing.function]
    show (((stmts body).run? inside >>= _) >>= _) = _
    rw [run?_stmts body inside]
    show ((Typing.stmts inside.context body inside.typing >>= _) >>= _) >>= _
      = (Typing.stmts inside.context body inside.typing >>= _) >>= _
    cases Typing.stmts inside.context body inside.typing <;> rfl

theorem run?_methods : ∀ (decls : List FunctionDecl) (ss : List Signature) (site : Site),
    (methods decls ss).run? site = Typing.methods site.context decls ss site.typing >>= fun t =>
      .ok ((), ⟨site.context, t⟩)
  | [], _, site => by
    rw [methods, Typing.methods]
    · rfl
    · nofun
    · nofun
  | _ :: _, [], site => by
    rw [methods, Typing.methods]
    · rfl
    · nofun
    · nofun
  | decl :: decls, s :: ss, site => by
    rw [methods, run?_bind, run?_function decl s site, Typing.methods]
    cases Typing.function site.context decl s site.typing with
    | error fault => rfl
    | ok t => exact run?_methods decls ss ⟨site.context, t⟩

end

/-! ### Programs -/

/-- How the check of a program goes. -/
def course (table : Distances) (program : Program) : Course Unit :=
  stmts program (start table program).place

/-- All the places that the check of a program passes. -/
def places (table : Distances) (program : Program) : List Site :=
  (start table program).place :: (course table program).passed

/-- The steps of a program have the result of its check. -/
theorem result_course (table : Distances) (program : Program) :
    (course table program).result = typecheck table program := by
  have hresult (m : Steps Unit) (site : Site) :
      (m site).result = m.run? site >>= fun r => .ok r.1 := by
    cases h : (m site).result <;> simp only [run?, h] <;> rfl
  rw [course, hresult, run?_stmts, typecheck]
  show (Typing.stmts ⟨table, none, none⟩ program .initial >>= _) >>= _
    = Typing.stmts ⟨table, none, none⟩ program .initial >>= _
  cases Typing.stmts ⟨table, none, none⟩ program .initial <;> rfl

end Steps

end Typing

end ClassScript
