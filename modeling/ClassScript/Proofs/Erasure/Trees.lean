import ClassScript.Proofs.Computation
import ClassScript.Program

namespace ClassScript

/-!
# Programs without their positions

Tokens and trees carry positions so that what is found later can be reported. Erasing puts one and
the same position in the place of each of them, so that two trees are the same up to positions if
they are equal once erased.

* `Token.erase`, `Expr.erase`, `Stmt.erase`: what is left without positions;
* `Commutes`: a computation on what is erased ends with what another one ends with, erased.
-/

/-! ### Trees -/

/-- What was found, without where. -/
def Located.erase {α : Type} (x : Located α) : Located α := { x with pos := .start }

/-- A token without its position. -/
def Token.erase (t : Token) : Token := { t with pos := .start }

/-- A name without its position. -/
def Name.erase (name : Name) : Name := { name with pos := .start }

/-- A use of a name without its position; it keeps its identity. -/
def Reference.erase (ref : Reference) : Reference := { ref with name := ref.name.erase }

/-- A type without positions. -/
def TypeName.erase : TypeName → TypeName
  | .named ref => .named ref.erase
  | type => type

/-- A parameter without positions. -/
def Param.erase (p : Param) : Param := ⟨p.name.erase, p.type.erase⟩

mutual

/-- An expression without positions. -/
def Expr.erase : Expr → Expr
  | .literal value => .literal value
  | .grouping inner => .grouping inner.erase
  | .unary operator operand => .unary operator.erase operand.erase
  | .binary left operator right => .binary left.erase operator.erase right.erase
  | .logical left operator right => .logical left.erase operator.erase right.erase
  | .ternary condition _ yes no => .ternary condition.erase .start yes.erase no.erase
  | .var ref => .var ref.erase
  | .assign target value => .assign target.erase value.erase
  | .call callee _ arguments => .call callee.erase .start (Expr.eraseAll arguments)
  | .get object name => .get object.erase name.erase
  | .set object name value => .set object.erase name.erase value.erase
  | .this ref => .this ref.erase
  | .super keyword method => .super keyword.erase method.erase

/-- Expressions without positions. -/
def Expr.eraseAll : List Expr → List Expr
  | [] => []
  | e :: es => e.erase :: Expr.eraseAll es

end

mutual

/-- A statement without positions. -/
def Stmt.erase : Stmt → Stmt
  | .expression e => .expression e.erase
  | .val name type initializer =>
    .val name.erase (type.map TypeName.erase) (initializer.map Expr.erase)
  | .block body => .block (Stmt.eraseAll body)
  | .ifThen _ condition yes => .ifThen .start condition.erase yes.erase
  | .ifElse _ condition yes no => .ifElse .start condition.erase yes.erase no.erase
  | .whileLoop _ condition body => .whileLoop .start condition.erase body.erase
  | .funDecl decl => .funDecl decl.erase
  | .ret _ value => .ret .start (value.map Expr.erase)
  | .classDecl name superclass decls =>
    .classDecl name.erase (superclass.map Reference.erase) (FunctionDecl.eraseAll decls)

/-- Statements without positions. -/
def Stmt.eraseAll : List Stmt → List Stmt
  | [] => []
  | s :: ss => s.erase :: Stmt.eraseAll ss

/-- A function without positions. -/
def FunctionDecl.erase : FunctionDecl → FunctionDecl
  | ⟨name, params, returns, body⟩ =>
    ⟨name.erase, params.map Param.erase, returns.map TypeName.erase, Stmt.eraseAll body⟩

/-- Functions without positions. -/
def FunctionDecl.eraseAll : List FunctionDecl → List FunctionDecl
  | [] => []
  | decl :: decls => decl.erase :: FunctionDecl.eraseAll decls

end

theorem FunctionDecl.eraseAll_eq_map (decls : List FunctionDecl) :
    FunctionDecl.eraseAll decls = decls.map FunctionDecl.erase := by
  induction decls with
  | nil => rfl
  | cons decl decls ih => rw [FunctionDecl.eraseAll, ih, List.map_cons]

namespace FunctionDecl

variable (decl : FunctionDecl)

@[simp] theorem erase_name : decl.erase.name = decl.name.erase := by cases decl; rfl

@[simp] theorem erase_params : decl.erase.params = decl.params.map Param.erase := by cases decl; rfl

end FunctionDecl

/-! ### Computations -/

section Computations

variable {ε σ α β γ δ : Type}

/-- How a computation ended, with the failure, the state and the result changed. -/
def outcome (e : ε → ε) (g : σ → σ) (f : α → β) : EStateM.Result ε σ α → EStateM.Result ε σ β
  | .ok a s => .ok (f a) (g s)
  | .error reason s => .error (e reason) (g s)

/-- From a changed state on, the second computation ends as the first does, changed. -/
def Commutes (e : ε → ε) (g : σ → σ) (f : α → β) (x : EStateM ε σ α) (y : EStateM ε σ β) : Prop :=
  ∀ s, y (g s) = outcome e g f (x s)

namespace Commutes

variable {e : ε → ε} {g : σ → σ} {f : α → β} {x : EStateM ε σ α} {y : EStateM ε σ β}

theorem pure {a : α} {b : β} (h : f a = b) :
    Commutes e g f (pure a : EStateM ε σ α) (Pure.pure b) := by
  subst h
  exact fun _ => rfl

/-- Two steps, one after the other. -/
theorem bind {h : γ → δ} {k : α → EStateM ε σ γ} {l : β → EStateM ε σ δ}
    (hx : Commutes e g f x y) (hk : ∀ a, Commutes e g h (k a) (l (f a))) :
    Commutes e g h (x >>= k) (y >>= l) := by
  intro s
  have hs := hx s
  cases hxs : x s with
  | ok a s' =>
    rw [hxs] at hs
    rw [bind_of_ok hxs, bind_of_ok hs]
    exact hk a s'
  | error reason s' =>
    rw [hxs] at hs
    rw [bind_of_error hxs, bind_of_error hs]
    rfl

/-- A step whose result is only put into place. -/
theorem map {h : γ → δ} {k : α → γ} {l : β → δ} (hx : Commutes e g f x y)
    (hk : ∀ a, h (k a) = l (f a)) : Commutes e g h (k <$> x) (l <$> y) := by
  intro s
  have hs := hx s
  show EStateM.map l y (g s) = outcome e g h (EStateM.map k x s)
  unfold EStateM.map
  rw [hs]
  cases x s with
  | ok a s' => exact congrArg (EStateM.Result.ok · (g s')) (hk a).symm
  | error reason s' => rfl

/-- A step on what may be missing. -/
theorem option_mapM {r : γ → δ} {x : γ → EStateM ε σ α} {y : δ → EStateM ε σ β}
    (h : ∀ c, Commutes e g f (x c) (y (r c))) (o : Option γ) :
    Commutes e g (Option.map f) (o.mapM x) ((o.map r).mapM y) := by
  cases o with
  | none => exact .pure rfl
  | some c => exact (h c).bind fun _ => .pure rfl

end Commutes

end Computations

/-! ### Checks -/

section Checks

variable {ε α β : Type} {h : ε → ε}

/-- Two steps, one after the other, each with its failures changed. -/
theorem bind_mapError {x x' : Except ε α} {f f' : α → Except ε β} (hx : x' = x.mapError h)
    (hf : ∀ a, f' a = (f a).mapError h) : (x' >>= f') = (x >>= f).mapError h := by
  subst hx
  cases x with
  | ok a => exact hf a
  | error e => rfl

theorem ite_mapError {c : Prop} [Decidable c] {x x' y y' : Except ε α} (hx : x' = x.mapError h)
    (hy : y' = y.mapError h) : (if c then x' else y') = (if c then x else y).mapError h := by
  split
  · exact hx
  · exact hy

variable {k : α → α}

theorem foldlM_mapError {f : β → α → Except ε β} (hf : ∀ b a, f b (k a) = (f b a).mapError h)
    (as : List α) (b : β) : (as.map k).foldlM f b = (as.foldlM f b).mapError h := by
  induction as generalizing b with
  | nil => rfl
  | cons a as ih =>
    rw [List.map_cons, List.foldlM_cons, List.foldlM_cons]
    exact bind_mapError (hf b a) ih

theorem mapM_mapError {f : α → Except ε β} (hf : ∀ a, f (k a) = (f a).mapError h) (as : List α) :
    (as.map k).mapM f = (as.mapM f).mapError h := by
  induction as with
  | nil => rfl
  | cons a as ih =>
    rw [List.map_cons, List.mapM_cons, List.mapM_cons]
    exact bind_mapError (hf a) fun _ => bind_mapError ih fun _ => rfl

theorem option_mapM_mapError {f : α → Except ε β} (hf : ∀ a, f (k a) = (f a).mapError h)
    (o : Option α) : (o.map k).mapM f = (o.mapM f).mapError h := by
  cases o with
  | none => rfl
  | some a => exact bind_mapError (hf a) fun _ => rfl

end Checks

end ClassScript
