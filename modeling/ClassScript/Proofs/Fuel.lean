import ClassScript.Proofs.Courses
import ClassScript.Proofs.Events

namespace ClassScript

/-!
# Fuel

The functions that run a program call each other with one unit of fuel less than they have. The jobs
that a job starts are these calls, all of them and no others: what a job does depends on the fuel
through them alone, and it runs out of fuel exactly if one of them does. So a run is cut off exactly
if it comes to a job without fuel, and a run that is not cut off goes the same way with more fuel.

* `Job.Alike`: a job does the same with two amounts of fuel;
* `Job.Tied`: a computation with two amounts of fuel, and the jobs that it starts;
* `Job.alike_succ`, `Job.runsOut_succ_iff`: a job by the jobs that it starts;
* `Job.runsOut_iff_reaches`, `Job.alike_of_le`: whole runs.
-/

open Eval

namespace Eval

variable {α β : Type}

/-- After a step that succeeds, why the computation stops is up to what follows. -/
theorem reason?_bind_of_ok {x : Eval α} {f : α → Eval β} {m m' : Machine} {a : α}
    (h : x m = .ok a m') : Eval.reason? (x >>= f) m = (f a).reason? m' := by
  rw [reason?, bind_of_ok h]
  rfl

/-- After a step that stops, nothing else is done. -/
theorem reason?_bind_of_error {x : Eval α} {f : α → Eval β} {m m' : Machine} {reason : Stop}
    (h : x m = .error reason m') : Eval.reason? (x >>= f) m = x.reason? m := by
  rw [reason?, bind_of_error h, reason?, h]

/-- A sink that refuses is a fault, and no lack of fuel. -/
theorem Frugal.write (pos : Position) (text : String) : Frugal (Eval.write pos text) := by
  intro m m'
  unfold Eval.write
  rcases m.sink.write text with ⟨_ | _, sink⟩ <;> nofun

/-- Built-in functions need no fuel. -/
theorem Frugal.builtin (b : Builtin) (arguments : List Value) (paren : Position) :
    Frugal (b.apply arguments paren) := by
  cases b with
  | print => exact (Frugal.write _ _).bind fun _ => (Simple.pure _).frugal
  | println => exact (Frugal.write _ _).bind fun _ => (Simple.pure _).frugal
  | _ => exact (Simple.builtin (by simp) arguments paren).frugal

end Eval

/-! ### Computations and the jobs that they start -/

namespace Job

/-- The job stops for want of fuel if it has the fuel `n`. -/
def RunsOut (n : Nat) (j : Job) : Prop := j.reason? n = some .outOfFuel

/-- The job does the same with the fuel `n` as with the fuel `k`. -/
def Alike (n k : Nat) (j : Job) : Prop :=
  match j.task with
  | .evaluate e => evaluate n e j.machine = evaluate k e j.machine
  | .evaluateAll es => evaluateAll n es j.machine = evaluateAll k es j.machine
  | .call callee arguments paren =>
    Eval.call n callee arguments paren j.machine = Eval.call k callee arguments paren j.machine
  | .invoke closure arguments =>
    invoke n closure arguments j.machine = invoke k closure arguments j.machine
  | .execute s => execute n s j.machine = execute k s j.machine
  | .executeAll ss => executeAll n ss j.machine = executeAll k ss j.machine

variable {α β : Type} {n k : Nat} {m : Machine}

/-- The computations `x` and `y` start the given jobs, with the fuel `n` in `x` and the fuel `k` in
    `y`, and have no other use for fuel: they do the same if all of the jobs do, and `x` runs out of
    fuel exactly if one of the jobs does. -/
structure Tied (n k : Nat) (jobs : List Job) (x y : Eval α) (m : Machine) : Prop where
  alike : (∀ j ∈ jobs, j.Alike n k) → x m = y m
  runsOut : x.reason? m = some .outOfFuel ↔ ∃ j ∈ jobs, j.RunsOut n

namespace Tied

variable {x y : Eval α} {f g : α → Eval β} {next : α → Machine → List Job}

/-- A computation that starts nothing. -/
theorem nil (hx : Frugal x) : Tied n k [] x x m :=
  ⟨fun _ => rfl, fun h => absurd (reason?_eq_some h) (hx m _),
    fun ⟨_, hj, _⟩ => absurd hj List.not_mem_nil⟩

/-- A computation that is a job itself. -/
theorem single {j : Job} (halike : j.Alike n k → x m = y m) (hreason : x.reason? m = j.reason? n) :
    Tied n k [j] x y m where
  alike h := halike (h j List.mem_cons_self)
  runsOut := by
    unfold RunsOut
    rw [hreason]
    simp

/-- Two steps, the second of which starts as the first ended. -/
theorem seq {jobs : List Job} (hx : Tied n k jobs x y m)
    (hf : ∀ a m', x m = .ok a m' → Tied n k (next a m') (f a) (g a) m') :
    Tied n k (jobs ++ after x m next) (x >>= f) (y >>= g) m := by
  cases hm : x m with
  | error reason m' =>
    have hafter : after x m next = [] := by rw [after, hm]
    rw [hafter, List.append_nil]
    refine ⟨fun halike => ?_, ?_⟩
    · rw [bind_of_error hm, bind_of_error ((hx.alike halike).symm.trans hm)]
    · rw [reason?_bind_of_error hm]
      exact hx.runsOut
  | ok a m' =>
    have hafter : after x m next = next a m' := by rw [after, hm]
    have hrest := hf a m' hm
    rw [hafter]
    refine ⟨fun halike => ?_, ?_⟩
    · have hfirst := hx.alike fun j hj => halike j (List.mem_append_left _ hj)
      rw [bind_of_ok hm, bind_of_ok (hfirst.symm.trans hm)]
      exact hrest.alike fun j hj => halike j (List.mem_append_right _ hj)
    · -- The first step has a result, so none of its jobs runs out of fuel.
      have hnone : ¬ ∃ j ∈ jobs, j.RunsOut n := by
        rw [← hx.runsOut, Eval.reason?, hm]
        exact (Option.some_ne_none _).symm
      rw [reason?_bind_of_ok hm, hrest.runsOut]
      constructor
      · rintro ⟨j, hj, hout⟩
        exact ⟨j, List.mem_append_right _ hj, hout⟩
      · rintro ⟨j, hj, hout⟩
        rcases List.mem_append.mp hj with hj | hj
        · exact absurd ⟨j, hj, hout⟩ hnone
        · exact ⟨j, hj, hout⟩

/-- What runs in another frame and comes back. -/
theorem within {jobs : List Job} {frame : FrameId}
    (hx : Tied n k jobs x y { m with current := frame }) :
    Tied n k jobs (Eval.within frame x) (Eval.within frame y) m where
  alike h := by
    unfold Eval.within
    rw [hx.alike h]
  runsOut := by
    have hreason : (Eval.within frame x).reason? m = x.reason? { m with current := frame } := by
      unfold Eval.reason? Eval.within
      cases x { m with current := frame } <;> rfl
    rw [hreason]
    exact hx.runsOut

end Tied

/-- Along its course a computation is tied to the jobs that it starts. -/
theorem Course.tied {jobs : Nat → Machine → List Job} {x : Nat → Eval α} (h : Course jobs x)
    (n k : Nat) (m : Machine) : Tied n k (jobs n m) (x n) (x k) m := by
  induction h generalizing m with
  | simple hx => exact .nil hx.frugal
  | seq _ _ ihx ihf => exact (ihx m).seq fun a m' _ => ihf a m'
  | within frame _ ih => exact (ih _).within
  | _ => exact .single id rfl

/-- A call, by the jobs that it starts. -/
theorem tied_call (n k : Nat) (m : Machine) (callee : Value) (arguments : List Value)
    (paren : Position) :
    Tied n k (Job.ofCallee m arguments callee) (Eval.call (n + 1) callee arguments paren)
      (Eval.call (k + 1) callee arguments paren) m := by
  cases callee with
  | builtin b =>
    exact .nil ((Simple.checkCount _ _ _).frugal.bind fun _ => .builtin b arguments paren)
  | _ => exact (Course.ofCallee (by nofun) arguments paren).tied n k m

/-! ### Jobs and runs -/

/-- What a job does depends on the fuel only through the jobs that it starts: it does the same with
    two amounts if they do. -/
theorem alike_succ {j : Job} (h : ∀ j' ∈ j.next n, j'.Alike n k) : j.Alike (n + 1) (k + 1) := by
  obtain ⟨task, m⟩ := j
  cases task with
  | evaluate e => exact ((Course.ofExpr e).tied n k m).alike h
  | evaluateAll es => exact ((Course.ofExprs es).tied n k m).alike h
  | call callee arguments paren => exact (tied_call n k m callee arguments paren).alike h
  | invoke closure arguments => exact ((Course.ofClosure closure arguments).tied n k m).alike h
  | execute s => exact ((Course.ofStmt s).tied n k m).alike h
  | executeAll ss => exact ((Course.ofStmts ss).tied n k m).alike h

/-- A job runs out of fuel exactly if one of the jobs that it starts does. -/
theorem runsOut_succ_iff (n : Nat) (j : Job) :
    j.RunsOut (n + 1) ↔ ∃ j' ∈ j.next n, j'.RunsOut n := by
  obtain ⟨task, m⟩ := j
  cases task with
  | evaluate e => exact ((Course.ofExpr e).tied n n m).runsOut
  | evaluateAll es => exact ((Course.ofExprs es).tied n n m).runsOut
  | call callee arguments paren => exact (tied_call n n m callee arguments paren).runsOut
  | invoke closure arguments => exact ((Course.ofClosure closure arguments).tied n n m).runsOut
  | execute s => exact ((Course.ofStmt s).tied n n m).runsOut
  | executeAll ss => exact ((Course.ofStmts ss).tied n n m).runsOut

/-- Without fuel every job runs out. -/
theorem runsOut_zero (j : Job) : j.RunsOut 0 := by
  obtain ⟨task, m⟩ := j
  cases task <;> rfl

/-- A run is cut off exactly if it comes to a job that has no fuel. -/
theorem runsOut_iff_reaches (n : Nat) (j : Job) : j.RunsOut n ↔ ∃ j', Reaches n j 0 j' := by
  induction n generalizing j with
  | zero => exact ⟨fun _ => ⟨j, .refl 0 j⟩, fun _ => runsOut_zero j⟩
  | succ n ih =>
    rw [runsOut_succ_iff]
    constructor
    · rintro ⟨j₁, hmem, hout⟩
      obtain ⟨j', hreach⟩ := (ih j₁).mp hout
      exact ⟨j', .step hmem hreach⟩
    · rintro ⟨j', hreach⟩
      cases hreach with
      | @step _ _ _ j₁ _ hmem hrest => exact ⟨j₁, hmem, (ih j₁).mpr ⟨j', hrest⟩⟩

/-- A run that is not cut off goes the same way with more fuel. -/
theorem alike_of_le {j : Job} (hout : ¬ j.RunsOut n) (hle : n ≤ k) : j.Alike n k := by
  induction n generalizing j k with
  | zero => exact absurd (runsOut_zero j) hout
  | succ n ih =>
    cases k with
    | zero => exact absurd hle (Nat.not_succ_le_zero n)
    | succ k =>
      refine alike_succ fun j' hmem => ih (fun hout' => hout ?_) (Nat.le_of_succ_le_succ hle)
      exact (runsOut_succ_iff n j).mpr ⟨j', hmem, hout'⟩

end Job

end ClassScript
