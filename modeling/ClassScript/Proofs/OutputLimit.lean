import ClassScript.Pipeline
import ClassScript.Proofs.Courses

namespace ClassScript

/-!
# Sinks that fill up

A program does not see the sink that it prints to until the sink refuses. So a run into a sink that
takes `n` bytes goes as the run into a sink without a bound, up to the call of a printing function
that writes beyond the first `n` bytes, and ends there.

* `Sink.write_append`, `Builtin.apply_println`: a text may be written in two steps;
* `Sink.cut`: the sink that holds the first bytes of another one and takes no more than those;
* `Job.trace`: the jobs of a run in the order in which they start;
* `CutEnd`, `Job.Cuts`: how a run on a cut machine ends;
* `run_bounded_eq_cut`: every run of a source.
-/

/-! ### Writing, and cut sinks -/

namespace Sink

/-- The sink with a bound of `n` bytes, and of what was written the bytes that it takes. -/
def cut (n : Nat) (refusal : String) (s : Sink) : Sink :=
  ⟨s.written.extract 0 n, some n, refusal, s.flushFault⟩

/-- Of what is short enough, the first bytes are all. -/
theorem extract_of_size_le {bytes : ByteArray} {n : Nat} (h : bytes.size ≤ n) :
    bytes.extract 0 n = bytes := by
  apply ByteArray.ext
  rw [ByteArray.data_extract]
  exact Array.extract_eq_self_of_le h

/-- The first bytes of what is long enough stay the first bytes. -/
theorem extract_append_of_le {bytes more : ByteArray} {n : Nat} (h : n ≤ bytes.size) :
    (bytes ++ more).extract 0 n = bytes.extract 0 n := by
  have hempty : more.extract (0 - bytes.size) (n - bytes.size) = ByteArray.empty := by
    rw [Nat.zero_sub, Nat.sub_eq_zero_of_le h]
    exact ByteArray.extract_add_left (i := 0) (j := 0)
  rw [ByteArray.extract_append, hempty, ByteArray.append_empty]

/-- A sink takes no more than there is. -/
theorem room_le (s : Sink) (size : Nat) : s.room size ≤ size := by
  unfold room
  split <;> omega

/-- Where the first bytes do not fit, there is no room for those that follow them. -/
theorem room_add_of_lt {s : Sink} {size : Nat} (h : s.room size < size) (more : Nat) :
    s.room (size + more) = s.room size := by
  unfold room at h ⊢
  cases hcapacity : s.capacity with
  | none => simp [hcapacity] at h
  | some capacity =>
    simp only [hcapacity] at h ⊢
    omega

/-- Where the first bytes fit, those that follow them have the room that is left. -/
theorem room_add_of_eq {s : Sink} {bytes : ByteArray} (h : s.room bytes.size = bytes.size)
    (more : Nat) :
    s.room (bytes.size + more)
      = bytes.size + { s with written := s.written ++ bytes }.room more := by
  unfold room at h ⊢
  cases hcapacity : s.capacity with
  | none => rfl
  | some capacity =>
    simp only [hcapacity, ByteArray.size_append] at h ⊢
    omega

/-- A text for which there is room is written. -/
theorem write_of_room {s : Sink} {text : String} (h : s.room text.toUTF8.size = text.toUTF8.size) :
    s.write text = (true, { s with written := s.written ++ text.toUTF8 }) := by
  rw [write]
  simp only [h, beq_self_eq_true, ByteArray.extract_zero_size]

/-- A sink without a bound takes everything. -/
theorem write_unbounded {s : Sink} (h : s.capacity = none) (text : String) :
    s.write text = (true, { s with written := s.written ++ text.toUTF8 }) :=
  write_of_room (by rw [room, h])

/-- To write two texts at once is to write one after the other, where the second is written only if
    all of the first fits. -/
theorem write_append (s : Sink) (first second : String) :
    s.write (first ++ second)
      = if (s.write first).1 = true then (s.write first).2.write second
        else (false, (s.write first).2) := by
  have hbytes : (first ++ second).toUTF8 = first.toUTF8 ++ second.toUTF8 :=
    String.toByteArray_append
  by_cases hfits : s.room first.toUTF8.size = first.toUTF8.size
  · rw [write_of_room hfits, if_pos rfl, write, write]
    simp only [hbytes, ByteArray.size_append, room_add_of_eq hfits]
    have htaken : ∀ n, (first.toUTF8.size + n == first.toUTF8.size + second.toUTF8.size)
        = (n == second.toUTF8.size) := by
      intro n
      rw [Bool.eq_iff_iff, beq_iff_eq, beq_iff_eq]
      omega
    rw [htaken, ByteArray.extract_append, Nat.zero_sub, Nat.add_sub_cancel_left,
      extract_of_size_le (Nat.le_add_right ..), ByteArray.append_assoc]
  · have hlt := Nat.lt_of_le_of_ne (s.room_le _) hfits
    have hfirst : (s.write first).1 = false := beq_eq_false_iff_ne.mpr hfits
    rw [hfirst, if_neg nofun, write, write]
    simp only [hbytes, ByteArray.size_append, room_add_of_lt hlt]
    rw [extract_append_of_le (Nat.le_of_lt hlt), beq_eq_false_iff_ne.mpr]
    omega
/-- A cut sink takes all of a text exactly if the first `n` bytes hold it, and of any text what the
    first `n` bytes hold. -/
theorem write_cut {n : Nat} {refusal : String} {s : Sink} (hopen : s.capacity = none)
    (hsize : s.written.size ≤ n) (text : String) :
    (s.cut n refusal).write text
      = (decide ((s.write text).2.written.size ≤ n), (s.write text).2.cut n refusal) := by
  rw [write_unbounded hopen]
  have hroom : (s.cut n refusal).room text.toUTF8.size
      = min text.toUTF8.size (n - s.written.size) := by
    show min _ (n - (s.written.extract 0 n).size) = _
    rw [extract_of_size_le hsize]
  have htaken : (min text.toUTF8.size (n - s.written.size) == text.toUTF8.size)
      = decide ((s.written ++ text.toUTF8).size ≤ n) := by
    rw [ByteArray.size_append, Bool.beq_eq_decide_eq]
    exact decide_eq_decide.mpr (by omega)
  have hbytes : text.toUTF8.extract 0 (min text.toUTF8.size (n - s.written.size))
      = text.toUTF8.extract 0 (n - s.written.size) := by
    rcases Nat.le_total text.toUTF8.size (n - s.written.size) with hle | hle
    · rw [Nat.min_eq_left hle, ByteArray.extract_zero_size, extract_of_size_le hle]
    · rw [Nat.min_eq_right hle]
  rw [write]
  simp only [hroom, htaken, hbytes]
  refine congrArg (Prod.mk _) ?_
  simp only [cut, ByteArray.extract_append, Nat.zero_sub]

end Sink

namespace Machine

/-- The machine with its sink cut. -/
def cut (n : Nat) (refusal : String) (m : Machine) : Machine := m.withSink (m.sink.cut n refusal)

/-- The number of bytes that were written. -/
def outputSize (m : Machine) : Nat := m.sink.written.size

/-- Bytes were written, and else the sink is the same. -/
def Extends (m m' : Machine) : Prop :=
  ∃ bytes, m'.sink = { m.sink with written := m.sink.written ++ bytes }

namespace Extends

/-- What leaves the sink alone writes no bytes. -/
theorem of_sink_eq {m m' : Machine} (h : m'.sink = m.sink) : m.Extends m' :=
  ⟨.empty, by rw [h, ByteArray.append_empty]⟩

/-- Bytes that are written after others follow them. -/
theorem trans {m₁ m₂ m₃ : Machine} (h : m₁.Extends m₂) (h' : m₂.Extends m₃) : m₁.Extends m₃ := by
  obtain ⟨bytes, hbytes⟩ := h
  obtain ⟨bytes', hbytes'⟩ := h'
  refine ⟨bytes ++ bytes', ?_⟩
  rw [hbytes', hbytes, ByteArray.append_assoc]

/-- Writing does not change how much the sink takes. -/
theorem capacity {m m' : Machine} (h : m.Extends m') : m'.sink.capacity = m.sink.capacity := by
  obtain ⟨bytes, hbytes⟩ := h
  rw [hbytes]

/-- What was written stays written. -/
theorem outputSize_le {m m' : Machine} (h : m.Extends m') : m.outputSize ≤ m'.outputSize := by
  obtain ⟨bytes, hbytes⟩ := h
  unfold outputSize
  rw [hbytes, ByteArray.size_append]
  exact Nat.le_add_right _ _

/-- What is written beyond the first `n` bytes does not show in the cut sink. -/
theorem cut_sink {m m' : Machine} {n : Nat} {refusal : String} (h : m.Extends m')
    (hsize : n ≤ m.outputSize) : m'.sink.cut n refusal = m.sink.cut n refusal := by
  obtain ⟨bytes, hbytes⟩ := h
  rw [hbytes, Sink.cut, Sink.extract_append_of_le hsize]
  rfl

end Extends

end Machine

/-- Writing puts the sink in place, and fails if the sink does. -/
theorem Eval.write_eq (pos : Position) (text : String) (m : Machine) :
    Eval.write pos text m = if (m.sink.write text).1 = true then
        .ok () (m.withSink (m.sink.write text).2)
      else .error (.failure ⟨.refused (m.sink.write text).2.refusal, pos⟩)
        (m.withSink (m.sink.write text).2) := by
  unfold Eval.write
  rcases m.sink.write text with ⟨_ | _, sink⟩ <;> rfl

namespace Eval

/-- What is printed at once may be printed in two steps, and the second is not taken if the first
    one is refused. -/
theorem write_append (pos : Position) (first second : String) :
    write pos (first ++ second) = (do write pos first; write pos second) := by
  funext m
  rw [write_eq, Sink.write_append]
  by_cases hfits : (m.sink.write first).1 = true
  · have hfirst : write pos first m = .ok () (m.withSink (m.sink.write first).2) := by
      rw [write_eq, if_pos hfits]
    rw [bind_of_ok hfirst, write_eq, if_pos hfits]
    rfl
  · have hfirst : write pos first m
        = .error (.failure ⟨.refused (m.sink.write first).2.refusal, pos⟩)
          (m.withSink (m.sink.write first).2) := by
      rw [write_eq, if_neg hfits]
    rw [bind_of_error hfirst, if_neg hfits]
    rfl

end Eval

/-- To print a line is to print the values and then the end of the line. -/
theorem Builtin.apply_println (arguments : List Value) (paren : Position) :
    println.apply arguments paren
      = (do
        let _ ← print.apply arguments paren
        Eval.write paren "\n"
        return .void) := by
  simp only [apply, Eval.write_append, bind_assoc, pure_bind]

/-! ### Traces -/

namespace Job

/-- The jobs of a run in the order in which they start. -/
def trace : Nat → Job → List Job
  | 0, j => [j]
  | n + 1, j => j :: (j.next n).flatMap (trace n)

/-- A trace lists the jobs that the run comes to. -/
theorem trace_eq_map_reached (n : Nat) (j : Job) : trace n j = (reached n j).map Prod.snd := by
  induction n generalizing j with
  | zero => rfl
  | succ n ih => rw [trace, reached, List.map_cons, List.map_flatMap, funext ih]

/-- The job on a machine with its sink cut. -/
def cut (n : Nat) (refusal : String) (j : Job) : Job := ⟨j.task, j.machine.cut n refusal⟩

/-- The job is a call of a printing function that writes beyond the first `n` bytes. -/
def Crosses (n : Nat) (paren : Position) (j : Job) : Prop :=
  ∃ b ∈ [Builtin.print, Builtin.println], ∃ arguments,
    j.task = .call (.builtin b) arguments paren ∧ j.machine.outputSize ≤ n ∧
      ∃ v m, Eval.call 1 (.builtin b) arguments paren j.machine = .ok v m ∧ n < m.outputSize

end Job

/-! ### How cut runs end -/

section Cuts

variable {α β : Type} {n : Nat} {refusal : String}

/-- The machine that a computation ended on. -/
def Eval.machineOf : EStateM.Result Stop Machine α → Machine
  | .ok _ m => m
  | .error _ m => m

open Eval Job

/-- How a run ends that starts on a cut machine, by the way the run ends that is not cut. Either all
    that is written fits, and the two runs are the same; or the cut run ends with the call that
    writes too much. -/
inductive CutEnd (n : Nat) (refusal : String) (whole cut : EStateM.Result Stop Machine α)
    (jobs jobsCut : List Job) : Prop where
  | fits (hsize : (machineOf whole).outputSize ≤ n)
      (hresult : cut = outcome id (Machine.cut n refusal) id whole)
      (hjobs : jobsCut = jobs.map (Job.cut n refusal))
  | exceeds {before rest : List Job} {call : Job} {paren : Position} {m : Machine}
      (hsize : n < (machineOf whole).outputSize) (hcall : call.Crosses n paren)
      (hresult : cut = .error (.failure ⟨.refused refusal, paren⟩) m)
      (hsink : m.sink = (machineOf whole).sink.cut n refusal)
      (hjobs : jobs = before ++ call :: rest)
      (hjobsCut : jobsCut = (before ++ [call]).map (Job.cut n refusal))

/-- What was started before. -/
theorem CutEnd.after {whole cut : EStateM.Result Stop Machine α} {jobs jobsCut : List Job}
    (first : List Job) (h : CutEnd n refusal whole cut jobs jobsCut) :
    CutEnd n refusal whole cut (first ++ jobs) (first.map (Job.cut n refusal) ++ jobsCut) := by
  cases h with
  | fits hsize hresult hjobs => exact .fits hsize hresult (by rw [hjobs, List.map_append])
  | @exceeds before rest call paren m hsize hcall hresult hsink hjobs hjobsCut =>
    have hjobs' : first ++ jobs = (first ++ before) ++ call :: rest := by
      rw [hjobs, List.append_assoc]
    refine .exceeds hsize hcall hresult hsink hjobs' ?_
    rw [hjobsCut, ← List.map_append, List.append_assoc]

/-- A computation and the jobs that it starts, with the fuel `k` that they have, on a cut machine.
    -/
def Cuts (n : Nat) (refusal : String) (k : Nat) (jobs : Machine → List Job) (x : Eval α)
    (m : Machine) : Prop :=
  m.sink.capacity = none → m.Extends (machineOf (x m)) ∧
    (m.outputSize ≤ n → CutEnd n refusal (x m) (x (m.cut n refusal)) ((jobs m).flatMap (trace k))
      ((jobs (m.cut n refusal)).flatMap (trace k)))

namespace Cuts

variable {k : Nat} {m : Machine} {jobs : Machine → List Job} {x : Eval α} {f : α → Eval β}
  {next : α → Machine → List Job}

/-- A computation that leaves the sink alone and starts nothing. -/
theorem simple (hx : Simple x) : Cuts n refusal k (fun _ => []) x m := by
  intro _
  -- The result on a sink is the one on any other, with the sinks exchanged.
  have hsame : (machineOf (x m)).sink = m.sink := by
    have h : x m = _ := hx.silent m.sink m
    cases hm : x m with
    | ok a m' =>
      rw [hm] at h
      have hsink := congrArg Machine.sink (EStateM.Result.ok.inj h).2
      exact hsink
    | error reason m' =>
      rw [hm] at h
      have hsink := congrArg Machine.sink (EStateM.Result.error.inj h).2
      exact hsink
  refine ⟨.of_sink_eq hsame, fun hsize => .fits ?_ ?_ rfl⟩
  · rwa [Machine.outputSize, hsame]
  · have h : x (m.cut n refusal) = _ := hx.silent (m.sink.cut n refusal) m
    rw [h]
    cases hm : x m with
    | ok a m' =>
      rw [hm] at hsame
      exact congrArg (fun s : Sink => EStateM.Result.ok a (m'.withSink (s.cut n refusal)))
        hsame.symm
    | error reason m' =>
      rw [hm] at hsame
      exact congrArg (fun s : Sink => EStateM.Result.error reason (m'.withSink (s.cut n refusal)))
        hsame.symm

/-- Two steps, the second of which starts as the first ended. -/
theorem seq (hx : Cuts n refusal k jobs x m)
    (hf : ∀ a m', x m = .ok a m' → Cuts n refusal k (next a) (f a) m') :
    Cuts n refusal k (fun m => jobs m ++ Job.after x m next) (x >>= f) m := by
  intro hopen
  obtain ⟨hextends, hend⟩ := hx hopen
  cases hm : x m with
  | error reason m' =>
    -- The first step fails, and nothing follows it on either machine.
    have hbind : (x >>= f) m = .error reason m' := bind_of_error hm
    have hafter : Job.after x m next = [] := by rw [Job.after, hm]
    rw [hm] at hextends hend
    refine ⟨?_, fun hsize => ?_⟩
    · rw [hbind]
      exact hextends
    · show CutEnd n refusal ((x >>= f) m) _ ((jobs m ++ Job.after x m next).flatMap _)
        ((jobs _ ++ Job.after x _ next).flatMap _)
      rw [hbind, hafter, List.append_nil]
      rcases hend hsize with ⟨hsize', hresult, hjobs⟩ | ⟨hsize', hcall, hresult, hsink, hjobs, hcut⟩
      · have hafter' : Job.after x (m.cut n refusal) next = [] := by rw [Job.after, hresult]; rfl
        rw [bind_of_error hresult, hafter', List.append_nil]
        exact .fits hsize' rfl hjobs
      · have hafter' : Job.after x (m.cut n refusal) next = [] := by rw [Job.after, hresult]
        rw [bind_of_error hresult, hafter', List.append_nil]
        exact .exceeds hsize' hcall rfl hsink hjobs hcut
  | ok a m' =>
    -- What the second step writes is added to what the first one wrote.
    have hbind : (x >>= f) m = f a m' := bind_of_ok hm
    have hafter : Job.after x m next = next a m' := by rw [Job.after, hm]
    rw [hm] at hextends hend
    obtain ⟨hextends', hend'⟩ := hf a m' hm (hextends.capacity.trans hopen)
    refine ⟨?_, fun hsize => ?_⟩
    · rw [hbind]
      exact hextends.trans hextends'
    · show CutEnd n refusal ((x >>= f) m) _ ((jobs m ++ Job.after x m next).flatMap _)
        ((jobs _ ++ Job.after x _ next).flatMap _)
      rw [hbind, hafter, List.flatMap_append, List.flatMap_append]
      rcases hend hsize with ⟨hsize', hresult, hjobs⟩ | ⟨hsize', hcall, hresult, hsink, hjobs, hcut⟩
      · have hafter' : Job.after x (m.cut n refusal) next = next a (m'.cut n refusal) := by
          rw [Job.after, hresult]
          rfl
        rw [bind_of_ok hresult, hafter', hjobs]
        exact (hend' hsize').after _
      · -- Whatever the second step writes, the first one has filled the sink.
        have hafter' : Job.after x (m.cut n refusal) next = [] := by rw [Job.after, hresult]
        rw [bind_of_error hresult, hafter', List.flatMap_nil, List.append_nil, hjobs, hcut]
        refine .exceeds (Nat.lt_of_lt_of_le hsize' hextends'.outputSize_le) hcall rfl ?_
          (by rw [List.append_assoc, List.cons_append]) rfl
        rw [hsink]
        exact (hextends'.cut_sink (Nat.le_of_lt hsize')).symm

/-- What runs in another frame and comes back. -/
theorem within {frame : FrameId} (hx : Cuts n refusal k jobs x { m with current := frame }) :
    Cuts n refusal k (fun m => jobs { m with current := frame }) (Eval.within frame x) m := by
  intro hopen
  obtain ⟨hextends, hend⟩ := hx hopen
  -- Only the current frame is put back, and neither the sink nor its cut depends on that.
  have hwithin : ∀ m' : Machine, Eval.within frame x m'
      = outcome id (fun m'' => { m'' with current := m'.current }) id
        (x { m' with current := frame }) := by
    intro m'
    unfold Eval.within
    simp only
    cases x { m' with current := frame } <;> rfl
  have hsink : ∀ m' : Machine, (machineOf (Eval.within frame x m')).sink
      = (machineOf (x { m' with current := frame })).sink := by
    intro m'
    rw [hwithin]
    cases x { m' with current := frame } <;> rfl
  refine ⟨?_, fun hsize => ?_⟩
  · obtain ⟨bytes, hbytes⟩ := hextends
    exact ⟨bytes, (hsink m).trans hbytes⟩
  · cases hend hsize with
    | fits hsize' hresult hjobs =>
      refine .fits ?_ ?_ hjobs
      · rwa [Machine.outputSize, hsink m]
      · have hresult' : x { m.cut n refusal with current := frame } = _ := hresult
        rw [hwithin, hwithin, hresult']
        cases x { m with current := frame } <;> rfl
    | @exceeds _ _ _ paren m' hsize' hcall hresult hcut hjobs hjobsCut =>
      have hresult' : x { m.cut n refusal with current := frame } = _ := hresult
      have hback : Eval.within frame x (m.cut n refusal)
          = .error (.failure ⟨.refused refusal, paren⟩) { m' with current := m.current } := by
        rw [hwithin, hresult']
        rfl
      refine .exceeds ?_ hcall hback ?_ hjobs hjobsCut
      · rwa [Machine.outputSize, hsink m]
      · rw [hsink m]
        exact hcut

/-- A job, by the jobs that it starts itself. -/
theorem job {task : Task} (hx : Cuts n refusal k (fun m => Job.next k ⟨task, m⟩) x m) :
    Cuts n refusal (k + 1) (fun m => [⟨task, m⟩]) x m := by
  intro hopen
  obtain ⟨hextends, hend⟩ := hx hopen
  refine ⟨hextends, fun hsize => ?_⟩
  have htrace : ∀ m, [(⟨task, m⟩ : Job)].flatMap (trace (k + 1))
      = [⟨task, m⟩] ++ (Job.next k ⟨task, m⟩).flatMap (trace k) :=
    fun m => List.append_nil _
  rw [htrace, htrace]
  exact (hend hsize).after [⟨task, m⟩]

/-- Without fuel nothing happens. -/
theorem exhausted {task : Task} :
    Cuts n refusal 0 (fun m => [⟨task, m⟩]) (Eval.exhausted : Eval α) m :=
  fun _ => ⟨.of_sink_eq rfl, fun hsize => .fits hsize rfl rfl⟩

end Cuts

/-! ### Runs -/

/-- The functions that run a program, on a cut machine. -/
structure RunsCut (n : Nat) (refusal : String) (k : Nat) : Prop where
  evaluate : ∀ e m, Cuts n refusal k (fun m => [⟨.evaluate e, m⟩]) (Eval.evaluate k e) m
  evaluateAll : ∀ es m, Cuts n refusal k (fun m => [⟨.evaluateAll es, m⟩]) (Eval.evaluateAll k es) m
  call : ∀ callee arguments paren m,
    Cuts n refusal k (fun m => [⟨.call callee arguments paren, m⟩])
      (Eval.call k callee arguments paren) m
  invoke : ∀ closure arguments m,
    Cuts n refusal k (fun m => [⟨.invoke closure arguments, m⟩]) (Eval.invoke k closure arguments) m
  execute : ∀ s m, Cuts n refusal k (fun m => [⟨.execute s, m⟩]) (Eval.execute k s) m
  executeAll : ∀ ss m, Cuts n refusal k (fun m => [⟨.executeAll ss, m⟩]) (Eval.executeAll k ss) m

/-- Along its course a computation goes on a cut machine as the jobs do that it starts. -/
theorem Job.Course.cuts {k : Nat} (ih : RunsCut n refusal k) {jobs : Nat → Machine → List Job}
    {x : Nat → Eval α} (h : Course jobs x) (m : Machine) : Cuts n refusal k (jobs k) (x k) m := by
  induction h generalizing m with
  | simple hx => exact .simple hx
  | evaluate e => exact ih.evaluate e m
  | evaluateAll es => exact ih.evaluateAll es m
  | call callee arguments paren => exact ih.call callee arguments paren m
  | invoke closure arguments => exact ih.invoke closure arguments m
  | execute s => exact ih.execute s m
  | executeAll ss => exact ih.executeAll ss m
  | seq _ _ ihx ihf => exact (ihx m).seq fun a m' _ => ihf a m'
  | within frame _ ih => exact (ih _).within

/-- A call of a built-in function, the only one that writes. -/
theorem cuts_builtin (b : Builtin) (arguments : List Value) (paren : Position) (m : Machine) :
    Cuts n refusal (k + 1) (fun m => [⟨.call (.builtin b) arguments paren, m⟩])
      (Eval.call (k + 1) (.builtin b) arguments paren) m := by
  by_cases hlength : arguments.length = b.arity
  · have hcall : ∀ k, Eval.call (k + 1) (.builtin b) arguments paren = b.apply arguments paren :=
      fun k => funext fun m => bind_of_ok (checkCount_eq_ok hlength)
    -- Printing writes one text; what comes of it depends on whether it fits.
    have hwrite : ∀ text, b ∈ [Builtin.print, Builtin.println] →
        b.apply arguments paren = (write paren text >>= fun _ => pure .void) →
        Cuts n refusal (k + 1) (fun m => [⟨.call (.builtin b) arguments paren, m⟩])
          (b.apply arguments paren) m := by
      intro text hb happly hopen
      have hwhole : b.apply arguments paren m = .ok .void (m.withSink (m.sink.write text).2) := by
        rw [happly]
        refine bind_of_ok (a := ()) ?_
        rw [write_eq, Sink.write_unbounded hopen]
        rfl
      have hextends : m.Extends (m.withSink (m.sink.write text).2) := by
        refine ⟨text.toUTF8, ?_⟩
        rw [Sink.write_unbounded hopen]
        rfl
      rw [hwhole]
      refine ⟨hextends, fun hsize => ?_⟩
      have hcut : (m.cut n refusal).sink.write text
          = (decide ((m.sink.write text).2.written.size ≤ n),
            (m.sink.write text).2.cut n refusal) := Sink.write_cut hopen hsize text
      by_cases hfits : (m.sink.write text).2.written.size ≤ n
      · rw [decide_eq_true hfits] at hcut
        refine .fits hfits ?_ rfl
        rw [happly]
        refine bind_of_ok (a := ()) ?_
        rw [write_eq, hcut]
        rfl
      · rw [decide_eq_false hfits] at hcut
        have hrefused : b.apply arguments paren (m.cut n refusal)
            = .error (.failure ⟨.refused refusal, paren⟩)
              ((m.cut n refusal).withSink ((m.sink.write text).2.cut n refusal)) := by
          rw [happly]
          refine bind_of_error ?_
          rw [write_eq, hcut]
          rfl
        have hcrosses : Crosses n paren ⟨.call (.builtin b) arguments paren, m⟩ := by
          refine ⟨b, hb, arguments, rfl, hsize, .void, m.withSink (m.sink.write text).2, ?_,
            Nat.lt_of_not_le hfits⟩
          rw [hcall 0]
          exact hwhole
        exact .exceeds (Nat.lt_of_not_le hfits) hcrosses hrefused rfl (List.nil_append _).symm rfl
    cases b with
    | print => exact hcall k ▸ hwrite _ (by simp) rfl
    | println => exact hcall k ▸ hwrite _ (by simp) rfl
    | _ =>
      rw [hcall]
      exact .job (.simple (.builtin (by simp) arguments paren))
  · have hcall : Eval.call (k + 1) (.builtin b) arguments paren
        = Eval.fail paren (.argumentCount b.arity arguments.length) := by
      funext m
      show (checkCount b.arity arguments paren >>= fun _ => b.apply arguments paren) m = _
      rw [checkCount, if_neg hlength]
      rfl
    rw [hcall]
    exact .job (.simple (.fail _ _))

/-- A call on a cut machine, by what is called. -/
theorem RunsCut.ofCall {k : Nat} (ih : RunsCut n refusal k) (callee : Value)
    (arguments : List Value) (paren : Position) (m : Machine) :
    Cuts n refusal (k + 1) (fun m => [⟨.call callee arguments paren, m⟩])
      (Eval.call (k + 1) callee arguments paren) m := by
  cases callee with
  | builtin b => exact cuts_builtin b arguments paren m
  | _ => exact .job ((Course.ofCallee (by nofun) arguments paren).cuts ih m)

/-- Whatever runs on a cut machine, by induction on the fuel. -/
theorem runsCut (n : Nat) (refusal : String) (k : Nat) : RunsCut n refusal k := by
  induction k with
  | zero => exact ⟨fun _ _ => .exhausted, fun _ _ => .exhausted, fun _ _ _ _ => .exhausted,
      fun _ _ _ => .exhausted, fun _ _ => .exhausted, fun _ _ => .exhausted⟩
  | succ k ih =>
    exact ⟨fun e m => .job ((Course.ofExpr e).cuts ih m),
      fun es m => .job ((Course.ofExprs es).cuts ih m), ih.ofCall,
      fun c vs m => .job ((Course.ofClosure c vs).cuts ih m),
      fun s m => .job ((Course.ofStmt s).cuts ih m),
      fun ss m => .job ((Course.ofStmts ss).cuts ih m)⟩

end Cuts

/-! ### Programs -/

/-- How a run ended whose sink does not fail at the end. -/
def Ending.ofResult {α : Type} : EStateM.Result Stop Machine α → Ending
  | .ok _ _ => .finished
  | .error (.failure fault) _ => .failed fault
  | .error .outOfFuel _ => .outOfFuel

/-- A run of a program whose sink does not fail at the end. -/
theorem Machine.interpret_of_flush {fuel : Nat} {program : Program} {table : Distances}
    {m : Machine} {r : EStateM.Result Stop Machine Flow}
    (hr : Eval.executeAll fuel program { m with table } = r)
    (hflush : (Eval.machineOf r).sink.flushFault = none) :
    m.interpret fuel program table = (.ofResult r, Eval.machineOf r) := by
  unfold Machine.interpret
  rw [hr]
  rcases r with ⟨flow, m'⟩ | ⟨_ | _, m'⟩
  · simp only [show m'.sink.flushFault = none from hflush]
    rfl
  · simp only [show m'.sink.flushFault = none from hflush]
    rfl
  · rfl

/-- A fresh machine with a bound is the cut one without. -/
theorem Machine.cut_fresh (n : Nat) (refusal : String) (table : Distances) :
    Machine.cut n refusal { Machine.fresh .unbounded with table }
      = { Machine.fresh (.bounded n refusal) with table } := by
  have hsink : Sink.unbounded.cut n refusal = .bounded n refusal := by
    unfold Sink.cut
    rw [show Sink.unbounded.written = .empty from rfl, Sink.extract_of_size_le (Nat.zero_le n)]
    rfl
  show Machine.withSink (Sink.unbounded.cut n refusal) _ = _
  rw [hsink]
  rfl

/-- A run of a source that passes the checks, whose sink does not fail at the end. -/
theorem Source.run_of_checked {fuel : Nat} {source : String} {sink : Sink} {program : Program}
    {table : Distances} {r : EStateM.Result Stop Machine Flow}
    (hchecked : Source.checked source = .ok (program, table))
    (hr : Eval.executeAll fuel program { Machine.fresh sink with table } = r)
    (hflush : (Eval.machineOf r).sink.flushFault = none) :
    Source.run fuel source sink
      = ((Ending.ofResult r).verdict source, (Eval.machineOf r).sink) := by
  rw [Source.run, hchecked]
  simp only [Machine.interpret_of_flush hr hflush]

/-- **A full sink ends a run where it fills up.** What a sink that takes `n` bytes holds after a run
    are the first `n` bytes that the run writes to a sink without a bound. If there are no more,
    both runs end alike. Else the run fails, in the words of the sink, at the closing parenthesis of
    the call of a printing function that writes beyond the first `n` bytes, and all that it starts
    is what the other run starts up to that call. -/
theorem run_bounded_eq_cut (fuel : Nat) (source : String) (n : Nat) (refusal : String) :
    let whole := Source.run fuel source .unbounded
    let limited := Source.run fuel source (.bounded n refusal)
    limited.2.written = whole.2.written.extract 0 n ∧
      if whole.2.written.size ≤ n then limited.1 = whole.1
      else ∃ program table paren before call rest,
        Source.checked source = .ok (program, table) ∧
        Job.trace fuel ⟨.executeAll program, { Machine.fresh .unbounded with table }⟩
          = before ++ call :: rest ∧
        call.Crosses n paren ∧
        Job.trace fuel ⟨.executeAll program, { Machine.fresh (.bounded n refusal) with table }⟩
          = (before ++ [call]).map (Job.cut n refusal) ∧
        limited.1
          = .failed [(Failure.diagnostic (.bare .runtime refusal paren)).withSource source] := by
  intro whole limited
  cases hchecked : Source.checked source with
  | error failures =>
    have hrun : ∀ sink, Source.run fuel source sink = (.failed failures, sink) := by
      intro sink
      rw [Source.run, hchecked]
    have hwhole : whole = (.failed failures, .unbounded) := hrun _
    have hlimited : limited = (.failed failures, .bounded n refusal) := hrun _
    rw [hwhole, hlimited]
    refine ⟨(Sink.extract_of_size_le (Nat.zero_le n)).symm, ?_⟩
    rw [if_pos]
    exact Nat.zero_le n
  | ok checked =>
    obtain ⟨program, table⟩ := checked
    have hcuts :=
      (runsCut n refusal fuel).executeAll program { Machine.fresh .unbounded with table }
    rw [Cuts, Machine.cut_fresh] at hcuts
    obtain ⟨⟨bytes, hbytes⟩, hend⟩ := hcuts rfl
    have hflush := congrArg Sink.flushFault hbytes
    have hwhole : whole = _ := Source.run_of_checked hchecked rfl hflush
    have htrace : ∀ j, [j].flatMap (Job.trace fuel) = Job.trace fuel j := fun j => List.append_nil _
    have hend := hend (Nat.zero_le n)
    simp only [htrace] at hend
    generalize Eval.executeAll fuel program { Machine.fresh .unbounded with table } = r
      at hend hflush hwhole
    cases hend with
    | fits hsize hresult hjobs =>
      have hmachine : Eval.machineOf (outcome id (Machine.cut n refusal) id r)
          = (Eval.machineOf r).cut n refusal := by cases r <;> rfl
      have hending : Ending.ofResult (outcome id (Machine.cut n refusal) id r)
          = Ending.ofResult r := by rcases r with ⟨_, _⟩ | ⟨_ | _, _⟩ <;> rfl
      have hlimited : limited = _ := Source.run_of_checked hchecked hresult
        (by rw [hmachine]; exact hflush)
      rw [hlimited, hwhole, hmachine, hending]
      refine ⟨rfl, ?_⟩
      rw [if_pos]
      exact hsize
    | @exceeds before rest call paren m hsize hcall hresult hsink hjobs hjobsCut =>
      have hlimited : limited = _ := Source.run_of_checked hchecked hresult
        ((congrArg Sink.flushFault hsink).trans hflush)
      rw [hlimited, hwhole]
      refine ⟨congrArg Sink.written hsink, ?_⟩
      rw [if_neg]
      · exact ⟨program, table, paren, before, call, rest, rfl, hjobs, hcall, hjobsCut, rfl⟩
      · exact Nat.not_le_of_lt hsize

-- The second call crosses the bound: one of its bytes is kept, and there is no third call.
example :
    let source := "print(\"ab\"); print(\"cd\"); print(\"ef\");"
    let limited := Source.run 12 source (.bounded 3 "full")
    limited.2.written = "abc".toUTF8 ∧
      limited.1 = .failed [.diagnostic ⟨.runtime, "full", ⟨1, 24⟩, source⟩] := by
  decide +kernel

end ClassScript
