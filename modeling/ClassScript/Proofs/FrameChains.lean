import ClassScript.Proofs.Frames

namespace ClassScript

/-!
# Two ways to address a binding

A binding can be looked for by walking outward from a frame, or be reached by a number of steps. On
every heap that frames, bindings and assignments can lead to, the two agree: the walk ends, since a
frame stands inside older frames only, and what it finds is what lies at the least number of steps
whose frame binds the name.

* `FrameOp`, `Heap.Built`: operations on frames, and the heaps that they lead to;
* `Heap.Ordered`: frames stand inside older frames;
* `Heap.Nearest`: the nearest frame outward that binds a name, by its number of steps;
* `Heap.holder?_eq_some_iff`: walking outward finds that frame;
* `Heap.Rebinds`: one binding is replaced, and nothing else changes;
* `FrameOp.Misses`: operations that fail;
* `walks_and_steps_agree`: the main result.
-/

/-! ### Operations on frames -/

/-- An operation on the frames of a heap. -/
inductive FrameOp (α : Type) where
  /-- A frame that stands inside no other. -/
  | new
  /-- A frame inside a given one. -/
  | child (outer : FrameId)
  | define (f : FrameId) (name : String) (value : α)
  | assign (f : FrameId) (name : String) (value : α)
  | assignAt (f : FrameId) (distance : Nat) (name : String) (value : α)

namespace FrameOp

variable {α : Type}

/-- The frame that the operation is given. -/
def frame? : FrameOp α → Option FrameId
  | new => none
  | child outer => some outer
  | define f _ _ => some f
  | assign f _ _ => some f
  | assignAt f _ _ _ => some f

/-- What the operation makes of a heap, if it succeeds. -/
def result? (h : Heap α) : FrameOp α → Option (Heap α)
  | new => some (h.alloc none .empty)
  | child outer => some (h.alloc (some outer) .empty)
  | define f name value => some (h.define f name value)
  | assign f name value => h.assign? f name value
  | assignAt f distance name value => h.assignAt? f distance name value

/-- The heap after the operation, whether it succeeds or not. -/
def after (op : FrameOp α) (h : Heap α) : Heap α := (op.result? h).getD h

end FrameOp

namespace Heap

variable {α : Type} {h : Heap α}

/-- The heap after operations in order, unless one of them is given a frame that is not there. -/
def run? (h : Heap α) : List (FrameOp α) → Option (Heap α)
  | [] => some h
  | op :: ops => if op.frame?.all fun f => (h.frame? f).isSome then (op.after h).run? ops else none

/-- The heap comes about by operations on frames. -/
def Built (h : Heap α) : Prop := ∃ ops, Heap.empty.run? ops = some h

/-! ### Frames stand inside older frames -/

/-- Each frame stands inside a frame that was there before it. -/
def Ordered (h : Heap α) : Prop :=
  ∀ f outer, h.enclosing? f = some outer → outer.index < f.index ∧ (h.frame? outer).isSome = true

/-- A new frame stands inside one that is there. -/
theorem Ordered.alloc (hordered : h.Ordered) {enclosing : Option FrameId}
    (henclosing : ∀ f ∈ enclosing, (h.frame? f).isSome = true) (bindings : Bindings α) :
    (h.alloc enclosing bindings).Ordered := by
  intro f outer houter
  have hgrows := Grows.alloc h enclosing bindings
  by_cases hf : f = h.next
  · rw [hf, enclosing?_alloc_next] at houter
    have hthere := henclosing outer houter
    refine ⟨?_, hgrows.frame outer hthere⟩
    rw [hf]
    have hlt : outer.index < h.frames.size := by
      simpa [Heap.frame?] using hthere
    exact hlt
  · have hold : h.enclosing? f = some outer := by
      simpa [enclosing?, frame?_alloc, hf] using houter
    obtain ⟨hlt, hthere⟩ := hordered f outer hold
    exact ⟨hlt, hgrows.frame outer hthere⟩

/-- A binding does not move a frame. -/
theorem Ordered.define (hordered : h.Ordered) (f : FrameId) (name : String) (value : α) :
    (h.define f name value).Ordered := by
  intro g outer houter
  rw [enclosing?_define] at houter
  obtain ⟨hlt, hthere⟩ := hordered g outer houter
  exact ⟨hlt, (Grows.define h f name value).frame outer hthere⟩

/-- An operation that is given a frame that is there keeps the order of the frames. -/
theorem Ordered.after (hordered : h.Ordered) {op : FrameOp α}
    (hop : ∀ f ∈ op.frame?, (h.frame? f).isSome = true) : (op.after h).Ordered := by
  -- An assignment that succeeds is a binding in the frame that it has found.
  have hassign (holder : Option FrameId) (name : String) (value : α) :
      ((holder.map fun f => h.define f name value).getD h).Ordered := by
    cases holder with
    | none => exact hordered
    | some f => exact hordered.define f name value
  cases op with
  | new => exact hordered.alloc (by simp) .empty
  | child outer => exact hordered.alloc hop .empty
  | define f name value => exact hordered.define f name value
  | assign f name value => exact hassign _ name value
  | assignAt f distance name value => exact hassign _ name value

/-- Operations in order keep the order of the frames. -/
theorem Ordered.run? {h' : Heap α} {ops : List (FrameOp α)} (hordered : h.Ordered)
    (hrun : h.run? ops = some h') : h'.Ordered := by
  induction ops generalizing h with
  | nil =>
    cases hrun
    exact hordered
  | cons op ops ih =>
    rw [Heap.run?] at hrun
    split at hrun
    · next hop => exact ih (hordered.after (by simpa [Option.all_eq_true] using hop)) hrun
    · cases hrun

theorem Built.ordered (hbuilt : h.Built) : h.Ordered := by
  obtain ⟨ops, hrun⟩ := hbuilt
  refine Ordered.run? ?_ hrun
  intro f outer houter
  cases houter

/-- One step outward, and then the others. -/
theorem ancestor?_succ (h : Heap α) (f : FrameId) (distance : Nat) :
    h.ancestor? f (distance + 1)
      = (h.enclosing? f).bind fun outer => h.ancestor? outer distance := by
  rw [ancestor?]
  cases h.enclosing? f <;> rfl

/-- The frames outward from a frame, each older than the one before: the chain is finite, and no
    frame stands in it twice. -/
theorem Ordered.exists_chain (hordered : h.Ordered) (f : FrameId) :
    ∃ outward : List FrameId, (f :: outward).Pairwise (fun a b => b.index < a.index) ∧
      (∀ g ∈ outward, (h.frame? g).isSome = true) ∧
      ∀ distance, h.ancestor? f distance = (f :: outward)[distance]? := by
  induction hn : f.index using Nat.strongRecOn generalizing f with
  | ind n ih =>
    cases houter : h.enclosing? f with
    | none =>
      refine ⟨[], List.pairwise_singleton _ _, List.forall_mem_nil _, fun distance => ?_⟩
      cases distance with
      | zero => rfl
      | succ distance => simp [ancestor?_succ, houter]
    | some outer =>
      obtain ⟨hlt, hthere⟩ := hordered f outer houter
      obtain ⟨outward, hpairwise, hframes, hancestor⟩ := ih outer.index (hn ▸ hlt) outer rfl
      refine ⟨outer :: outward, List.pairwise_cons.mpr ⟨?_, hpairwise⟩,
        List.forall_mem_cons.mpr ⟨hthere, hframes⟩, fun distance => ?_⟩
      · refine List.forall_mem_cons.mpr ⟨hlt, fun g hg => ?_⟩
        exact Nat.lt_trans ((List.pairwise_cons.mp hpairwise).1 g hg) hlt
      · cases distance with
        | zero => rfl
        | succ distance => simp [ancestor?_succ, houter, hancestor]

/-- Steps outward add up. -/
theorem ancestor?_add (h : Heap α) (f : FrameId) (d e : Nat) :
    h.ancestor? f (d + e) = (h.ancestor? f d).bind fun g => h.ancestor? g e := by
  induction d generalizing f with
  | zero => rw [Nat.zero_add, ancestor?, Option.bind_some]
  | succ d ih =>
    rw [Nat.add_right_comm, ancestor?_succ, ancestor?_succ, Option.bind_assoc]
    exact Option.bind_congr fun outer _ => ih outer

/-! ### The nearest frame that binds a name -/

/-- The frame `g` binds `name` and stands `distance` steps outward from `f`, and no frame that is
    fewer steps outward binds it. -/
structure Nearest (h : Heap α) (f : FrameId) (name : String) (distance : Nat) (g : FrameId) :
    Prop where
  ancestor : h.ancestor? f distance = some g
  binds : (h.lookup? g name).isSome = true
  least : ∀ d < distance, ∀ g', h.ancestor? f d = some g' → h.lookup? g' name = none

/-- No frame outward from `f` binds `name`. -/
def Unbound (h : Heap α) (f : FrameId) (name : String) : Prop :=
  ∀ distance g, h.ancestor? f distance = some g → h.lookup? g name = none

variable {f g : FrameId} {name : String} {distance : Nat}

theorem nearest_zero (hbinds : (h.lookup? f name).isSome = true) : h.Nearest f name 0 f :=
  ⟨rfl, hbinds, fun _ hd => absurd hd (Nat.not_lt_zero _)⟩

theorem Nearest.succ {outer : FrameId} (hnone : h.lookup? f name = none)
    (houter : h.enclosing? f = some outer) (hnearest : h.Nearest outer name distance g) :
    h.Nearest f name (distance + 1) g where
  ancestor := by rw [ancestor?_succ, houter, Option.bind_some, hnearest.ancestor]
  binds := hnearest.binds
  least d hd g' hg' := by
    cases d with
    | zero =>
      obtain rfl := Option.some.inj hg'
      exact hnone
    | succ d =>
      rw [ancestor?_succ, houter] at hg'
      exact hnearest.least d (Nat.lt_of_succ_lt_succ hd) g' hg'

theorem Unbound.succ (hnone : h.lookup? f name = none)
    (houter : ∀ outer, h.enclosing? f = some outer → h.Unbound outer name) : h.Unbound f name := by
  intro distance g hg
  cases distance with
  | zero =>
    obtain rfl := Option.some.inj hg
    exact hnone
  | succ distance =>
    rw [ancestor?_succ] at hg
    obtain ⟨outer, henclosing, hg⟩ := Option.bind_eq_some_iff.mp hg
    exact houter outer henclosing distance g hg

/-- Walking outward within a bound that reaches past the oldest frame ends at the nearest frame that
    binds the name, or finds that there is none. -/
theorem holderWithin?_spec (hordered : h.Ordered) (name : String) {fuel : Nat}
    (hfuel : f.index < fuel) :
    (∃ distance g, h.Nearest f name distance g ∧ h.holderWithin? name fuel f = some g) ∨
      h.Unbound f name ∧ h.holderWithin? name fuel f = none := by
  -- A frame is enclosed by an older one, so the bound outlasts the walk.
  induction fuel generalizing f with
  | zero => exact absurd hfuel (Nat.not_lt_zero _)
  | succ fuel ih =>
    by_cases hbinds : (h.lookup? f name).isSome = true
    · exact .inl ⟨0, f, nearest_zero hbinds, by rw [holderWithin?, if_pos hbinds]⟩
    have hnone := Option.not_isSome_iff_eq_none.mp hbinds
    cases houter : h.enclosing? f with
    | none =>
      refine .inr ⟨.succ hnone (by simp [houter]), ?_⟩
      rw [holderWithin?, if_neg hbinds, houter]
    | some outer =>
      have hlt := (hordered f outer houter).1
      have hwalk : h.holderWithin? name (fuel + 1) f = h.holderWithin? name fuel outer := by
        rw [holderWithin?, if_neg hbinds, houter]
      rw [hwalk]
      rcases ih (f := outer) (by omega) with ⟨distance, g, hnearest, hg⟩ | ⟨hunbound, hwithin⟩
      · exact .inl ⟨distance + 1, g, hnearest.succ hnone houter, hg⟩
      · refine .inr ⟨.succ hnone ?_, hwithin⟩
        rw [houter]
        rintro _ ⟨rfl⟩
        exact hunbound

/-- Walking outward ends at the nearest frame that binds the name, if there is one. -/
theorem holder?_spec (hordered : h.Ordered) (f : FrameId) (name : String) :
    (∃ distance g, h.Nearest f name distance g ∧ h.holder? f name = some g) ∨
      h.Unbound f name ∧ h.holder? f name = none :=
  holderWithin?_spec hordered name (Nat.lt_succ_self f.index)

/-- A name that some frame binds is not unbound. -/
theorem Nearest.not_unbound (hnearest : h.Nearest f name distance g) : ¬ h.Unbound f name := by
  intro hunbound
  have hbinds := hnearest.binds
  rw [hunbound distance g hnearest.ancestor] at hbinds
  cases hbinds

/-- The frame at the least number of steps is determined. -/
theorem Nearest.unique {distance' : Nat} {g' : FrameId} (hnearest : h.Nearest f name distance g)
    (hnearest' : h.Nearest f name distance' g') : g = g' := by
  have hle {d e : Nat} {a b : FrameId} (ha : h.Nearest f name d a) (hb : h.Nearest f name e b) :
      d ≤ e := by
    by_contra hlt
    have hbinds := hb.binds
    rw [ha.least e (by omega) b hb.ancestor] at hbinds
    cases hbinds
  obtain rfl := Nat.le_antisymm (hle hnearest hnearest') (hle hnearest' hnearest)
  exact Option.some.inj (hnearest.ancestor.symm.trans hnearest'.ancestor)

/-- Walking outward finds the frame at the least number of steps. -/
theorem Nearest.holder? (hordered : h.Ordered) (hnearest : h.Nearest f name distance g) :
    h.holder? f name = some g := by
  rcases holder?_spec hordered f name with ⟨distance', g', hnearest', hg'⟩ | ⟨hunbound, -⟩
  · rw [hnearest.unique hnearest']
    exact hg'
  · exact absurd hunbound hnearest.not_unbound

/-- Walking outward finds nothing exactly if no frame outward binds the name. -/
theorem holder?_eq_none_iff (hordered : h.Ordered) :
    h.holder? f name = none ↔ h.Unbound f name := by
  rcases holder?_spec hordered f name with ⟨distance, g, hnearest, hg⟩ | ⟨hunbound, hnone⟩
  · simp [hg, hnearest.not_unbound]
  · exact iff_of_true hnone hunbound

theorem holderAt?_eq_none_iff : h.holderAt? f distance name = none ↔
    ∀ g, h.ancestor? f distance = some g → h.lookup? g name = none := by
  rw [holderAt?]
  cases h.ancestor? f distance with
  | none => simp
  | some g => simp

theorem get?_eq_none_iff (hordered : h.Ordered) : h.get? f name = none ↔ h.Unbound f name := by
  rcases holder?_spec hordered f name with ⟨distance, g, hnearest, hg⟩ | ⟨hunbound, hnone⟩
  · have hbinds := Option.isSome_iff_ne_none.mp hnearest.binds
    simp [get?, hg, hbinds, hnearest.not_unbound]
  · exact iff_of_true (by rw [get?, hnone, Option.bind_none]) hunbound

theorem assign?_eq_none_iff (hordered : h.Ordered) {value : α} :
    h.assign? f name value = none ↔ h.Unbound f name := by
  rw [assign?, Option.map_eq_none_iff, holder?_eq_none_iff hordered]

/-! ### Replacing one binding -/

/-- In `h'` the frame `g` binds `name` to `value`; every other binding of every frame is as in `h`,
    and so is what each frame stands inside. -/
structure Rebinds (h h' : Heap α) (g : FrameId) (name : String) (value : α) : Prop where
  lookup : ∀ f x, h'.lookup? f x = if f = g ∧ x = name then some value else h.lookup? f x
  enclosing : ∀ f, h'.enclosing? f = h.enclosing? f
  frame : ∀ f, (h'.frame? f).isSome = (h.frame? f).isSome

theorem rebinds_define (hg : (h.frame? g).isSome = true) (name : String) (value : α) :
    h.Rebinds (h.define g name value) g name value where
  lookup f x := by
    rw [lookup?_define]
    simp only [hg, and_true]
    by_cases hf : f = g ∧ x = name
    · rw [if_pos hf, if_pos ⟨hf.1, hf.2.symm⟩]
    · rw [if_neg hf, if_neg fun h => hf ⟨h.1, h.2.symm⟩]
  enclosing f := enclosing?_define h g f name value
  frame f := by
    rw [frame?_define]
    split
    · rw [Option.isSome_map]
    · rfl

end Heap

/-! ### Operations that fail -/

namespace FrameOp

variable {α : Type} {h : Heap α}

/-- The operation assigns to a name that is not bound where it looks for it. -/
def Misses (h : Heap α) : FrameOp α → Prop
  | assign f name _ => h.Unbound f name
  | assignAt f distance name _ => ∀ g, h.ancestor? f distance = some g → h.lookup? g name = none
  | _ => False

theorem result?_eq_none_iff (hordered : h.Ordered) (op : FrameOp α) :
    op.result? h = none ↔ op.Misses h := by
  cases op with
  | assign f name value => exact Heap.assign?_eq_none_iff hordered
  | assignAt f distance name value =>
    rw [result?, Heap.assignAt?, Option.map_eq_none_iff]
    exact Heap.holderAt?_eq_none_iff
  | new | child | define => exact iff_of_false nofun not_false

/-- An operation that fails changes nothing. -/
theorem after_of_misses (hordered : h.Ordered) {op : FrameOp α} (hmisses : op.Misses h) :
    op.after h = h := by
  rw [after, (result?_eq_none_iff hordered op).mpr hmisses, Option.getD_none]

end FrameOp

/-! ### The main result -/

/-- An assignment that fails leaves the machine as it is. -/
theorem Eval.eq_of_assign_eq_error {ref : Reference} {value : Value} {m m' : Machine} {stop : Stop}
    (h : Eval.assign ref value m = .error stop m') : m' = m := by
  unfold Eval.assign at h
  cases hholder : m.holder? ref with
  | none =>
    rw [hholder] at h
    cases h
    rfl
  | some frame =>
    rw [hholder] at h
    cases h

/-- **Walking outward and counting steps agree.** On a heap that comes about by operations on
    frames, for a frame `f` of it and a name: the frames outward from `f` are finitely many, and
    none stands among them twice; walking outward gets what lies the least number of steps away
    whose frame binds the name, and gets nothing exactly if no frame outward binds it; so does
    assigning, which changes that one binding and no other; an operation fails exactly if it assigns
    to a name that is not bound where it looks for it, by walking or by steps, and then it changes
    no frame, on the heap and on any machine that runs on it; and steps add up. -/
theorem walks_and_steps_agree {h : Heap Value} (hbuilt : h.Built) {f : FrameId}
    (hf : (h.frame? f).isSome = true) (name : String) (value : Value) :
    (∃ chain : List FrameId, chain.head? = some f ∧ chain.Nodup ∧
      (∀ g ∈ chain, (h.frame? g).isSome = true) ∧
      ∀ distance, h.ancestor? f distance = chain[distance]?) ∧
    (h.Unbound f name ∨ ∃ distance g, h.Nearest f name distance g) ∧
    (∀ distance g, h.Nearest f name distance g →
      h.get? f name = h.getAt? f distance name ∧ h.get? f name = h.lookup? g name ∧
      h.assign? f name value = h.assignAt? f distance name value ∧
      ∃ h', h.assign? f name value = some h' ∧ h.Rebinds h' g name value) ∧
    (h.get? f name = none ↔ h.Unbound f name) ∧
    (h.assign? f name value = none ↔ h.Unbound f name) ∧
    (∀ op : FrameOp Value, (op.result? h = none ↔ op.Misses h) ∧ (op.Misses h → op.after h = h)) ∧
    (∀ m : Machine, m.heap = h → ∀ ref stop m', Eval.assign ref value m = .error stop m' → m' = m) ∧
    ∀ d e, h.ancestor? f (d + e) = (h.ancestor? f d).bind fun g => h.ancestor? g e := by
  have hordered := hbuilt.ordered
  refine ⟨?_, ?_, ?_, Heap.get?_eq_none_iff hordered, Heap.assign?_eq_none_iff hordered, ?_, ?_,
    h.ancestor?_add f⟩
  · obtain ⟨outward, hpairwise, hframes, hancestor⟩ := hordered.exists_chain f
    refine ⟨f :: outward, rfl, hpairwise.imp fun hlt heq => ?_,
      List.forall_mem_cons.mpr ⟨hf, hframes⟩, hancestor⟩
    rw [heq] at hlt
    exact Nat.lt_irrefl _ hlt
  · rcases Heap.holder?_spec hordered f name with ⟨distance, g, hnearest, -⟩ | ⟨hunbound, -⟩
    · exact .inr ⟨distance, g, hnearest⟩
    · exact .inl hunbound
  · intro distance g hnearest
    have hholder := hnearest.holder? hordered
    have hholderAt : h.holderAt? f distance name = some g := by
      rw [Heap.holderAt?, hnearest.ancestor]
      exact if_pos hnearest.binds
    refine ⟨?_, ?_, ?_, h.define g name value, ?_, ?_⟩
    · rw [Heap.get?, Heap.getAt?, hholder, hnearest.ancestor]
    · rw [Heap.get?, hholder, Option.bind_some]
    · rw [Heap.assign?, Heap.assignAt?, hholder, hholderAt]
    · rw [Heap.assign?, hholder, Option.map_some]
    · exact Heap.rebinds_define (Heap.isSome_frame?_of_lookup? hnearest.binds) name value
  · exact fun op => ⟨op.result?_eq_none_iff hordered, FrameOp.after_of_misses hordered⟩
  · rintro m - ref stop m' hassign
    exact Eval.eq_of_assign_eq_error hassign

/-- Three frames inside each other, the outer two of which bind one name, after an assignment to it
    from the innermost and one that fails: the name is found one step outward, and what the
    outermost frame binds it to is hidden. -/
theorem walks_and_steps_agree_shadowed :
    ∃ h : Heap Value, h.Built ∧ (h.frame? ⟨2⟩).isSome = true ∧ h.Nearest ⟨2⟩ "x" 1 ⟨1⟩ ∧
      h.get? ⟨2⟩ "x" = h.getAt? ⟨2⟩ 1 "x" ∧ (h.getAt? ⟨2⟩ 1 "x").map Value.tag = some .boolean ∧
      (h.getAt? ⟨2⟩ 2 "x").map Value.tag = some .void ∧
      h.assign? ⟨2⟩ "x" .void = h.assignAt? ⟨2⟩ 1 "x" .void ∧
      ∃ h', h.assign? ⟨2⟩ "x" .void = some h' ∧ h.Rebinds h' ⟨1⟩ "x" .void := by
  have hrun : (Heap.empty.run? [.new, .child ⟨0⟩, .child ⟨1⟩, .define ⟨0⟩ "x" .void,
      .define ⟨1⟩ "x" .void, .assign ⟨2⟩ "x" (.boolean true), .assignAt ⟨2⟩ 0 "x" .void]).any
      (fun h : Heap Value => (h.frame? ⟨2⟩).isSome && h.ancestor? ⟨2⟩ 1 == some ⟨1⟩ &&
        (h.lookup? ⟨1⟩ "x").isSome && (h.lookup? ⟨2⟩ "x").isNone &&
        (h.getAt? ⟨2⟩ 1 "x").map Value.tag == some .boolean &&
        (h.getAt? ⟨2⟩ 2 "x").map Value.tag == some .void) = true := by
    decide +kernel
  obtain ⟨h, hbuilt, htest⟩ := (Option.any_eq_true _ _).mp hrun
  simp only [Bool.and_eq_true, beq_iff_eq, Option.isNone_iff_eq_none] at htest
  obtain ⟨⟨⟨⟨⟨hframe, hancestor⟩, hbinds⟩, hnone⟩, hone⟩, htwo⟩ := htest
  have hnearest : h.Nearest ⟨2⟩ "x" 1 ⟨1⟩ := by
    refine ⟨hancestor, hbinds, fun d hd g hg => ?_⟩
    obtain rfl : d = 0 := by omega
    cases hg
    exact hnone
  obtain ⟨-, -, hfound, -⟩ := walks_and_steps_agree ⟨_, hbuilt⟩ hframe "x" .void
  obtain ⟨hget, -, hassign, hrebinds⟩ := hfound 1 ⟨1⟩ hnearest
  exact ⟨h, ⟨_, hbuilt⟩, hframe, hnearest, hget, hone, htwo, hassign, hrebinds⟩

end ClassScript
