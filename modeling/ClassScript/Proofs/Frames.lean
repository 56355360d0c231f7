import ClassScript.Machine
import ClassScript.Proofs.Scoping
import Mathlib.Data.List.Nodup

namespace ClassScript

/-!
# Frames as a heap grows

What making frames and binding names does to the frames that are there already, and what it means
that the frames outward from a given one fit the scopes that a walk over the program had open.

* `Bindings.find?_ofList`, `Bindings.isSome_find?_ofList`: a frame made from a list of pairs;
* `Heap.Grows`: frames stay where they are and keep the names that they bind;
* `Heap.Chain`: the frames outward from a frame, one by one, up to a root;
* `Heap.Models`: the frames outward from a frame fit scopes;
* `Machine.found_of_models`: a name is found where the scopes say;
* `Machine.lookup?_fresh`: what is bound before anything has run.
-/

/-! ### Bindings of pairs -/

namespace Bindings

variable {α : Type}

/-- Of a single binding nothing else is found. -/
theorem eq_of_find?_single {x y : String} {a b : α}
    (h : (empty.insert x a).find? y = some b) : y = x ∧ b = a := by
  rw [find?_insert] at h
  split at h
  · next hx =>
    cases h
    exact ⟨hx.symm, rfl⟩
  · cases h

/-- What is bound after several bindings is one of them, or was bound before. -/
theorem find?_foldl {pairs : List (String × α)} {b : Bindings α} {x : String} {v : α}
    (h : (pairs.foldl (fun b pair => b.insert pair.1 pair.2) b).find? x = some v) :
    (x, v) ∈ pairs ∨ b.find? x = some v := by
  induction pairs generalizing b with
  | nil => exact .inr h
  | cons pair pairs ih =>
    obtain ⟨key, value⟩ := pair
    rcases ih h with hmem | hfind
    · exact .inl (List.mem_cons_of_mem _ hmem)
    · rw [find?_insert] at hfind
      split at hfind
      · next hkey =>
        cases hfind
        exact .inl (hkey ▸ List.mem_cons_self)
      · exact .inr hfind

/-- What is found after a name is bound in one of several bindings was found there before, or is
    the value that the name is bound to. -/
theorem find?_modify_insert {all : Array (Bindings α)} {i k : Nat} {x y : String} {a v : α}
    {b : Bindings α} (hb : (all.modify k fun own => own.insert x a)[i]? = some b)
    (hv : b.find? y = some v) : v = a ∨ ∃ old, all[i]? = some old ∧ old.find? y = some v := by
  rw [Array.getElem?_modify] at hb
  split at hb
  · obtain ⟨old, hold, rfl⟩ := Option.map_eq_some_iff.mp hb
    rw [find?_insert] at hv
    split at hv
    · cases hv
      exact .inl rfl
    · exact .inr ⟨old, hold, hv⟩
  · exact .inr ⟨b, hb, hv⟩

/-- What a name is bound to comes from a pair. -/
theorem find?_ofList {pairs : List (String × α)} {x : String} {v : α}
    (h : (ofList pairs).find? x = some v) : (x, v) ∈ pairs :=
  (find?_foldl h).resolve_right nofun

/-- The names of several bindings are bound afterwards, and so are those that were. -/
theorem isSome_find?_foldl {pairs : List (String × α)} {b : Bindings α} {x : String}
    (h : x ∈ pairs.map Prod.fst ∨ (b.find? x).isSome = true) :
    ((pairs.foldl (fun b pair => b.insert pair.1 pair.2) b).find? x).isSome = true := by
  induction pairs generalizing b with
  | nil => exact h.resolve_left (List.not_mem_nil)
  | cons pair pairs ih =>
    refine ih ?_
    rw [find?_insert]
    rcases h with hmem | hb
    · rcases List.mem_cons.mp hmem with rfl | hmem
      · exact .inr (by simp)
      · exact .inl hmem
    · refine .inr ?_
      split
      · rfl
      · exact hb

/-- The name of every pair is bound. -/
theorem isSome_find?_ofList {pairs : List (String × α)} {x : String}
    (h : x ∈ pairs.map Prod.fst) : ((ofList pairs).find? x).isSome = true :=
  isSome_find?_foldl (.inl h)

/-- Where no two pairs have one name, each pair is there. -/
theorem find?_ofList_of_nodup {pairs : List (String × α)} {x : String} {v : α}
    (hnodup : (pairs.map Prod.fst).Nodup) (h : (x, v) ∈ pairs) :
    (ofList pairs).find? x = some v := by
  have hbound := isSome_find?_ofList (List.mem_map_of_mem (f := Prod.fst) h)
  obtain ⟨w, hw⟩ := Option.isSome_iff_exists.mp hbound
  have heq : (x, w) = (x, v) := List.inj_on_of_nodup_map hnodup (find?_ofList hw) h rfl
  cases heq
  exact hw

end Bindings

namespace Heap

variable {α β : Type}

/-! ### Single frames -/

/-- A new frame is the next one, and the others are as they were. -/
theorem frame?_alloc (h : Heap α) (enclosing : Option FrameId) (bindings : Bindings α)
    (f : FrameId) :
    (h.alloc enclosing bindings).frame? f
      = if f = h.next then some ⟨enclosing, bindings⟩ else h.frame? f := by
  obtain ⟨index⟩ := f
  simp only [alloc, frame?, next, Array.getElem?_push, FrameId.mk.injEq]

/-- A binding changes its own frame, and no other. -/
theorem frame?_define (h : Heap α) (g f : FrameId) (name : String) (value : α) :
    (h.define g name value).frame? f
      = if f = g then (h.frame? f).map fun frame =>
          { frame with bindings := frame.bindings.insert name value }
        else h.frame? f := by
  obtain ⟨i⟩ := g
  obtain ⟨j⟩ := f
  simp only [define, frame?, Array.getElem?_modify, FrameId.mk.injEq]
  by_cases hij : i = j
  · subst hij
    simp
  · simp [hij, Ne.symm hij]

/-- There is no frame yet where the next one will be. -/
theorem frame?_next (h : Heap α) : h.frame? h.next = none := by
  simp [frame?, next]

/-- A frame that is there is not the next one. -/
theorem ne_next_of_isSome {h : Heap α} {f : FrameId} (hf : (h.frame? f).isSome = true) :
    f ≠ h.next := by
  rintro rfl
  rw [frame?_next] at hf
  cases hf

/-- A frame that binds a name is there. -/
theorem isSome_frame?_of_lookup? {h : Heap α} {f : FrameId} {x : String}
    (hx : (h.lookup? f x).isSome = true) : (h.frame? f).isSome = true := by
  unfold lookup? at hx
  cases hf : h.frame? f with
  | none => simp [hf] at hx
  | some frame => rfl

/-- A frame that stands inside another is there. -/
theorem isSome_frame?_of_enclosing? {h : Heap α} {f outer : FrameId}
    (hf : h.enclosing? f = some outer) : (h.frame? f).isSome = true := by
  unfold enclosing? at hf
  cases hframe : h.frame? f with
  | none => simp [hframe] at hf
  | some frame => rfl

/-- A new frame binds what it is given. -/
theorem lookup?_alloc_next (h : Heap α) (enclosing : Option FrameId) (bindings : Bindings α)
    (x : String) : (h.alloc enclosing bindings).lookup? h.next x = bindings.find? x := by
  simp [lookup?, frame?_alloc]

/-- A new frame leaves the bindings of the others. -/
theorem lookup?_alloc_of_ne {h : Heap α} {f : FrameId} (hf : f ≠ h.next)
    (enclosing : Option FrameId) (bindings : Bindings α) (x : String) :
    (h.alloc enclosing bindings).lookup? f x = h.lookup? f x := by
  simp [lookup?, frame?_alloc, hf]

/-- A new frame stands inside the one that it is given. -/
theorem enclosing?_alloc_next (h : Heap α) (enclosing : Option FrameId) (bindings : Bindings α) :
    (h.alloc enclosing bindings).enclosing? h.next = enclosing := by
  simp [enclosing?, frame?_alloc]

/-- A binding changes what one name is bound to in one frame. -/
theorem lookup?_define (h : Heap α) (g f : FrameId) (name x : String) (value : α) :
    (h.define g name value).lookup? f x
      = if f = g ∧ name = x ∧ (h.frame? g).isSome = true then some value else h.lookup? f x := by
  unfold lookup?
  rw [frame?_define]
  by_cases hfg : f = g
  · subst hfg
    cases h.frame? f with
    | none => simp
    | some frame => simp
  · simp [hfg]

/-- A binding does not move a frame. -/
theorem enclosing?_define (h : Heap α) (g f : FrameId) (name : String) (value : α) :
    (h.define g name value).enclosing? f = h.enclosing? f := by
  unfold enclosing?
  rw [frame?_define]
  by_cases hfg : f = g
  · simp only [hfg, if_true]
    cases h.frame? g <;> rfl
  · simp [hfg]

/-- A name that a frame binds itself is found there. -/
theorem holder?_of_lookup? {h : Heap α} {f : FrameId} {x : String}
    (hx : (h.lookup? f x).isSome = true) : h.holder? f x = some f := by
  rw [holder?, holderWithin?, if_pos hx]

/-- What is found some steps outward is bound in some frame. -/
theorem lookup?_of_getAt? {h : Heap α} {f : FrameId} {distance : Nat} {x : String} {v : α}
    (hv : h.getAt? f distance x = some v) : ∃ g, h.lookup? g x = some v := by
  obtain ⟨g, -, hg⟩ := Option.bind_eq_some_iff.mp hv
  exact ⟨g, hg⟩

/-! ### Growth -/

/-- Frames stay inside the frames that they stand in, and keep the names that they bind. -/
structure Grows (h h' : Heap α) : Prop where
  frame : ∀ f, (h.frame? f).isSome = true → (h'.frame? f).isSome = true
  enclosing : ∀ f, (h.frame? f).isSome = true → h'.enclosing? f = h.enclosing? f
  names : ∀ f x, (h.lookup? f x).isSome = true → (h'.lookup? f x).isSome = true

namespace Grows

theorem refl (h : Heap α) : Grows h h := ⟨fun _ hf => hf, fun _ _ => rfl, fun _ _ hx => hx⟩

/-- To grow twice is to grow. -/
theorem trans {h h' h'' : Heap α} (hg : Grows h h') (hg' : Grows h' h'') : Grows h h'' :=
  ⟨fun f hf => hg'.frame f (hg.frame f hf),
    fun f hf => (hg'.enclosing f (hg.frame f hf)).trans (hg.enclosing f hf),
    fun f x hx => hg'.names f x (hg.names f x hx)⟩

/-- A new frame leaves those that are there. -/
theorem alloc (h : Heap α) (enclosing : Option FrameId) (bindings : Bindings α) :
    Grows h (h.alloc enclosing bindings) := by
  refine ⟨fun f hf => ?_, fun f hf => ?_, fun f x hx => ?_⟩
  · rw [frame?_alloc, if_neg (ne_next_of_isSome hf)]
    exact hf
  · simp only [enclosing?, frame?_alloc, if_neg (ne_next_of_isSome hf)]
  · have hf := isSome_frame?_of_lookup? hx
    rw [lookup?_alloc_of_ne (ne_next_of_isSome hf)]
    exact hx

/-- A binding leaves the frames and names that are there. -/
theorem define (h : Heap α) (g : FrameId) (name : String) (value : α) :
    Grows h (h.define g name value) := by
  refine ⟨fun f hf => ?_, fun f _ => enclosing?_define h g f name value, fun f x hx => ?_⟩
  · rw [frame?_define]
    split
    · rw [Option.isSome_map]
      exact hf
    · exact hf
  · rw [lookup?_define]
    split
    · rfl
    · exact hx

end Grows

/-! ### The frames outward -/

/-- The frames outward from `f` fit the descriptions one by one, and the frame after them is
    `root`. -/
def Chain (h : Heap α) (root : FrameId) (fits : β → FrameId → Prop) : List β → FrameId → Prop
  | [], f => f = root
  | b :: bs, f => fits b f ∧ ∃ outer, h.enclosing? f = some outer ∧ Chain h root fits bs outer

namespace Chain

variable {h h' : Heap α} {root f : FrameId} {fits fits' : β → FrameId → Prop} {bs : List β}

/-- A chain stays one as the heap grows, if what the frames fit stays. -/
theorem mono (hc : Chain h root fits bs f) (hgrows : Grows h h')
    (hfits : ∀ b g, fits b g → fits' b g) : Chain h' root fits' bs f := by
  induction bs generalizing f with
  | nil => exact hc
  | cons b bs ih =>
    obtain ⟨hb, outer, houter, hrest⟩ := hc
    refine ⟨hfits b f hb, outer, ?_, ih hrest⟩
    rw [hgrows.enclosing f (isSome_frame?_of_enclosing? houter)]
    exact houter

/-- The frame some steps outward fits the description with that number. -/
theorem ancestor (hc : Chain h root fits bs f) {d : Nat} {b : β} (hb : bs[d]? = some b) :
    ∃ g, h.ancestor? f d = some g ∧ fits b g := by
  induction bs generalizing f d with
  | nil => cases hb
  | cons first bs ih =>
    obtain ⟨hfirst, outer, houter, hrest⟩ := hc
    cases d with
    | zero =>
      cases hb
      exact ⟨f, rfl, hfirst⟩
    | succ d =>
      obtain ⟨g, hg, hfits⟩ := ih hrest hb
      exact ⟨g, by rw [ancestor?, houter]; exact hg, hfits⟩

/-- There are as many frames before the root as there are descriptions. -/
theorem ancestor_length (hc : Chain h root fits bs f) : h.ancestor? f bs.length = some root := by
  induction bs generalizing f with
  | nil => exact congrArg some hc
  | cons b bs ih =>
    obtain ⟨-, outer, houter, hrest⟩ := hc
    rw [List.length_cons, ancestor?, houter]
    exact ih hrest

/-- The frame that a chain starts with is there. -/
theorem isSome_frame? (hc : Chain h root fits bs f) (hroot : (h.frame? root).isSome = true) :
    (h.frame? f).isSome = true := by
  cases bs with
  | nil =>
    cases hc
    exact hroot
  | cons b bs =>
    obtain ⟨-, outer, houter, -⟩ := hc
    exact isSome_frame?_of_enclosing? houter

end Chain

/-! ### Frames and scopes -/

/-- The frames outward from `f` fit the open frames of the scopes one by one, and the frame after
    them fits the global one and stands inside no other. -/
structure Models (h : Heap α) (globals : FrameId) (fits : Bindings β → FrameId → Prop)
    (s : Scopes β) (f : FrameId) : Prop where
  root : (h.frame? globals).isSome = true
  outermost : h.enclosing? globals = none
  global : fits s.globals globals
  frames : h.Chain globals fits s.frames f

namespace Models

variable {h h' : Heap α} {globals f : FrameId} {fits fits' : Bindings β → FrameId → Prop}
  {s : Scopes β}

/-- Frames model the scopes as the heap grows, if what fits still does. -/
theorem mono (hm : Models h globals fits s f) (hgrows : Grows h h')
    (hfits : ∀ b g, fits b g → fits' b g) : Models h' globals fits' s f where
  root := hgrows.frame _ hm.root
  outermost := (hgrows.enclosing _ hm.root).trans hm.outermost
  global := hfits _ _ hm.global
  frames := hm.frames.mono hgrows hfits

/-- The frame that models the scopes is there. -/
theorem isSome_frame? (hm : Models h globals fits s f) : (h.frame? f).isSome = true :=
  hm.frames.isSome_frame? hm.root

/-- The scopes with one more name in the frame that declarations go to. -/
theorem declare {x : String} {a : β} (hm : Models h globals fits s f)
    (hinsert : ∀ b, fits b f → fits (b.insert x a) f) :
    Models h globals fits (s.declare x a) f := by
  obtain ⟨sglobals, frames⟩ := s
  obtain ⟨hroot, houtermost, hglobals, hframes⟩ := hm
  cases frames with
  | nil =>
    cases hframes
    exact ⟨hroot, houtermost, hinsert _ hglobals, rfl⟩
  | cons frame outer =>
    exact ⟨hroot, houtermost, hglobals, hinsert _ hframes.1, hframes.2⟩

/-- A frame inside the first one. -/
theorem cons {b : Bindings β} {g : FrameId} (hm : Models h globals fits s f)
    (hg : h.enclosing? g = some f) (hb : fits b g) :
    Models h globals fits { s with frames := b :: s.frames } g :=
  ⟨hm.root, hm.outermost, hm.global, hb, f, hg, hm.frames⟩

/-- A new frame inside the first one. -/
theorem alloc {bindings : Bindings α} {b : Bindings β} (hm : Models h globals fits s f)
    (hfits : ∀ b g, fits b g → fits' b g) (hb : fits' b h.next) :
    Models (h.alloc (some f) bindings) globals fits' { s with frames := b :: s.frames } h.next :=
  (hm.mono (.alloc h (some f) bindings) hfits).cons (enclosing?_alloc_next _ _ _) hb

end Models

end Heap

/-- A name that the scopes bind is found where the table says, in a frame that fits the one that
    binds it. -/
theorem Machine.found_of_models {β : Type} {m : Machine} {fits : Bindings β → FrameId → Prop}
    {s : Scopes β} {ref : Reference} {place : Place} {a : β}
    (hm : m.heap.Models m.globals fits s m.current)
    (hbinds : ∀ b g, fits b g → b.find? ref.name.text = some a →
      (m.heap.lookup? g ref.name.text).isSome = true)
    (hfind : s.find? ref.name.text = some place)
    (hget : s.get? place ref.name.text = some a)
    (hrecorded : m.table.get? ref.id = place.distance?) :
    ∃ g b v, fits b g ∧ b.find? ref.name.text = some a ∧ m.holder? ref = some g ∧
      m.heap.lookup? g ref.name.text = some v ∧ m.lookUp? ref = some v := by
  cases place with
  | global =>
    -- A global has no distance, and is looked for among the globals only.
    have hx := hbinds _ _ hm.global hget
    obtain ⟨v, hv⟩ := Option.isSome_iff_exists.mp hx
    refine ⟨m.globals, s.globals, v, hm.global, hget, ?_, hv, ?_⟩
    · rw [Machine.holder?, hrecorded]
      exact Heap.holder?_of_lookup? hx
    · rw [Machine.lookUp?, hrecorded]
      show (m.heap.holder? m.globals _).bind _ = _
      rw [Heap.holder?_of_lookup? hx]
      exact hv
  | frame d =>
    obtain ⟨b, hb, -, -⟩ := Scopes.find?_eq_frame_iff.mp hfind
    -- The frame at the distance is the one that fits.
    obtain ⟨g, hg, hfits⟩ := hm.frames.ancestor hb
    have hbound : b.find? ref.name.text = some a := by
      simpa [Scopes.get?, Scopes.frame?, hb] using hget
    have hx := hbinds _ _ hfits hbound
    obtain ⟨v, hv⟩ := Option.isSome_iff_exists.mp hx
    refine ⟨g, b, v, hfits, hbound, ?_, hv, ?_⟩
    · rw [Machine.holder?, hrecorded]
      show m.heap.holderAt? m.current d _ = _
      rw [Heap.holderAt?, hg]
      exact if_pos hx
    · rw [Machine.lookUp?, hrecorded]
      show (m.heap.ancestor? m.current d).bind _ = _
      rw [hg]
      exact hv

/-! ### Fresh machines -/

/-- No built-in function has the name of the receiver or of the superclass. -/
theorem Builtin.name_plain (b : Builtin) : b.name ≠ thisName ∧ b.name ≠ superName := by
  cases b <;> decide

/-- What the globals of a fresh machine are bound to. -/
theorem Machine.lookup?_fresh (sink : Sink) {f : FrameId} {x : String} {v : Value}
    (h : (Machine.fresh sink).heap.lookup? f x = some v) :
    ∃ b : Builtin, v = .builtin b ∧ x = b.name := by
  by_cases hf : f = (Heap.empty : Heap Value).next
  · rw [hf, Machine.fresh, Heap.lookup?_alloc_next] at h
    obtain ⟨b, -, heq⟩ := List.mem_map.mp (Bindings.find?_ofList h)
    cases heq
    exact ⟨b, rfl, rfl⟩
  · rw [Machine.fresh, Heap.lookup?_alloc_of_ne hf] at h
    cases h

end ClassScript
