import ClassScript.Proofs.Scoping
import Mathlib.Data.List.Nodup

namespace ClassScript

/-!
# Scopes and their history

Scopes keep the latest binding of each name only, and they count the open frames from the inside, so
that the distance of a frame changes with every frame that is opened or closed. What they answer is
compared here with the history of the operations that led to them: there each frame has a number
that no other frame ever gets, and no write is forgotten.

* `ScopeOp`, `Scopes.run`: operations on scopes;
* `ScopeHistory`, `ScopeHistory.lastWritten?`: frames by number, and what was written to them;
* `Scopes.Records`: the scopes hold what was written last, for each open frame and each name;
* `Scopes.Records.run`: so they do after any operations;
* `ScopeOp.Balanced`, `ScopeHistory.writesSince`: operations that leave older frames alone;
* `scopes_answer_by_history`: the main result.
-/

/-! ### Operations -/

/-- An operation on scopes. -/
inductive ScopeOp (α : Type) where
  | openFrame
  | closeFrame
  | declare (name : String) (value : α)
  | declareGlobal (name : String) (value : α)
  /-- Replaces what a name is bound to in the frame at a place, if that frame binds it. -/
  | write (place : Place) (name : String) (value : α)

/-- The scopes after an operation. -/
def ScopeOp.after {α : Type} (s : Scopes α) : ScopeOp α → Scopes α
  | openFrame => s.openFrame
  | closeFrame => s.closeFrame
  | declare name value => s.declare name value
  | declareGlobal name value => s.declareGlobal name value
  | write place name value => (s.set? place name value).getD s

/-- The scopes after operations in order. -/
def Scopes.run {α : Type} (s : Scopes α) (ops : List (ScopeOp α)) : Scopes α :=
  ops.foldl (fun s op => op.after s) s

/-! ### Histories -/

/-- A frame: the global one, or a local one by its number in the order in which they are opened. -/
inductive FrameKey where
  | global
  | opened (number : Nat)
deriving DecidableEq

/-- A value that is written to a name in a frame. -/
structure ScopeWrite (α : Type) where
  frame : FrameKey
  name : String
  value : α

/-- What operations on scopes have done so far. -/
structure ScopeHistory (α : Type) where
  /-- How many local frames were opened, closed ones included. -/
  count : Nat
  /-- The numbers of the frames that are open, innermost first. -/
  nesting : List Nat
  /-- All that was written, the latest first. -/
  writes : List (ScopeWrite α)

namespace ScopeHistory

variable {α : Type}

/-- Nothing has been done. -/
def empty : ScopeHistory α := ⟨0, [], []⟩

/-- The open frame at a place. -/
def at? (h : ScopeHistory α) : Place → Option FrameKey
  | .global => some .global
  | .frame distance => h.nesting[distance]?.map .opened

/-- The frame that declarations go to. -/
def current (h : ScopeHistory α) : FrameKey := h.nesting.head?.elim .global .opened

/-- The value that was last written to a name in a frame. -/
def lastWritten? (h : ScopeHistory α) (frame : FrameKey) (name : String) : Option α :=
  (h.writes.find? fun w => w.frame = frame ∧ w.name = name).map ScopeWrite.value

/-- Something was written to the name in the frame. -/
abbrev Binds (h : ScopeHistory α) (frame : FrameKey) (name : String) : Prop :=
  (h.lastWritten? frame name).isSome = true

/-- What an operation writes. -/
def write? (h : ScopeHistory α) : ScopeOp α → Option (ScopeWrite α)
  | .declare name value => some ⟨h.current, name, value⟩
  | .declareGlobal name value => some ⟨.global, name, value⟩
  | .write place name value =>
    (h.at? place).bind fun frame => if h.Binds frame name then some ⟨frame, name, value⟩ else none
  | _ => none

/-- The history with one more write, if there is one. -/
def note (h : ScopeHistory α) (w : Option (ScopeWrite α)) : ScopeHistory α :=
  { h with writes := w.toList ++ h.writes }

/-- The history after one more operation. -/
def after (h : ScopeHistory α) : ScopeOp α → ScopeHistory α
  | .openFrame => { h with count := h.count + 1, nesting := h.count :: h.nesting }
  | .closeFrame => { h with nesting := h.nesting.tail }
  | op => h.note (h.write? op)

/-- The history after more operations in order. -/
def run (h : ScopeHistory α) (ops : List (ScopeOp α)) : ScopeHistory α := ops.foldl after h

variable {h : ScopeHistory α} {place : Place} {frame : FrameKey} {name : String} {value : α}

@[simp] theorem lastWritten?_note_some (w : ScopeWrite α) :
    (h.note (some w)).lastWritten? frame name
      = if w.frame = frame ∧ w.name = name then some w.value else h.lastWritten? frame name := by
  by_cases hw : w.frame = frame ∧ w.name = name <;>
    simp [lastWritten?, note, hw]

/-! ### Frames keep their numbers -/

/-- Frames are numbered in the order in which they are opened: no open frame has a number twice, and
    neither frames nor writes have a number that is not given yet. -/
structure Numbered (h : ScopeHistory α) : Prop where
  nodup : h.nesting.Nodup
  nesting_lt : ∀ n ∈ h.nesting, n < h.count
  writes_lt : ∀ w ∈ h.writes, ∀ n, w.frame = .opened n → n < h.count

namespace Numbered

theorem empty : (empty : ScopeHistory α).Numbered := ⟨List.nodup_nil, nofun, nofun⟩

/-- Only one place has a given frame. -/
theorem at?_inj (hn : h.Numbered) {place' : Place} (hplace : h.at? place = some frame)
    (hplace' : h.at? place' = some frame) : place = place' := by
  cases place with
  | global =>
    cases hplace
    cases place' with
    | global => rfl
    | frame d => simp [at?] at hplace'
  | frame d =>
    obtain ⟨n, hd, rfl⟩ := Option.map_eq_some_iff.mp hplace
    cases place' with
    | global => cases hplace'
    | frame d' =>
      obtain ⟨n', hd', heq⟩ := Option.map_eq_some_iff.mp hplace'
      cases heq
      obtain ⟨hlt, -⟩ := List.getElem?_eq_some_iff.mp hd
      rw [(List.getElem?_inj hlt hn.nodup).mp (hd.trans hd'.symm)]

/-- The frame of an open place has its number already. -/
theorem at?_lt (hn : h.Numbered) {n : Nat} (hplace : h.at? place = some (.opened n)) :
    n < h.count := by
  cases place with
  | global => cases hplace
  | frame d =>
    obtain ⟨n', hd, heq⟩ := Option.map_eq_some_iff.mp hplace
    cases heq
    exact hn.nesting_lt n (List.mem_of_getElem? hd)

theorem lastWritten?_count (hn : h.Numbered) (name : String) :
    h.lastWritten? (.opened h.count) name = none := by
  rw [lastWritten?, Option.map_eq_none_iff, List.find?_eq_none]
  intro w hw heq
  obtain ⟨hframe, -⟩ := of_decide_eq_true heq
  exact Nat.lt_irrefl _ (hn.writes_lt w hw _ hframe)

end Numbered

/-- The place of the frame that declarations go to. -/
def innermost (h : ScopeHistory α) : Place := if h.nesting.isEmpty then .global else .frame 0

/-- The innermost frame is the current one. -/
theorem at?_innermost (h : ScopeHistory α) : h.at? h.innermost = some h.current := by
  obtain ⟨count, nesting, writes⟩ := h
  cases nesting <;> rfl

/-- What is written goes to the frame of an open place. -/
theorem exists_place_of_write? {op : ScopeOp α} {w : ScopeWrite α} (hw : h.write? op = some w) :
    ∃ place, h.at? place = some w.frame := by
  cases op with
  | openFrame => cases hw
  | closeFrame => cases hw
  | declare name value =>
    cases hw
    exact ⟨h.innermost, h.at?_innermost⟩
  | declareGlobal name value =>
    cases hw
    exact ⟨.global, rfl⟩
  | write place name value =>
    obtain ⟨frame, hframe, hw⟩ := Option.bind_eq_some_iff.mp hw
    split at hw
    · cases hw
      exact ⟨place, hframe⟩
    · cases hw

/-- A write to a frame that is there. -/
theorem Numbered.note (hn : h.Numbered) {w : Option (ScopeWrite α)}
    (hw : ∀ w' ∈ w, ∃ place, h.at? place = some w'.frame) : (h.note w).Numbered := by
  refine ⟨hn.nodup, hn.nesting_lt, fun w' hw' n hframe => ?_⟩
  rcases List.mem_append.mp hw' with hnew | hold
  · obtain ⟨place, hplace⟩ := hw w' (by simpa using hnew)
    rw [hframe] at hplace
    exact hn.at?_lt hplace
  · exact hn.writes_lt w' hold n hframe

theorem Numbered.after (hn : h.Numbered) (op : ScopeOp α) : (h.after op).Numbered := by
  cases op with
  | openFrame =>
    refine ⟨List.nodup_cons.mpr ⟨fun hmem => ?_, hn.nodup⟩, ?_, ?_⟩
    · exact Nat.lt_irrefl _ (hn.nesting_lt _ hmem)
    · rintro n (_ | ⟨_, hmem⟩)
      · exact Nat.lt_succ_self _
      · exact Nat.lt_succ_of_lt (hn.nesting_lt n hmem)
    · exact fun w hw n hframe => Nat.lt_succ_of_lt (hn.writes_lt w hw n hframe)
  | closeFrame =>
    exact ⟨hn.nodup.tail, fun n hmem => hn.nesting_lt n (List.mem_of_mem_tail hmem), hn.writes_lt⟩
  | declare name value => exact hn.note fun _ hw => exists_place_of_write? hw
  | declareGlobal name value => exact hn.note fun _ hw => exists_place_of_write? hw
  | write place name value => exact hn.note fun _ hw => exists_place_of_write? hw

end ScopeHistory

/-! ### Operations through the view of scopes -/

namespace Scopes

variable {α : Type} {s : Scopes α} {place : Place} {name : String} {value : α}

/-- The place of the frame that declarations go to. -/
def innermost (s : Scopes α) : Place := if s.isGlobal then .global else .frame 0

theorem get?_declareGlobal (s : Scopes α) (name : String) (value : α) (place : Place)
    (x : String) :
    (s.declareGlobal name value).get? place x
      = if place = .global ∧ name = x then some value else s.get? place x := by
  rcases place with d | _ <;> simp [declareGlobal, get?, frame?]

theorem get?_declare (s : Scopes α) (name : String) (value : α) (place : Place) (x : String) :
    (s.declare name value).get? place x
      = if place = s.innermost ∧ name = x then some value else s.get? place x := by
  obtain ⟨globals, frames⟩ := s
  cases frames with
  | nil => exact get?_declareGlobal _ name value place x
  | cons frame outer =>
    rcases place with (_ | d) | _ <;> simp [declare, innermost, isGlobal, get?, frame?]

theorem set?_eq_none_iff : s.set? place name value = none ↔ s.get? place name = none := by
  unfold set?
  cases place <;> simp

/-- To replace a binding changes no other one. -/
theorem get?_of_set? {s' : Scopes α} (h : s.set? place name value = some s') (place' : Place)
    (x : String) :
    s'.get? place' x = if place' = place ∧ name = x then some value else s.get? place' x := by
  unfold set? at h
  split at h
  · cases h
  · next hbound =>
    cases place with
    | global =>
      cases h
      exact get?_declareGlobal s name value place' x
    | frame d =>
      cases h
      cases place' with
      | global => simp [get?, frame?]
      | frame d' =>
        by_cases hd : d = d'
        · subst hd
          cases hframe : s.frames[d]? with
          | none => simp [get?, frame?, hframe] at hbound
          | some frame => simp [get?, frame?, hframe]
        · have hd' : ¬ d' = d := fun h => hd h.symm
          simp [get?, frame?, hd, hd']

theorem depth_of_set? {s' : Scopes α} (h : s.set? place name value = some s') :
    s'.depth = s.depth := by
  unfold set? at h
  split at h
  · cases h
  · cases place <;> cases h <;> simp [depth]

/-- A declaration opens and closes no frame. -/
theorem depth_declare (s : Scopes α) (name : String) (value : α) :
    (s.declare name value).depth = s.depth := by
  obtain ⟨globals, frames⟩ := s
  cases frames <;> rfl

/-! ### Finding names through the view -/

/-- A frame has a name exactly if it binds it. -/
theorem contains_eq_isSome_get? {frame : Bindings α} {d : Nat} (h : s.frames[d]? = some frame) :
    frame.contains name = (s.get? (.frame d) name).isSome := by
  simp [get?, frame?, h, Bindings.contains]

theorem find?_eq_frame_iff_get? {d : Nat} :
    s.find? name = some (.frame d) ↔
      (s.get? (.frame d) name).isSome = true ∧ ∀ e < d, s.get? (.frame e) name = none := by
  rw [find?_eq_frame_iff]
  constructor
  · rintro ⟨frame, hframe, hbinds, hinner⟩
    refine ⟨by rw [← contains_eq_isSome_get? hframe, hbinds], fun e he => ?_⟩
    cases hother : s.frames[e]? with
    | none => simp [get?, frame?, hother]
    | some other =>
      have hnot := hinner e he other hother
      rw [contains_eq_isSome_get? hother] at hnot
      simpa using hnot
  · rintro ⟨hbinds, hinner⟩
    obtain ⟨value, hvalue⟩ := Option.isSome_iff_exists.mp hbinds
    obtain ⟨frame, hframe, -⟩ := Option.bind_eq_some_iff.mp hvalue
    refine ⟨frame, hframe, by rw [contains_eq_isSome_get? hframe, hbinds], fun e he other ho => ?_⟩
    rw [contains_eq_isSome_get? ho, hinner e he, Option.isSome_none]

theorem forall_contains_eq_false_iff :
    (∀ frame ∈ s.frames, frame.contains name = false) ↔ ∀ d, s.get? (.frame d) name = none := by
  constructor
  · intro hnone d
    cases hframe : s.frames[d]? with
    | none => simp [get?, frame?, hframe]
    | some frame =>
      have hnot := hnone frame (List.mem_of_getElem? hframe)
      rw [contains_eq_isSome_get? hframe] at hnot
      simpa using hnot
  · intro hnone frame hmem
    obtain ⟨d, hd⟩ := List.mem_iff_getElem?.mp hmem
    rw [contains_eq_isSome_get? hd, hnone d, Option.isSome_none]

theorem find?_eq_global_iff_get? :
    s.find? name = some .global ↔
      (∀ d, s.get? (.frame d) name = none) ∧ (s.get? .global name).isSome = true := by
  rw [find?_eq_global_iff, forall_contains_eq_false_iff]
  rfl

theorem find?_eq_none_iff_get? : s.find? name = none ↔ ∀ place, s.get? place name = none := by
  constructor
  · intro hfind
    have hframes : ∀ d, s.get? (.frame d) name = none := by
      intro d
      -- The innermost frame that binds the name would have been found.
      induction d using Nat.strongRecOn with
      | ind d ih =>
        by_contra hbound
        have hfound := find?_eq_frame_iff_get?.mpr ⟨Option.isSome_iff_ne_none.mpr hbound, ih⟩
        rw [hfind] at hfound
        cases hfound
    rintro (d | _)
    · exact hframes d
    · by_contra hbound
      have hfound := find?_eq_global_iff_get?.mpr ⟨hframes, Option.isSome_iff_ne_none.mpr hbound⟩
      rw [hfind] at hfound
      cases hfound
  · intro hnone
    cases hfind : s.find? name with
    | none => rfl
    | some place =>
      have hbound := isSome_get?_of_find? hfind
      rw [hnone place] at hbound
      cases hbound

/-! ### Scopes hold what was written last -/

/-- In each open frame each name is bound to the value that was last written to it there. -/
structure Records (s : Scopes α) (h : ScopeHistory α) : Prop where
  depth : s.depth = h.nesting.length
  get : ∀ place name, s.get? place name = (h.at? place).bind fun frame => h.lastWritten? frame name

namespace Records

variable {h : ScopeHistory α}

theorem empty : (empty : Scopes α).Records .empty :=
  ⟨rfl, fun place name => by cases place <;> rfl⟩

theorem innermost_eq (hr : s.Records h) : s.innermost = h.innermost := by
  obtain ⟨globals, frames⟩ := s
  obtain ⟨count, nesting, writes⟩ := h
  have hlength := hr.depth
  cases frames <;> cases nesting <;> first | rfl | cases hlength

/-- Scopes that differ in one binding differ in the last write. -/
theorem note (hr : s.Records h) (hn : h.Numbered) {s' : Scopes α} {frame : FrameKey}
    (hplace : h.at? place = some frame) (hdepth : s'.depth = s.depth)
    (hget : ∀ place' x, s'.get? place' x
      = if place' = place ∧ name = x then some value else s.get? place' x) :
    s'.Records (h.note (some ⟨frame, name, value⟩)) := by
  refine ⟨hdepth.trans hr.depth, fun place' x => ?_⟩
  have hat : (h.note (some ⟨frame, name, value⟩)).at? place' = h.at? place' := by
    cases place' <;> rfl
  rw [hget, hat, hr.get]
  cases hplace' : h.at? place' with
  | none =>
    -- No frame is open there, so it is not the place that was written to.
    have hne : place' ≠ place := by
      rintro rfl
      rw [hplace] at hplace'
      cases hplace'
    simp [hne]
  | some frame' =>
    -- Different places have different frames.
    have hsame : place' = place ↔ frame = frame' := by
      constructor
      · rintro rfl
        exact Option.some.inj (hplace.symm.trans hplace')
      · rintro rfl
        exact hn.at?_inj hplace' hplace
    simp [hsame]

theorem openFrame (hr : s.Records h) (hn : h.Numbered) :
    s.openFrame.Records (h.after .openFrame) := by
  refine ⟨congrArg (· + 1) hr.depth, fun place name => ?_⟩
  -- Nothing was ever written to the frame with the new number; the open frames move out by one.
  rcases place with (_ | d) | _
  · exact (hn.lastWritten?_count name).symm
  · exact hr.get (.frame d) name
  · exact hr.get .global name

theorem closeFrame (hr : s.Records h) : s.closeFrame.Records (h.after .closeFrame) := by
  refine ⟨?_, fun place name => ?_⟩
  · have hlength : s.frames.length = h.nesting.length := hr.depth
    show s.frames.tail.length = h.nesting.tail.length
    rw [List.length_tail, List.length_tail, hlength]
  · rcases place with d | _
    · have hat : (h.after .closeFrame).at? (.frame d) = h.at? (.frame (d + 1)) := by
        simp [ScopeHistory.at?, ScopeHistory.after]
      have hget : s.closeFrame.get? (.frame d) name = s.get? (.frame (d + 1)) name := by
        simp [get?, frame?, Scopes.closeFrame]
      rw [hat, hget]
      exact hr.get (.frame (d + 1)) name
    · exact hr.get .global name

/-- Replacing a binding goes through exactly if something was written there before. -/
theorem write_cases (hr : s.Records h) (place : Place) (name : String) (value : α) :
    (s.set? place name value = none ∧ h.write? (.write place name value) = none) ∨
      ∃ s' frame, s.set? place name value = some s' ∧ h.at? place = some frame ∧
        h.write? (.write place name value) = some ⟨frame, name, value⟩ := by
  have hget := hr.get place name
  cases hset : s.set? place name value with
  | none =>
    refine .inl ⟨rfl, Option.bind_eq_none_iff.mpr fun frame hframe => if_neg ?_⟩
    rw [set?_eq_none_iff.mp hset, hframe, Option.bind_some] at hget
    simp [← hget]
  | some s' =>
    have hbound : s.get? place name ≠ none := by
      intro hnone
      rw [set?_eq_none_iff.mpr hnone] at hset
      cases hset
    obtain ⟨old, hold⟩ := Option.ne_none_iff_exists'.mp hbound
    obtain ⟨frame, hframe, hlast⟩ := Option.bind_eq_some_iff.mp (hget.symm.trans hold)
    refine .inr ⟨s', frame, rfl, hframe, Option.bind_eq_some_iff.mpr ⟨frame, hframe, if_pos ?_⟩⟩
    rw [ScopeHistory.Binds, hlast, Option.isSome_some]

theorem write (hr : s.Records h) (hn : h.Numbered) (place : Place) (name : String) (value : α) :
    ((ScopeOp.write place name value).after s).Records (h.after (.write place name value)) := by
  show ((s.set? place name value).getD s).Records (h.note (h.write? (.write place name value)))
  rcases hr.write_cases place name value with ⟨hset, hw⟩ | ⟨s', frame, hset, hframe, hw⟩
  · rw [hset, hw]
    exact hr
  · rw [hset, hw]
    exact hr.note hn hframe (depth_of_set? hset) (get?_of_set? hset)

/-- One operation keeps the record. -/
theorem after (hr : s.Records h) (hn : h.Numbered) (op : ScopeOp α) :
    (op.after s).Records (h.after op) := by
  cases op with
  | openFrame => exact hr.openFrame hn
  | closeFrame => exact hr.closeFrame
  | declare name value =>
    refine hr.note hn h.at?_innermost (depth_declare s name value) ?_
    rw [← hr.innermost_eq]
    exact get?_declare s name value
  | declareGlobal name value => exact hr.note hn rfl rfl (get?_declareGlobal s name value)
  | write place name value => exact hr.write hn place name value

/-- Operations in order keep the record. -/
theorem run (hr : s.Records h) (hn : h.Numbered) (ops : List (ScopeOp α)) :
    (s.run ops).Records (h.run ops) ∧ (h.run ops).Numbered := by
  induction ops generalizing s h with
  | nil => exact ⟨hr, hn⟩
  | cons op ops ih => exact ih (hr.after hn op) (hn.after op)

end Records

end Scopes

/-! ### Operations that leave older frames alone -/

namespace ScopeOp

variable {α : Type}

/-- How many frames are open after an operation if `n` are before it; nothing if it closes a frame
    that is not among them. -/
def depth? (n : Nat) : ScopeOp α → Option Nat
  | openFrame => some (n + 1)
  | closeFrame => if n = 0 then none else some (n - 1)
  | _ => some n

/-- The operations close all frames that they open, and no others. -/
def Balanced (ops : List (ScopeOp α)) : Prop := ops.foldlM depth? 0 = some 0

end ScopeOp

/-- The frame is a local one that is not among the first `count`. -/
def FrameKey.since (count : Nat) : FrameKey → Bool
  | global => false
  | opened n => count ≤ n

/-- After the given history, the operations write to no frame but to such that are opened after the
    first `count`. -/
def ScopeHistory.writesSince {α : Type} (count : Nat) :
    ScopeHistory α → List (ScopeOp α) → Bool
  | _, [] => true
  | h, op :: ops =>
    (h.write? op).all (fun w => w.frame.since count) && writesSince count (h.after op) ops

namespace Scopes

variable {α : Type}

/-- Inside the frames of `s₀` there are `n + 1` more, and the frames of `s₀` are as they were. -/
structure Nests (s₀ : Scopes α) (h₀ : ScopeHistory α) (n : Nat) (s : Scopes α)
    (h : ScopeHistory α) : Prop where
  globals : s.globals = s₀.globals
  length : n < s.frames.length
  frames : s.frames.drop (n + 1) = s₀.frames
  nesting : h.nesting.drop (n + 1) = h₀.nesting

namespace Nests

variable {s₀ s : Scopes α} {h₀ h : ScopeHistory α} {n : Nat}

theorem openFrame (s₀ : Scopes α) (h₀ : ScopeHistory α) :
    Nests s₀ h₀ 0 s₀.openFrame (h₀.after .openFrame) :=
  ⟨rfl, Nat.zero_lt_succ _, rfl, rfl⟩

/-- A frame that is written to is among the inner ones, if it is not one of the first frames. -/
theorem lt_of_since (hnests : Nests s₀ h₀ n s h) (hn₀ : h₀.Numbered) {d : Nat} {frame : FrameKey}
    (hplace : h.at? (.frame d) = some frame) (hsince : frame.since h₀.count = true) :
    d < n + 1 := by
  obtain ⟨m, hm, rfl⟩ := Option.map_eq_some_iff.mp hplace
  by_contra hd
  have houter : m ∈ h₀.nesting := by
    rw [← hnests.nesting]
    refine List.mem_iff_getElem?.mpr ⟨d - (n + 1), ?_⟩
    rw [List.getElem?_drop, Nat.add_sub_cancel' (Nat.le_of_not_lt hd), hm]
  exact Nat.not_lt.mpr (of_decide_eq_true hsince) (hn₀.nesting_lt m houter)

theorem write (hnests : Nests s₀ h₀ n s h) (hn₀ : h₀.Numbered) (hr : s.Records h) {place : Place}
    {name : String} {value : α}
    (hwrite : ∀ w ∈ h.write? (.write place name value), w.frame.since h₀.count = true) :
    Nests s₀ h₀ n ((ScopeOp.write place name value).after s)
      (h.after (.write place name value)) := by
  show Nests s₀ h₀ n ((s.set? place name value).getD s) (h.note _)
  rcases hr.write_cases place name value with ⟨hset, -⟩ | ⟨s', frame, hset, hframe, hw⟩
  · rw [hset]
    exact ⟨hnests.globals, hnests.length, hnests.frames, hnests.nesting⟩
  · have hsince := hwrite _ hw
    -- The globals are no frame opened since, and a local frame opened since is an inner one.
    cases place with
    | global =>
      cases hframe
      cases hsince
    | frame d =>
      have hd := hnests.lt_of_since hn₀ hframe hsince
      rw [hset, Option.getD_some]
      obtain ⟨-, heq⟩ := Option.ite_none_left_eq_some.mp hset
      cases heq
      refine ⟨hnests.globals, ?_, ?_, hnests.nesting⟩
      · simpa using hnests.length
      · exact (List.drop_modify_of_lt _ _ _ _ hd).trans hnests.frames

/-- An operation that closes no outer frame and writes to none leaves the outer frames alone. -/
theorem after (hnests : Nests s₀ h₀ n s h) (hn₀ : h₀.Numbered) (hr : s.Records h) {op : ScopeOp α}
    {n' : Nat} (hdepth : op.depth? n = some n')
    (hwrite : ∀ w ∈ h.write? op, w.frame.since h₀.count = true) :
    Nests s₀ h₀ n' (op.after s) (h.after op) := by
  cases op with
  | openFrame =>
    cases hdepth
    exact ⟨hnests.globals, Nat.succ_lt_succ hnests.length, hnests.frames, hnests.nesting⟩
  | closeFrame =>
    obtain ⟨hpos, heq⟩ := Option.ite_none_left_eq_some.mp hdepth
    cases heq
    -- One of the inner frames is open, and it is the one that is closed.
    obtain ⟨m, rfl⟩ := Nat.exists_eq_succ_of_ne_zero hpos
    refine ⟨hnests.globals, ?_, ?_, ?_⟩
    · have hlength := hnests.length
      simp only [ScopeOp.after, Scopes.closeFrame, List.length_tail]
      omega
    · exact List.drop_tail.trans hnests.frames
    · exact List.drop_tail.trans hnests.nesting
  | declare name value =>
    cases hdepth
    obtain ⟨globals, frames⟩ := s
    cases frames with
    | nil => exact absurd hnests.length (Nat.not_lt_zero _)
    | cons frame outer =>
      exact ⟨hnests.globals, hnests.length, hnests.frames, hnests.nesting⟩
  | declareGlobal name value => exact absurd (hwrite _ rfl) Bool.false_ne_true
  | write place name value =>
    cases hdepth
    exact hnests.write hn₀ hr hwrite

/-- Operations in order leave the outer frames alone. -/
theorem run (hnests : Nests s₀ h₀ n s h) (hn₀ : h₀.Numbered) (hr : s.Records h) (hn : h.Numbered)
    {ops : List (ScopeOp α)} {n' : Nat} (hdepth : ops.foldlM ScopeOp.depth? n = some n')
    (hwrites : h.writesSince h₀.count ops = true) :
    Nests s₀ h₀ n' (s.run ops) (h.run ops) := by
  -- The record goes along with the induction: it says which frame a write goes to.
  induction ops generalizing s h n with
  | nil =>
    cases hdepth
    exact hnests
  | cons op ops ih =>
    rw [List.foldlM_cons] at hdepth
    obtain ⟨m, hop, hrest⟩ := Option.bind_eq_some_iff.mp hdepth
    rw [ScopeHistory.writesSince, Bool.and_eq_true, Option.all_eq_true] at hwrites
    exact ih (hnests.after hn₀ hr hop hwrites.1) (hr.after hn op) (hn.after op) hrest hwrites.2

theorem closeFrame_eq (hnests : Nests s₀ h₀ 0 s h) : s.closeFrame = s₀ := by
  obtain ⟨globals, frames⟩ := s₀
  obtain rfl := hnests.globals
  have hframes := hnests.frames
  rw [List.drop_one] at hframes
  rw [Scopes.closeFrame, hframes]

end Nests

/-- A frame that is opened, used and closed leaves no trace. -/
theorem run_frame_eq {s : Scopes α} {h : ScopeHistory α} (hr : s.Records h) (hn : h.Numbered)
    {ops : List (ScopeOp α)} (hbalanced : ScopeOp.Balanced ops)
    (hwrites : h.writesSince h.count (.openFrame :: ops) = true) :
    s.run (.openFrame :: ops ++ [.closeFrame]) = s := by
  rw [ScopeHistory.writesSince, Bool.and_eq_true] at hwrites
  have hnests := (Nests.openFrame s h).run hn (hr.openFrame hn) (hn.after .openFrame) hbalanced
    hwrites.2
  have hrun : s.run (.openFrame :: ops ++ [.closeFrame]) = (s.openFrame.run ops).closeFrame := by
    simp [run, ScopeOp.after]
  rw [hrun, hnests.closeFrame_eq]

end Scopes

/-! ### The main result -/

/-- What scopes answer about a name, by the history that led to them. -/
structure Scopes.AnswersBy {α : Type} (s : Scopes α) (h : ScopeHistory α) (name : String) :
    Prop where
  /-- A name is found `d` frames out if that frame binds it and no frame inside of it does. -/
  find_frame : ∀ d, s.find? name = some (.frame d) ↔
    ∃ n, h.nesting[d]? = some n ∧ h.Binds (.opened n) name ∧
      ∀ e < d, ∀ m, h.nesting[e]? = some m → ¬ h.Binds (.opened m) name
  /-- A name is found among the globals if it is bound there and in no open frame. -/
  find_global : s.find? name = some .global ↔
    (∀ n ∈ h.nesting, ¬ h.Binds (.opened n) name) ∧ h.Binds .global name
  find_none : s.find? name = none ↔
    (∀ n ∈ h.nesting, ¬ h.Binds (.opened n) name) ∧ ¬ h.Binds .global name
  /-- Where a name is found, it is bound to the value that was last written to it there. -/
  get : ∀ place, s.find? name = some place → ∃ frame value, h.at? place = some frame ∧
    h.lastWritten? frame name = some value ∧ s.get? place name = some value

namespace Scopes.Records

variable {α : Type} {s : Scopes α} {h : ScopeHistory α} {name : String}

theorem get?_frame_eq_none_iff (hr : s.Records h) {d : Nat} :
    s.get? (.frame d) name = none ↔ ∀ n, h.nesting[d]? = some n → ¬ h.Binds (.opened n) name := by
  rw [hr.get, Option.bind_eq_none_iff]
  simp [ScopeHistory.at?]

theorem forall_get?_eq_none_iff (hr : s.Records h) :
    (∀ d, s.get? (.frame d) name = none) ↔ ∀ n ∈ h.nesting, ¬ h.Binds (.opened n) name := by
  simp only [hr.get?_frame_eq_none_iff, List.mem_iff_getElem?]
  exact ⟨fun hnone n ⟨d, hd⟩ => hnone d n hd, fun hnone d n hd => hnone n ⟨d, hd⟩⟩

/-- Scopes that record a history answer by it. -/
theorem answersBy (hr : s.Records h) (name : String) : s.AnswersBy h name where
  find_frame d := by
    rw [find?_eq_frame_iff_get?, ← Option.ne_none_iff_isSome, Ne, hr.get?_frame_eq_none_iff]
    simp only [hr.get?_frame_eq_none_iff]
    constructor
    · rintro ⟨hbinds, hinner⟩
      push Not at hbinds
      obtain ⟨n, hn, hbinds⟩ := hbinds
      exact ⟨n, hn, hbinds, hinner⟩
    · rintro ⟨n, hn, hbinds, hinner⟩
      exact ⟨fun hnone => hnone n hn hbinds, hinner⟩
  find_global := by
    rw [find?_eq_global_iff_get?, hr.forall_get?_eq_none_iff, hr.get]
    rfl
  find_none := by
    have hglobal : s.get? .global name = h.lastWritten? .global name := hr.get .global name
    rw [find?_eq_none_iff_get?, ← hr.forall_get?_eq_none_iff, ScopeHistory.Binds, ← hglobal]
    constructor
    · exact fun hnone => ⟨fun d => hnone (.frame d), by simp [hnone .global]⟩
    · rintro ⟨hframes, hglobals⟩ (d | _)
      · exact hframes d
      · simpa using hglobals
  get place hfind := by
    obtain ⟨value, hvalue⟩ := Option.isSome_iff_exists.mp (isSome_get?_of_find? hfind)
    obtain ⟨frame, hframe, hlast⟩ :=
      Option.bind_eq_some_iff.mp ((hr.get place name).symm.trans hvalue)
    exact ⟨frame, value, hframe, hlast, hvalue⟩

end Scopes.Records

/-- **Scopes answer by their history.** After any operations, a name is found in the innermost open
    frame that binds it, or else among the globals, and it is bound there to the value that was last
    written to it in that frame. A frame that is opened and closed around operations that are
    balanced and write to no older frame changes no answer. -/
theorem scopes_answer_by_history {α : Type} (ops : List (ScopeOp α)) (name : String) :
    (Scopes.empty.run ops).AnswersBy (ScopeHistory.empty.run ops) name ∧
      ∀ block, ScopeOp.Balanced block →
        (ScopeHistory.empty.run ops).writesSince (ScopeHistory.empty.run ops).count
          (.openFrame :: block) = true →
        (Scopes.empty.run (ops ++ .openFrame :: block ++ [.closeFrame])).find? name
            = (Scopes.empty.run ops).find? name ∧
          ∀ place, (Scopes.empty.run (ops ++ .openFrame :: block ++ [.closeFrame])).get? place name
            = (Scopes.empty.run ops).get? place name := by
  obtain ⟨hr, hn⟩ := Scopes.Records.empty.run ScopeHistory.Numbered.empty ops
  refine ⟨hr.answersBy name, fun block hbalanced hwrites => ?_⟩
  have hrun : Scopes.empty.run (ops ++ .openFrame :: block ++ [.closeFrame])
      = (Scopes.empty.run ops).run (.openFrame :: block ++ [.closeFrame]) := by
    simp [Scopes.run]
  rw [hrun, Scopes.run_frame_eq hr hn hbalanced hwrites]
  exact ⟨rfl, fun place => rfl⟩

/-- A name that is bound in the outer one of two frames and as a global, after a frame has been
    closed that was never opened, and a frame inside of which the name is bound and written to. -/
theorem scopes_answer_by_history_shadowed :
    ∃ ops block : List (ScopeOp Nat), ScopeOp.Balanced block ∧
      (ScopeHistory.empty.run ops).writesSince (ScopeHistory.empty.run ops).count
        (.openFrame :: block) = true ∧
      (Scopes.empty.run ops).AnswersBy (ScopeHistory.empty.run ops) "x" ∧
      (Scopes.empty.run ops).find? "x" = some (.frame 1) ∧
      (Scopes.empty.run ops).get? (.frame 1) "x" = some 4 ∧
      (Scopes.empty.run (ops ++ .openFrame :: block)).find? "x" = some (.frame 0) ∧
      (Scopes.empty.run (ops ++ .openFrame :: block ++ [.closeFrame])).find? "x"
        = some (.frame 1) ∧
      (Scopes.empty.run (ops ++ .openFrame :: block ++ [.closeFrame])).get? (.frame 1) "x"
        = some 4 := by
  let ops : List (ScopeOp Nat) := [.closeFrame, .declare "x" 1, .openFrame, .declare "x" 2,
    .openFrame, .declareGlobal "x" 3, .write (.frame 1) "x" 4, .write (.frame 0) "x" 5]
  let block : List (ScopeOp Nat) := [.declare "x" 6, .openFrame, .declare "y" 7,
    .write (.frame 1) "x" 8, .write .global "y" 9, .closeFrame]
  have hbalanced : ScopeOp.Balanced block := by
    unfold ScopeOp.Balanced
    decide
  have hwrites : (ScopeHistory.empty.run ops).writesSince (ScopeHistory.empty.run ops).count
      (.openFrame :: block) = true := by
    decide
  have hfind : (Scopes.empty.run ops).find? "x" = some (.frame 1) := by decide
  have hget : (Scopes.empty.run ops).get? (.frame 1) "x" = some 4 := by decide
  obtain ⟨hanswers, hframe⟩ := scopes_answer_by_history ops "x"
  obtain ⟨hfind', hget'⟩ := hframe block hbalanced hwrites
  exact ⟨ops, block, hbalanced, hwrites, hanswers, hfind, hget, by decide, hfind'.trans hfind,
    (hget' (.frame 1)).trans hget⟩

end ClassScript
