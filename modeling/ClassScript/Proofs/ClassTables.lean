import ClassScript.Typing
import Mathlib.Logic.Relation

namespace ClassScript

/-!
# Tables of classes

The type checker knows a class by its number, and looks methods up in the part of its table that is
older than the class. In a table where every superclass is older than its class this is the same as
following the superclasses in the whole table, and it does not change as the table grows.

* `ClassTable.info?`, `ClassTable.superclass?`: classes by their number;
* `ClassTable.Ordered`: superclasses are older;
* `ClassTable.findMethod?_eq`: a method is the one of the nearest ancestor that has one;
* `ClassTable.inherits_iff`: a class inherits from those that its superclasses lead to.
-/

namespace ClassTable

/-- The class with the given number. -/
def info? : ClassTable → Nat → Option ClassInfo
  | [], _ => none
  | info :: older, index => if index = older.length then some info else info? older index

/-- The superclass of the class with the given number. -/
def superclass? (classes : ClassTable) (index : Nat) : Option ClassId :=
  (classes.info? index).bind ClassInfo.superclass

/-- Every superclass is older than its class. -/
def Ordered : ClassTable → Prop
  | [] => True
  | info :: older => (∀ id ∈ info.superclass, id.index < older.length) ∧ Ordered older

/-- One class is the superclass of the other; both are given by number. -/
def Derives (classes : ClassTable) (index parent : Nat) : Prop :=
  ∃ id, classes.superclass? index = some id ∧ id.index = parent

variable {classes older : ClassTable} {info : ClassInfo} {index ancestor : Nat} {id : ClassId}
  {name : String}

/-! ### Older tables -/

/-- Only the classes of the table have numbers. -/
theorem lt_length_of_info? (h : classes.info? index = some info) : index < classes.length := by
  induction classes with
  | nil => cases h
  | cons first rest ih =>
    rw [info?] at h
    rw [List.length_cons]
    split at h
    · omega
    · exact Nat.lt_succ_of_lt (ih h)

theorem info?_latest (info : ClassInfo) (older : ClassTable) :
    info? (info :: older) older.length = some info := by
  rw [info?, if_pos rfl]

theorem ne_length_of_lt (hindex : index < older.length) (newer : ClassTable) :
    index ≠ (newer ++ older).length := by
  rw [List.length_append]
  omega

/-- A class stays what it is as the table grows. -/
theorem info?_of_suffix (h : older <:+ classes) (hindex : index < older.length) :
    classes.info? index = older.info? index := by
  obtain ⟨newer, rfl⟩ := h
  induction newer with
  | nil => rfl
  | cons info newer ih =>
    rw [List.cons_append, info?, if_neg (ne_length_of_lt hindex newer)]
    exact ih

theorem superclass?_of_suffix (h : older <:+ classes) (hindex : index < older.length) :
    classes.superclass? index = older.superclass? index := by
  rw [superclass?, superclass?, info?_of_suffix h hindex]

theorem findMethod?_of_suffix (h : older <:+ classes) (hindex : index < older.length) :
    classes.findMethod? name index = older.findMethod? name index := by
  obtain ⟨newer, rfl⟩ := h
  induction newer with
  | nil => rfl
  | cons info newer ih =>
    rw [List.cons_append, findMethod?, if_neg (ne_length_of_lt hindex newer)]
    exact ih

theorem inherits_self (ancestor : Nat) (classes : ClassTable) :
    inherits ancestor classes ancestor = true := by
  cases classes <;> simp [inherits]

theorem inherits_of_suffix (h : older <:+ classes) (hindex : index < older.length) :
    classes.inherits ancestor index = older.inherits ancestor index := by
  obtain ⟨newer, rfl⟩ := h
  induction newer with
  | nil => rfl
  | cons info newer ih =>
    rw [List.cons_append, inherits, if_neg (ne_length_of_lt hindex newer), ih]
    by_cases hself : index = ancestor
    · subst hself
      rw [inherits_self]
      simp
    · simp [hself]

/-! ### Superclasses -/

theorem Ordered.superclass_lt (h : Ordered classes) (hinfo : classes.info? index = some info)
    (hid : info.superclass = some id) : id.index < index := by
  induction classes with
  | nil => cases hinfo
  | cons first rest ih =>
    rw [info?] at hinfo
    split at hinfo
    · next hindex =>
      cases hinfo
      rw [hindex]
      exact h.1 id hid
    · exact ih h.2 hinfo

theorem Ordered.superclass?_lt (h : Ordered classes) (hid : classes.superclass? index = some id) :
    id.index < index := by
  obtain ⟨info, hinfo, hsuper⟩ := Option.bind_eq_some_iff.mp hid
  exact h.superclass_lt hinfo hsuper

theorem lt_length_of_superclass? (hid : classes.superclass? index = some id) :
    index < classes.length := by
  obtain ⟨info, hinfo, -⟩ := Option.bind_eq_some_iff.mp hid
  exact lt_length_of_info? hinfo

/-- A method of a class is its own one, or else the one that its superclass has. -/
theorem findMethod?_eq (h : Ordered classes) (name : String) (index : Nat) :
    classes.findMethod? name index = (classes.info? index).bind fun info =>
      (info.methods.find? name).or
        (info.superclass.bind fun id => classes.findMethod? name id.index) := by
  induction classes with
  | nil => rfl
  | cons first rest ih =>
    have hsuffix : rest <:+ first :: rest := List.suffix_cons first rest
    by_cases hindex : index = rest.length
    · -- The latest class has its superclass among the older ones.
      subst hindex
      rw [findMethod?, if_pos rfl, info?_latest, Option.bind_some]
      cases first.methods.find? name with
      | some method => rfl
      | none =>
        cases hsuper : first.superclass with
        | none => rfl
        | some id => exact (findMethod?_of_suffix hsuffix (h.1 id hsuper)).symm
    · rw [findMethod?, if_neg hindex, info?, if_neg hindex, ih h.2]
      cases hinfo : info? rest index with
      | none => rfl
      | some info =>
        cases hsuper : info.superclass with
        | none => simp [hsuper]
        | some id =>
          -- An older class has a superclass that is older still.
          have hlt : id.index < rest.length :=
            Nat.lt_trans (h.2.superclass_lt hinfo hsuper) (lt_length_of_info? hinfo)
          simp [hsuper, findMethod?_of_suffix hsuffix hlt]

theorem Derives.of_suffix {parent : Nat} (h : older <:+ classes)
    (hderives : Derives older index parent) : Derives classes index parent := by
  obtain ⟨id, hid, hparent⟩ := hderives
  refine ⟨id, ?_, hparent⟩
  rw [superclass?_of_suffix h (lt_length_of_superclass? hid)]
  exact hid

theorem inherits_of_superclass (h : Ordered classes) (hid : classes.superclass? index = some id)
    (hinherits : classes.inherits ancestor id.index = true) :
    classes.inherits ancestor index = true := by
  induction classes with
  | nil => cases hid
  | cons first rest ih =>
    have hsuffix : rest <:+ first :: rest := List.suffix_cons first rest
    rw [superclass?, info?] at hid
    rw [inherits, Bool.or_eq_true]
    right
    by_cases hindex : index = rest.length
    · rw [if_pos hindex, Option.bind_some] at hid
      rw [if_pos hindex, hid]
      rwa [inherits_of_suffix hsuffix (h.1 id hid)] at hinherits
    · rw [if_neg hindex] at hid
      rw [if_neg hindex]
      have hlt : id.index < rest.length :=
        Nat.lt_trans (h.2.superclass?_lt hid) (lt_length_of_superclass? hid)
      rw [inherits_of_suffix hsuffix hlt] at hinherits
      exact ih h.2 hid hinherits

/-- A class inherits from itself and from the classes that its superclasses lead to. -/
theorem inherits_iff (h : Ordered classes) :
    classes.inherits ancestor index = true
      ↔ Relation.ReflTransGen (Derives classes) index ancestor := by
  constructor
  · intro hinherits
    induction classes generalizing index with
    | nil =>
      have hself : index = ancestor := by simpa [inherits] using hinherits
      exact hself ▸ .refl
    | cons first rest ih =>
      have hlift : ∀ {i}, Relation.ReflTransGen (Derives rest) i ancestor →
          Relation.ReflTransGen (Derives (first :: rest)) i ancestor :=
        Relation.ReflTransGen.mono (fun _ _ => Derives.of_suffix (List.suffix_cons first rest)) _ _
      rw [inherits, Bool.or_eq_true] at hinherits
      rcases hinherits with hself | hinherits
      · have hself : index = ancestor := by simpa using hself
        exact hself ▸ .refl
      · split at hinherits
        · next hindex =>
          cases hsuper : first.superclass with
          | none => simp [hsuper] at hinherits
          | some id =>
            rw [hsuper] at hinherits
            -- The first step leads to the superclass, and the others stay among the older classes.
            refine .head ⟨id, ?_, rfl⟩ (hlift (ih h.2 hinherits))
            rw [superclass?, info?, if_pos hindex]
            exact hsuper
        · exact hlift (ih h.2 hinherits)
  · intro hpath
    induction hpath using Relation.ReflTransGen.head_induction_on with
    | refl => exact inherits_self ancestor classes
    | head hderives _ ih =>
      obtain ⟨id, hid, rfl⟩ := hderives
      exact inherits_of_superclass h hid ih

/-- A class has every method that a class has which it inherits from, though maybe of its own. -/
theorem isSome_findMethod?_of_inherits (h : Ordered classes)
    (hinherits : classes.inherits ancestor index = true)
    (hfound : (classes.findMethod? name ancestor).isSome = true) :
    (classes.findMethod? name index).isSome = true := by
  rw [inherits_iff h] at hinherits
  induction hinherits using Relation.ReflTransGen.head_induction_on with
  | refl => exact hfound
  | head hderives _ ih =>
    obtain ⟨id, hid, rfl⟩ := hderives
    obtain ⟨info, hinfo, hsuper⟩ := Option.bind_eq_some_iff.mp hid
    rw [findMethod?_eq h, hinfo, Option.bind_some, hsuper, Option.bind_some, Option.isSome_or, ih,
      Bool.or_true]

end ClassTable

end ClassScript
