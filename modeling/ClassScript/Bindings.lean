namespace ClassScript

/-!
# Bindings

One frame of names: a finite map from names to what they are bound to. A name is bound at most once,
and binding it again replaces what it was bound to. The order of the entries means nothing.

* `Bindings.find?`: the view that everything else is stated by;
* `Bindings.insert`: binds a name.
-/

/-- A finite map from names. -/
structure Bindings (α : Type) where
  entries : List (String × α)

namespace Bindings

variable {α : Type}

/-- No name is bound. -/
def empty : Bindings α := ⟨[]⟩

/-- What `name` is bound to in a list of entries. -/
def lookup (name : String) : List (String × α) → Option α
  | [] => none
  | (key, value) :: rest => if key = name then some value else lookup name rest

/-- The entries with `name` bound to `value`. -/
def put (name : String) (value : α) : List (String × α) → List (String × α)
  | [] => [(name, value)]
  | (key, old) :: rest =>
    if key = name then (name, value) :: rest else (key, old) :: put name value rest

/-- What `name` is bound to. -/
def find? (b : Bindings α) (name : String) : Option α := lookup name b.entries

/-- Whether `name` is bound. -/
def contains (b : Bindings α) (name : String) : Bool := (b.find? name).isSome

/-- The bindings with `name` bound to `value`, whatever it was bound to before. -/
def insert (b : Bindings α) (name : String) (value : α) : Bindings α :=
  ⟨put name value b.entries⟩

/-- The bindings of a list of pairs; of two pairs with one name the later counts. -/
def ofList (pairs : List (String × α)) : Bindings α :=
  pairs.foldl (fun b pair => b.insert pair.1 pair.2) empty

theorem lookup_put (name other : String) (value : α) (entries : List (String × α)) :
    lookup other (put name value entries)
      = if name = other then some value else lookup other entries := by
  induction entries with
  | nil => simp [put, lookup]
  | cons entry rest ih =>
    obtain ⟨key, old⟩ := entry
    by_cases hk : key = name
    · subst hk
      simp only [put, if_true, lookup]
      split <;> rfl
    · by_cases ho : key = other
      · subst ho
        have hn : ¬ name = key := fun h => hk h.symm
        simp [put, lookup, hk, hn]
      · simp [put, lookup, hk, ho, ih]

@[simp] theorem find?_empty (name : String) : (empty : Bindings α).find? name = none := rfl

@[simp] theorem find?_insert (b : Bindings α) (name other : String) (value : α) :
    (b.insert name value).find? other = if name = other then some value else b.find? other :=
  lookup_put name other value b.entries

theorem contains_eq_isSome (b : Bindings α) (name : String) :
    b.contains name = (b.find? name).isSome := rfl

end Bindings

end ClassScript
