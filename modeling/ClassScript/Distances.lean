namespace ClassScript

/-!
# The table of distances

For each use of a name that is bound in a local frame, how many frames up its binding is. A use
without an entry is one of a global. The entries are kept by increasing identity.

* `Distances.get?`: the view that everything else is stated by;
* `Distances.note`: records a distance.
-/

/-- A finite map from identities of references to distances. -/
structure Distances where
  entries : List (Nat × Nat)
deriving DecidableEq

namespace Distances

/-- No distance is recorded. -/
def empty : Distances := ⟨[]⟩

/-- The distance of `id` in a list of entries. -/
def lookup (id : Nat) : List (Nat × Nat) → Option Nat
  | [] => none
  | (key, distance) :: rest => if key = id then some distance else lookup id rest

/-- The entries with `id` at `distance`. -/
def put (id distance : Nat) : List (Nat × Nat) → List (Nat × Nat)
  | [] => [(id, distance)]
  | (key, old) :: rest =>
    if id < key then (id, distance) :: (key, old) :: rest
    else if key = id then (id, distance) :: rest
    else (key, old) :: put id distance rest

/-- The distance recorded for `id`. -/
def get? (t : Distances) (id : Nat) : Option Nat := lookup id t.entries

/-- Records `distance` for `id`, whatever was recorded before. -/
def note (t : Distances) (id distance : Nat) : Distances := ⟨put id distance t.entries⟩

/-- How many distances are recorded. -/
def size (t : Distances) : Nat := t.entries.length

/-- The table of a list of pairs; of two pairs with one identity the later counts. -/
def ofList (pairs : List (Nat × Nat)) : Distances :=
  pairs.foldl (fun t pair => t.note pair.1 pair.2) empty

theorem lookup_put (id other distance : Nat) (entries : List (Nat × Nat)) :
    lookup other (put id distance entries)
      = if id = other then some distance else lookup other entries := by
  induction entries with
  | nil => simp [put, lookup]
  | cons entry rest ih =>
    obtain ⟨key, old⟩ := entry
    by_cases hlt : id < key
    · simp [put, lookup, hlt]
    · by_cases hk : key = id
      · subst hk
        simp only [put, hlt, if_false, if_true, lookup]
        split <;> rfl
      · by_cases ho : key = other
        · subst ho
          have hn : ¬ id = key := fun h => hk h.symm
          simp [put, lookup, hlt, hk, hn]
        · simp [put, lookup, hlt, hk, ho, ih]

@[simp] theorem get?_empty (id : Nat) : empty.get? id = none := rfl

@[simp] theorem get?_note (t : Distances) (id other distance : Nat) :
    (t.note id distance).get? other = if id = other then some distance else t.get? other :=
  lookup_put id other distance t.entries

end Distances

end ClassScript
