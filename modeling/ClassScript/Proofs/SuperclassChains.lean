import ClassScript.Proofs.ClassTables

namespace ClassScript

/-!
# Chains of superclasses

A search that goes from a class to its superclass, and from there to the next, need not end: a table
could send it around in a circle. In a table where superclasses are older than their classes it does
end, at the latest after one round more than the number of the class says, and it finds what looking
the class up in ever older parts of the table finds.

* `ClassTable.searchWithin`: a search that follows the superclasses for some rounds;
* `ClassTable.searchWithin_eq_none`: where superclasses go in a circle, no rounds may suffice;
* `ClassTable.Chain`: a class and its ancestors in order;
* `ClassTable.Chain.searchWithin_eq`: a search ends within as many rounds as the chain is long;
* `ClassTable.Ordered.methodWithin_eq`, `ClassTable.Ordered.inheritsWithin_eq`: so do the searches
  for methods and ancestors, and they find what the table says.
-/

namespace ClassTable

/-! ### Searches -/

/-- Asks a class, then its superclass and so on, one in each round, until one of them has an answer
    or there is no superclass. There is no result if the rounds do not suffice for that. -/
def searchWithin {α : Type} (classes : ClassTable) (answer : Nat → Option α) :
    Nat → Option ClassId → Option (Option α)
  | _, none => some none
  | 0, some _ => none
  | rounds + 1, some id =>
    if (answer id.index).isSome then some (answer id.index)
    else searchWithin classes answer rounds (classes.superclass? id.index)

/-- The method that a class has of its own. -/
def ownMethod? (classes : ClassTable) (name : String) (index : Nat) : Option Signature :=
  (classes.info? index).bind fun info => info.methods.find? name

/-- Looks for a method in a class and its ancestors. -/
def methodWithin (classes : ClassTable) (rounds : Nat) (name : String) (id : ClassId) :
    Option (Option Signature) :=
  classes.searchWithin (classes.ownMethod? name) rounds (some id)

/-- Looks for a class among a class and its ancestors. -/
def inheritsWithin (classes : ClassTable) (rounds : Nat) (ancestor id : ClassId) : Option Bool :=
  (classes.searchWithin (fun index => if index = ancestor.index then some () else none) rounds
    (some id)).map Option.isSome

variable {classes : ClassTable} {index : Nat} {α : Type}

theorem searchWithin_none (answer : Nat → Option α) (rounds : Nat) :
    classes.searchWithin answer rounds none = some none := by
  cases rounds <;> rfl

/-- No rounds suffice among classes that have no answer and whose superclasses are again such
    classes. In a table where this is possible, superclasses are not older than their classes. -/
theorem searchWithin_eq_none {answer : Nat → Option α} {P : ClassId → Prop}
    (h : ∀ id, P id → answer id.index = none ∧
      ∃ super, classes.superclass? id.index = some super ∧ P super)
    {id : ClassId} (hid : P id) (rounds : Nat) :
    classes.searchWithin answer rounds (some id) = none := by
  induction rounds generalizing id with
  | zero => rfl
  | succ rounds ih =>
    obtain ⟨hanswer, super, hsuper, hP⟩ := h id hid
    rw [searchWithin, hanswer, hsuper]
    exact ih hP

/-! ### Chains -/

/-- The list holds the number of a class, then that of its superclass and so on, up to a class
    without superclass. -/
inductive Chain (classes : ClassTable) : Nat → List Nat → Prop
  | last {index : Nat} (h : classes.superclass? index = none) : Chain classes index [index]
  | next {index : Nat} {id : ClassId} {chain : List Nat}
      (h : classes.superclass? index = some id) (hrest : Chain classes id.index chain) :
      Chain classes index (index :: chain)

/-- Every class has a chain, which is not longer than the classes up to it. -/
theorem Ordered.exists_chain (h : Ordered classes) (index : Nat) :
    ∃ chain, Chain classes index chain ∧ chain.length ≤ index + 1 := by
  -- On the number of the class: that of its superclass is less.
  induction index using Nat.strongRecOn with
  | ind index ih =>
    cases hsuper : classes.superclass? index with
    | none => exact ⟨[index], .last hsuper, Nat.le_add_left 1 index⟩
    | some id =>
      have hlt := h.superclass?_lt hsuper
      obtain ⟨chain, hchain, hlength⟩ := ih id.index hlt
      refine ⟨index :: chain, .next hsuper hchain, ?_⟩
      rw [List.length_cons]
      omega

namespace Chain

variable {chain : List Nat}

/-- A search along a chain ends, with the answer of the nearest class that has one. -/
theorem searchWithin_eq {id : ClassId} {rounds : Nat} (hchain : Chain classes id.index chain)
    (hrounds : chain.length ≤ rounds) (answer : Nat → Option α) :
    classes.searchWithin answer rounds (some id) = some (chain.findSome? answer) := by
  generalize hindex : id.index = index at hchain
  induction hchain generalizing id rounds with
  | last hsuper =>
    subst hindex
    obtain ⟨rounds, rfl⟩ := Nat.exists_eq_add_one_of_ne_zero (Nat.pos_iff_ne_zero.mp hrounds)
    rw [searchWithin, hsuper, searchWithin_none]
    cases hanswer : answer id.index <;> simp [hanswer]
  | next hsuper hrest ih =>
    subst hindex
    obtain ⟨rounds, rfl⟩ := Nat.exists_eq_add_one_of_ne_zero (Nat.ne_zero_of_lt hrounds)
    rw [searchWithin, hsuper, ih (Nat.le_of_succ_le_succ hrounds) rfl, List.findSome?_cons]
    cases answer id.index <;> rfl

/-- A method of a class is that of the nearest class of its chain that has one. -/
theorem findMethod?_eq (h : Ordered classes) (hchain : Chain classes index chain)
    (name : String) :
    classes.findMethod? name index = chain.findSome? (classes.ownMethod? name) := by
  induction hchain with
  | @last index hsuper =>
    rw [ClassTable.findMethod?_eq h, List.findSome?_cons, ownMethod?]
    cases hinfo : classes.info? index with
    | none => rfl
    | some info =>
      have hnone : info.superclass = none := by simpa [superclass?, hinfo] using hsuper
      cases hmethod : info.methods.find? name <;> simp [hmethod, hnone]
  | @next index id chain hsuper hrest ih =>
    obtain ⟨info, hinfo, hid⟩ := Option.bind_eq_some_iff.mp hsuper
    rw [ClassTable.findMethod?_eq h, List.findSome?_cons, ownMethod?, hinfo, Option.bind_some,
      Option.bind_some, hid, Option.bind_some, ih]
    cases info.methods.find? name <;> rfl

/-- A class inherits from the classes of its chain. -/
theorem mem_iff_derives (hchain : Chain classes index chain) {ancestor : Nat} :
    ancestor ∈ chain ↔ Relation.ReflTransGen classes.Derives index ancestor := by
  induction hchain with
  | @last index hsuper =>
    rw [List.mem_singleton, Relation.ReflTransGen.cases_head_iff]
    refine ⟨fun heq => .inl heq.symm, ?_⟩
    rintro (heq | ⟨_, ⟨id, hid, -⟩, -⟩)
    · exact heq.symm
    · rw [hsuper] at hid
      cases hid
  | @next index id chain hsuper hrest ih =>
    have hhead : Relation.ReflTransGen classes.Derives index ancestor ↔ index = ancestor ∨
        ∃ i, classes.Derives index i ∧ Relation.ReflTransGen classes.Derives i ancestor :=
      Relation.ReflTransGen.cases_head_iff
    rw [List.mem_cons, ih, hhead, eq_comm]
    refine or_congr_right ⟨fun hpath => ⟨id.index, ⟨id, hsuper, rfl⟩, hpath⟩, ?_⟩
    rintro ⟨_, ⟨id', hid', rfl⟩, hpath⟩
    rw [hsuper] at hid'
    cases hid'
    exact hpath

end Chain

variable {rounds : Nat} {id : ClassId}

/-- The search for a method ends. -/
theorem Ordered.methodWithin_eq (h : Ordered classes) (hrounds : id.index < rounds)
    (name : String) :
    classes.methodWithin rounds name id = some (classes.findMethod? name id.index) := by
  obtain ⟨chain, hchain, hlength⟩ := h.exists_chain id.index
  rw [methodWithin, hchain.searchWithin_eq (Nat.le_trans hlength hrounds), hchain.findMethod?_eq h]

/-- The search for an ancestor ends. -/
theorem Ordered.inheritsWithin_eq (h : Ordered classes) (hrounds : id.index < rounds)
    (ancestor : ClassId) :
    classes.inheritsWithin rounds ancestor id
      = some (classes.inherits ancestor.index id.index) := by
  obtain ⟨chain, hchain, hlength⟩ := h.exists_chain id.index
  rw [inheritsWithin, hchain.searchWithin_eq (Nat.le_trans hlength hrounds), Option.map_some]
  refine congrArg some (Bool.eq_iff_iff.mpr ?_)
  rw [inherits_iff h, ← hchain.mem_iff_derives]
  simp

end ClassTable

end ClassScript
