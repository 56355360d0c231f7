import ClassScript.Program.Parser

namespace ClassScript

/-!
# Where reading comes to

Reading goes over the tokens once. A rule stops at an index of the token list that is not before the
one that it started at, and so does the fault that it stops with; faults that it reports on its way
lie before that, and there are no more of them than tokens between the two.

All of this is said of a rule under two budgets at once: as long as both leave room for the tokens,
the rule does the same under both.

* `Cursor.spot`: the position that belongs to an index;
* `Cursor.Within`, `Cursor.Reached`, `Cursor.Next`: a cursor and its next token, seen from where
  reading started;
* `Parse.Reporting`: how many faults a rule may report;
* `Parse.Agree`: what is said of a rule under two budgets, with its steps `Agree.bind` and so on.
-/

/-! ### Indices -/

/-- The position of the token with index `k` among those still to be read; behind the last one that
    of the end of input. -/
def Cursor.spot (c : Cursor) (k : Nat) : Position := c.ahead[k]?.elim c.stop Token.pos

/-- The index `a` is before `b`, or both are the index of the end of input. -/
def Precedes (last a b : Nat) : Prop := a < b ∨ a = last ∧ b = last

theorem Precedes.mono {last a b b' : Nat} (h : Precedes last a b) (hb : b ≤ b') (hb' : b' ≤ last) :
    Precedes last a b' := by
  unfold Precedes at *
  omega

/-- The cursor `c` stands at the index `i` of the tokens that `base` has to read. -/
structure Cursor.Within (base : Cursor) (i : Nat) (c : Cursor) : Prop where
  le_length : i ≤ base.ahead.length
  ahead : c.ahead = base.ahead.drop i
  stop : c.stop = base.stop

/-- The cursor `c` is reached from `base`: `i` tokens are read, and faults are reported at the
    indices `ks`, in order and none of them after `since`. -/
structure Cursor.Reached (base : Cursor) (since i : Nat) (ks : List Nat) (c : Cursor) : Prop
    extends Cursor.Within base i c where
  since_le : since ≤ i
  spots : c.faults.map Located.pos = ks.map base.spot
  genuine : ∀ f ∈ c.faults, f.what ≠ .tooDeep
  ordered : ks.Pairwise (Precedes base.ahead.length)
  passed : ∀ k ∈ ks, Precedes base.ahead.length k since

/-- The token that is next at the index `i` is at `pos`, and no fault is reported after `since`. -/
structure Cursor.Next (base : Cursor) (since i : Nat) (pos : Position) : Prop where
  since_le : since ≤ i
  lt_length : i < base.ahead.length
  pos_eq : pos = base.spot i

namespace Cursor.Within

variable {base c : Cursor} {i : Nat}

theorem get?_eq {t : Token} {rest : List Token} (h : Within base i c) (hc : c.ahead = t :: rest) :
    base.ahead[i]? = some t := by
  rw [← List.head?_drop, ← h.ahead, hc]
  rfl

/-- Reading a token goes to the next index. -/
theorem next {t : Token} {rest : List Token} (h : Within base i c) (hc : c.ahead = t :: rest) :
    Within base (i + 1) { c with ahead := rest } where
  le_length := (List.getElem?_eq_some_iff.mp (h.get?_eq hc)).1
  ahead := by rw [← List.drop_drop, ← h.ahead, hc]; rfl
  stop := h.stop

/-- No token is left exactly at the index of the end of input. -/
theorem ahead_eq_nil (h : Within base i c) : c.ahead = [] ↔ i = base.ahead.length := by
  have hle := h.le_length
  rw [h.ahead, List.drop_eq_nil_iff]
  omega

theorem here_eq (h : Within base i c) : c.here = base.spot i := by
  unfold here
  split
  · next t rest ht => rw [spot, h.get?_eq ht, Option.elim_some]
  · next ht =>
    have hi := h.ahead_eq_nil.1 ht
    simp [spot, hi, h.stop]

end Cursor.Within

namespace Cursor.Reached

variable {base c : Cursor} {since i : Nat} {ks : List Nat}

/-- Faults that lie before an index lie before a later one. -/
theorem since_mono {since' : Nat} (h : Reached base since i ks c) (hs : since ≤ since')
    (hi : since' ≤ i) : Reached base since' i ks c :=
  { h with
    since_le := hi
    passed := fun k hk => (h.passed k hk).mono hs (Nat.le_trans hi h.le_length) }

/-- Reading a token. -/
theorem next {t : Token} {rest : List Token} (h : Reached base since i ks c)
    (hc : c.ahead = t :: rest) :
    Next base since i t.pos ∧ Reached base since (i + 1) ks { c with ahead := rest } := by
  have hget := h.toWithin.get?_eq hc
  refine ⟨⟨h.since_le, (List.getElem?_eq_some_iff.mp hget).1, by simp [spot, hget]⟩, ?_⟩
  exact { h with
    toWithin := h.toWithin.next hc
    since_le := Nat.le_succ_of_le h.since_le }

end Cursor.Reached

namespace Parse

variable {α β : Type}

/-! ### How many faults are reported -/

/-- How many faults a rule may report on its way. -/
inductive Reporting where
  /-- None at all. -/
  | never
  /-- None, or fewer than the tokens that it reads. -/
  | fewer
  /-- Not more than the tokens that it reads. -/
  | atMost

namespace Reporting

/-- So many faults may be reported while so many tokens are read. -/
def Allows : Reporting → Nat → Nat → Prop
  | never, count, _ => count = 0
  | fewer, count, taken => count = 0 ∨ count < taken
  | atMost, count, taken => count ≤ taken

/-- What a rule may report after it has read a token. -/
def inner : Reporting → Reporting
  | never => never
  | fewer => atMost
  | atMost => atMost

theorem allows_zero (r : Reporting) (taken : Nat) : r.Allows 0 taken := by
  cases r <;> simp [Allows]

theorem Allows.add {r : Reporting} {a b i j : Nat} (ha : r.Allows a i) (hb : r.Allows b j) :
    r.Allows (a + b) (i + j) := by
  cases r <;> simp only [Allows] at * <;> omega

theorem Allows.of_inner {r : Reporting} {a i : Nat} (h : r.inner.Allows a i) :
    r.Allows a (i + 1) := by
  cases r <;> simp only [Allows, inner] at * <;> omega

/-- What is allowed is allowed inside. -/
theorem Allows.weaken {r : Reporting} {a i : Nat} (h : r.Allows a i) : r.inner.Allows a i := by
  cases r <;> simp only [Allows, inner] at * <;> omega

theorem Allows.of_never {r : Reporting} {a i : Nat} (h : never.Allows a i) : r.Allows a i := by
  obtain rfl : a = 0 := h
  exact r.allows_zero i

end Reporting

/-! ### Rules under two budgets -/

/-- How a rule ended that started at the index `i`, with faults reported at `ks` before. If it
    succeeded it came to `goal` at least. A fault that it stopped with lies not before `since`, and
    behind all faults that are reported. -/
def Ended (base : Cursor) (r : Reporting) (since i goal : Nat) (ks : List Nat) :
    EStateM.Result (Located SyntaxFault) Cursor α → Prop
  | .ok _ c => ∃ j ks', i ≤ j ∧ goal ≤ j ∧ r.Allows ks'.length (j - i) ∧
      Cursor.Reached base j j (ks ++ ks') c
  | .error f c => ∃ j k ks', i ≤ j ∧ since ≤ k ∧ r.Allows ks'.length (j - i) ∧
      f.pos = base.spot k ∧ f.what ≠ .tooDeep ∧ Cursor.Reached base k j (ks ++ ks') c

/-- From the index `i` on, with no fault reported after `since`, the rules `p` and `q` do the same,
    and end as they should. -/
def Agree (base : Cursor) (r : Reporting) (since i goal : Nat) (p q : Parse α) : Prop :=
  ∀ ks c, Cursor.Reached base since i ks c → p c = q c ∧ Ended base r since i goal ks (p c)

/-- The same where the next token is known to be `t`. -/
def AgreeBefore (base : Cursor) (r : Reporting) (since i goal : Nat) (t : Token) (p q : Parse α) :
    Prop :=
  ∀ ks c rest, c.ahead = t :: rest → Cursor.Reached base since i ks c →
    p c = q c ∧ Ended base r since i goal ks (p c)

variable {base : Cursor} {r : Reporting} {since i goal : Nat}

/-- How a rule ended that started at `i'`, after faults at `ks'` were reported on the way there
    from `i`. -/
theorem Ended.back {r' : Reporting} {since' i' goal' : Nat} {ks : List Nat} (ks' : List Nat)
    {x : EStateM.Result (Located SyntaxFault) Cursor α}
    (h : Ended base r' since' i' goal' (ks ++ ks') x) (hi : i ≤ i') (hs : since ≤ since')
    (hgoal : ∀ j, i' ≤ j → goal' ≤ j → goal ≤ j)
    (hr : ∀ a d, r'.Allows a d → r.Allows (ks'.length + a) (i' - i + d)) :
    Ended base r since i goal ks x := by
  have hallows {a j : Nat} (hj : i' ≤ j) (ha : r'.Allows a (j - i')) :
      r.Allows (ks'.length + a) (j - i) := by
    have := hr _ _ ha
    rwa [show i' - i + (j - i') = j - i by omega] at this
  cases x with
  | ok a c =>
    obtain ⟨j, ks'', hj, hg, ha, hc⟩ := h
    refine ⟨j, ks' ++ ks'', by omega, hgoal j hj hg, ?_, List.append_assoc .. ▸ hc⟩
    rw [List.length_append]
    exact hallows hj ha
  | error f c =>
    obtain ⟨j, k, ks'', hj, hk, ha, hpos, hwhat, hc⟩ := h
    refine ⟨j, k, ks' ++ ks'', by omega, by omega, ?_, hpos, hwhat, List.append_assoc .. ▸ hc⟩
    rw [List.length_append]
    exact hallows hj ha

/-- A fault at an index that no fault is reported after. -/
theorem Ended.of_fault {f : Located SyntaxFault} {c : Cursor} {ks : List Nat} {k : Nat}
    (hc : Cursor.Reached base since i ks c) (hk : since ≤ k) (hki : k ≤ i)
    (hpos : f.pos = base.spot k) (hfault : f.what ≠ .tooDeep) :
    Ended base r since i goal ks (.error f c : EStateM.Result _ _ α) := by
  refine ⟨i, k, [], Nat.le_refl _, hk, r.allows_zero _, hpos, hfault, ?_⟩
  rw [List.append_nil]
  exact hc.since_mono hk hki

/-- An end with weaker demands. -/
theorem Ended.imp {r' : Reporting} {since' goal' : Nat} {ks : List Nat}
    {x : EStateM.Result (Located SyntaxFault) Cursor α}
    (h : Ended base r' since' i goal' ks x) (hs : since ≤ since')
    (hgoal : ∀ j, i ≤ j → goal' ≤ j → goal ≤ j) (hr : ∀ a d, r'.Allows a d → r.Allows a d) :
    Ended base r since i goal ks x := by
  refine .back [] (by rwa [List.append_nil]) (Nat.le_refl i) hs hgoal ?_
  intro a d ha
  simpa using hr a d ha

namespace Agree

/-- A rule comes to any index that it has to pass anyway. -/
theorem toward {goal' : Nat} {p q : Parse α} (h : Agree base r since i goal p q)
    (hgoal : goal' ≤ i ∨ goal' ≤ goal) : Agree base r since i goal' p q := by
  intro ks c hc
  obtain ⟨heq, hend⟩ := h ks c hc
  exact ⟨heq, hend.imp (Nat.le_refl _) (fun j _ _ => by omega) fun _ _ ha => ha⟩

/-- A rule that reports nothing may be allowed to report something. -/
theorem of_never {p q : Parse α} (h : Agree base .never since i goal p q) :
    Agree base r since i goal p q := by
  intro ks c hc
  obtain ⟨heq, hend⟩ := h ks c hc
  exact ⟨heq, hend.imp (Nat.le_refl _) (fun _ _ hj => hj) fun _ _ ha => ha.of_never⟩

/-- A rule that reports fewer faults than it reads tokens does not report more. -/
theorem of_fewer {p q : Parse α} (h : Agree base .fewer since i goal p q) :
    Agree base .atMost since i goal p q := by
  intro ks c hc
  obtain ⟨heq, hend⟩ := h ks c hc
  exact ⟨heq, hend.imp (Nat.le_refl _) (fun _ _ hj => hj) fun _ _ ha => ha.weaken⟩

/-- What holds with nothing known of the faults before holds when more is known. -/
theorem of_here {p q : Parse α} (h : Agree base r i i goal p q) :
    Agree base r since i goal p q := by
  intro ks c hc
  obtain ⟨heq, hend⟩ := h ks c (hc.since_mono hc.since_le (Nat.le_refl i))
  exact ⟨heq, hend.imp hc.since_le (fun _ _ hj => hj) fun _ _ ha => ha⟩

/-! ### Steps -/

theorem pure {a : α} (hgoal : goal ≤ i) : Agree base r since i goal (pure a) (pure a) := by
  intro ks c hc
  refine ⟨rfl, i, [], Nat.le_refl _, hgoal, r.allows_zero _, ?_⟩
  rw [List.append_nil]
  exact hc.since_mono hc.since_le (Nat.le_refl i)

/-- A fault may be about the token that is next, or about one that nothing was reported after. -/
theorem failAt {pos : Position} {fault : SyntaxFault} {k : Nat} (hk : since ≤ k) (hki : k ≤ i)
    (hpos : pos = base.spot k) (hfault : fault ≠ .tooDeep) :
    Agree base r since i goal (failAt pos fault : Parse α) (Parse.failAt pos fault) :=
  fun _ _ hc => ⟨rfl, .of_fault hc hk hki hpos hfault⟩

/-- A fault about the next token. -/
theorem fail {fault : SyntaxFault} (hfault : fault ≠ .tooDeep) :
    Agree base r since i goal (fail fault : Parse α) (Parse.fail fault) :=
  fun _ _ hc => ⟨rfl, .of_fault hc hc.since_le (Nat.le_refl i) hc.here_eq hfault⟩

/-- Two rules one after the other. -/
theorem bind {p q : Parse α} {f g : α → Parse β} {goal' : Nat}
    (hp : Agree base r since i goal' p q)
    (hf : ∀ a j, i ≤ j → goal' ≤ j → Agree base r j j goal (f a) (g a)) :
    Agree base r since i goal (p >>= f) (q >>= g) := by
  intro ks c hc
  obtain ⟨heq, hend⟩ := hp ks c hc
  show EStateM.bind p f c = EStateM.bind q g c ∧ Ended base r since i _ ks (EStateM.bind p f c)
  unfold EStateM.bind
  rw [← heq]
  cases hpc : p c with
  | ok a c' =>
    rw [hpc] at hend
    obtain ⟨j, ks', hj, hg, hr, hc'⟩ := hend
    obtain ⟨heq', hend'⟩ := hf a j hj hg (ks ++ ks') c' hc'
    have hle := hc.since_le
    exact ⟨heq', hend'.back ks' hj (by omega) (fun _ _ h => h) fun _ _ ha => hr.add ha⟩
  | error e c' =>
    rw [hpc] at hend
    exact ⟨rfl, hend⟩

/-- A rule that reports nothing, and another after it. -/
theorem bindQuiet {p q : Parse α} {f g : α → Parse β} {goal' : Nat}
    (hp : Agree base .never since i goal' p q)
    (hf : ∀ a j, i ≤ j → goal' ≤ j → Agree base r since j goal (f a) (g a)) :
    Agree base r since i goal (p >>= f) (q >>= g) := by
  intro ks c hc
  obtain ⟨heq, hend⟩ := hp ks c hc
  show EStateM.bind p f c = EStateM.bind q g c ∧ Ended base r since i _ ks (EStateM.bind p f c)
  unfold EStateM.bind
  rw [← heq]
  cases hpc : p c with
  | ok a c' =>
    rw [hpc] at hend
    obtain ⟨j, ks', hj, hg, hr, hc'⟩ := hend
    obtain rfl := List.length_eq_zero_iff.1 hr
    rw [List.append_nil] at hc'
    have hle := hc.since_le
    -- Nothing was reported on the way, so still nothing is reported after `since`.
    have hback : Cursor.Reached base since j ks c' :=
      { hc' with since_le := by omega, passed := hc.passed }
    obtain ⟨heq', hend'⟩ := hf a j hj hg ks c' hback
    refine ⟨heq', Ended.back [] (by rwa [List.append_nil]) hj (Nat.le_refl _)
      (fun _ _ h => h) fun a d ha => (r.allows_zero _).add ha⟩
  | error e c' =>
    rw [hpc] at hend
    obtain ⟨j, k, ks', hj, hk, hr, hrest⟩ := hend
    exact ⟨rfl, j, k, ks', hj, hk, hr.of_never, hrest⟩

/-- A result that is changed afterwards. -/
theorem map {p q : Parse α} (f : α → β) (hp : Agree base r since i goal p q) :
    Agree base r since i goal (f <$> p) (f <$> q) := by
  intro ks c hc
  obtain ⟨heq, hend⟩ := hp ks c hc
  show EStateM.map f p c = EStateM.map f q c ∧ Ended base r since i goal ks (EStateM.map f p c)
  unfold EStateM.map
  rw [← heq]
  cases hpc : p c with
  | ok a c' =>
    rw [hpc] at hend
    exact ⟨rfl, hend⟩
  | error e c' =>
    rw [hpc] at hend
    exact ⟨rfl, hend⟩

/-- A rule after a token that was read. -/
theorem after_token {t : Token} {rest : List Token} {c : Cursor} {ks : List Nat} {p q : Parse α}
    (h : Agree base r.inner since (i + 1) goal p q) (hc : Cursor.Reached base since i ks c)
    (hahead : c.ahead = t :: rest) :
    p { c with ahead := rest } = q { c with ahead := rest } ∧
      Ended base r since i goal ks (p { c with ahead := rest }) := by
  obtain ⟨heq, hend⟩ := h ks _ (hc.next hahead).2
  refine ⟨heq, Ended.back [] (by rwa [List.append_nil]) (Nat.le_succ i) (Nat.le_refl _)
    (fun _ _ h => h) fun a d ha => ?_⟩
  have := ha.of_inner
  rwa [List.length_nil, Nat.zero_add, Nat.succ_sub (Nat.le_refl i), Nat.sub_self, Nat.add_comm]

/-- A token may be read, if it is of one of the given kinds. -/
theorem acceptAny {kinds : List Kind} {f g : Option Token → Parse β}
    (hnone : Agree base r since i goal (f none) (g none))
    (hsome : ∀ t, base.Next since i t.pos → t.kind ∈ kinds →
      Agree base r.inner since (i + 1) goal (f (some t)) (g (some t))) :
    Agree base r since i goal (acceptAny kinds >>= f) (Parse.acceptAny kinds >>= g) := by
  intro ks c hc
  show EStateM.bind (Parse.acceptAny kinds) f c = EStateM.bind (Parse.acceptAny kinds) g c ∧
    Ended base r since i goal ks (EStateM.bind (Parse.acceptAny kinds) f c)
  unfold EStateM.bind Parse.acceptAny
  cases hahead : c.ahead with
  | nil => exact hnone ks c hc
  | cons t rest =>
    by_cases hkind : t.kind ∈ kinds
    · simp only [if_pos hkind]
      exact (hsome t (hc.next hahead).1 hkind).after_token hc hahead
    · simp only [if_neg hkind]
      exact hnone ks c hc

/-- A token has to be read. -/
theorem expect {kind : Kind} {fault : SyntaxFault} {f g : Token → Parse β}
    (hfault : fault ≠ .tooDeep)
    (hf : ∀ t, base.Next since i t.pos → Agree base r.inner since (i + 1) goal (f t) (g t)) :
    Agree base r since i goal (expect kind fault >>= f) (Parse.expect kind fault >>= g) := by
  intro ks c hc
  have hfail := hc.here_eq
  show EStateM.bind (Parse.expect kind fault) f c = EStateM.bind (Parse.expect kind fault) g c ∧
    Ended base r since i goal ks (EStateM.bind (Parse.expect kind fault) f c)
  unfold EStateM.bind Parse.expect
  unfold Cursor.here at hfail
  cases hahead : c.ahead with
  | nil =>
    rw [hahead] at hfail
    exact ⟨rfl, .of_fault hc hc.since_le (Nat.le_refl i) hfail hfault⟩
  | cons t rest =>
    rw [hahead] at hfail
    by_cases hkind : t.kind = kind
    · simp only [if_pos hkind]
      exact (hf t (hc.next hahead).1).after_token hc hahead
    · simp only [if_neg hkind]
      exact ⟨trivial, .of_fault hc hc.since_le (Nat.le_refl i) hfail hfault⟩

theorem expectName {fault : SyntaxFault} {f g : Name → Parse β} (hfault : fault ≠ .tooDeep)
    (hf : ∀ name : Name, base.Next since i name.pos →
      Agree base r.inner since (i + 1) goal (f name) (g name)) :
    Agree base r since i goal (expectName fault >>= f) (Parse.expectName fault >>= g) := by
  unfold Parse.expectName
  simp only [bind_assoc, pure_bind]
  exact expect hfault fun t ht => hf _ ht

/-- A look at the next token. -/
theorem peek {f g : Option Token → Parse β}
    (hnone : Agree base r since i goal (f none) (g none))
    (hsome : ∀ t, base.Next since i t.pos →
      AgreeBefore base r since i goal t (f (some t)) (g (some t))) :
    Agree base r since i goal (peek >>= f) (Parse.peek >>= g) := by
  intro ks c hc
  show f c.ahead.head? c = g c.ahead.head? c ∧ Ended base r since i goal ks (f c.ahead.head? c)
  cases hahead : c.ahead with
  | nil => exact hnone ks c hc
  | cons t rest => exact hsome t (hc.next hahead).1 ks c rest hahead hc

theorem upNext {kind : Kind} {f g : Bool → Parse β}
    (hf : ∀ b, Agree base r since i goal (f b) (g b)) :
    Agree base r since i goal (upNext kind >>= f) (Parse.upNext kind >>= g) :=
  fun ks c hc => hf _ ks c hc

theorem atEnd {f g : Bool → Parse β}
    (hend : i = base.ahead.length → Agree base r since i goal (f true) (g true))
    (hmore : i < base.ahead.length → Agree base r since i goal (f false) (g false)) :
    Agree base r since i goal (atEnd >>= f) (Parse.atEnd >>= g) := by
  intro ks c hc
  show f c.ahead.isEmpty c = g c.ahead.isEmpty c ∧
    Ended base r since i goal ks (f c.ahead.isEmpty c)
  have hnil := hc.ahead_eq_nil
  have hle := hc.le_length
  cases hahead : c.ahead with
  | nil => exact hend (hnil.1 hahead) ks c hc
  | cons t rest => exact hmore (hc.next hahead).1.lt_length ks c hc

/-- A use of a name, and then what follows it. -/
theorem reference {name : Name} {f g : Reference → Parse β}
    (hf : ∀ ref, Agree base r since i goal (f ref) (g ref)) :
    Agree base r since i goal (reference name >>= f) (Parse.reference name >>= g) :=
  fun ks c hc => hf _ ks { c with nextId := c.nextId + 1 } { hc with }

end Agree

theorem AgreeBefore.of_agree {t : Token} {p q : Parse β} (h : Agree base r since i goal p q) :
    AgreeBefore base r since i goal t p q :=
  fun ks c _ _ hc => h ks c hc

/-- The token that was looked at is read. -/
theorem AgreeBefore.skip {t : Token} {p q : Parse β}
    (h : Agree base r.inner since (i + 1) goal p q) :
    AgreeBefore base r since i goal t (skip >>= fun _ => p) (Parse.skip >>= fun _ => q) := by
  intro ks c rest hahead hc
  have hskip (p : Parse β) : (Parse.skip >>= fun _ => p) c = p { c with ahead := rest } := by
    show p { c with ahead := c.ahead.tail } = _
    rw [hahead]
    rfl
  rw [hskip, hskip]
  exact h.after_token hc hahead

/-! ### Recovery -/

/-- Reading goes on behind the next token at least. -/
theorem resume_eq_drop (tokens : List Token) :
    ∃ d, resume tokens = tokens.drop d ∧ d ≤ tokens.length ∧ (tokens ≠ [] → 0 < d) := by
  induction tokens with
  | nil => exact ⟨0, rfl, Nat.le_refl _, by simp⟩
  | cons t rest ih =>
    obtain ⟨d, hd, hle, -⟩ := ih
    unfold resume
    split
    · exact ⟨1, rfl, by simp, by simp⟩
    cases rest with
    | nil => exact ⟨1, rfl, by simp, by simp⟩
    | cons next rest =>
      by_cases hstart : startsStatement next.kind = true
      · exact ⟨1, by simp [hstart], by simp, by simp⟩
      · refine ⟨d + 1, ?_, by simpa using hle, by simp⟩
        simpa [hstart] using hd

/-- After a fault at the index `k` is reported, reading goes on behind it, or is at the end. -/
theorem reached_report {base c : Cursor} {f : Located SyntaxFault} {j k : Nat} {ks : List Nat}
    (h : Cursor.Reached base k j ks c) (hpos : f.pos = base.spot k) (hwhat : f.what ≠ .tooDeep) :
    ∃ j', j ≤ j' ∧ (j < base.ahead.length → j < j') ∧
      Cursor.Reached base j' j' (ks ++ [k])
        { c with ahead := resume c.ahead, faults := c.faults ++ [f] } := by
  obtain ⟨d, hd, hle, hpositive⟩ := resume_eq_drop c.ahead
  have hlast := h.le_length
  have hkj := h.since_le
  have hrest : c.ahead.length = base.ahead.length - j := by
    rw [h.ahead, List.length_drop]
  have hmove : j < base.ahead.length → 0 < d := by
    intro hlt
    apply hpositive
    intro hnil
    rw [hnil, List.length_nil] at hrest
    omega
  -- The fault may be about a token that was read already, but not about one behind `j`.
  have hbehind : Precedes base.ahead.length k (j + d) := by
    unfold Precedes
    by_cases hlt : j < base.ahead.length
    · have := hmove hlt
      omega
    · omega
  refine ⟨j + d, by omega, fun hlt => by have := hmove hlt; omega, ?_⟩
  refine ⟨⟨by omega, ?_, h.stop⟩, Nat.le_refl _, ?_, ?_, ?_, ?_⟩
  · show resume c.ahead = _
    rw [hd, h.ahead, List.drop_drop]
  · show List.map Located.pos (c.faults ++ [f]) = _
    rw [List.map_append, List.map_append, h.spots, List.map_singleton, List.map_singleton, hpos]
  · intro g hg
    rcases List.mem_append.1 hg with hg | hg
    · exact h.genuine g hg
    · rw [List.mem_singleton.1 hg]
      exact hwhat
  · refine List.pairwise_append.2 ⟨h.ordered, List.pairwise_singleton _ _, ?_⟩
    intro a ha b hb
    rw [List.mem_singleton.1 hb]
    exact h.passed a ha
  · intro a ha
    rcases List.mem_append.1 ha with ha | ha
    · exact (h.passed a ha).mono (by omega) (by omega)
    · rw [List.mem_singleton.1 ha]
      exact hbehind

/-- A rule for a statement, from a token on, with recovery: the fault that it stops with is one
    more, and one more token at least is passed over. -/
theorem Agree.recovering {p q : Parse Stmt} (hi : i < base.ahead.length)
    (h : Agree base .fewer i i (i + 1) p q) :
    Agree base .atMost i i (i + 1) (recovering p) (Parse.recovering q) := by
  intro ks c hc
  obtain ⟨heq, hend⟩ := h ks c hc
  unfold Parse.recovering
  rw [← heq]
  refine ⟨rfl, ?_⟩
  cases hp : p c with
  | ok s c' =>
    rw [hp] at hend
    obtain ⟨j, ks', hj, hg, hr, hc'⟩ := hend
    exact ⟨j, ks', hj, hg, hr.weaken, hc'⟩
  | error f c' =>
    rw [hp] at hend
    obtain ⟨j, k, ks', hj, hk, hr, hpos, hwhat, hc'⟩ := hend
    obtain ⟨j', hj', hmove, hreached⟩ := reached_report hc' hpos hwhat
    have hlast := hc'.le_length
    have hpassed : j = base.ahead.length ∨ j + 1 ≤ j' := by omega
    refine ⟨j', ks' ++ [k], by omega, by omega, ?_, List.append_assoc .. ▸ hreached⟩
    -- At the end of input no token is passed over, but then the rule had read one before.
    simp only [Reporting.Allows, List.length_append, List.length_singleton] at hr ⊢
    omega

end Parse

end ClassScript
