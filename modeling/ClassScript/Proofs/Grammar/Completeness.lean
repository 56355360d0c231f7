import ClassScript.Proofs.Grammar.Soundness

namespace ClassScript

/-!
# What is in the grammar is read

A derivation tells the parser which way to go: every rule decides by the next token, and the first
token of each phrase is known. Phrases that may go on after their last token are read to the end
because no token that would go on follows them. Phrases that are recursive on the left are read in
a loop; for them a derivation says where the loop stands (`Parse.Leads`).

* `Grammar.Derives.length_le`, `Grammar.Derives.starts`: how long a phrase is and how it starts;
* `Parse.Takes`: what a rule reads with enough budget;
* `Parse.Parsed`, `Parse.parsed_of_derives`: what the parser does along a derivation;
* `parse_of_reads`: a program that is derived is read.
-/

namespace Grammar

/-! ### How phrases start -/

/-- The least number of tokens of a phrase. -/
def Phrase.weight : Phrase → Nat
  | .declarations _ | .heritage _ | .methods _ | .parameterList _ | .typeAfter _ _ |
    .initializer _ | .optional _ | .argumentList _ => 0
  | _ => 1

/-- A phrase takes at least its weight in tokens. -/
theorem Derives.length_le {rule : ElseRule} {m m' : Mark} {p : Phrase} (h : Derives rule m p m') :
    m'.ahead.length + p.weight ≤ m.ahead.length := by
  induction h <;> simp only [Phrase.weight, List.length_cons] at * <;> omega

theorem Derives.tail_lt {rule : ElseRule} {m : Mark} {p : Phrase} {t : Token} {ts : List Token}
    {i : Nat} (h : Derives rule m p ⟨t :: ts, i⟩) : ts.length < m.ahead.length := by
  have := h.length_le
  rw [List.length_cons] at this
  omega

/-- The kinds that a constant, a name or a parenthesis starts with. -/
def startsPrimary : Kind → Bool
  | .keyword k => k ∈ [.kwTrue, .kwFalse, .kwNull, .kwThis, .kwSuper]
  | .symbol s => s = .leftParen
  | .endOfInput => false
  | _ => true

/-- The kinds that an expression starts with. -/
def startsExpression (k : Kind) : Bool :=
  startsPrimary k || k ∈ [.symbol .bang, .symbol .minus]

/-- The kinds that a statement starts with. -/
def startsStatement (k : Kind) : Bool :=
  startsExpression k ||
    k ∈ [.keyword .kwFor, .keyword .kwIf, .keyword .kwReturn, .keyword .kwWhile, .symbol .leftBrace]

/-- The kinds that a declaration starts with. -/
def startsDeclaration (k : Kind) : Bool :=
  startsStatement k || k ∈ [.keyword .kwClass, .keyword .kwDef, .keyword .kwVal]

/-- The kinds that a phrase starts with, where it matters to the parser. -/
def Phrase.starts : Phrase → Kind → Bool
  | .declaration _ => startsDeclaration
  | .statement _ _ => startsStatement
  | .block _ => fun k => k = .symbol .leftBrace
  | .expression _ | .ternary _ | .binary _ _ | .unary _ | .arguments _ => startsExpression
  | .call _ | .primary _ => startsPrimary
  | .function _ | .parameters _ => fun k => k = .identifier
  | _ => fun _ => true

theorem startsPrimary_of_constant {k : Kind} {value : Literal} (h : constant? k = some value) :
    startsPrimary k = true := by
  unfold constant? at h
  split at h <;> first | rfl | cases h

/-- The first token of a phrase is of a kind that it starts with. -/
theorem Derives.starts {rule : ElseRule} {m m' : Mark} {p : Phrase} (h : Derives rule m p m')
    (hp : p.weight = 1) : ∃ t, m.ahead.head? = some t ∧ p.starts t.kind = true := by
  induction h
  -- A phrase that starts with another starts as that one does.
  case statementDeclaration ih =>
    obtain ⟨t, ht, hs⟩ := ih rfl
    exact ⟨t, ht, Bool.or_eq_true_iff.mpr (.inl hs)⟩
  case expressionStatement ih =>
    obtain ⟨t, ht, hs⟩ := ih rfl
    exact ⟨t, ht, Bool.or_eq_true_iff.mpr (.inl hs)⟩
  case blockStatement ih =>
    obtain ⟨t, ht, hs⟩ := ih rfl
    exact ⟨t, ht, by simp [Phrase.starts, startsStatement, of_decide_eq_true hs]⟩
  case firstExpression ih =>
    obtain ⟨t, ht, -⟩ := ih rfl
    exact ⟨t, ht, rfl⟩
  case set ih _ | plainUnary ih =>
    obtain ⟨t, ht, hs⟩ := ih rfl
    exact ⟨t, ht, Bool.or_eq_true_iff.mpr (.inl hs)⟩
  case constant hk => exact ⟨_, rfl, startsPrimary_of_constant hk⟩
  all_goals
    simp_all [Phrase.weight, Phrase.starts, startsDeclaration, startsStatement, startsExpression,
      startsPrimary]

/-- No phrase that starts so starts with one of the given kinds. -/
theorem Derives.lacks {rule : ElseRule} {m m' : Mark} {p : Phrase} {ks : List Kind}
    (h : Derives rule m p m') (hp : p.weight = 1) (hks : (ks.all fun k => !p.starts k) = true) :
    m.Lacks ks := by
  obtain ⟨t, ht, hs⟩ := h.starts hp
  intro u hu hk
  rw [ht] at hu
  cases hu
  have := List.all_eq_true.mp hks t.kind hk
  simp [hs] at this

theorem Mark.Lacks.mono {m : Mark} {ks ks' : List Kind} (h : m.Lacks ks) (hks : ks' ⊆ ks) :
    m.Lacks ks' :=
  fun t ht hk => h t ht (hks hk)

theorem Mark.lacks_cons {t : Token} {ts : List Token} {i : Nat} {ks : List Kind}
    (h : t.kind ∉ ks) : (Mark.mk (t :: ts) i).Lacks ks := by
  intro u hu
  cases hu
  exact h

end Grammar

open Grammar

/-- The cursor moved to the mark `m`. -/
def Cursor.to (c : Cursor) (m : Mark) : Cursor := { c with ahead := m.ahead, nextId := m.nextId }

namespace Parse

variable {c : Cursor} {m m' m'' : Mark} {t : Token} {ts us : List Token} {i j n : Nat}

/-! ### Steps -/

theorem acceptAny_of_mem {ks : List Kind} (ht : t.kind ∈ ks) :
    acceptAny ks (c.to ⟨t :: ts, i⟩) = .ok (some t) (c.to ⟨ts, i⟩) := by
  simp only [acceptAny, Cursor.to, if_pos ht]

theorem acceptAny_of_lacks {ks : List Kind} (h : m.Lacks ks) :
    acceptAny ks (c.to m) = .ok none (c.to m) := by
  unfold acceptAny
  split
  · next t rest ht =>
    have hk : t.kind ∉ ks := h t (by rw [show m.ahead = _ from ht]; rfl)
    rw [if_neg hk]
  · rfl

theorem accept_of_eq {k : Kind} (ht : t.kind = k) :
    accept k (c.to ⟨t :: ts, i⟩) = .ok (some t) (c.to ⟨ts, i⟩) :=
  acceptAny_of_mem (by simp [ht])

theorem accept_of_lacks {k : Kind} (h : m.Lacks [k]) : accept k (c.to m) = .ok none (c.to m) :=
  acceptAny_of_lacks h

theorem expect_of_eq {k : Kind} {fault : SyntaxFault} (ht : t.kind = k) :
    expect k fault (c.to ⟨t :: ts, i⟩) = .ok t (c.to ⟨ts, i⟩) := by
  simp only [expect, Cursor.to, if_pos ht]

theorem expectName_of_eq {fault : SyntaxFault} (ht : t.kind = .identifier) :
    expectName fault (c.to ⟨t :: ts, i⟩) = .ok t.asName (c.to ⟨ts, i⟩) := by
  rw [expectName, bind_of_ok (expect_of_eq ht)]
  rfl

/-- A use of a name gets the next number. -/
theorem reference_to {name : Name} :
    reference name (c.to ⟨ts, i⟩) = .ok ⟨i, name⟩ (c.to ⟨ts, i + 1⟩) := rfl

theorem upNext_of_eq {k : Kind} (ht : t.kind = k) :
    upNext k (c.to ⟨t :: ts, i⟩) = .ok true (c.to ⟨t :: ts, i⟩) := by
  simp [upNext, Cursor.to, ht]

theorem upNext_of_lacks {k : Kind} (h : m.Lacks [k]) :
    upNext k (c.to m) = .ok false (c.to m) := by
  unfold upNext
  congr 1
  show m.ahead.head?.any _ = false
  rw [Option.any_eq_false]
  intro t ht
  simpa using h t ht

theorem peek_cons : peek (c.to ⟨t :: ts, i⟩) = .ok (some t) (c.to ⟨t :: ts, i⟩) := rfl

theorem skip_cons : skip (c.to ⟨t :: ts, i⟩) = .ok () (c.to ⟨ts, i⟩) := rfl

/-! ### Budgets -/

/-- The budget that rules of the given rank need before `m`. The rank of a rule is the number of
    rules that may call each other from there on before a token is read. -/
def room (m : Mark) (rank : Nat) : Nat := 20 * m.ahead.length + rank

/-- With enough budget `rule` reads `a` from `m` to `m'`. -/
def Takes {α : Type} (rule : Nat → Parse α) (rank : Nat) (m : Mark) (a : α) (m' : Mark) : Prop :=
  ∀ (c : Cursor) n, room m rank ≤ n → rule n (c.to m) = .ok a (c.to m')

/-- With enough budget `rule` comes from `m` to `m'` and goes on there as `rest` does. -/
def Leads {α : Type} (rule : Nat → Parse α) (rank : Nat) (m : Mark) (rest : Nat → Parse α)
    (m' : Mark) : Prop :=
  ∀ (c : Cursor) r, (∀ n, room m' 1 ≤ n → rest n (c.to m') = r) →
    ∀ n, room m rank ≤ n → rule n (c.to m) = r

theorem Takes.mono {α : Type} {rule : Nat → Parse α} {rank rank' : Nat} {a : α}
    (h : Takes rule rank m a m') (hrank : rank ≤ rank') : Takes rule rank' m a m' :=
  fun c n hn => h c n (by unfold room at *; omega)

theorem Takes.of_succ {α : Type} {rule : Nat → Parse α} {rank : Nat} {a : α}
    (h : ∀ (c : Cursor) n, room m rank ≤ n → rule (n + 1) (c.to m) = .ok a (c.to m')) :
    Takes rule (rank + 1) m a m' := by
  intro c n hn
  obtain ⟨n, rfl⟩ : ∃ k, n = k + 1 := ⟨n - 1, by unfold room at hn; omega⟩
  exact h c n (by unfold room at *; omega)

theorem Takes.of_leads {α : Type} {rule rest : Nat → Parse α} {rank : Nat} {a : α}
    (h : Leads rule rank m rest m') (hrest : Takes rest 1 m' a m'') : Takes rule rank m a m'' :=
  fun c n hn => h c _ (fun n hn => hrest c n hn) n hn

/-! ### Primaries -/

/-- A constant is a primary expression. -/
theorem primary_constant {value : Literal} (ht : constant? t.kind = some value) :
    Takes primary 1 ⟨t :: ts, i⟩ (.literal value) ⟨ts, i⟩ := by
  refine .of_succ fun c n hn => ?_
  rw [primary, bind_of_ok peek_cons]
  generalize hk : t.kind = k at ht
  unfold constant? at ht
  split at ht <;> cases ht <;> simp only [hk] <;> rw [bind_of_ok skip_cons] <;> rfl

theorem primary_this (ht : t.kind = .keyword .kwThis) :
    Takes primary 1 ⟨t :: ts, i⟩ (.this ⟨i, t.asName⟩) ⟨ts, i + 1⟩ := by
  refine .of_succ fun c n hn => ?_
  rw [primary, bind_of_ok peek_cons]
  simp only [ht]
  rw [bind_of_ok skip_cons, bind_of_ok reference_to]
  rfl

theorem primary_name (ht : t.kind = .identifier) :
    Takes primary 1 ⟨t :: ts, i⟩ (.var ⟨i, t.asName⟩) ⟨ts, i + 1⟩ := by
  refine .of_succ fun c n hn => ?_
  rw [primary, bind_of_ok peek_cons]
  simp only [ht]
  rw [bind_of_ok skip_cons, bind_of_ok reference_to]
  rfl

theorem primary_super {dot method : Token} (ht : t.kind = .keyword .kwSuper)
    (hdot : dot.kind = .symbol .dot) (hmethod : method.kind = .identifier) :
    Takes primary 1 ⟨t :: dot :: method :: ts, i⟩ (.super ⟨i, t.asName⟩ method.asName)
      ⟨ts, i + 1⟩ := by
  refine .of_succ fun c n hn => ?_
  rw [primary, bind_of_ok peek_cons]
  simp only [ht]
  rw [bind_of_ok skip_cons, bind_of_ok (expect_of_eq hdot), bind_of_ok (expectName_of_eq hmethod),
    bind_of_ok reference_to]
  rfl

theorem primary_grouping {opening closing : Token} {e : Expr}
    (hopening : opening.kind = .symbol .leftParen)
    (h : Takes expression 12 ⟨ts, i⟩ e ⟨closing :: us, j⟩)
    (hclosing : closing.kind = .symbol .rightParen) :
    Takes primary 1 ⟨opening :: ts, i⟩ (.grouping e) ⟨us, j⟩ := by
  refine .of_succ fun c n hn => ?_
  simp only [room, List.length_cons] at hn
  rw [primary, bind_of_ok peek_cons]
  simp only [hopening]
  rw [bind_of_ok skip_cons, bind_of_ok (h c n (by simp only [room]; omega)),
    bind_of_ok (expect_of_eq hclosing)]
  rfl

/-! ### Calls -/

/-- The kinds that go on after a call. -/
abbrev callFollow : List Kind := [.symbol .leftParen, .symbol .dot]

/-- A call from its start on. -/
def operand (n : Nat) : Parse Expr := do
  let callee ← primary n
  suffixes n callee

theorem suffixes_stop {e : Expr} (h : m.Lacks callFollow) :
    Takes (fun n => suffixes n e) 1 m e m := by
  refine .of_succ fun c n hn => ?_
  show suffixes (n + 1) e (c.to m) = _
  rw [suffixes, bind_of_ok (acceptAny_of_lacks h)]
  rfl

/-- An operand starts with a primary expression. -/
theorem operand_of_primary {e : Expr} (h : Takes primary 1 m e m')
    (hm : m'.ahead.length ≤ m.ahead.length) :
    Leads operand 1 m (fun n => suffixes n e) m' := by
  intro c r hr n hn
  rw [operand, bind_of_ok (h c n hn)]
  exact hr n (by unfold room at *; omega)

/-- A property of an operand is an operand. -/
theorem operand_get {dot name : Token} {e : Expr}
    (h : Leads operand 1 m (fun n => suffixes n e) ⟨dot :: name :: ts, i⟩)
    (hdot : dot.kind = .symbol .dot) (hname : name.kind = .identifier) :
    Leads operand 1 m (fun n => suffixes n (.get e name.asName)) ⟨ts, i⟩ := by
  intro c r hr
  refine h c r ?_
  intro n hn
  simp only [room, List.length_cons] at hn
  obtain ⟨n, rfl⟩ : ∃ k, n = k + 1 := ⟨n - 1, by omega⟩
  show suffixes (n + 1) e (c.to _) = r
  rw [suffixes, bind_of_ok (acceptAny_of_mem (by simp [hdot]))]
  simp only [hdot, if_neg (show ¬ Kind.symbol .dot = .symbol .leftParen by simp)]
  rw [bind_of_ok (expectName_of_eq hname)]
  exact hr n (by simp only [room]; omega)

theorem operand_call {opening closing : Token} {e : Expr} {args : List Expr}
    (h : Leads operand 1 m (fun n => suffixes n e) ⟨opening :: ts, i⟩)
    (hopening : opening.kind = .symbol .leftParen) (hclosing : closing.kind = .symbol .rightParen)
    (hlength : us.length ≤ ts.length)
    (hargs : (args = [] ∧ Mark.mk ts i = ⟨closing :: us, j⟩) ∨
      ((Mark.mk ts i).Lacks [.symbol .rightParen] ∧
        Takes (fun n => arguments n 0) 13 ⟨ts, i⟩ args ⟨closing :: us, j⟩)) :
    Leads operand 1 m (fun n => suffixes n (.call e closing.pos args)) ⟨us, j⟩ := by
  intro c r hr
  refine h c r ?_
  intro n hn
  simp only [room, List.length_cons] at hn
  obtain ⟨n, rfl⟩ : ∃ k, n = k + 1 := ⟨n - 1, by omega⟩
  have hrest : suffixes n (.call e closing.pos args) (c.to ⟨us, j⟩) = r :=
    hr n (by simp only [room]; omega)
  show suffixes (n + 1) e (c.to _) = r
  rw [suffixes, bind_of_ok (acceptAny_of_mem (by simp [hopening]))]
  simp only [hopening, if_true]
  -- Whether there are arguments is decided by the next token.
  rcases hargs with ⟨rfl, hm⟩ | ⟨hlacks, hargs⟩
  · rw [hm, bind_of_ok (upNext_of_eq hclosing)]
    simp only [if_true]
    rw [bind_of_ok (pure_eq_ok.mpr ⟨rfl, rfl⟩), bind_of_ok (expect_of_eq hclosing), hrest]
  · rw [bind_of_ok (upNext_of_lacks hlacks)]
    simp only [Bool.false_eq_true, if_false]
    rw [bind_of_ok (hargs c n (by simp only [room]; omega)), bind_of_ok (expect_of_eq hclosing),
      hrest]

theorem unary_of_operand {e : Expr} (h : Leads operand 1 m (fun n => suffixes n e) m')
    (hm : m.Lacks [.symbol .bang, .symbol .minus]) (hm' : m'.Lacks callFollow) :
    Takes unary 2 m e m' := by
  refine .of_succ fun c n hn => ?_
  rw [unary, bind_of_ok (acceptAny_of_lacks hm)]
  exact Takes.of_leads h (suffixes_stop hm') c n hn

/-- A sign before what the rule for signs takes. -/
theorem unary_signed {operator : Token} {e : Expr} (h : Takes unary 2 ⟨ts, i⟩ e m')
    (hop : operator.kind = .symbol .bang ∨ operator.kind = .symbol .minus) :
    Takes unary 2 ⟨operator :: ts, i⟩ (.unary operator e) m' := by
  refine .of_succ fun c n hn => ?_
  simp only [room, List.length_cons] at hn
  rw [unary, bind_of_ok (acceptAny_of_mem (by simpa using hop))]
  simp only
  rw [bind_of_ok (h c n (by simp only [room]; omega))]
  rfl

/-! ### Binary operators -/

/-- The kinds that go on after operands of the given levels. -/
def chainFollow (levels : List Level) : List Kind := callFollow ++ levels.flatMap Level.operators

/-- Operands of the given levels are read from `m` to `m'`; at the loosest of them more may
    follow. -/
def Chained : List Level → Mark → Expr → Mark → Prop
  | [], m, e, m' => m'.Lacks callFollow → Takes (fun n => chain n []) 3 m e m'
  | level :: tighter, m, e, m' => m'.Lacks (chainFollow tighter) →
    Leads (fun n => chain n (level :: tighter)) (4 + tighter.length) m
      (fun n => chainRest n level tighter e) m'

theorem chainRest_stop {level : Level} {tighter : List Level} {e : Expr}
    (h : m.Lacks level.operators) : Takes (fun n => chainRest n level tighter e) 1 m e m := by
  refine .of_succ fun c n hn => ?_
  show chainRest (n + 1) level tighter e (c.to m) = _
  rw [chainRest, bind_of_ok (acceptAny_of_lacks h)]
  rfl

theorem Chained.takes {levels : List Level} {e : Expr} (h : Chained levels m e m')
    (hm' : m'.Lacks (chainFollow levels)) :
    Takes (fun n => chain n levels) (3 + levels.length) m e m' := by
  cases levels with
  | nil => exact h (hm'.mono (by simp [chainFollow]))
  | cons level tighter =>
    have hrest : m'.Lacks level.operators := hm'.mono (by intro k; simp [chainFollow]; grind)
    have htighter : m'.Lacks (chainFollow tighter) :=
      hm'.mono (by intro k; simp [chainFollow]; grind)
    have := Takes.of_leads (h htighter) (chainRest_stop hrest)
    rwa [List.length_cons, show 3 + (tighter.length + 1) = 4 + tighter.length by omega]

theorem Chained.tightest {e : Expr} (h : m'.Lacks callFollow → Takes unary 2 m e m') :
    Chained [] m e m' := by
  intro hm' c n hn
  obtain ⟨n, rfl⟩ : ∃ k, n = k + 1 := ⟨n - 1, by unfold room at hn; omega⟩
  exact h hm' c n (by unfold room at *; omega)

theorem Chained.operand {level : Level} {tighter : List Level} {e : Expr}
    (h : Chained tighter m e m') (hm : m'.ahead.length ≤ m.ahead.length) :
    Chained (level :: tighter) m e m' := by
  intro hm' c r hr n hn
  obtain ⟨n, rfl⟩ : ∃ k, n = k + 1 := ⟨n - 1, by unfold room at hn; omega⟩
  show chain (n + 1) (level :: tighter) (c.to m) = r
  rw [chain, bind_of_ok (h.takes hm' c n (by unfold room at *; omega))]
  exact hr n (by unfold room at *; omega)

/-- An operator of a level is none of the tighter ones and starts no call. -/
theorem operator_not_mem_chainFollow {level : Level} {tighter : List Level} {k : Kind}
    (hl : (level :: tighter) <:+ Level.all) (hk : k ∈ level.operators) :
    k ∉ chainFollow tighter := by
  have hcheck : ∀ d < 8, ∀ l ∈ (Level.all.drop d).head?, ∀ k ∈ l.operators,
      k ∉ chainFollow (Level.all.drop d).tail := by decide
  have hdrop := List.suffix_iff_eq_drop.mp hl
  have := hcheck (Level.all.length - (level :: tighter).length)
    (by simp only [Level.all, List.length_cons, List.length_nil]; omega) level
  rw [← hdrop] at this
  exact this rfl k hk

theorem Chained.operation {level : Level} {tighter : List Level} {left right : Expr}
    {operator : Token} (hleft : Chained (level :: tighter) m left ⟨operator :: ts, i⟩)
    (hop : operator.kind ∈ level.operators) (hright : Chained tighter ⟨ts, i⟩ right m')
    (hlevels : (level :: tighter) <:+ Level.all) (hm : m'.ahead.length ≤ ts.length) :
    Chained (level :: tighter) m (level.node left operator right) m' := by
  intro hm' c r hr
  refine hleft (Mark.lacks_cons (operator_not_mem_chainFollow hlevels hop)) c r ?_
  intro n hn
  have hlength := hlevels.length_le
  simp only [room, List.length_cons, show Level.all.length = 7 from rfl] at hn hlength
  obtain ⟨n, rfl⟩ : ∃ k, n = k + 1 := ⟨n - 1, by omega⟩
  show chainRest (n + 1) level tighter left (c.to _) = r
  rw [chainRest, bind_of_ok (acceptAny_of_mem hop)]
  simp only
  rw [bind_of_ok (hright.takes hm' c n (by simp only [room]; omega))]
  exact hr n (by simp only [room]; omega)

/-- What is read as an operand of the tightest level is read as one of any level. -/
theorem Chained.of_tightest {e : Expr} (h : Chained [] m e m')
    (hm : m'.ahead.length ≤ m.ahead.length) (levels : List Level) : Chained levels m e m' := by
  induction levels with
  | nil => exact h
  | cons level tighter ih => exact ih.operand hm

theorem Chained.takes_all {e : Expr} (h : Chained Level.all m e m')
    (hm' : m'.Lacks (chainFollow Level.all)) : Takes (fun n => chain n Level.all) 10 m e m' :=
  h.takes hm'

/-! ### Expressions -/

/-- The kinds that go on after a choice. -/
def ternaryFollow : List Kind := .symbol .question :: chainFollow Level.all

/-- The kinds that go on after an expression. -/
def expressionFollow : List Kind := .symbol .equal :: ternaryFollow

theorem ternary_plain {e : Expr} (h : Chained Level.all m e m') (hm' : m'.Lacks ternaryFollow) :
    Takes ternary 11 m e m' := by
  refine .of_succ fun c n hn => ?_
  have hchain := h.takes_all (hm'.mono (List.subset_cons_self _ _))
  rw [ternary, bind_of_ok (hchain c n hn),
    bind_of_ok (accept_of_lacks (hm'.mono (by simp [ternaryFollow])))]
  rfl

/-- A choice, whose last branch may be a choice. -/
theorem ternary_choice {question colon : Token} {test yes no : Expr}
    (htest : Chained Level.all m test ⟨question :: ts, i⟩)
    (hquestion : question.kind = .symbol .question)
    (hyes : Chained Level.all ⟨ts, i⟩ yes ⟨colon :: us, j⟩) (hcolon : colon.kind = .symbol .colon)
    (hno : Takes ternary 11 ⟨us, j⟩ no m') (hts : ts.length < m.ahead.length)
    (hus : us.length < ts.length) :
    Takes ternary 11 m (.ternary test question.pos yes no) m' := by
  refine .of_succ fun c n hn => ?_
  have htest := htest.takes_all (Mark.lacks_cons (by rw [hquestion]; decide))
  have hyes := hyes.takes_all (Mark.lacks_cons (by rw [hcolon]; decide))
  rw [ternary, bind_of_ok (htest c n hn),
    bind_of_ok (accept_of_eq hquestion)]
  simp only
  unfold room at hn
  rw [bind_of_ok (hyes c n (by simp only [room]; omega)), bind_of_ok (expect_of_eq hcolon),
    bind_of_ok (hno c n (by simp only [room]; omega))]
  rfl

/-- A call is read as a choice if nothing goes on after it. -/
theorem ternary_of_operand {e : Expr} (h : Leads operand 1 m (fun n => suffixes n e) m')
    (hm : m.Lacks [.symbol .bang, .symbol .minus]) (hlength : m'.ahead.length ≤ m.ahead.length)
    (hm' : m'.Lacks ternaryFollow) : Takes ternary 11 m e m' :=
  ternary_plain ((Chained.tightest (unary_of_operand h hm)).of_tightest hlength Level.all) hm'

theorem expression_plain {e : Expr} (h : Takes ternary 11 m e m')
    (hm' : m'.Lacks [.symbol .equal]) : Takes expression 12 m e m' := by
  refine .of_succ fun c n hn => ?_
  rw [expression, bind_of_ok (h c n hn), bind_of_ok (accept_of_lacks hm')]
  rfl

/-- An assignment to a name is an expression. -/
theorem expression_assign {name equal : Token} {value : Expr} (hname : name.kind = .identifier)
    (hequal : equal.kind = .symbol .equal) (hvalue : Takes expression 12 ⟨ts, i + 1⟩ value m') :
    Takes expression 12 ⟨name :: equal :: ts, i⟩ (.assign ⟨i, name.asName⟩ value) m' := by
  refine .of_succ fun c n hn => ?_
  simp only [room, List.length_cons] at hn
  have htarget : Takes ternary 11 ⟨name :: equal :: ts, i⟩ (.var ⟨i, name.asName⟩)
      ⟨equal :: ts, i + 1⟩ :=
    ternary_of_operand (operand_of_primary (primary_name hname) (by simp))
      (Mark.lacks_cons (by rw [hname]; decide)) (by simp)
      (Mark.lacks_cons (by rw [hequal]; decide))
  rw [expression, bind_of_ok (htarget c n (by simp only [room, List.length_cons]; omega)),
    bind_of_ok (accept_of_eq hequal)]
  simp only
  rw [bind_of_ok (hvalue c n (by simp only [room]; omega))]
  rfl

/-- An assignment to a property is an expression. -/
theorem expression_set {dot name equal : Token} {object value : Expr}
    (h : Leads operand 1 m (fun n => suffixes n object) ⟨dot :: name :: equal :: ts, i⟩)
    (hdot : dot.kind = .symbol .dot) (hname : name.kind = .identifier)
    (hequal : equal.kind = .symbol .equal) (hvalue : Takes expression 12 ⟨ts, i⟩ value m')
    (hm : m.Lacks [.symbol .bang, .symbol .minus]) (hlength : ts.length + 1 ≤ m.ahead.length) :
    Takes expression 12 m (.set object name.asName value) m' := by
  refine .of_succ fun c n hn => ?_
  unfold room at hn
  have htarget := ternary_of_operand (operand_get h hdot hname) hm hlength
    (Mark.lacks_cons (by rw [hequal]; decide))
  rw [expression, bind_of_ok (htarget c n (by unfold room; omega)),
    bind_of_ok (accept_of_eq hequal)]
  simp only
  rw [bind_of_ok (hvalue c n (by simp only [room]; omega))]
  rfl

/-- The last argument. -/
theorem arguments_one {e : Expr} {count : Nat} (h : Takes expression 12 m e m')
    (hm' : m'.Lacks [.symbol .comma]) (hcount : count < 255) :
    Takes (fun n => arguments n count) 13 m [e] m' := by
  refine .of_succ fun c n hn => ?_
  show arguments (n + 1) count (c.to m) = _
  rw [arguments, if_neg (by simp only [listLimit]; omega)]
  show (expression n >>= _) _ = _
  rw [bind_of_ok (h c n hn), bind_of_ok (accept_of_lacks hm')]
  rfl

/-- An argument with more of them after a comma. -/
theorem arguments_cons {comma : Token} {e : Expr} {es : List Expr} {count : Nat}
    (h : Takes expression 12 m e ⟨comma :: ts, i⟩) (hcomma : comma.kind = .symbol .comma)
    (hes : Takes (fun n => arguments n (count + 1)) 13 ⟨ts, i⟩ es m') (hcount : count < 255)
    (hlength : ts.length < m.ahead.length) :
    Takes (fun n => arguments n count) 13 m (e :: es) m' := by
  refine .of_succ fun c n hn => ?_
  unfold room at hn
  show arguments (n + 1) count (c.to m) = _
  rw [arguments, if_neg (by simp only [listLimit]; omega)]
  show (expression n >>= _) _ = _
  rw [bind_of_ok (h c n (by unfold room; omega)), bind_of_ok (accept_of_eq hcomma)]
  simp only
  rw [bind_of_ok (hes c n (by simp only [room]; omega))]
  rfl

/-! ### Types, parameters and clauses -/

/-- A type that is not a class is taken. -/
theorem typeName_plain {type : TypeName} (ht : plainType? t.kind = some type) :
    typeName (c.to ⟨t :: ts, i⟩) = .ok type (c.to ⟨ts, i⟩) := by
  rw [typeName, bind_of_ok peek_cons]
  simp only
  rw [bind_of_ok skip_cons]
  generalize hk : t.kind = k at ht
  unfold plainType? at ht
  split at ht <;> cases ht <;> rfl

theorem typeName_named (ht : t.kind = .identifier) :
    typeName (c.to ⟨t :: ts, i⟩) = .ok (.named ⟨i, t.asName⟩) (c.to ⟨ts, i + 1⟩) := by
  rw [typeName, bind_of_ok peek_cons]
  simp only
  rw [bind_of_ok skip_cons]
  simp only [ht]
  rw [bind_of_ok reference_to]
  rfl

theorem typeAfter_none {mark : Symbol} (h : m.Lacks [.symbol mark]) :
    typeAfter mark (c.to m) = .ok none (c.to m) := by
  rw [typeAfter, bind_of_ok (accept_of_lacks h)]
  rfl

/-- A type after its mark is taken. -/
theorem typeAfter_some {mark : Symbol} {type : TypeName} (ht : t.kind = .symbol mark)
    (h : typeName (c.to ⟨ts, i⟩) = .ok type (c.to m')) :
    typeAfter mark (c.to ⟨t :: ts, i⟩) = .ok (some type) (c.to m') := by
  rw [typeAfter, bind_of_ok (accept_of_eq ht)]
  simp only
  rw [bind_of_ok h]
  rfl

/-- The last parameter. -/
theorem parameters_one {name colon : Token} {type : TypeName} {count : Nat}
    (hname : name.kind = .identifier) (hcolon : colon.kind = .symbol .colon)
    (h : ∀ c : Cursor, typeName (c.to ⟨ts, i⟩) = .ok type (c.to m'))
    (hm' : m'.Lacks [.symbol .comma]) (hcount : count < 255) :
    Takes (fun n => parameters n count) 1 ⟨name :: colon :: ts, i⟩ [⟨name.asName, type⟩] m' := by
  refine .of_succ fun c n hn => ?_
  show parameters (n + 1) count (c.to _) = _
  rw [parameters, if_neg (by simp only [listLimit]; omega)]
  show (expectName _ >>= _) _ = _
  rw [bind_of_ok (expectName_of_eq hname), bind_of_ok (expect_of_eq hcolon), bind_of_ok (h c),
    bind_of_ok (accept_of_lacks hm')]
  rfl

/-- A parameter with more of them after a comma. -/
theorem parameters_cons {name colon comma : Token} {type : TypeName} {ps : List Param} {count : Nat}
    (hname : name.kind = .identifier) (hcolon : colon.kind = .symbol .colon)
    (h : ∀ c : Cursor, typeName (c.to ⟨ts, i⟩) = .ok type (c.to ⟨comma :: us, j⟩))
    (hcomma : comma.kind = .symbol .comma)
    (hps : Takes (fun n => parameters n (count + 1)) 1 ⟨us, j⟩ ps m') (hcount : count < 255)
    (hlength : us.length < ts.length) :
    Takes (fun n => parameters n count) 1 ⟨name :: colon :: ts, i⟩ (⟨name.asName, type⟩ :: ps)
      m' := by
  refine .of_succ fun c n hn => ?_
  simp only [room, List.length_cons] at hn
  show parameters (n + 1) count (c.to _) = _
  rw [parameters, if_neg (by simp only [listLimit]; omega)]
  show (expectName _ >>= _) _ = _
  rw [bind_of_ok (expectName_of_eq hname), bind_of_ok (expect_of_eq hcolon), bind_of_ok (h c),
    bind_of_ok (accept_of_eq hcomma)]
  simp only
  rw [bind_of_ok (hps c n (by simp only [room]; omega))]
  rfl

/-- The initializer of a variable stands between `m` and `m'`, or nothing. -/
def Initialized (m : Mark) : Option Expr → Mark → Prop
  | none, m' => m = m'
  | some e, m' => ∃ equal ts i, m = ⟨equal :: ts, i⟩ ∧ equal.kind = .symbol .equal ∧
      (m'.Lacks expressionFollow → Takes expression 12 ⟨ts, i⟩ e m')

/-- An expression stands between `m` and `m'`, or nothing. -/
def Optional (m : Mark) : Option Expr → Mark → Prop
  | none, m' => m = m'
  | some e, m' => m.Lacks [.symbol .semicolon, .symbol .rightParen] ∧
      (m'.Lacks expressionFollow → Takes expression 12 m e m')

theorem Initialized.lacks_colon {e : Option Expr} {semicolon : Token}
    (h : Initialized m e ⟨semicolon :: us, j⟩) (hsemicolon : semicolon.kind = .symbol .semicolon) :
    m.Lacks [.symbol .colon] := by
  cases e with
  | none =>
    obtain rfl := h
    exact Mark.lacks_cons (by rw [hsemicolon]; decide)
  | some e =>
    obtain ⟨equal, ts, i, rfl, hequal, -⟩ := h
    exact Mark.lacks_cons (by rw [hequal]; decide)

theorem valRest_takes {name semicolon : Token} {type : Option TypeName} {e : Option Expr}
    (hname : name.kind = .identifier)
    (htype : ∀ c : Cursor, typeAfter .colon (c.to ⟨ts, i⟩) = .ok type (c.to m))
    (he : Initialized m e ⟨semicolon :: us, j⟩) (hte : type.isSome ∨ e.isSome)
    (hsemicolon : semicolon.kind = .symbol .semicolon) (hlength : m.ahead.length ≤ ts.length) :
    Takes valRest 0 ⟨name :: ts, i⟩ (.val name.asName type e) ⟨us, j⟩ := by
  intro c n hn
  simp only [room, List.length_cons] at hn
  rw [valRest, bind_of_ok (expectName_of_eq hname), bind_of_ok (htype c)]
  have hsome : ¬ (type.isNone && e.isNone) = true := by
    cases type <;> cases e <;> simp_all
  cases e with
  | none =>
    obtain rfl := he
    rw [bind_of_ok (accept_of_lacks (Mark.lacks_cons (by rw [hsemicolon]; decide)))]
    simp only
    rw [bind_of_ok (pure_eq_ok.mpr ⟨rfl, rfl⟩), if_neg hsome]
    show (expect _ _ >>= _) _ = _
    rw [bind_of_ok (expect_of_eq hsemicolon)]
    rfl
  | some e =>
    obtain ⟨equal, vs, k, rfl, hequal, he⟩ := he
    simp only [List.length_cons] at hlength
    have he := he (Mark.lacks_cons (by rw [hsemicolon]; decide)) c n (by simp only [room]; omega)
    rw [bind_of_ok (accept_of_eq hequal)]
    simp only
    rw [bind_of_ok (map_eq_ok.mpr ⟨e, he, rfl⟩), if_neg hsome]
    show (expect _ _ >>= _) _ = _
    rw [bind_of_ok (expect_of_eq hsemicolon)]
    rfl

theorem expressionUntil_takes {close : Symbol} {closing : Token} {e : Option Expr}
    (he : Optional m e ⟨closing :: us, j⟩) (hclosing : closing.kind = .symbol close)
    (hclose : close ∈ [.semicolon, .rightParen]) :
    Takes (expressionUntil close) 12 m e ⟨closing :: us, j⟩ := by
  intro c n hn
  rw [expressionUntil]
  have hfollow : ∀ s ∈ [Symbol.semicolon, .rightParen], Kind.symbol s ∉ expressionFollow ∧
      [Kind.symbol s] ⊆ [.symbol .semicolon, .symbol .rightParen] := by decide
  obtain ⟨hfollow, hsub⟩ := hfollow close hclose
  cases e with
  | none =>
    obtain rfl := he
    rw [bind_of_ok (upNext_of_eq hclosing)]
    rfl
  | some e =>
    obtain ⟨hlacks, he⟩ := he
    rw [bind_of_ok (upNext_of_lacks (hlacks.mono hsub))]
    exact map_eq_ok.mpr ⟨e, he (Mark.lacks_cons (by rw [hclosing]; exact hfollow)) c n hn, rfl⟩

/-- A condition between parentheses is taken. -/
theorem condition_takes {opening closing : Token} {e : Expr} {f g : SyntaxFault}
    (hopening : opening.kind = .symbol .leftParen)
    (h : Takes expression 12 ⟨ts, i⟩ e ⟨closing :: us, j⟩)
    (hclosing : closing.kind = .symbol .rightParen) :
    Takes (condition f g) 0 ⟨opening :: ts, i⟩ e ⟨us, j⟩ := by
  intro c n hn
  simp only [room, List.length_cons] at hn
  rw [condition, bind_of_ok (expect_of_eq hopening),
    bind_of_ok (h c n (by simp only [room]; omega)), bind_of_ok (expect_of_eq hclosing)]
  rfl

/-! ### Statements -/

theorem statement_expression {semicolon : Token} {e : Expr}
    (h : Takes expression 12 m e ⟨semicolon :: us, j⟩)
    (hsemicolon : semicolon.kind = .symbol .semicolon)
    (hm : m.Lacks [.keyword .kwFor, .keyword .kwIf, .keyword .kwReturn, .keyword .kwWhile,
      .symbol .leftBrace]) :
    Takes statement 13 m (.expression e) ⟨us, j⟩ := by
  refine .of_succ fun c n hn => ?_
  rw [statement, bind_of_ok (acceptAny_of_lacks hm)]
  simp only
  rw [expressionStatement, bind_of_ok (h c n hn),
    bind_of_ok (expect_of_eq hsemicolon)]
  rfl

/-- A block is a statement. -/
theorem statement_block {ss : List Stmt} (ht : t.kind = .symbol .leftBrace)
    (h : Takes block 16 ⟨ts, i⟩ ss m') :
    Takes statement 13 ⟨t :: ts, i⟩ (.block ss) m' := by
  refine .of_succ fun c n hn => ?_
  simp only [room, List.length_cons] at hn
  rw [statement, bind_of_ok (acceptAny_of_mem (by simp [ht]))]
  simp only [ht]
  exact map_eq_ok.mpr ⟨ss, h c n (by simp only [room]; omega), rfl⟩

theorem statement_return {semicolon : Token} {value : Option Expr}
    (ht : t.kind = .keyword .kwReturn) (h : Optional ⟨ts, i⟩ value ⟨semicolon :: us, j⟩)
    (hsemicolon : semicolon.kind = .symbol .semicolon) :
    Takes statement 13 ⟨t :: ts, i⟩ (.ret t.pos value) ⟨us, j⟩ := by
  refine .of_succ fun c n hn => ?_
  simp only [room, List.length_cons] at hn
  rw [statement, bind_of_ok (acceptAny_of_mem (by simp [ht]))]
  simp only [ht]
  have h := expressionUntil_takes h hsemicolon (by simp) c n (by simp only [room]; omega)
  rw [returnRest, bind_of_ok h, bind_of_ok (expect_of_eq hsemicolon)]
  rfl

/-- A loop is a statement. -/
theorem statement_while {test : Expr} {body : Stmt} (ht : t.kind = .keyword .kwWhile)
    (htest : ∀ f g, Takes (condition f g) 0 ⟨ts, i⟩ test m) (hbody : Takes statement 13 m body m')
    (hlength : m.ahead.length < ts.length) :
    Takes statement 13 ⟨t :: ts, i⟩ (.whileLoop t.pos test body) m' := by
  intro c n hn
  simp only [room, List.length_cons] at hn
  obtain ⟨n, rfl⟩ : ∃ k, n = k + 2 := ⟨n - 2, by omega⟩
  rw [statement, bind_of_ok (acceptAny_of_mem (by simp [ht]))]
  simp only [ht]
  rw [whileRest, bind_of_ok (htest _ _ c n (by simp only [room]; omega)),
    bind_of_ok (hbody c n (by simp only [room]; omega))]
  rfl

theorem statement_if {test : Expr} {yes : Stmt} (ht : t.kind = .keyword .kwIf)
    (htest : ∀ f g, Takes (condition f g) 0 ⟨ts, i⟩ test m) (hyes : Takes statement 13 m yes m')
    (hm' : m'.Lacks [.keyword .kwElse]) (hlength : m.ahead.length < ts.length) :
    Takes statement 13 ⟨t :: ts, i⟩ (.ifThen t.pos test yes) m' := by
  intro c n hn
  simp only [room, List.length_cons] at hn
  obtain ⟨n, rfl⟩ : ∃ k, n = k + 2 := ⟨n - 2, by omega⟩
  rw [statement, bind_of_ok (acceptAny_of_mem (by simp [ht]))]
  simp only [ht]
  rw [ifRest, bind_of_ok (htest _ _ c n (by simp only [room]; omega)),
    bind_of_ok (hyes c n (by simp only [room]; omega)), bind_of_ok (accept_of_lacks hm')]
  rfl

theorem statement_ifElse {otherwise : Token} {test : Expr} {yes no : Stmt}
    (ht : t.kind = .keyword .kwIf) (htest : ∀ f g, Takes (condition f g) 0 ⟨ts, i⟩ test m)
    (hyes : Takes statement 13 m yes ⟨otherwise :: us, j⟩)
    (hotherwise : otherwise.kind = .keyword .kwElse) (hno : Takes statement 13 ⟨us, j⟩ no m')
    (hlength : m.ahead.length < ts.length) (hus : us.length < m.ahead.length) :
    Takes statement 13 ⟨t :: ts, i⟩ (.ifElse t.pos test yes no) m' := by
  intro c n hn
  simp only [room, List.length_cons] at hn
  obtain ⟨n, rfl⟩ : ∃ k, n = k + 2 := ⟨n - 2, by omega⟩
  rw [statement, bind_of_ok (acceptAny_of_mem (by simp [ht]))]
  simp only [ht]
  rw [ifRest, bind_of_ok (htest _ _ c n (by simp only [room]; omega)),
    bind_of_ok (hyes c n (by simp only [room]; omega)), bind_of_ok (accept_of_eq hotherwise)]
  simp only
  rw [bind_of_ok (hno c n (by simp only [room]; omega))]
  rfl

/-- A `for` loop may start with nothing. -/
theorem forStart_none (ht : t.kind = .symbol .semicolon) :
    Takes forStart 0 ⟨t :: ts, i⟩ none ⟨ts, i⟩ := by
  intro c n hn
  rw [forStart, bind_of_ok (acceptAny_of_mem (by simp [ht]))]
  simp only [ht, if_true]
  rfl

theorem forStart_variable {s : Stmt} (ht : t.kind = .keyword .kwVal)
    (h : Takes valRest 0 ⟨ts, i⟩ s m') : Takes forStart 0 ⟨t :: ts, i⟩ (some s) m' := by
  intro c n hn
  simp only [room, List.length_cons] at hn
  rw [forStart, bind_of_ok (acceptAny_of_mem (by simp [ht]))]
  simp only [ht, reduceCtorEq, if_false]
  exact map_eq_ok.mpr ⟨s, h c n (by simp only [room]; omega), rfl⟩

/-- A `for` loop may start with an expression. -/
theorem forStart_expression {semicolon : Token} {e : Expr}
    (h : Takes expression 12 m e ⟨semicolon :: us, j⟩)
    (hsemicolon : semicolon.kind = .symbol .semicolon)
    (hm : m.Lacks [.symbol .semicolon, .keyword .kwVal]) :
    Takes forStart 12 m (some (.expression e)) ⟨us, j⟩ := by
  intro c n hn
  rw [forStart, bind_of_ok (acceptAny_of_lacks hm)]
  refine map_eq_ok.mpr ⟨.expression e, ?_, rfl⟩
  rw [expressionStatement, bind_of_ok (h c n hn), bind_of_ok (expect_of_eq hsemicolon)]
  rfl

theorem statement_for {opening semicolon closing : Token} {vs : List Token} {k : Nat}
    {first : Option Stmt} {test step : Option Expr} {body : Stmt}
    (ht : t.kind = .keyword .kwFor) (hopening : opening.kind = .symbol .leftParen)
    (hfirst : Takes forStart 12 ⟨ts, i⟩ first m)
    (htest : Optional m test ⟨semicolon :: us, j⟩)
    (hsemicolon : semicolon.kind = .symbol .semicolon)
    (hstep : Optional ⟨us, j⟩ step ⟨closing :: vs, k⟩)
    (hclosing : closing.kind = .symbol .rightParen)
    (hbody : Takes statement 13 ⟨vs, k⟩ body m') (hm : m.ahead.length ≤ ts.length)
    (hus : us.length ≤ m.ahead.length) (hvs : vs.length ≤ us.length) :
    Takes statement 13 ⟨t :: opening :: ts, i⟩ (desugared t.pos first test step body) m' := by
  intro c n hn
  simp only [room, List.length_cons] at hn
  obtain ⟨n, rfl⟩ : ∃ k, n = k + 2 := ⟨n - 2, by omega⟩
  have htest := expressionUntil_takes htest hsemicolon (by simp) c n (by simp only [room]; omega)
  have hstep := expressionUntil_takes hstep hclosing (by simp) c n (by simp only [room]; omega)
  rw [statement, bind_of_ok (acceptAny_of_mem (by simp [ht]))]
  simp only [ht]
  rw [forRest, bind_of_ok (expect_of_eq hopening),
    bind_of_ok (hfirst c n (by simp only [room]; omega)), bind_of_ok htest,
    bind_of_ok (expect_of_eq hsemicolon), bind_of_ok hstep, bind_of_ok (expect_of_eq hclosing),
    bind_of_ok (hbody c n (by simp only [room]; omega)), ← forLoop_eq_desugared]
  rfl

/-! ### Declarations -/

theorem recovering_of_ok {rule : Parse Stmt} {s : Stmt} {c c' : Cursor} (h : rule c = .ok s c') :
    recovering rule c = .ok (some s) c' := by
  rw [recovering, h]

/-- A statement is a declaration. -/
theorem declaration_statement {s : Stmt} (h : Takes statement 13 m s m')
    (hm : m.Lacks [.keyword .kwClass, .keyword .kwDef, .keyword .kwVal]) :
    Takes declaration 14 m (some s) m' := by
  refine .of_succ fun c n hn => ?_
  rw [declaration]
  refine recovering_of_ok ?_
  rw [bind_of_ok (acceptAny_of_lacks hm)]
  exact h c n hn

/-- A variable is declared. -/
theorem declaration_variable {s : Stmt} (ht : t.kind = .keyword .kwVal)
    (h : Takes valRest 0 ⟨ts, i⟩ s m') : Takes declaration 14 ⟨t :: ts, i⟩ (some s) m' := by
  refine .of_succ fun c n hn => ?_
  simp only [room, List.length_cons] at hn
  rw [declaration]
  refine recovering_of_ok ?_
  rw [bind_of_ok (acceptAny_of_mem (by simp [ht]))]
  simp only [ht]
  exact h c n (by simp only [room]; omega)

/-- A function is declared. -/
theorem declaration_function {decl : FunctionDecl} (ht : t.kind = .keyword .kwDef)
    (h : ∀ r, Takes (fun n => function n r) 1 ⟨ts, i⟩ decl m') :
    Takes declaration 14 ⟨t :: ts, i⟩ (some (.funDecl decl)) m' := by
  refine .of_succ fun c n hn => ?_
  simp only [room, List.length_cons] at hn
  rw [declaration]
  refine recovering_of_ok ?_
  rw [bind_of_ok (acceptAny_of_mem (by simp [ht]))]
  simp only [ht]
  exact map_eq_ok.mpr ⟨decl, h .function c n (by simp only [room]; omega), rfl⟩

/-- A superclass is named between `m` and `m'`, or nothing stands there. -/
def Inherits (m : Mark) : Option Reference → Mark → Prop
  | none, m' => m = m'
  | some ref, m' => ∃ less name ts i, m = ⟨less :: name :: ts, i⟩ ∧ m' = ⟨ts, i + 1⟩ ∧
      less.kind = .symbol .less ∧ name.kind = .identifier ∧ ref = ⟨i, name.asName⟩

theorem Inherits.length_le {superclass : Option Reference} (h : Inherits m superclass m') :
    m'.ahead.length ≤ m.ahead.length := by
  cases superclass with
  | none =>
    obtain rfl := h
    exact Nat.le_refl _
  | some ref =>
    obtain ⟨less, name, ts, i, rfl, rfl, -⟩ := h
    simp only [List.length_cons]
    omega

theorem declaration_class {name opening closing : Token} {vs : List Token} {k : Nat}
    {superclass : Option Reference} {decls : List FunctionDecl} (ht : t.kind = .keyword .kwClass)
    (hname : name.kind = .identifier) (hsuper : Inherits ⟨ts, i⟩ superclass ⟨opening :: us, j⟩)
    (hopening : opening.kind = .symbol .leftBrace)
    (hdecls : Takes methods 2 ⟨us, j⟩ decls ⟨closing :: vs, k⟩)
    (hclosing : closing.kind = .symbol .rightBrace) :
    Takes declaration 14 ⟨t :: name :: ts, i⟩ (some (.classDecl name.asName superclass decls))
      ⟨vs, k⟩ := by
  intro c n hn
  have hlength := hsuper.length_le
  simp only [room, List.length_cons] at hn hlength
  obtain ⟨n, rfl⟩ : ∃ k, n = k + 2 := ⟨n - 2, by omega⟩
  rw [declaration]
  refine recovering_of_ok ?_
  rw [bind_of_ok (acceptAny_of_mem (by simp [ht]))]
  simp only [ht]
  rw [classRest, bind_of_ok (expectName_of_eq hname)]
  have hdecls := hdecls c n (by simp only [room]; omega)
  cases superclass with
  | none =>
    cases hsuper
    rw [bind_of_ok (accept_of_lacks (Mark.lacks_cons (by rw [hopening]; decide)))]
    simp only
    rw [bind_of_ok (pure_eq_ok.mpr ⟨rfl, rfl⟩), bind_of_ok (expect_of_eq hopening),
      bind_of_ok hdecls, bind_of_ok (expect_of_eq hclosing)]
    rfl
  | some ref =>
    obtain ⟨less, name, ts, i, hm, hm', hless, hname, rfl⟩ := hsuper
    cases hm
    cases hm'
    rw [bind_of_ok (accept_of_eq hless)]
    simp only
    rw [bind_of_ok (expectName_of_eq hname), bind_of_ok (map_eq_ok.mpr ⟨_, reference_to, rfl⟩),
      bind_of_ok (expect_of_eq hopening), bind_of_ok hdecls, bind_of_ok (expect_of_eq hclosing)]
    rfl

theorem methods_nil (ht : t.kind = .symbol .rightBrace) :
    Takes methods 2 ⟨t :: ts, i⟩ [] ⟨t :: ts, i⟩ := by
  refine .of_succ fun c n hn => ?_
  rw [methods, bind_of_ok (upNext_of_eq ht)]
  rfl

theorem atEnd_of_lt {k : Nat} (h : k < m.ahead.length) :
    atEnd (c.to m) = .ok false (c.to m) := by
  unfold atEnd
  congr 1
  show m.ahead.isEmpty = false
  rw [List.isEmpty_eq_false_iff]
  intro hnil
  rw [hnil] at h
  cases h

/-- A method with more of them after it. -/
theorem methods_cons {decl : FunctionDecl} {decls : List FunctionDecl}
    (h : ∀ r, Takes (fun n => function n r) 1 m decl m') (hdecls : Takes methods 2 m' decls m'')
    (hm : m.Lacks [.symbol .rightBrace]) (hlength : m'.ahead.length < m.ahead.length) :
    Takes methods 2 m (decl :: decls) m'' := by
  refine .of_succ fun c n hn => ?_
  unfold room at hn
  rw [methods, bind_of_ok (upNext_of_lacks hm), bind_of_ok (atEnd_of_lt hlength)]
  simp only [Bool.or_self, Bool.false_eq_true, if_false]
  rw [bind_of_ok (h .method c n (by unfold room; omega)),
    bind_of_ok (hdecls c n (by unfold room; omega))]
  rfl

theorem function_takes {name opening closing brace : Token} {vs : List Token} {k : Nat}
    {params : List Param} {returns : Option TypeName} {body : List Stmt} {r : Routine}
    (hname : name.kind = .identifier) (hopening : opening.kind = .symbol .leftParen)
    (hparams : (params = [] ∧ Mark.mk ts i = ⟨closing :: us, j⟩) ∨
      ((Mark.mk ts i).Lacks [.symbol .rightParen] ∧
        Takes (fun n => parameters n 0) 1 ⟨ts, i⟩ params ⟨closing :: us, j⟩))
    (hclosing : closing.kind = .symbol .rightParen)
    (hreturns : ∀ c : Cursor, typeAfter .arrow (c.to ⟨us, j⟩) = .ok returns (c.to ⟨brace :: vs, k⟩))
    (hbrace : brace.kind = .symbol .leftBrace) (hbody : Takes block 16 ⟨vs, k⟩ body m')
    (hvs : vs.length < ts.length) :
    Takes (fun n => function n r) 1 ⟨name :: opening :: ts, i⟩
      ⟨name.asName, params, returns, body⟩ m' := by
  refine .of_succ fun c n hn => ?_
  simp only [room, List.length_cons] at hn
  show function (n + 1) r (c.to _) = _
  rw [function, bind_of_ok (expectName_of_eq hname), bind_of_ok (expect_of_eq hopening)]
  have hbody := hbody c n (by simp only [room]; omega)
  -- Whether there are parameters is decided by the next token.
  rcases hparams with ⟨rfl, hm⟩ | ⟨hlacks, hparams⟩
  · rw [hm, bind_of_ok (upNext_of_eq hclosing)]
    simp only [if_true]
    rw [bind_of_ok (pure_eq_ok.mpr ⟨rfl, rfl⟩), bind_of_ok (expect_of_eq hclosing),
      bind_of_ok (hreturns c), bind_of_ok (expect_of_eq hbrace), bind_of_ok hbody]
    rfl
  · rw [bind_of_ok (upNext_of_lacks hlacks)]
    simp only [Bool.false_eq_true, if_false]
    rw [bind_of_ok (hparams c n (by simp only [room]; omega)), bind_of_ok (expect_of_eq hclosing),
      bind_of_ok (hreturns c), bind_of_ok (expect_of_eq hbrace), bind_of_ok hbody]
    rfl

theorem block_takes {ss : List Stmt} (h : Takes declarations 15 m ss ⟨t :: ts, i⟩)
    (ht : t.kind = .symbol .rightBrace) : Takes block 16 m ss ⟨ts, i⟩ := by
  refine .of_succ fun c n hn => ?_
  rw [block, bind_of_ok (h c n hn), bind_of_ok (expect_of_eq ht)]
  rfl

theorem declarations_nil (ht : t.kind = .symbol .rightBrace) :
    Takes declarations 15 ⟨t :: ts, i⟩ [] ⟨t :: ts, i⟩ := by
  refine .of_succ fun c n hn => ?_
  rw [declarations, bind_of_ok (upNext_of_eq ht)]
  rfl

theorem declarations_cons {s : Stmt} {ss : List Stmt} (h : Takes declaration 14 m (some s) m')
    (hss : Takes declarations 15 m' ss m'') (hm : m.Lacks [.symbol .rightBrace])
    (hlength : m'.ahead.length < m.ahead.length) : Takes declarations 15 m (s :: ss) m'' := by
  refine .of_succ fun c n hn => ?_
  unfold room at hn
  rw [declarations, bind_of_ok (upNext_of_lacks hm), bind_of_ok (atEnd_of_lt hlength)]
  simp only [Bool.or_self, Bool.false_eq_true, if_false]
  rw [bind_of_ok (h c n (by unfold room; omega)), bind_of_ok (hss c n (by unfold room; omega))]
  rfl

/-- A program ends with the tokens. -/
theorem program_nil (hm : m.ahead = []) : Takes program 15 m [] m := by
  refine .of_succ fun c n hn => ?_
  obtain ⟨ts, i⟩ := m
  cases hm
  rfl

theorem program_cons {s : Stmt} {ss : List Stmt} (h : Takes declaration 14 m (some s) m')
    (hss : Takes program 15 m' ss m'') (hlength : m'.ahead.length < m.ahead.length) :
    Takes program 15 m (s :: ss) m'' := by
  refine .of_succ fun c n hn => ?_
  unfold room at hn
  rw [program, bind_of_ok (atEnd_of_lt hlength)]
  simp only [Bool.false_eq_true, if_false]
  rw [bind_of_ok (h c n (by unfold room; omega)), bind_of_ok (hss c n (by unfold room; omega))]
  rfl

/-! ### Derivations -/

/-- What the parser does with the tokens of a phrase, from `m` to `m'`. Where more tokens would
    change how it reads the phrase, none of them follows. -/
def Parsed (m m' : Mark) : Phrase → Prop
  | .declarations ss =>
    (∀ t ts i, m' = ⟨t :: ts, i⟩ → t.kind = .symbol .rightBrace → Takes declarations 15 m ss m') ∧
      (m'.ahead = [] → Takes program 15 m ss m')
  | .declaration s => m'.Lacks [.keyword .kwElse] → Takes declaration 14 m (some s) m'
  | .heritage superclass => Inherits m superclass m'
  | .methods decls =>
    ∀ t ts i, m' = ⟨t :: ts, i⟩ → t.kind = .symbol .rightBrace → Takes methods 2 m decls m'
  | .function decl => ∀ r, Takes (fun n => function n r) 1 m decl m'
  | .parameterList ps => (ps = [] ∧ m = m') ∨ (m.Lacks [.symbol .rightParen] ∧
      (m'.Lacks [.symbol .comma] → ps.length ≤ 255 → Takes (fun n => parameters n 0) 1 m ps m'))
  | .parameters ps => m'.Lacks [.symbol .comma] → ∀ count, count + ps.length ≤ 255 →
      Takes (fun n => parameters n count) 1 m ps m'
  | .type type => ∀ c : Cursor, typeName (c.to m) = .ok type (c.to m')
  | .typeAfter mark type => m'.Lacks [.symbol mark] →
      ∀ c : Cursor, typeAfter mark (c.to m) = .ok type (c.to m')
  | .binding s => Takes valRest 0 m s m'
  | .initializer e => Initialized m e m'
  | .block ss => ∃ t ts i, m = ⟨t :: ts, i⟩ ∧ t.kind = .symbol .leftBrace ∧
      Takes block 16 ⟨ts, i⟩ ss m'
  | .statement s dangling =>
    (dangling = true → m'.Lacks [.keyword .kwElse]) → Takes statement 13 m s m'
  | .firstClause s => Takes forStart 12 m s m'
  | .condition e => ∀ f g, Takes (condition f g) 0 m e m'
  | .optional e => Optional m e m'
  | .expression e => m'.Lacks expressionFollow → Takes expression 12 m e m'
  | .ternary e => m'.Lacks ternaryFollow → Takes ternary 11 m e m'
  | .binary kinds e =>
    ∀ levels, levels.map Level.operators = kinds → levels <:+ Level.all → Chained levels m e m'
  | .unary e => m'.Lacks callFollow → Takes unary 2 m e m'
  | .call e => Leads operand 1 m (fun n => suffixes n e) m'
  | .argumentList es => (es = [] ∧ m = m') ∨ (m.Lacks [.symbol .rightParen] ∧
      (m'.Lacks (.symbol .comma :: expressionFollow) → es.length ≤ 255 →
        Takes (fun n => arguments n 0) 13 m es m'))
  | .arguments es => m'.Lacks (.symbol .comma :: expressionFollow) →
      ∀ count, count + es.length ≤ 255 → Takes (fun n => arguments n count) 13 m es m'
  | .primary e => Takes primary 1 m e m'

/-- No `else` starts a declaration, so none follows the one before. -/
theorem lacks_else_of_declarations {rule : ElseRule} {ss : List Stmt}
    (h : Derives rule m (.declarations ss) m') (hm' : m'.Lacks [.keyword .kwElse]) :
    m.Lacks [.keyword .kwElse] := by
  cases h with
  | declarationsNil => exact hm'
  | declarationsCons hs _ => exact hs.lacks rfl rfl

/-- Every derivation is followed by the parser. -/
theorem parsed_of_derives {p : Phrase} (h : Derives .nearest m p m') : Parsed m m' p := by
  -- By induction on the derivation. What may not follow a phrase is known from the token that does:
  -- the phrase around it goes on with that token.
  induction h with
  | declarationsNil =>
    refine ⟨?_, program_nil⟩
    rintro t ts i rfl ht
    exact declarations_nil ht
  | declarationsCons hs hss ihs ihss =>
    constructor
    · intro t ts i hm' ht
      refine declarations_cons (ihs ?_) (ihss.1 t ts i hm' ht) (hs.lacks rfl rfl) hs.length_le
      exact lacks_else_of_declarations hss (hm' ▸ Mark.lacks_cons (by rw [ht]; decide))
    · intro hm'
      refine program_cons (ihs ?_) (ihss.2 hm') hs.length_le
      exact lacks_else_of_declarations hss (by rintro t ht; rw [hm'] at ht; cases ht)
  | block hopening hss hclosing ih =>
    exact ⟨_, _, _, rfl, hopening, block_takes (ih.1 _ _ _ rfl hclosing) hclosing⟩
  | classDeclaration hk hname hsuper hopening hdecls hclosing ihsuper ihdecls =>
    exact fun _ => declaration_class hk hname ihsuper hopening (ihdecls _ _ _ rfl hclosing) hclosing
  | functionDeclaration hk hdecl ih => exact fun _ => declaration_function hk ih
  | variableDeclaration hk hs ih => exact fun _ => declaration_variable hk ih
  | statementDeclaration hs ih =>
    exact fun hm' => declaration_statement (ih fun _ => hm') (hs.lacks rfl rfl)
  | heritageNone => rfl
  | heritageSome hless hname => exact ⟨_, _, _, _, rfl, rfl, hless, hname, rfl⟩
  | methodsNil =>
    rintro t ts i rfl ht
    exact methods_nil ht
  | methodsCons hdecl hdecls ihdecl ihdecls =>
    intro t ts i hm' ht
    exact methods_cons ihdecl (ihdecls t ts i hm' ht) (hdecl.lacks rfl rfl) hdecl.length_le
  | function hname hopening hparams hclosing hlength hreturns hbody ihparams ihreturns ihbody =>
    intro r
    obtain ⟨brace, vs, k, rfl, hbrace, ihbody⟩ := ihbody
    refine function_takes hname hopening ?_ hclosing
      (ihreturns (Mark.lacks_cons (by rw [hbrace]; decide))) hbrace ihbody
      (Nat.lt_trans hreturns.tail_lt hparams.tail_lt)
    refine ihparams.imp_right fun ⟨hlacks, htakes⟩ => ⟨hlacks, htakes ?_ hlength⟩
    exact Mark.lacks_cons (by rw [hclosing]; decide)
  | parameterListNil => exact .inl ⟨rfl, rfl⟩
  | parameterListSome hps ih =>
    exact .inr ⟨hps.lacks rfl rfl, fun hm' hlength => ih hm' 0 (by omega)⟩
  | parametersOne hname hcolon htype ih =>
    exact fun hm' count hcount => parameters_one hname hcolon ih hm' hcount
  | parametersCons hname hcolon htype hcomma hps ihtype ihps =>
    intro hm' count hcount
    rw [List.length_cons] at hcount
    exact parameters_cons hname hcolon ihtype hcomma (ihps hm' (count + 1) (by omega)) (by omega)
      htype.tail_lt
  | typePlain hword => exact fun c => typeName_plain hword
  | typeNamed hname => exact fun c => typeName_named hname
  | typeAfterNone => exact fun hm' c => typeAfter_none hm'
  | typeAfterSome hsign htype ih => exact fun _ c => typeAfter_some hsign (ih c)
  | binding hname htype he hte hsemicolon ihtype ihe =>
    exact valRest_takes hname (ihtype (Initialized.lacks_colon ihe hsemicolon)) ihe hte hsemicolon
      htype.length_le
  | initializerNone => rfl
  | initializerSome hequal he ih => exact ⟨_, _, _, rfl, hequal, ih⟩
  | forStatement hk hopening hfirst htest hsemicolon hstep hclosing hbody ihfirst ihtest ihstep
      ihbody =>
    intro hm'
    have hle := hfirst.length_le
    exact statement_for hk hopening ihfirst ihtest hsemicolon ihstep hclosing (ihbody hm')
      (Nat.le_of_succ_le hle) (Nat.le_of_lt htest.tail_lt) (Nat.le_of_lt hstep.tail_lt)
  | ifStatement hk htest hyes ihtest ihyes =>
    intro hm'
    exact statement_if hk ihtest (ihyes fun _ => hm' rfl) (hm' rfl) htest.length_le
  | ifElseStatement hk htest hyes hclosed hotherwise hno ihtest ihyes ihno =>
    intro hm'
    -- The branch before an `else` is not one that could take it.
    have hyes' := ihyes fun hopen => by rw [hclosed rfl] at hopen; cases hopen
    exact statement_ifElse hk ihtest hyes' hotherwise (ihno hm') htest.length_le hyes.tail_lt
  | whileStatement hk htest hbody ihtest ihbody =>
    exact fun hm' => statement_while hk ihtest (ihbody hm') htest.length_le
  | returnStatement hk hvalue hsemicolon ih => exact fun _ => statement_return hk ih hsemicolon
  | blockStatement hss ih =>
    obtain ⟨t, ts, i, rfl, ht, hblock⟩ := ih
    exact fun _ => statement_block ht hblock
  | expressionStatement he hsemicolon ih =>
    intro _
    exact statement_expression (ih (Mark.lacks_cons (by rw [hsemicolon]; decide))) hsemicolon
      (he.lacks rfl rfl)
  | firstNone hsemicolon => exact (forStart_none hsemicolon).mono (by omega)
  | firstVariable hk hs ih => exact (forStart_variable hk ih).mono (by omega)
  | firstExpression he hsemicolon ih =>
    exact forStart_expression (ih (Mark.lacks_cons (by rw [hsemicolon]; decide))) hsemicolon
      (he.lacks rfl rfl)
  | condition hopening he hclosing ih =>
    exact fun f g => condition_takes hopening (ih (Mark.lacks_cons (by rw [hclosing]; decide)))
      hclosing
  | optionalNone => rfl
  | optionalSome he ih => exact ⟨he.lacks rfl rfl, ih⟩
  | assign hname hequal hvalue ih => exact fun hm' => expression_assign hname hequal (ih hm')
  | set hobject hdot hname hequal hvalue ihobject ihvalue =>
    intro hm'
    have hlength := hobject.length_le
    simp only [List.length_cons] at hlength
    exact expression_set ihobject hdot hname hequal (ihvalue hm') (hobject.lacks rfl rfl)
      (by omega)
  | plainExpression he ih =>
    exact fun hm' => expression_plain (ih (hm'.mono (List.subset_cons_self _ _)))
      (hm'.mono (by simp [expressionFollow]))
  | choice htest hquestion hyes hcolon hno ihtest ihyes ihno =>
    intro hm'
    exact ternary_choice (ihtest _ operators_all List.suffix_rfl) hquestion
      (ihyes _ operators_all List.suffix_rfl) hcolon (ihno hm') htest.tail_lt hyes.tail_lt
  | plainTernary he ih => exact fun hm' => ternary_plain (ih _ operators_all List.suffix_rfl) hm'
  | operation hleft hop hright ihleft ihright =>
    intro levels hmap hsuffix
    obtain ⟨level, tighter, rfl, rfl, rfl⟩ := List.map_eq_cons_iff.mp hmap
    -- The first level of the parser has the operators of the first level of the grammar.
    rw [← node_eq_operation hop]
    exact (ihleft _ rfl hsuffix).operation hop
      (ihright _ rfl ((List.suffix_cons _ _).trans hsuffix)) hsuffix
      (Nat.le_of_succ_le hright.length_le)
  | operand he ih =>
    intro levels hmap hsuffix
    obtain ⟨level, tighter, rfl, rfl, rfl⟩ := List.map_eq_cons_iff.mp hmap
    exact (ih _ rfl ((List.suffix_cons _ _).trans hsuffix)).operand
      (Nat.le_of_succ_le he.length_le)
  | tightest he ih =>
    intro levels hlevels _
    obtain rfl := List.map_eq_nil_iff.mp hlevels
    exact Chained.tightest ih
  | signed hop he ih => exact fun hm' => unary_signed (ih hm') hop
  | plainUnary he ih => exact fun hm' => unary_of_operand ih (he.lacks rfl rfl) hm'
  | plainCall he ih => exact operand_of_primary ih (Nat.le_of_succ_le he.length_le)
  | call hcallee hopening hargs hclosing hlength ihcallee ihargs =>
    refine operand_call ihcallee hopening hclosing (Nat.le_of_lt hargs.tail_lt) ?_
    refine ihargs.imp_right fun ⟨hlacks, htakes⟩ => ⟨hlacks, htakes ?_ hlength⟩
    exact Mark.lacks_cons (by rw [hclosing]; decide)
  | get hobject hdot hname ih => exact operand_get ih hdot hname
  | argumentListNil => exact .inl ⟨rfl, rfl⟩
  | argumentListSome hes ih =>
    exact .inr ⟨hes.lacks rfl rfl, fun hm' hlength => ih hm' 0 (by omega)⟩
  | argumentsOne he ih =>
    exact fun hm' count hcount => arguments_one (ih (hm'.mono (List.subset_cons_self _ _)))
      (hm'.mono (by simp)) hcount
  | argumentsCons he hcomma hes ihe ihes =>
    intro hm' count hcount
    rw [List.length_cons] at hcount
    exact arguments_cons (ihe (Mark.lacks_cons (by rw [hcomma]; decide))) hcomma
      (ihes hm' (count + 1) (by omega)) (by omega) he.tail_lt
  | constant hvalue => exact primary_constant hvalue
  | this ht => exact primary_this ht
  | super ht hdot hmethod => exact primary_super ht hdot hmethod
  | name ht => exact primary_name ht
  | grouping hopening he hclosing ih =>
    exact primary_grouping hopening (ih (Mark.lacks_cons (by rw [hclosing]; decide))) hclosing

end Parse

/-- A program that a token list derives is the one that it is read as. -/
theorem parse_of_reads {tokens : List Token} {p : Program} (h : Grammar.Reads .nearest tokens p) :
    parse tokens = .ok p := by
  obtain ⟨k, h⟩ := h
  have htakes := (Parse.parsed_of_derives h).2 rfl (.ofTokens tokens) (budget tokens)
  have hle := length_body_le tokens
  have hroom : Parse.room ⟨body tokens, 0⟩ 15 ≤ budget tokens := by
    simp only [Parse.room, budget]
    omega
  have hprogram : Parse.program (budget tokens) (.ofTokens tokens) = .ok p _ := htakes hroom
  rw [parse, hprogram]
  rfl

end ClassScript
