import ClassScript.Program.Parser
import ClassScript.Proofs.Computation
import ClassScript.Proofs.Grammar

namespace ClassScript

open Grammar

/-!
# What is read is in the grammar

Each rule of the parser that succeeds has read a phrase of the grammar, and the tree that it gives
is the tree of that phrase. Rules for expressions report no faults. Rules for statements may report
some and go on, but then the whole reading fails; so they are followed backwards, from a reading
that ends without any reported fault.

* `Cursor.Reads`: from one cursor to another a phrase was read;
* `Parse.ExpressionRules`, `Parse.StatementRules`: what holds of the rules with a given budget;
* `reads_of_parse`: a successful reading has a derivation.
-/

/-- The mark at a cursor. -/
def Cursor.mark (c : Cursor) : Mark := ⟨c.ahead, c.nextId⟩

/-- From `c` to `c'` the token `t` was read. -/
structure Cursor.Passes (c : Cursor) (t : Token) (c' : Cursor) : Prop where
  ahead : c.ahead = t :: c'.ahead
  nextId : c.nextId = c'.nextId
  faults : c'.faults = c.faults

/-- The mark before a token that is read. -/
theorem Cursor.Passes.mark {c c' : Cursor} {t : Token} (h : c.Passes t c') :
    c.mark = ⟨t :: c'.ahead, c'.nextId⟩ := by
  rw [Cursor.mark, h.ahead, h.nextId]

/-- From `c` to `c'` the phrase `p` was read. -/
structure Cursor.Reads (c : Cursor) (p : Phrase) (c' : Cursor) : Prop where
  derives : Derives .nearest c.mark p c'.mark
  faults : c'.faults = c.faults

/-- From `c` to `c'` the statement `s` was read, and no `else` follows an `if` at its end. -/
def Cursor.ReadsStatement (c : Cursor) (s : Stmt) (c' : Cursor) : Prop :=
  ∃ dangling, c.Reads (.statement s dangling) c' ∧
    (dangling = true → c'.mark.Lacks [.keyword .kwElse])

/-! ### Names and properties as phrases -/

namespace Grammar.Derives

variable {rule : ElseRule} {m m' : Mark}

/-- No operator of the given levels stands in a tree that is not an operation. -/
theorem unary_of_binary {levels : List (List Kind)} {e : Expr}
    (h : Derives rule m (.binary levels e) m') (he : ∀ l op r, e ≠ Grammar.operation l op r) :
    Derives rule m (.unary e) m' := by
  induction levels with
  | nil =>
    cases h with
    | tightest h => exact h
  | cons kinds tighter ih =>
    cases h with
    | operation => exact absurd rfl (he _ _ _)
    | operand h => exact ih h

/-- An operation is neither a name nor a property. -/
theorem operation_ne {l r e : Expr} {op : Token}
    (he : (∃ ref, e = .var ref) ∨ ∃ object name, e = .get object name) :
    e ≠ Grammar.operation l op r := by
  unfold Grammar.operation
  rcases he with ⟨ref, rfl⟩ | ⟨object, name, rfl⟩ <;> split <;> simp

/-- A choice between names and properties is a call. -/
theorem call_of_ternary {e : Expr} (h : Derives rule m (.ternary e) m')
    (he : (∃ ref, e = .var ref) ∨ ∃ object name, e = .get object name) :
    Derives rule m (.call e) m' := by
  cases h with
  | choice => simp at he
  | plainTernary h =>
    cases h.unary_of_binary fun _ _ _ => operation_ne he with
    | signed => simp at he
    | plainUnary h => exact h

/-- A name as a call is one identifier. -/
theorem name_of_call {ref : Reference} (h : Derives rule m (.call (.var ref)) m') :
    ∃ t ts i, t.kind = .identifier ∧ ref = ⟨i, t.asName⟩ ∧ m = ⟨t :: ts, i⟩ ∧ m' = ⟨ts, i + 1⟩ := by
  cases h with
  | plainCall h =>
    cases h with
    | name ht => exact ⟨_, _, _, ht, rfl, rfl, rfl⟩

/-- A property as a call is a call, a dot and an identifier. -/
theorem get_of_call {object : Expr} {name : Name}
    (h : Derives rule m (.call (.get object name)) m') :
    ∃ dot t, dot.kind = .symbol .dot ∧ t.kind = .identifier ∧ name = t.asName ∧
      Derives rule m (.call object) ⟨dot :: t :: m'.ahead, m'.nextId⟩ := by
  cases h with
  | plainCall h => cases h
  | get h hdot ht => exact ⟨_, _, hdot, ht, rfl, h⟩

end Grammar.Derives

namespace Parse

variable {c c' c'' : Cursor} {n : Nat}

/-! ### Steps -/

theorem acceptAny_ok {ks : List Kind} {o : Option Token} (h : acceptAny ks c = .ok o c') :
    (o = none ∧ c' = c ∧ c.mark.Lacks ks) ∨ ∃ t, o = some t ∧ t.kind ∈ ks ∧ c.Passes t c' := by
  unfold acceptAny at h
  split at h
  · next t rest ht =>
    split at h
    · next hk =>
      cases h
      exact .inr ⟨t, rfl, hk, ht, rfl, rfl⟩
    · next hk =>
      cases h
      refine .inl ⟨rfl, rfl, ?_⟩
      intro u hu
      rw [Cursor.mark, ht] at hu
      cases hu
      exact hk
  · next ht =>
    cases h
    refine .inl ⟨rfl, rfl, ?_⟩
    intro u hu
    rw [Cursor.mark, ht] at hu
    cases hu

theorem accept_ok {k : Kind} {o : Option Token} (h : accept k c = .ok o c') :
    (o = none ∧ c' = c ∧ c.mark.Lacks [k]) ∨ ∃ t, o = some t ∧ t.kind = k ∧ c.Passes t c' := by
  rcases acceptAny_ok h with h | ⟨t, ho, hk, hp⟩
  · exact .inl h
  · exact .inr ⟨t, ho, List.mem_singleton.mp hk, hp⟩

theorem expect_ok {k : Kind} {fault : SyntaxFault} {t : Token} (h : expect k fault c = .ok t c') :
    t.kind = k ∧ c.Passes t c' := by
  unfold expect at h
  split at h
  · next u rest hu =>
    split at h
    · next hk =>
      cases h
      exact ⟨hk, hu, rfl, rfl⟩
    · cases h
  · cases h

theorem expectName_ok {fault : SyntaxFault} {name : Name} (h : expectName fault c = .ok name c') :
    ∃ t, t.kind = .identifier ∧ name = t.asName ∧ c.Passes t c' := by
  rw [expectName, bind_eq_ok] at h
  obtain ⟨t, c₁, ht, h⟩ := h
  rw [pure_eq_ok] at h
  obtain ⟨rfl, rfl⟩ := h
  obtain ⟨hk, hp⟩ := expect_ok ht
  exact ⟨t, hk, rfl, hp⟩

theorem reference_ok {name : Name} {ref : Reference} (h : reference name c = .ok ref c') :
    ref = ⟨c.nextId, name⟩ ∧ c'.mark = ⟨c.ahead, c.nextId + 1⟩ ∧ c'.faults = c.faults := by
  cases h
  exact ⟨rfl, rfl, rfl⟩

theorem upNext_ok {k : Kind} {b : Bool} (h : upNext k c = .ok b c') : c' = c := by
  cases h
  rfl

theorem atEnd_ok {b : Bool} (h : atEnd c = .ok b c') : b = c.ahead.isEmpty ∧ c' = c := by
  cases h
  exact ⟨rfl, rfl⟩

/-- Looking at the next token and reading it. -/
theorem peek_ok {o : Option Token} (h : peek c = .ok o c') : o = c.ahead.head? ∧ c' = c := by
  cases h
  exact ⟨rfl, rfl⟩

/-- What is passed over is the next token. -/
theorem skip_ok {t : Token} (ht : c.ahead.head? = some t) {u : Unit} (h : skip c = .ok u c') :
    c.Passes t c' := by
  cases h
  cases hc : c.ahead with
  | nil =>
    rw [hc] at ht
    cases ht
  | cons u rest =>
    rw [hc] at ht
    cases ht
    exact ⟨by rw [hc]; rfl, rfl, rfl⟩

/-! ### Expressions -/

/-- The levels of the parser are those of the grammar. -/
theorem operators_all : Level.all.map Level.operators = Grammar.operators := rfl

/-- The tree that a level makes is that of the operator. -/
theorem node_eq_operation {level : Level} {op : Token} (hop : op.kind ∈ level.operators)
    (left right : Expr) : level.node left op right = operation left op right := by
  unfold operation
  cases level <;> simp only [Level.operators, List.mem_cons, List.not_mem_nil, or_false] at hop
  case or => rw [hop]; rfl
  case and => rw [hop]; rfl
  case equality => rcases hop with h | h <;> rw [h] <;> rfl
  case comparison => rcases hop with h | h | h | h <;> rw [h] <;> rfl
  case term => rcases hop with h | h <;> rw [h] <;> rfl
  case factor => rcases hop with h | h | h <;> rw [h] <;> rfl
  case exponent => rw [hop]; rfl

/-- What the rules for expressions read with the budget `n`. A rule that goes on after an operand
    extends the phrase that the operand is the start of. -/
structure ExpressionRules (n : Nat) : Prop where
  expression : ∀ {c c' e}, expression n c = .ok e c' → c.Reads (.expression e) c'
  ternary : ∀ {c c' e}, ternary n c = .ok e c' → c.Reads (.ternary e) c'
  chain : ∀ {c c' levels e}, chain n levels c = .ok e c' →
    c.Reads (.binary (levels.map Level.operators) e) c'
  chainRest : ∀ {c₀ c c' : Cursor} {level tighter left e},
    chainRest n level tighter left c = .ok e c' →
    c₀.Reads (.binary ((level :: tighter).map Level.operators) left) c →
    c₀.Reads (.binary ((level :: tighter).map Level.operators) e) c'
  unary : ∀ {c c' e}, unary n c = .ok e c' → c.Reads (.unary e) c'
  suffixes : ∀ {c₀ c c' : Cursor} {callee e}, suffixes n callee c = .ok e c' →
    c₀.Reads (.call callee) c → c₀.Reads (.call e) c'
  arguments : ∀ {c c' count es}, arguments n count c = .ok es c' →
    c.Reads (.arguments es) c' ∧ count + es.length ≤ 255
  primary : ∀ {c c' e}, primary n c = .ok e c' → c.Reads (.primary e) c'

theorem expression_reads (ih : ExpressionRules n) {e : Expr}
    (h : expression (n + 1) c = .ok e c') : c.Reads (.expression e) c' := by
  rw [expression, bind_eq_ok] at h
  obtain ⟨target, c₁, htarget, h⟩ := h
  have ht := ih.ternary htarget
  rw [bind_eq_ok] at h
  obtain ⟨o, c₂, ho, h⟩ := h
  rcases accept_ok ho with ⟨rfl, rfl, -⟩ | ⟨equal, rfl, hequal, hp⟩
  · obtain ⟨rfl, rfl⟩ := pure_eq_ok.mp h
    exact ⟨.plainExpression ht.derives, ht.faults⟩
  · simp only [bind_eq_ok] at h
    obtain ⟨value, c₃, hvalue, h⟩ := h
    have hv := ih.expression hvalue
    have hf : c₃.faults = c.faults := by rw [hv.faults, hp.faults, ht.faults]
    split at h
    · next ref =>
      obtain ⟨rfl, rfl⟩ := pure_eq_ok.mp h
      -- The target was read as an expression. Since that is a name, it was one token, and the whole
      -- is the phrase for an assignment.
      obtain ⟨t, ts, i, hk, rfl, hm, hm₁⟩ :=
        (ht.derives.call_of_ternary (.inl ⟨_, rfl⟩)).name_of_call
      rw [hp.mark] at hm₁
      injection hm₁ with hts hi
      subst hts
      have hd := hv.derives
      rw [Cursor.mark, hi] at hd
      exact ⟨hm ▸ .assign hk hequal hd, hf⟩
    · next object name =>
      obtain ⟨rfl, rfl⟩ := pure_eq_ok.mp h
      obtain ⟨dot, t, hdot, hk, rfl, hobject⟩ :=
        (ht.derives.call_of_ternary (.inr ⟨_, _, rfl⟩)).get_of_call
      rw [hp.mark] at hobject
      exact ⟨.set hobject hdot hk hequal hv.derives, hf⟩
    · cases h

/-- A choice, or a chain of operators. -/
theorem ternary_reads (ih : ExpressionRules n) {e : Expr} (h : ternary (n + 1) c = .ok e c') :
    c.Reads (.ternary e) c' := by
  rw [ternary, bind_eq_ok] at h
  obtain ⟨test, c₁, htest, h⟩ := h
  have ht := ih.chain htest
  rw [bind_eq_ok] at h
  obtain ⟨o, c₂, ho, h⟩ := h
  rcases accept_ok ho with ⟨rfl, rfl, -⟩ | ⟨question, rfl, hquestion, hp⟩
  · obtain ⟨rfl, rfl⟩ := pure_eq_ok.mp h
    exact ⟨.plainTernary ht.derives, ht.faults⟩
  · simp only [bind_eq_ok] at h
    obtain ⟨yes, c₃, hyes, colon, c₄, hcolon, no, c₅, hno, h⟩ := h
    obtain ⟨rfl, rfl⟩ := pure_eq_ok.mp h
    have hy := ih.chain hyes
    obtain ⟨hk, hq⟩ := expect_ok hcolon
    have hn := ih.ternary hno
    refine ⟨.choice (hp.mark ▸ ht.derives) hquestion (hq.mark ▸ hy.derives) hk hn.derives, ?_⟩
    rw [hn.faults, hq.faults, hy.faults, hp.faults, ht.faults]

theorem chain_reads (ih : ExpressionRules n) {levels : List Level} {e : Expr}
    (h : chain (n + 1) levels c = .ok e c') :
    c.Reads (.binary (levels.map Level.operators) e) c' := by
  cases levels with
  | nil =>
    have hu := ih.unary h
    exact ⟨.tightest hu.derives, hu.faults⟩
  | cons level tighter =>
    rw [chain, bind_eq_ok] at h
    obtain ⟨left, c₁, hleft, h⟩ := h
    have hl := ih.chain hleft
    exact ih.chainRest h ⟨.operand hl.derives, hl.faults⟩

theorem chainRest_reads (ih : ExpressionRules n) {c₀ : Cursor} {level : Level}
    {tighter : List Level} {left e : Expr} (h : chainRest (n + 1) level tighter left c = .ok e c')
    (hl : c₀.Reads (.binary ((level :: tighter).map Level.operators) left) c) :
    c₀.Reads (.binary ((level :: tighter).map Level.operators) e) c' := by
  rw [chainRest, bind_eq_ok] at h
  obtain ⟨o, c₁, ho, h⟩ := h
  rcases acceptAny_ok ho with ⟨rfl, rfl, -⟩ | ⟨op, rfl, hop, hp⟩
  · obtain ⟨rfl, rfl⟩ := pure_eq_ok.mp h
    exact hl
  · simp only [bind_eq_ok] at h
    obtain ⟨right, c₂, hright, h⟩ := h
    have hr := ih.chain hright
    rw [node_eq_operation hop] at h
    refine ih.chainRest h ⟨.operation (hp.mark ▸ hl.derives) hop hr.derives, ?_⟩
    rw [hr.faults, hp.faults, hl.faults]

/-- An operand with its signs. -/
theorem unary_reads (ih : ExpressionRules n) {e : Expr} (h : unary (n + 1) c = .ok e c') :
    c.Reads (.unary e) c' := by
  rw [unary, bind_eq_ok] at h
  obtain ⟨o, c₁, ho, h⟩ := h
  rcases acceptAny_ok ho with ⟨rfl, rfl, -⟩ | ⟨op, rfl, hop, hp⟩
  · simp only [bind_eq_ok] at h
    obtain ⟨callee, c₂, hcallee, h⟩ := h
    have hc := ih.primary hcallee
    have hs := ih.suffixes h ⟨.plainCall hc.derives, hc.faults⟩
    exact ⟨.plainUnary hs.derives, hs.faults⟩
  · simp only [bind_eq_ok] at h
    obtain ⟨operand, c₂, hoperand, h⟩ := h
    obtain ⟨rfl, rfl⟩ := pure_eq_ok.mp h
    have hu := ih.unary hoperand
    simp only [List.mem_cons, List.not_mem_nil, or_false] at hop
    exact ⟨hp.mark ▸ .signed hop hu.derives, by rw [hu.faults, hp.faults]⟩

theorem suffixes_reads (ih : ExpressionRules n) {c₀ : Cursor} {callee e : Expr}
    (h : suffixes (n + 1) callee c = .ok e c') (hc : c₀.Reads (.call callee) c) :
    c₀.Reads (.call e) c' := by
  rw [suffixes, bind_eq_ok] at h
  obtain ⟨o, c₁, ho, h⟩ := h
  rcases acceptAny_ok ho with ⟨rfl, rfl, -⟩ | ⟨t, rfl, ht, hp⟩
  · obtain ⟨rfl, rfl⟩ := pure_eq_ok.mp h
    exact hc
  · have hcall := hc.derives
    rw [hp.mark] at hcall
    simp only at h
    split at h
    · next hopening =>
      rw [bind_eq_ok] at h
      obtain ⟨b, _, hb, h⟩ := h
      rw [upNext_ok hb] at h
      -- Both ways to go on read a list of arguments and then the closing parenthesis.
      obtain ⟨args, c₂, hargs, hlength, h⟩ : ∃ args c₂, c₁.Reads (.argumentList args) c₂ ∧
          args.length ≤ 255 ∧ (do
            let paren ← expect (.symbol .rightParen) .argumentsClose
            suffixes n (.call callee paren.pos args)) c₂ = .ok e c' := by
        split at h
        · exact ⟨[], c₁, ⟨.argumentListNil, rfl⟩, by simp, h⟩
        · rw [bind_eq_ok] at h
          obtain ⟨args, c₂, hargs, h⟩ := h
          obtain ⟨ha, hlength⟩ := ih.arguments hargs
          exact ⟨args, c₂, ⟨.argumentListSome ha.derives, ha.faults⟩, by omega, h⟩
      rw [bind_eq_ok] at h
      obtain ⟨closing, c₃, hclosing, h⟩ := h
      obtain ⟨hk, hq⟩ := expect_ok hclosing
      refine ih.suffixes h ⟨.call hcall hopening (hq.mark ▸ hargs.derives) hk hlength, ?_⟩
      rw [hq.faults, hargs.faults, hp.faults, hc.faults]
    · next hne =>
      have hdot : t.kind = .symbol .dot := by simpa [hne] using ht
      rw [bind_eq_ok] at h
      obtain ⟨name, c₂, hname, h⟩ := h
      obtain ⟨u, hu, rfl, hq⟩ := expectName_ok hname
      rw [hq.ahead, hq.nextId] at hcall
      exact ih.suffixes h ⟨.get hcall hdot hu, by rw [hq.faults, hp.faults, hc.faults]⟩

/-- Arguments, of which there are at most 255. -/
theorem arguments_reads (ih : ExpressionRules n) {count : Nat} {es : List Expr}
    (h : arguments (n + 1) count c = .ok es c') :
    c.Reads (.arguments es) c' ∧ count + es.length ≤ 255 := by
  rw [arguments] at h
  split at h
  · cases h
  · next hcount =>
    simp only [listLimit, Nat.not_le] at hcount
    simp only [bind_eq_ok] at h
    obtain ⟨arg, c₁, harg, o, c₂, ho, h⟩ := h
    have ha := ih.expression harg
    rcases accept_ok ho with ⟨rfl, rfl, -⟩ | ⟨comma, rfl, hcomma, hp⟩
    · obtain ⟨rfl, rfl⟩ := pure_eq_ok.mp h
      exact ⟨⟨.argumentsOne ha.derives, ha.faults⟩, hcount⟩
    · simp only [bind_eq_ok] at h
      obtain ⟨more, c₃, hmore, h⟩ := h
      obtain ⟨rfl, rfl⟩ := pure_eq_ok.mp h
      obtain ⟨hm, hlength⟩ := ih.arguments hmore
      refine ⟨⟨.argumentsCons (hp.mark ▸ ha.derives) hcomma hm.derives, ?_⟩, ?_⟩
      · rw [hm.faults, hp.faults, ha.faults]
      · rw [List.length_cons]
        omega

/-- A token that denotes a constant is the constant. -/
theorem constant_reads {t : Token} {value : Literal} {e : Expr} (ht : c.ahead.head? = some t)
    (hvalue : constant? t.kind = some value)
    (h : (do skip; pure (.literal value) : Parse Expr) c = .ok e c') :
    c.Reads (.primary e) c' := by
  rw [bind_eq_ok] at h
  obtain ⟨_, c₁, hskip, h⟩ := h
  obtain ⟨rfl, rfl⟩ := pure_eq_ok.mp h
  have hp := skip_ok ht hskip
  exact ⟨hp.mark ▸ .constant hvalue, hp.faults⟩

/-- A primary expression. -/
theorem primary_reads (ih : ExpressionRules n) {e : Expr} (h : primary (n + 1) c = .ok e c') :
    c.Reads (.primary e) c' := by
  rw [primary, bind_eq_ok] at h
  obtain ⟨o, c₁, ho, h⟩ := h
  obtain ⟨ht, rfl⟩ := peek_ok ho
  cases o with
  | none => cases h
  | some t =>
    simp only at h
    -- The first token decides.
    generalize hk : t.kind = k at h
    split at h
    case h_1 | h_2 | h_3 | h_4 | h_5 => exact constant_reads ht.symm (by rw [hk]; rfl) h
    case h_6 =>
      simp only [bind_eq_ok] at h
      obtain ⟨_, c₂, hskip, dot, c₃, hdot, method, c₄, hmethod, ref, c₅, href, h⟩ := h
      obtain ⟨rfl, rfl⟩ := pure_eq_ok.mp h
      have hp := skip_ok ht.symm hskip
      obtain ⟨hd, hq⟩ := expect_ok hdot
      obtain ⟨u, hu, rfl, hr⟩ := expectName_ok hmethod
      obtain ⟨rfl, hm, hf⟩ := reference_ok href
      refine ⟨?_, by rw [hf, hr.faults, hq.faults, hp.faults]⟩
      rw [hp.mark, hq.ahead, hr.ahead, hq.nextId, hr.nextId, hm]
      exact .super hk hd hu
    case h_7 =>
      simp only [bind_eq_ok] at h
      obtain ⟨_, c₂, hskip, ref, c₃, href, h⟩ := h
      obtain ⟨rfl, rfl⟩ := pure_eq_ok.mp h
      have hp := skip_ok ht.symm hskip
      obtain ⟨rfl, hm, hf⟩ := reference_ok href
      exact ⟨by rw [hp.mark, hm]; exact .this hk, by rw [hf, hp.faults]⟩
    case h_8 =>
      simp only [bind_eq_ok] at h
      obtain ⟨_, c₂, hskip, ref, c₃, href, h⟩ := h
      obtain ⟨rfl, rfl⟩ := pure_eq_ok.mp h
      have hp := skip_ok ht.symm hskip
      obtain ⟨rfl, hm, hf⟩ := reference_ok href
      exact ⟨by rw [hp.mark, hm]; exact .name hk, by rw [hf, hp.faults]⟩
    case h_9 =>
      simp only [bind_eq_ok] at h
      obtain ⟨_, c₂, hskip, inner, c₃, hinner, closing, c₄, hclosing, h⟩ := h
      obtain ⟨rfl, rfl⟩ := pure_eq_ok.mp h
      have hp := skip_ok ht.symm hskip
      have hi := ih.expression hinner
      obtain ⟨hc, hq⟩ := expect_ok hclosing
      refine ⟨?_, by rw [hq.faults, hi.faults, hp.faults]⟩
      rw [hp.mark]
      exact .grouping hk (hq.mark ▸ hi.derives) hc
    case h_10 => cases h

/-- What the rules for expressions read, whatever the budget. -/
theorem expressionRules (n : Nat) : ExpressionRules n := by
  induction n with
  | zero =>
    -- Without a budget no rule ends well.
    exact ⟨nofun, nofun, nofun, fun h => (nomatch h), nofun, fun h => (nomatch h), nofun, nofun⟩
  | succ n ih =>
    exact ⟨expression_reads ih, ternary_reads ih, chain_reads ih, chainRest_reads ih,
      unary_reads ih, suffixes_reads ih, arguments_reads ih, primary_reads ih⟩

/-! ### Types, parameters and clauses -/

/-- A type. -/
theorem typeName_reads {type : TypeName} (h : typeName c = .ok type c') :
    c.Reads (.type type) c' := by
  rw [typeName, bind_eq_ok] at h
  obtain ⟨o, c₁, ho, h⟩ := h
  obtain ⟨ht, rfl⟩ := peek_ok ho
  cases o with
  | none => cases h
  | some t =>
    rw [bind_eq_ok] at h
    obtain ⟨_, c₂, hskip, h⟩ := h
    have hp := skip_ok ht.symm hskip
    generalize hk : t.kind = k at h
    split at h
    case h_1 | h_2 | h_3 | h_4 =>
      obtain ⟨rfl, rfl⟩ := pure_eq_ok.mp h
      exact ⟨hp.mark ▸ .typePlain (by rw [hk]; rfl), hp.faults⟩
    case h_5 =>
      rw [bind_eq_ok] at h
      obtain ⟨ref, c₃, href, h⟩ := h
      obtain ⟨rfl, rfl⟩ := pure_eq_ok.mp h
      obtain ⟨rfl, hm, hf⟩ := reference_ok href
      exact ⟨by rw [hp.mark, hm]; exact .typeNamed hk, by rw [hf, hp.faults]⟩
    case h_6 => cases h

/-- A type behind its mark, or none. -/
theorem typeAfter_reads {mark : Symbol} {type : Option TypeName}
    (h : typeAfter mark c = .ok type c') : c.Reads (.typeAfter mark type) c' := by
  rw [typeAfter, bind_eq_ok] at h
  obtain ⟨o, c₁, ho, h⟩ := h
  rcases accept_ok ho with ⟨rfl, rfl, -⟩ | ⟨sign, rfl, hsign, hp⟩
  · obtain ⟨rfl, rfl⟩ := pure_eq_ok.mp h
    exact ⟨.typeAfterNone, rfl⟩
  · simp only [bind_eq_ok] at h
    obtain ⟨type, c₂, htype, h⟩ := h
    obtain ⟨rfl, rfl⟩ := pure_eq_ok.mp h
    have ht := typeName_reads htype
    exact ⟨hp.mark ▸ .typeAfterSome hsign ht.derives, by rw [ht.faults, hp.faults]⟩

/-- Parameters, of which there are at most 255. -/
theorem parameters_reads {count : Nat} {ps : List Param} (h : parameters n count c = .ok ps c') :
    c.Reads (.parameters ps) c' ∧ count + ps.length ≤ 255 := by
  induction n generalizing count ps c with
  | zero => cases h
  | succ n ih =>
    rw [parameters] at h
    split at h
    · cases h
    · next hcount =>
      simp only [listLimit, Nat.not_le] at hcount
      simp only [bind_eq_ok] at h
      obtain ⟨name, c₁, hname, colon, c₂, hcolon, type, c₃, htype, o, c₄, ho, h⟩ := h
      obtain ⟨t, ht, rfl, hp⟩ := expectName_ok hname
      obtain ⟨hk, hq⟩ := expect_ok hcolon
      have hr := typeName_reads htype
      have hm : c.mark = ⟨t :: colon :: c₂.ahead, c₂.nextId⟩ := by
        rw [hp.mark, hq.ahead, hq.nextId]
      have hf : c₃.faults = c.faults := by rw [hr.faults, hq.faults, hp.faults]
      rcases accept_ok ho with ⟨rfl, rfl, -⟩ | ⟨comma, rfl, hcomma, hs⟩
      · obtain ⟨rfl, rfl⟩ := pure_eq_ok.mp h
        exact ⟨⟨hm ▸ .parametersOne ht hk hr.derives, hf⟩, hcount⟩
      · simp only [bind_eq_ok] at h
        obtain ⟨more, c₅, hmore, h⟩ := h
        obtain ⟨rfl, rfl⟩ := pure_eq_ok.mp h
        obtain ⟨hps, hlength⟩ := ih hmore
        refine ⟨⟨?_, by rw [hps.faults, hs.faults, hf]⟩, ?_⟩
        · exact hm ▸ .parametersCons ht hk (hs.mark ▸ hr.derives) hcomma hps.derives
        · rw [List.length_cons]
          omega

/-- An expression up to what closes it, or none. -/
theorem expressionUntil_reads {close : Symbol} {e : Option Expr}
    (h : expressionUntil close n c = .ok e c') : c.Reads (.optional e) c' := by
  rw [expressionUntil, bind_eq_ok] at h
  obtain ⟨b, c₁, hb, h⟩ := h
  rw [upNext_ok hb] at h
  split at h
  · obtain ⟨rfl, rfl⟩ := pure_eq_ok.mp h
    exact ⟨.optionalNone, rfl⟩
  · obtain ⟨e, he, rfl⟩ := map_eq_ok.mp h
    have hr := (expressionRules n).expression he
    exact ⟨.optionalSome hr.derives, hr.faults⟩

/-- A condition between parentheses. -/
theorem condition_reads {opening closing : SyntaxFault} {e : Expr}
    (h : condition opening closing n c = .ok e c') : c.Reads (.condition e) c' := by
  simp only [condition, bind_eq_ok] at h
  obtain ⟨t, c₁, ht, e, c₂, he, u, c₃, hu, h⟩ := h
  obtain ⟨rfl, rfl⟩ := pure_eq_ok.mp h
  obtain ⟨hk, hp⟩ := expect_ok ht
  have hr := (expressionRules n).expression he
  obtain ⟨hk', hq⟩ := expect_ok hu
  refine ⟨?_, by rw [hq.faults, hr.faults, hp.faults]⟩
  rw [hp.mark]
  exact .condition hk (hq.mark ▸ hr.derives) hk'

theorem valRest_reads {s : Stmt} (h : valRest n c = .ok s c') : c.Reads (.binding s) c' := by
  simp only [valRest, bind_eq_ok] at h
  obtain ⟨name, c₁, hname, type, c₂, htype, o, c₃, ho, h⟩ := h
  obtain ⟨t, ht, rfl, hp⟩ := expectName_ok hname
  have hr := typeAfter_reads htype
  -- With an initializer or without one, what is left is the same.
  obtain ⟨e, c₄, he, h⟩ : ∃ e c₄, c₂.Reads (.initializer e) c₄ ∧ (do
      if type.isNone && e.isNone then failAt t.pos .valueOrType
      let _ ← expect (.symbol .semicolon) .variableEnd
      return .val t.asName type e : Parse Stmt) c₄ = .ok s c' := by
    rcases accept_ok ho with ⟨rfl, rfl, -⟩ | ⟨equal, rfl, hequal, hq⟩
    · exact ⟨none, c₃, ⟨.initializerNone, rfl⟩, h⟩
    · simp only at h
      rw [bind_eq_ok] at h
      obtain ⟨_, c₄, hsome, h⟩ := h
      obtain ⟨e, he, rfl⟩ := map_eq_ok.mp hsome
      have hi := (expressionRules n).expression he
      exact ⟨some e, c₄,
        ⟨hq.mark ▸ .initializerSome hequal hi.derives, by rw [hi.faults, hq.faults]⟩, h⟩
  split at h
  · cases h
  · next hsome =>
    rw [bind_eq_ok] at h
    obtain ⟨semicolon, c₅, hsemicolon, h⟩ := h
    obtain ⟨rfl, rfl⟩ := pure_eq_ok.mp h
    obtain ⟨hk, hq⟩ := expect_ok hsemicolon
    have hte : type.isSome ∨ e.isSome := by
      cases type <;> cases e <;> simp_all
    refine ⟨?_, by rw [hq.faults, he.faults, hr.faults, hp.faults]⟩
    rw [hp.mark]
    exact .binding ht hr.derives (hq.mark ▸ he.derives) hte hk

/-- An expression and its semicolon. -/
theorem expressionStatement_reads {s : Stmt} (h : expressionStatement n c = .ok s c') :
    ∃ e t c₁, s = .expression e ∧ t.kind = .symbol .semicolon ∧ c.Reads (.expression e) c₁ ∧
      c₁.Passes t c' := by
  simp only [expressionStatement, bind_eq_ok] at h
  obtain ⟨e, c₁, he, t, c₂, ht, h⟩ := h
  obtain ⟨rfl, rfl⟩ := pure_eq_ok.mp h
  obtain ⟨hk, hp⟩ := expect_ok ht
  exact ⟨e, t, c₁, rfl, hk, (expressionRules n).expression he, hp⟩

/-- The first clause of a `for` loop. -/
theorem forStart_reads {s : Option Stmt} (h : forStart n c = .ok s c') :
    c.Reads (.firstClause s) c' := by
  rw [forStart, bind_eq_ok] at h
  obtain ⟨o, c₁, ho, h⟩ := h
  rcases acceptAny_ok ho with ⟨rfl, rfl, -⟩ | ⟨t, rfl, ht, hp⟩
  · obtain ⟨s, hs, rfl⟩ := map_eq_ok.mp h
    obtain ⟨e, t, c₂, rfl, hk, hr, hq⟩ := expressionStatement_reads hs
    exact ⟨.firstExpression (hq.mark ▸ hr.derives) hk, by rw [hq.faults, hr.faults]⟩
  · simp only at h
    split at h
    · next hk =>
      obtain ⟨rfl, rfl⟩ := pure_eq_ok.mp h
      exact ⟨hp.mark ▸ .firstNone hk, hp.faults⟩
    · next hne =>
      have hk : t.kind = .keyword .kwVal := by simpa [hne] using ht
      obtain ⟨s, hs, rfl⟩ := map_eq_ok.mp h
      have hr := valRest_reads hs
      exact ⟨hp.mark ▸ .firstVariable hk hr.derives, by rw [hr.faults, hp.faults]⟩

/-! ### Statements -/

/-- What the rules for statements read with the budget `n`, if no fault is reported. The rest of a
    statement is read after the keyword that starts it. -/
structure StatementRules (n : Nat) : Prop where
  declaration : ∀ {c c' o}, declaration n c = .ok o c' → c'.faults = [] →
    ∃ s, o = some s ∧ c.Reads (.declaration s) c'
  classRest : ∀ {c₀ c c' : Cursor} {t s}, classRest n c = .ok s c' → c'.faults = [] →
    t.kind = .keyword .kwClass → c₀.Passes t c → c₀.Reads (.declaration s) c'
  methods : ∀ {c c' decls}, methods n c = .ok decls c' → c'.faults = [] →
    c.Reads (.methods decls) c'
  function : ∀ {c c' r decl}, function n r c = .ok decl c' → c'.faults = [] →
    c.Reads (.function decl) c'
  block : ∀ {c₀ c c' : Cursor} {t ss}, block n c = .ok ss c' → c'.faults = [] →
    t.kind = .symbol .leftBrace → c₀.Passes t c → c₀.Reads (.block ss) c'
  declarations : ∀ {c c' ss}, declarations n c = .ok ss c' → c'.faults = [] →
    c.Reads (.declarations ss) c'
  statement : ∀ {c c' s}, statement n c = .ok s c' → c'.faults = [] → c.ReadsStatement s c'
  forRest : ∀ {c₀ c c' : Cursor} {t s}, forRest n t.pos c = .ok s c' → c'.faults = [] →
    t.kind = .keyword .kwFor → c₀.Passes t c → c₀.ReadsStatement s c'
  ifRest : ∀ {c₀ c c' : Cursor} {t s}, ifRest n t.pos c = .ok s c' → c'.faults = [] →
    t.kind = .keyword .kwIf → c₀.Passes t c → c₀.ReadsStatement s c'
  whileRest : ∀ {c₀ c c' : Cursor} {t s}, whileRest n t.pos c = .ok s c' → c'.faults = [] →
    t.kind = .keyword .kwWhile → c₀.Passes t c → c₀.ReadsStatement s c'

theorem recovering_ok {rule : Parse Stmt} {o : Option Stmt} (h : recovering rule c = .ok o c')
    (hf : c'.faults = []) : ∃ s, o = some s ∧ rule c = .ok s c' := by
  unfold recovering at h
  split at h
  · next s c₁ hs =>
    cases h
    exact ⟨s, rfl, hs⟩
  · cases h
    simp at hf

/-- A declaration. -/
theorem declaration_reads (ih : StatementRules n) {o : Option Stmt}
    (h : declaration (n + 1) c = .ok o c') (hf : c'.faults = []) :
    ∃ s, o = some s ∧ c.Reads (.declaration s) c' := by
  rw [declaration] at h
  obtain ⟨s, rfl, hs⟩ := recovering_ok h hf
  clear h
  refine ⟨s, rfl, ?_⟩
  rw [bind_eq_ok] at hs
  obtain ⟨o, c₁, ho, h⟩ := hs
  rcases acceptAny_ok ho with ⟨rfl, rfl, -⟩ | ⟨t, rfl, ht, hp⟩
  · obtain ⟨d, hs, -⟩ := ih.statement h hf
    exact ⟨.statementDeclaration hs.derives, hs.faults⟩
  · simp only at h
    generalize hk : t.kind = k at h
    split at h
    · exact ih.classRest h hf hk hp
    · obtain ⟨decl, hdecl, rfl⟩ := map_eq_ok.mp h
      have hd := ih.function hdecl hf
      exact ⟨hp.mark ▸ .functionDeclaration hk hd.derives, by rw [hd.faults, hp.faults]⟩
    · next hclass hdef =>
      have hval : t.kind = .keyword .kwVal := by simp_all
      have hv := valRest_reads h
      exact ⟨hp.mark ▸ .variableDeclaration hval hv.derives, by rw [hv.faults, hp.faults]⟩

/-- A class, whose keyword was read before. -/
theorem classRest_reads (ih : StatementRules n) {c₀ : Cursor} {t : Token} {s : Stmt}
    (h : classRest (n + 1) c = .ok s c') (hf : c'.faults = []) (ht : t.kind = .keyword .kwClass)
    (hp : c₀.Passes t c) : c₀.Reads (.declaration s) c' := by
  simp only [classRest, bind_eq_ok] at h
  obtain ⟨name, c₁, hname, o, c₂, ho, h⟩ := h
  obtain ⟨u, hu, rfl, hq⟩ := expectName_ok hname
  -- With a superclass or without one, what is left is the same.
  obtain ⟨superclass, c₃, hsuper, h⟩ : ∃ superclass c₃, c₁.Reads (.heritage superclass) c₃ ∧ (do
      let _ ← expect (.symbol .leftBrace) .classOpen
      let methods ← methods n
      let _ ← expect (.symbol .rightBrace) .classClose
      return .classDecl u.asName superclass methods : Parse Stmt) c₃ = .ok s c' := by
    rcases accept_ok ho with ⟨rfl, rfl, -⟩ | ⟨less, rfl, hless, hr⟩
    · exact ⟨none, c₂, ⟨.heritageNone, rfl⟩, h⟩
    · simp only at h
      rw [bind_eq_ok] at h
      obtain ⟨superclass, c₃, hsuper, h⟩ := h
      rw [bind_eq_ok] at h
      obtain ⟨_, c₄, hsome, h⟩ := h
      obtain ⟨ref, href, rfl⟩ := map_eq_ok.mp hsome
      obtain ⟨v, hv, rfl, hs⟩ := expectName_ok hsuper
      obtain ⟨rfl, hm, hf⟩ := reference_ok href
      refine ⟨_, c₄, ⟨?_, by rw [hf, hs.faults, hr.faults]⟩, h⟩
      rw [hr.mark, hs.ahead, hs.nextId, hm]
      exact .heritageSome hless hv
  simp only [bind_eq_ok] at h
  obtain ⟨opening, c₄, hopening, decls, c₅, hdecls, closing, c₆, hclosing, h⟩ := h
  obtain ⟨rfl, rfl⟩ := pure_eq_ok.mp h
  obtain ⟨hk, ho⟩ := expect_ok hopening
  obtain ⟨hk', hc⟩ := expect_ok hclosing
  have hd := ih.methods hdecls (by rw [← hc.faults, hf])
  refine ⟨?_, by rw [hc.faults, hd.faults, ho.faults, hsuper.faults, hq.faults, hp.faults]⟩
  rw [hp.mark, hq.ahead, hq.nextId]
  exact .classDeclaration ht hu (ho.mark ▸ hsuper.derives) hk (hc.mark ▸ hd.derives) hk'

/-- The methods of a class. -/
theorem methods_reads (ih : StatementRules n) {decls : List FunctionDecl}
    (h : methods (n + 1) c = .ok decls c') (hf : c'.faults = []) :
    c.Reads (.methods decls) c' := by
  simp only [methods, bind_eq_ok] at h
  obtain ⟨a, c₁, ha, b, c₂, hb, h⟩ := h
  obtain rfl := upNext_ok ha
  obtain ⟨-, rfl⟩ := atEnd_ok hb
  split at h
  · obtain ⟨rfl, rfl⟩ := pure_eq_ok.mp h
    exact ⟨.methodsNil, rfl⟩
  · simp only [bind_eq_ok] at h
    obtain ⟨decl, c₃, hdecl, more, c₄, hmore, h⟩ := h
    obtain ⟨rfl, rfl⟩ := pure_eq_ok.mp h
    have hm := ih.methods hmore hf
    have hd := ih.function hdecl (by rw [← hm.faults, hf])
    exact ⟨.methodsCons hd.derives hm.derives, by rw [hm.faults, hd.faults]⟩

/-- A function behind its keyword. -/
theorem function_reads (ih : StatementRules n) {r : Routine} {decl : FunctionDecl}
    (h : function (n + 1) r c = .ok decl c') (hf : c'.faults = []) :
    c.Reads (.function decl) c' := by
  simp only [function, bind_eq_ok] at h
  obtain ⟨name, c₁, hname, opening, c₂, hopening, b, c₃, hb, h⟩ := h
  obtain ⟨t, ht, rfl, hp⟩ := expectName_ok hname
  obtain ⟨hk, ho⟩ := expect_ok hopening
  rw [upNext_ok hb] at h
  -- With parameters or without them, what is left is the same.
  obtain ⟨params, c₄, hparams, hlength, h⟩ : ∃ params c₄, c₂.Reads (.parameterList params) c₄ ∧
      params.length ≤ 255 ∧ (do
        let _ ← expect (.symbol .rightParen) .parametersClose
        let returns ← typeAfter .arrow
        let _ ← expect (.symbol .leftBrace) (.routineBody r)
        let body ← block n
        return ⟨t.asName, params, returns, body⟩ : Parse FunctionDecl) c₄ = .ok decl c' := by
    split at h
    · exact ⟨[], c₂, ⟨.parameterListNil, rfl⟩, by simp, h⟩
    · rw [bind_eq_ok] at h
      obtain ⟨params, c₄, hparams, h⟩ := h
      obtain ⟨hr, hlength⟩ := parameters_reads hparams
      exact ⟨params, c₄, ⟨.parameterListSome hr.derives, hr.faults⟩, by omega, h⟩
  simp only [bind_eq_ok] at h
  obtain ⟨closing, c₅, hclosing, returns, c₆, hreturns, brace, c₇, hbrace, body, c₈, hbody, h⟩ := h
  obtain ⟨rfl, rfl⟩ := pure_eq_ok.mp h
  obtain ⟨hk', hc⟩ := expect_ok hclosing
  have hr := typeAfter_reads hreturns
  obtain ⟨hkb, hb⟩ := expect_ok hbrace
  have hbl := ih.block hbody hf hkb hb
  refine ⟨?_, ?_⟩
  · rw [hp.mark, ho.ahead, ho.nextId]
    exact .function ht hk (hc.mark ▸ hparams.derives) hk' hlength hr.derives hbl.derives
  · rw [hbl.faults, hr.faults, hc.faults, hparams.faults, ho.faults, hp.faults]

/-- A block, whose brace was read before. -/
theorem block_reads (ih : StatementRules n) {c₀ : Cursor} {t : Token} {ss : List Stmt}
    (h : block (n + 1) c = .ok ss c') (hf : c'.faults = []) (ht : t.kind = .symbol .leftBrace)
    (hp : c₀.Passes t c) : c₀.Reads (.block ss) c' := by
  simp only [block, bind_eq_ok] at h
  obtain ⟨ss, c₁, hss, closing, c₂, hclosing, h⟩ := h
  obtain ⟨rfl, rfl⟩ := pure_eq_ok.mp h
  obtain ⟨hk, hq⟩ := expect_ok hclosing
  have hd := ih.declarations hss (by rw [← hq.faults, hf])
  refine ⟨?_, by rw [hq.faults, hd.faults, hp.faults]⟩
  rw [hp.mark]
  exact .block ht (hq.mark ▸ hd.derives) hk

/-- The declarations of a block. -/
theorem declarations_reads (ih : StatementRules n) {ss : List Stmt}
    (h : declarations (n + 1) c = .ok ss c') (hf : c'.faults = []) :
    c.Reads (.declarations ss) c' := by
  simp only [declarations, bind_eq_ok] at h
  obtain ⟨a, c₁, ha, b, c₂, hb, h⟩ := h
  obtain rfl := upNext_ok ha
  obtain ⟨-, rfl⟩ := atEnd_ok hb
  split at h
  · obtain ⟨rfl, rfl⟩ := pure_eq_ok.mp h
    exact ⟨.declarationsNil, rfl⟩
  · simp only [bind_eq_ok] at h
    obtain ⟨o, c₃, ho, more, c₄, hmore, h⟩ := h
    obtain ⟨rfl, rfl⟩ := pure_eq_ok.mp h
    have hm := ih.declarations hmore hf
    obtain ⟨s, rfl, hs⟩ := ih.declaration ho (by rw [← hm.faults, hf])
    exact ⟨.declarationsCons hs.derives hm.derives, by rw [hm.faults, hs.faults]⟩

theorem returnRest_reads {c₀ : Cursor} {t : Token} {s : Stmt} (h : returnRest t.pos n c = .ok s c')
    (ht : t.kind = .keyword .kwReturn) (hp : c₀.Passes t c) : c₀.ReadsStatement s c' := by
  simp only [returnRest, bind_eq_ok] at h
  obtain ⟨value, c₁, hvalue, semicolon, c₂, hsemicolon, h⟩ := h
  obtain ⟨rfl, rfl⟩ := pure_eq_ok.mp h
  have hv := expressionUntil_reads hvalue
  obtain ⟨hk, hq⟩ := expect_ok hsemicolon
  refine ⟨false, ⟨?_, by rw [hq.faults, hv.faults, hp.faults]⟩, nofun⟩
  rw [hp.mark]
  exact .returnStatement ht (hq.mark ▸ hv.derives) hk

theorem statement_reads (ih : StatementRules n) {s : Stmt} (h : statement (n + 1) c = .ok s c')
    (hf : c'.faults = []) : c.ReadsStatement s c' := by
  simp only [statement, bind_eq_ok] at h
  obtain ⟨o, c₁, ho, h⟩ := h
  rcases acceptAny_ok ho with ⟨rfl, rfl, -⟩ | ⟨t, rfl, ht, hp⟩
  · obtain ⟨e, t, c₂, rfl, hk, hr, hq⟩ := expressionStatement_reads h
    exact ⟨false, ⟨.expressionStatement (hq.mark ▸ hr.derives) hk, by rw [hq.faults, hr.faults]⟩,
      nofun⟩
  · simp only at h
    generalize hk : t.kind = k at h
    split at h
    · exact ih.forRest h hf hk hp
    · exact ih.ifRest h hf hk hp
    · exact returnRest_reads h hk hp
    · exact ih.whileRest h hf hk hp
    · next hfor hif hreturn hwhile =>
      have hbrace : t.kind = .symbol .leftBrace := by simp_all
      obtain ⟨ss, hss, rfl⟩ := map_eq_ok.mp h
      have hb := ih.block hss hf hbrace hp
      exact ⟨false, ⟨.blockStatement hb.derives, hb.faults⟩, nofun⟩

/-- The loop that a `for` is read as is the one of the grammar. -/
theorem forLoop_eq_desugared (keyword : Position) (first : Option Stmt) (test step : Option Expr)
    (body : Stmt) :
    forLoop keyword first test step body = desugared keyword first test step body := by
  cases first <;> cases step <;> rfl

/-- A `for` loop, whose keyword was read before. -/
theorem forRest_reads (ih : StatementRules n) {c₀ : Cursor} {t : Token} {s : Stmt}
    (h : forRest (n + 1) t.pos c = .ok s c') (hf : c'.faults = []) (ht : t.kind = .keyword .kwFor)
    (hp : c₀.Passes t c) : c₀.ReadsStatement s c' := by
  simp only [forRest, bind_eq_ok] at h
  obtain ⟨opening, c₁, hopening, first, c₂, hfirst, test, c₃, htest, semicolon, c₄, hsemicolon,
    step, c₅, hstep, closing, c₆, hclosing, body, c₇, hbody, h⟩ := h
  obtain ⟨rfl, rfl⟩ := pure_eq_ok.mp h
  obtain ⟨hko, ho⟩ := expect_ok hopening
  have hfi := forStart_reads hfirst
  have hte := expressionUntil_reads htest
  obtain ⟨hks, hs⟩ := expect_ok hsemicolon
  have hst := expressionUntil_reads hstep
  obtain ⟨hkc, hc⟩ := expect_ok hclosing
  obtain ⟨d, hb, hd⟩ := ih.statement hbody hf
  refine ⟨d, ⟨?_, ?_⟩, hd⟩
  · rw [forLoop_eq_desugared, hp.mark, ho.ahead, ho.nextId]
    exact .forStatement ht hko hfi.derives (hs.mark ▸ hte.derives) hks (hc.mark ▸ hst.derives) hkc
      hb.derives
  · rw [hb.faults, hc.faults, hst.faults, hs.faults, hte.faults, hfi.faults, ho.faults, hp.faults]

theorem ifRest_reads (ih : StatementRules n) {c₀ : Cursor} {t : Token} {s : Stmt}
    (h : ifRest (n + 1) t.pos c = .ok s c') (hf : c'.faults = []) (ht : t.kind = .keyword .kwIf)
    (hp : c₀.Passes t c) : c₀.ReadsStatement s c' := by
  simp only [ifRest, bind_eq_ok] at h
  obtain ⟨test, c₁, htest, yes, c₂, hyes, o, c₃, ho, h⟩ := h
  have hte := condition_reads htest
  rcases accept_ok ho with ⟨rfl, rfl, hlacks⟩ | ⟨otherwise, rfl, hk, hq⟩
  · obtain ⟨rfl, rfl⟩ := pure_eq_ok.mp h
    obtain ⟨d, hy, -⟩ := ih.statement hyes hf
    refine ⟨true, ⟨?_, by rw [hy.faults, hte.faults, hp.faults]⟩, fun _ => hlacks⟩
    rw [hp.mark]
    exact .ifStatement ht hte.derives hy.derives
  · simp only [bind_eq_ok] at h
    obtain ⟨no, c₄, hno, h⟩ := h
    obtain ⟨rfl, rfl⟩ := pure_eq_ok.mp h
    obtain ⟨d', hn, hd'⟩ := ih.statement hno hf
    obtain ⟨d, hy, hd⟩ := ih.statement hyes (by rw [← hq.faults, ← hn.faults, hf])
    -- The `else` that follows was not taken by the branch before it, so the branch is closed.
    have hclosed : d = false := by
      cases d with
      | false => rfl
      | true =>
        have hlacks := hd rfl otherwise (by rw [hq.mark]; rfl)
        simp [hk] at hlacks
    refine ⟨d', ⟨?_, by rw [hn.faults, hq.faults, hy.faults, hte.faults, hp.faults]⟩, hd'⟩
    rw [hp.mark]
    exact .ifElseStatement ht hte.derives (hq.mark ▸ hy.derives) (fun _ => hclosed) hk hn.derives

/-- A loop, whose keyword was read before. -/
theorem whileRest_reads (ih : StatementRules n) {c₀ : Cursor} {t : Token} {s : Stmt}
    (h : whileRest (n + 1) t.pos c = .ok s c') (hf : c'.faults = [])
    (ht : t.kind = .keyword .kwWhile) (hp : c₀.Passes t c) : c₀.ReadsStatement s c' := by
  simp only [whileRest, bind_eq_ok] at h
  obtain ⟨test, c₁, htest, body, c₂, hbody, h⟩ := h
  obtain ⟨rfl, rfl⟩ := pure_eq_ok.mp h
  have hte := condition_reads htest
  obtain ⟨d, hb, hd⟩ := ih.statement hbody hf
  refine ⟨d, ⟨?_, by rw [hb.faults, hte.faults, hp.faults]⟩, hd⟩
  rw [hp.mark]
  exact .whileStatement ht hte.derives hb.derives

/-- What the rules for statements read, whatever the budget. -/
theorem statementRules (n : Nat) : StatementRules n := by
  induction n with
  | zero =>
    refine ⟨?_, fun h => (nomatch h), nofun, nofun, fun h => (nomatch h), nofun, nofun,
      fun h => (nomatch h), fun h => (nomatch h), fun h => (nomatch h)⟩
    intro c c' o h hf
    rw [declaration] at h
    obtain ⟨s, -, hs⟩ := recovering_ok h hf
    cases hs
  | succ n ih =>
    exact ⟨declaration_reads ih, classRest_reads ih, methods_reads ih, function_reads ih,
      block_reads ih, declarations_reads ih, statement_reads ih, forRest_reads ih, ifRest_reads ih,
      whileRest_reads ih⟩

theorem program_reads {p : Program} (h : program n c = .ok p c') (hf : c'.faults = []) :
    c.Reads (.declarations p) c' ∧ c'.ahead = [] := by
  induction n generalizing c p with
  | zero => cases h
  | succ n ih =>
    rw [program, bind_eq_ok] at h
    obtain ⟨b, c₁, hb, h⟩ := h
    obtain ⟨rfl, rfl⟩ := atEnd_ok hb
    split at h
    · next hend =>
      obtain ⟨rfl, rfl⟩ := pure_eq_ok.mp h
      exact ⟨⟨.declarationsNil, rfl⟩, List.isEmpty_iff.mp hend⟩
    · simp only [bind_eq_ok] at h
      obtain ⟨o, c₂, ho, more, c₃, hmore, h⟩ := h
      obtain ⟨rfl, rfl⟩ := pure_eq_ok.mp h
      obtain ⟨hm, hend⟩ := ih hmore
      obtain ⟨s, rfl, hs⟩ := (statementRules n).declaration ho (by rw [← hm.faults, hf])
      exact ⟨⟨.declarationsCons hs.derives hm.derives, by rw [hm.faults, hs.faults]⟩, hend⟩

end Parse

/-- The program that a token list is read as is one that it derives. -/
theorem reads_of_parse {tokens : List Token} {p : Program} (h : parse tokens = .ok p) :
    Grammar.Reads .nearest tokens p := by
  unfold parse at h
  split at h
  · next ss c hc =>
    split at h
    · next hf =>
      cases h
      obtain ⟨hr, hend⟩ := Parse.program_reads hc (List.isEmpty_iff.mp hf)
      have hd := hr.derives
      rw [Cursor.mark, Cursor.mark, hend] at hd
      exact ⟨c.nextId, hd⟩
    · cases h
  · cases h

end ClassScript
