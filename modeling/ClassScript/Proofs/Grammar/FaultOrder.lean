import ClassScript.Pipeline
import ClassScript.Proofs.Computation
import ClassScript.Proofs.Grammar
import ClassScript.Proofs.Grammar.Recovery
import ClassScript.Proofs.Grammar.Steps
import ClassScript.Proofs.Layout

namespace ClassScript

/-!
# Faults come in order

Reading a token list takes it to its first end of input, whatever stands in it and behind it, asks
for no token outside of it, and reports faults at tokens that follow each other. The tokens of a
source text follow each other in the text, so its faults are reported in the order of the text.

* `positionOf`: the position that belongs to an index of a token list;
* `Cursor.StandsAt`: a cursor at an index of a token list;
* `OrderlyReading`: how a token list is read;
* `reading_orderly`: every token list is read so, and the failures of a source text are in order.
-/

/-! ### Token lists -/

open Grammar (body length_body_le)

/-- The tokens up to the first end of input, and that one. -/
def upToEnd (tokens : List Token) : List Token :=
  body tokens ++ (tokens.find? Token.isEnd).toList

/-- The list that indices refer to: a list whose last token is no end of input gets one, at the
    position of that token. -/
def terminated (tokens : List Token) : List Token :=
  if tokens.getLast?.any Token.isEnd then tokens
  else tokens ++ [⟨.endOfInput, "", tokens.getLast?.elim .start Token.pos⟩]

/-- The position of the token with index `k`. An end of input that the list lacks counts as standing
    where the last token does. -/
def positionOf (tokens : List Token) (k : Nat) : Position :=
  tokens[k]?.elim (tokens.getLast?.elim .start Token.pos) Token.pos

/-- A token list goes on behind what is read with its first end of input. -/
theorem eq_body_append (tokens : List Token) :
    ∃ rest, tokens = body tokens ++ rest ∧ rest.head? = tokens.find? Token.isEnd := by
  refine ⟨tokens.dropWhile fun t => !t.isEnd, List.takeWhile_append_dropWhile.symm, ?_⟩
  induction tokens with
  | nil => rfl
  | cons t tokens ih =>
    by_cases ht : t.isEnd = true
    · simp [ht]
    · simpa [ht] using ih

/-- No token of the body is the end of the input. -/
theorem not_isEnd_of_mem_body {tokens : List Token} {t : Token} (h : t ∈ body tokens) :
    t.isEnd = false := by
  have hall : (body tokens).all (fun t => !t.isEnd) = true := List.all_takeWhile
  simpa using List.all_eq_true.1 hall t h

/-- The end of the input is not found in the body. -/
theorem find?_body (tokens : List Token) : (body tokens).find? Token.isEnd = none := by
  rw [List.find?_eq_none]
  intro t ht
  simp [not_isEnd_of_mem_body ht]

/-- Without an end of input all tokens are read. -/
theorem body_eq_self {tokens : List Token} (h : tokens.find? Token.isEnd = none) :
    body tokens = tokens := by
  obtain ⟨rest, hrest, hhead⟩ := eq_body_append tokens
  rw [h, List.head?_eq_none_iff] at hhead
  rw [hhead, List.append_nil] at hrest
  exact hrest.symm

/-- What follows the first end of input has no part in reading. -/
theorem ofTokens_upToEnd (tokens : List Token) :
    Cursor.ofTokens (upToEnd tokens) = Cursor.ofTokens tokens := by
  cases hend : tokens.find? Token.isEnd with
  | none =>
    have hself : upToEnd tokens = tokens := by
      rw [upToEnd, hend, body_eq_self hend, Option.toList_none, List.append_nil]
    rw [hself]
  | some t =>
    have ht : t.isEnd = true := List.find?_some hend
    have hall : ∀ u ∈ body tokens, (!u.isEnd) = true := by
      intro u hu
      rw [not_isEnd_of_mem_body hu]
      rfl
    have hfind : (upToEnd tokens).find? Token.isEnd = some t := by
      rw [upToEnd, hend, List.find?_append, find?_body]
      simp [ht]
    have hread : (upToEnd tokens).takeWhile (fun t => !t.isEnd) = body tokens := by
      rw [upToEnd, hend, List.takeWhile_append_of_pos hall]
      simp [ht]
    unfold Cursor.ofTokens
    rw [hfind, hread, hend]
    rfl

/-- Before the first end of input the tokens have the indices that they have among those read. -/
theorem getElem?_of_lt_body {tokens : List Token} {k : Nat} (hk : k < (body tokens).length) :
    tokens[k]? = (body tokens)[k]? := by
  obtain ⟨rest, hrest, -⟩ := eq_body_append tokens
  have hget : (body tokens ++ rest)[k]? = (body tokens)[k]? := List.getElem?_append_left hk
  rwa [← hrest] at hget

/-- The first end of input is the token behind those that are read. -/
theorem getElem?_length_body (tokens : List Token) :
    tokens[(body tokens).length]? = tokens.find? Token.isEnd := by
  obtain ⟨rest, hrest, hhead⟩ := eq_body_append tokens
  have hget : (body tokens ++ rest)[(body tokens).length]? = tokens.find? Token.isEnd := by
    rw [List.getElem?_append_right (Nat.le_refl _), Nat.sub_self, ← hhead, List.head?_eq_getElem?]
  rwa [← hrest] at hget

/-- The position that belongs to an index of the tokens to be read is the one that it has in the
    whole list. -/
theorem spot_ofTokens {tokens : List Token} {k : Nat} (hk : k ≤ (body tokens).length) :
    (Cursor.ofTokens tokens).spot k = positionOf tokens k := by
  show ((body tokens)[k]?).elim (Cursor.ofTokens tokens).stop Token.pos = _
  by_cases hlt : k < (body tokens).length
  · rw [positionOf, getElem?_of_lt_body hlt, List.getElem?_eq_getElem hlt]
    rfl
  · -- Only the index of the end of input is left.
    obtain rfl : k = (body tokens).length := by omega
    rw [positionOf, getElem?_length_body, List.getElem?_eq_none (Nat.le_refl _)]
    unfold Cursor.ofTokens
    cases hend : tokens.find? Token.isEnd with
    | some t => rfl
    | none => cases tokens.getLast? <;> rfl

/-- Up to the first end of input every index belongs to a token, and that of the first end of input
    is the only one that belongs to such a token. -/
theorem exists_terminated {tokens : List Token} {k : Nat} (hk : k ≤ (body tokens).length) :
    ∃ t, (terminated tokens)[k]? = some t ∧ t.pos = positionOf tokens k ∧
      (body tokens)[k]? = if t.isEnd then none else some t := by
  -- An end of input that is put behind the list changes no index of it.
  have hkeeps {t : Token} (ht : tokens[k]? = some t) : (terminated tokens)[k]? = some t := by
    unfold terminated
    split
    · exact ht
    · exact (List.getElem?_append_left (List.getElem?_eq_some_iff.mp ht).1).trans ht
  have hpos {t : Token} (ht : tokens[k]? = some t) : t.pos = positionOf tokens k := by
    rw [positionOf, ht, Option.elim_some]
  by_cases hlt : k < (body tokens).length
  · have hbody : (body tokens)[k]? = some (body tokens)[k] := List.getElem?_eq_getElem hlt
    have htoken := (getElem?_of_lt_body hlt).trans hbody
    refine ⟨(body tokens)[k], hkeeps htoken, hpos htoken, ?_⟩
    rw [hbody, not_isEnd_of_mem_body (List.getElem_mem hlt)]
    rfl
  · obtain rfl : k = (body tokens).length := by omega
    have hnone : (body tokens)[(body tokens).length]? = none :=
      List.getElem?_eq_none (Nat.le_refl _)
    cases hend : tokens.find? Token.isEnd with
    | some t =>
      have htoken := (getElem?_length_body tokens).trans hend
      refine ⟨t, hkeeps htoken, hpos htoken, ?_⟩
      rw [hnone, if_pos (List.find?_some hend)]
    | none =>
      -- All tokens are read, and the end of input stands behind the last of them.
      have hlast : tokens.getLast?.any Token.isEnd = false := by
        cases hlast : tokens.getLast? with
        | none => rfl
        | some t =>
          have hnot := List.find?_eq_none.mp hend t (List.mem_of_getLast? hlast)
          simpa using hnot
      refine ⟨⟨.endOfInput, "", tokens.getLast?.elim .start Token.pos⟩, ?_, ?_, hnone⟩
      · rw [terminated, hlast, body_eq_self hend]
        simp
      · rw [positionOf, body_eq_self hend, List.getElem?_eq_none (Nat.le_refl _)]
        rfl

/-! ### Reading a whole list -/

namespace Parse

/-- With recovery a rule never stops with a fault. -/
theorem recovering_ne_error {rule : Parse Stmt} {c c' : Cursor} {f : Located SyntaxFault} :
    recovering rule c ≠ .error f c' := by
  unfold recovering
  cases rule c <;> simp

/-- A declaration recovers from its faults, and never fails. -/
theorem declaration_ne_error {n : Nat} {c c' : Cursor} {f : Located SyntaxFault} :
    declaration n c ≠ .error f c' := by
  cases n with
  | zero =>
    rw [declaration]
    exact recovering_ne_error
  | succ n =>
    rw [declaration]
    exact recovering_ne_error

/-- A program is read to the end of input, as far as the budget goes. -/
theorem program_cases (n : Nat) (c : Cursor) :
    (∃ f c', program n c = .error f c' ∧ f.what = .tooDeep) ∨
      ∃ statements c', program n c = .ok statements c' ∧ c'.ahead = [] := by
  induction n generalizing c with
  | zero => exact .inl ⟨_, _, rfl, rfl⟩
  | succ n ih =>
    cases hahead : c.ahead with
    | nil =>
      have hend : atEnd c = .ok true c := by rw [atEnd, hahead]; rfl
      refine .inr ⟨[], c, ?_, hahead⟩
      rw [program, bind_of_ok hend]
      rfl
    | cons t rest =>
      have hmore : atEnd c = .ok false c := by rw [atEnd, hahead]; rfl
      -- A declaration that cannot be read is skipped, so there is always a rest to go on with.
      cases hs : declaration n c with
      | error f c' => exact absurd hs declaration_ne_error
      | ok s c' =>
        have hrest : program (n + 1) c
            = (program n >>= fun more => pure (s.toList ++ more)) c' := by
          rw [program, bind_of_ok hmore]
          exact bind_of_ok hs
        rw [hrest]
        rcases ih c' with ⟨f, c'', hp, hf⟩ | ⟨more, c'', hp, hc⟩
        · exact .inl ⟨f, c'', bind_of_error hp, hf⟩
        · exact .inr ⟨s.toList ++ more, c'', bind_of_ok hp, hc⟩

end Parse

/-- Reading starts at the first token, with no faults. -/
theorem reached_ofTokens (tokens : List Token) :
    Cursor.Reached (.ofTokens tokens) 0 0 [] (.ofTokens tokens) := by
  refine ⟨⟨Nat.zero_le _, rfl, rfl⟩, Nat.le_refl _, rfl, ?_, .nil, ?_⟩
  · intro f hf
    cases hf
  · intro k hk
    cases hk

/-- The indices at which reading a token list reports faults: there are no more of them than tokens
    that are read, and they grow up to the end of input. -/
structure FaultsAt (tokens : List Token) (faults : List (Located SyntaxFault)) (ks : List Nat) :
    Prop where
  positions : faults.map Located.pos = ks.map (positionOf tokens)
  in_list : ∀ k ∈ ks, k ≤ (body tokens).length
  ordered : ks.Pairwise (Precedes (body tokens).length)
  count_le : faults.length ≤ (body tokens).length
  genuine : ∀ f ∈ faults, f.what ≠ .tooDeep

/-- With a budget that leaves room, a token list is read to its end. -/
theorem program_ends (tokens : List Token) :
    ∃ statements c ks,
      (∀ n, 20 * (body tokens).length + 15 ≤ n →
        Parse.program n (.ofTokens tokens) = .ok statements c) ∧
      c.ahead = [] ∧ FaultsAt tokens c.faults ks := by
  have hlength : (Cursor.ofTokens tokens).ahead.length = (body tokens).length := rfl
  have hroom (n : Nat) (hn : 20 * (body tokens).length + 15 ≤ n) :
      Parse.Covered (.ofTokens tokens) 0 15 (20 * (body tokens).length + 15) n :=
    ⟨by omega, by omega⟩
  have hagree (n : Nat) (hn : 20 * (body tokens).length + 15 ≤ n) :=
    Parse.program_agree (hroom n hn) [] _ (reached_ofTokens tokens)
  -- The smallest budget is compared with every other one, and with itself for how it ends.
  obtain ⟨-, hend⟩ := hagree _ (Nat.le_refl _)
  rcases Parse.program_cases (20 * (body tokens).length + 15) (.ofTokens tokens) with
    ⟨f, c, hp, hf⟩ | ⟨statements, c, hp, hc⟩
  · -- The budget is never used up.
    rw [hp] at hend
    obtain ⟨j, k, ks, hj, hk, hr, hpos, hwhat, hreached⟩ := hend
    exact absurd hf hwhat
  · rw [hp] at hend
    obtain ⟨j, ks, hj, hg, hr, hreached⟩ := hend
    rw [List.nil_append] at hreached
    have hin : ∀ k ∈ ks, k ≤ (body tokens).length := by
      intro k hk
      have hle := hreached.le_length
      have hpassed := hreached.passed k hk
      unfold Precedes at hpassed
      omega
    refine ⟨statements, c, ks, fun n hn => ?_, hc, ?_, hin, hreached.ordered, ?_, hreached.genuine⟩
    · rw [← (hagree n hn).1, hp]
    · rw [hreached.spots]
      exact List.map_congr_left fun k hk => spot_ofTokens (hin k hk)
    · have hsame := congrArg List.length hreached.spots
      rw [List.length_map, List.length_map] at hsame
      have hle := hreached.le_length
      have hcount : ks.length ≤ j - 0 := hr
      omega

/-- What went wrong, in order; nothing if all went well. -/
def failuresOf {ε α : Type} : Except (List ε) α → List ε
  | .error failures => failures
  | .ok _ => []

/-- The cursor `c` stands at the index `i` of a token list, not behind the first end of input: the
    tokens from there on are ahead, and the token with this index is the one that is next, or is an
    end of input if none is. -/
structure Cursor.StandsAt (tokens : List Token) (i : Nat) (c : Cursor) : Prop where
  le_length : i ≤ (body tokens).length
  ahead : c.ahead = (body tokens).drop i
  token : ∃ t, (terminated tokens)[i]? = some t ∧ c.here = t.pos ∧
    c.ahead.head? = if t.isEnd then none else some t

/-- A cursor within the tokens that are read stands at an index of the list. -/
theorem Cursor.Within.standsAt {tokens : List Token} {i : Nat} {c : Cursor}
    (h : Cursor.Within (.ofTokens tokens) i c) : c.StandsAt tokens i := by
  have hle : i ≤ (body tokens).length := h.le_length
  have hahead : c.ahead = (body tokens).drop i := h.ahead
  obtain ⟨t, ht, hpos, hnext⟩ := exists_terminated hle
  refine ⟨hle, hahead, t, ht, ?_, ?_⟩
  · rw [h.here_eq, spot_ofTokens hle, hpos]
  · rw [hahead, List.head?_drop]
    exact hnext

/-- Every step of a series of steps stands at an index of the token list. -/
theorem exists_standsAt {α : Type} {tokens : List Token} {s : Parse.Script α} {c : Cursor}
    (h : c ∈ s.cursors (.ofTokens tokens)) : ∃ i, c.StandsAt tokens i := by
  obtain ⟨i, -, hi⟩ := s.within_of_mem_cursors (reached_ofTokens tokens).toWithin h
  exact ⟨i, hi.standsAt⟩

/-- How a token list is read. Reading comes to the first end of input and stops there, the same with
    every budget from the one that it gets; it is made up of single steps, and each of them, under
    any budget, stands at an index of the list; what follows the end of input has no part in it; and
    the faults are reported at tokens that follow each other. -/
structure OrderlyReading (tokens : List Token) : Prop where
  ends : ∃ statements c, c.ahead = [] ∧
    ∀ n, budget tokens ≤ n → Parse.program n (.ofTokens tokens) = .ok statements c
  in_range : ∀ n, Parse.Stepwise (Parse.program n) ∧
    ∀ s : Parse.Script Program, s.run = Parse.program n →
      ∀ c ∈ s.cursors (.ofTokens tokens), ∃ i, c.StandsAt tokens i
  up_to_end : parse tokens = parse (upToEnd tokens)
  faults_at : ∃ ks, FaultsAt tokens (failuresOf (parse tokens)) ks

/-- Every list of tokens is read in this way. -/
theorem orderlyReading (tokens : List Token) : OrderlyReading tokens := by
  obtain ⟨statements, c, ks, hends, hc, hfaults⟩ := program_ends tokens
  have hread := length_body_le tokens
  have hupTo : (body tokens).length ≤ (upToEnd tokens).length := by
    rw [upToEnd, List.length_append]
    omega
  have hparse : parse tokens = if c.faults.isEmpty then .ok statements else .error c.faults := by
    rw [parse, hends (budget tokens) (by unfold budget; omega)]
  refine ⟨⟨statements, c, hc, fun n hn => hends n (by unfold budget at hn; omega)⟩,
    fun n => ⟨Parse.stepwise_program n, fun _ _ _ => exists_standsAt⟩, ?_, ks, ?_⟩
  · rw [hparse, parse, ofTokens_upToEnd, hends (budget (upToEnd tokens)) (by unfold budget; omega)]
  · rw [hparse]
    split
    · rename_i hempty
      rw [List.isEmpty_iff.1 hempty] at hfaults
      exact hfaults
    · exact hfaults

/-! ### The order of positions -/

namespace Position

theorem le_refl (p : Position) : p ≤ p := .inr ⟨rfl, Nat.le_refl _⟩

/-- Positions are ordered by line, and by column within a line. -/
theorem le_iff {p q : Position} :
    p ≤ q ↔ p.line < q.line ∨ p.line = q.line ∧ p.column ≤ q.column :=
  Iff.rfl

theorem le_trans {p q r : Position} (hpq : p ≤ q) (hqr : q ≤ r) : p ≤ r := by
  rw [le_iff] at *
  omega

/-- A character moves the position on, never back. -/
theorem le_step (p : Position) (c : Char) : p ≤ p.step c := by
  unfold step
  split
  · exact .inl (Nat.lt_succ_self _)
  · exact .inr ⟨rfl, Nat.le_add_right _ _⟩

/-- A text moves the position on, never back. -/
theorem le_advance (p : Position) (text : List Char) : p ≤ p.advance text := by
  induction text generalizing p with
  | nil => exact le_refl p
  | cons c text ih => exact le_trans (le_step p c) (ih (p.step c))

end Position

/-- Items come in the order of the text. -/
theorem items_ordered (pos : Position) (pieces : List Piece) :
    (∀ item ∈ items pos pieces, pos ≤ item.pos) ∧
      (items pos pieces).Pairwise fun a b => a.pos ≤ b.pos := by
  induction pieces generalizing pos with
  | nil => exact ⟨by simp [items, Item.pos, Position.le_refl], List.pairwise_singleton _ _⟩
  | cons piece pieces ih =>
    obtain ⟨hlater, hordered⟩ := ih (pos.advance piece.text)
    have hle := Position.le_advance pos piece.text
    have hall : ∀ item ∈ items (pos.advance piece.text) pieces, pos ≤ item.pos :=
      fun item hitem => Position.le_trans hle (hlater item hitem)
    have hcons (item : Item) (hpos : item.pos = pos) :
        (∀ other ∈ item :: items (pos.advance piece.text) pieces, pos ≤ other.pos) ∧
          (item :: items (pos.advance piece.text) pieces).Pairwise fun a b => a.pos ≤ b.pos := by
      refine ⟨List.forall_mem_cons.2 ⟨hpos ▸ Position.le_refl _, hall⟩, ?_⟩
      exact List.pairwise_cons.2 ⟨fun other hother => hpos ▸ hall other hother, hordered⟩
    unfold items
    split
    · exact hcons _ rfl
    · exact hcons _ rfl
    · exact ⟨hall, hordered⟩
    · exact ⟨hall, hordered⟩

/-- The position of a later index is not an earlier one, if the tokens are in order. -/
theorem positionOf_mono {tokens : List Token} (h : tokens.Pairwise fun a b => a.pos ≤ b.pos)
    {i j : Nat} (hij : i ≤ j) : positionOf tokens i ≤ positionOf tokens j := by
  have hbelow {i j : Nat} (hij : i ≤ j) (hj : j < tokens.length) :
      positionOf tokens i ≤ positionOf tokens j := by
    have hi : i < tokens.length := by omega
    simp only [positionOf, List.getElem?_eq_getElem hi, List.getElem?_eq_getElem hj,
      Option.elim_some]
    rcases Nat.eq_or_lt_of_le hij with rfl | hlt
    · exact Position.le_refl _
    · exact List.pairwise_iff_getElem.1 h i j hi hj hlt
  -- Behind the list stands its last token.
  have hbehind {k : Nat} (hk : tokens.length ≤ k) :
      positionOf tokens k = positionOf tokens (tokens.length - 1) := by
    unfold positionOf
    rw [List.getElem?_eq_none hk, ← List.getLast?_eq_getElem?]
    cases tokens.getLast? <;> rfl
  by_cases hj : j < tokens.length
  · exact hbelow hij hj
  rw [hbehind (Nat.le_of_not_lt hj)]
  by_cases hi : i < tokens.length
  · exact hbelow (by omega) (by omega)
  · rw [hbehind (Nat.le_of_not_lt hi)]
    exact Position.le_refl _

/-- Failures about places of a source text, in the order of the text. -/
def InTextOrder (failures : List Failure) : Prop :=
  ∃ ds : List Diagnostic, failures = ds.map Failure.diagnostic ∧
    ds.Pairwise fun a b => a.pos ≤ b.pos

/-- Faults in order of their positions make failures in the order of the text. -/
theorem inTextOrder_map {α : Type} {stage : Stage} {message : α → String} {source : String}
    {faults : List (Located α)} (h : faults.Pairwise fun a b => a.pos ≤ b.pos) :
    InTextOrder (faults.map fun f => (Failure.of stage message f).withSource source) := by
  refine ⟨faults.map fun f => (Diagnostic.bare stage (message f.what) f.pos).withSource source,
    ?_, ?_⟩
  · rw [List.map_map]
    rfl
  · rw [List.pairwise_map]
    exact h

/-- The tokens of a text are in order, and so are the lexical faults. -/
theorem scan_ordered (source : String) :
    (∀ tokens, scan source = .ok tokens → tokens.Pairwise fun a b => a.pos ≤ b.pos) ∧
      ∀ faults, scan source = .error faults → faults.Pairwise fun a b => a.pos ≤ b.pos := by
  have hordered := (items_ordered .start (pieces source.toList)).2
  have htokens : ((itemsOf source).filterMap Item.token?).Pairwise fun a b => a.pos ≤ b.pos := by
    refine hordered.filterMap _ fun a a' hle t ht t' ht' => ?_
    cases a <;> cases a' <;> simp_all [Item.token?, Item.pos]
  have hfaults : ((itemsOf source).filterMap Item.fault?).Pairwise fun a b => a.pos ≤ b.pos := by
    refine hordered.filterMap _ fun a a' hle f hf f' hf' => ?_
    cases a <;> cases a' <;> simp_all [Item.fault?, Item.pos]
  constructor
  · intro tokens h
    unfold scan at h
    simp only at h
    split at h
    · cases h
      exact htokens
    · cases h
  · intro faults h
    unfold scan at h
    simp only at h
    split at h
    · cases h
    · cases h
      exact hfaults

/-- The faults of a token list in order are in order. -/
theorem parse_ordered {tokens : List Token} (h : tokens.Pairwise fun a b => a.pos ≤ b.pos) :
    (failuresOf (parse tokens)).Pairwise fun a b => a.pos ≤ b.pos := by
  obtain ⟨ks, hks⟩ := (orderlyReading tokens).faults_at
  have hpairwise : (ks.map (positionOf tokens)).Pairwise fun a b => a ≤ b := by
    rw [List.pairwise_map]
    refine hks.ordered.imp fun {a b} hab => positionOf_mono h ?_
    unfold Precedes at hab
    omega
  rw [← hks.positions, List.pairwise_map] at hpairwise
  exact hpairwise

/-- **Reading ends and reports in order.** Every token list is read to its first end of input under
    the budget that it gets, in steps that stand at indices of the list, with faults at tokens that
    follow each other; so the failures of a source text, in its characters or in its grammar, come
    in the order of the text. -/
theorem reading_orderly (tokens : List Token) (source : String) :
    OrderlyReading tokens ∧ InTextOrder (failuresOf (Source.tokens source)) ∧
      InTextOrder (failuresOf (Source.program source)) := by
  have hnone : InTextOrder [] := ⟨[], rfl, .nil⟩
  refine ⟨orderlyReading tokens, ?_, ?_⟩
  · unfold Source.tokens
    cases hscan : scan source with
    | ok ts => exact hnone
    | error faults => exact inTextOrder_map ((scan_ordered source).2 faults hscan)
  · unfold Source.program Source.tokens
    cases hscan : scan source with
    | error faults => exact inTextOrder_map ((scan_ordered source).2 faults hscan)
    | ok ts =>
      have hfaults := parse_ordered ((scan_ordered source).1 ts hscan)
      show InTextOrder (failuresOf ((parse ts).mapError _))
      cases hparse : parse ts with
      | ok p => exact hnone
      | error faults =>
        rw [hparse] at hfaults
        exact inTextOrder_map hfaults

end ClassScript
