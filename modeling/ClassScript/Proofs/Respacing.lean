import ClassScript.Proofs.Computation
import ClassScript.Proofs.Pieces

namespace ClassScript

/-!
# Tokens and the space between them

Where a token ends is seen from the two characters behind it. So a token stays what it is when the
text behind it is replaced by one that starts alike, and it does so in front of every blank. Hence
the tokens of a text can be set apart by any space, and are read again as they were.

* `Stops`: a text ends a token where another one does;
* `Piece.front_append`: a token, a blank or an unexpected character stays the same in front of a
  text that ends it;
* `joinWith`: texts with a gap between neighbours;
* `scan_joinWith`: the tokens of a text, set apart by gaps, are scanned as the same tokens.
-/

/-! ### Blanks -/

theorem isBlank_iff {c : Char} : isBlank c = true ↔ c ∈ [' ', '\t', '\r', '\n'] := by
  simp [isBlank, or_assoc]

/-- A blank goes on with no word and no number, and makes no symbol longer. -/
theorem isBlank_separates {d : Char} (hd : isBlank d = true) :
    isWordPart d = false ∧ d.isDigit = false ∧ ∀ c, Symbol.ofPair? c d = none := by
  have hpair (e c : Char) (h : e ≠ '>' ∧ e ≠ '=') : Symbol.ofPair? c e = none := by
    unfold Symbol.ofPair?
    split <;> simp_all
  simp only [isBlank_iff, List.mem_cons, List.not_mem_nil, or_false] at hd
  rcases hd with rfl | rfl | rfl | rfl
  all_goals exact ⟨rfl, rfl, fun c => hpair _ c (by decide)⟩

/-- What starts a word may stand inside one. -/
theorem isWordPart_of_isWordStart {c : Char} (h : isWordStart c = true) :
    isWordPart c = true := by
  simp only [isWordStart, isWordPart, Char.isAlphanum, Bool.or_eq_true] at h ⊢
  exact h.imp_left .inl

/-! ### Where a token ends -/

/-- In front of `other` a token ends wherever it ends in front of `after`: `other` is empty, starts
    with a blank, or starts as `after` does. The second character matters for the fraction of a
    number only. -/
def Stops (after other : List Char) : Prop :=
  ∀ d ∈ other.head?, isBlank d = true ∨ after.head? = some d ∧
    ∀ e ∈ other.tail.head?, e.isDigit = true → after.tail.head? = some e

theorem stops_nil (after : List Char) : Stops after [] := nofun

/-- A blank ends every token. -/
theorem stops_of_isBlank (after : List Char) {c : Char} (hc : isBlank c = true) (rest : List Char) :
    Stops after (c :: rest) := by
  rintro d ⟨rfl⟩
  exact .inl hc

/-- A start of a text ends a token where the text does. -/
theorem stops_append (start rest : List Char) : Stops (start ++ rest) start := by
  intro d hd
  right
  cases start with
  | nil => cases hd
  | cons a start =>
    refine ⟨hd, fun e he _ => ?_⟩
    cases start with
    | nil => cases he
    | cons b start => exact he

/-- The same text may be put in front. -/
theorem Stops.append_left {after other : List Char} (h : Stops after other) (text : List Char) :
    Stops (text ++ after) (text ++ other) := by
  rcases text with _ | ⟨a, _ | ⟨b, text⟩⟩
  · exact h
  · rintro d ⟨rfl⟩
    refine .inr ⟨rfl, fun e he hdigit => ?_⟩
    rcases h e he with hblank | ⟨hhead, -⟩
    · rw [(isBlank_separates hblank).2.1] at hdigit
      cases hdigit
    · exact hhead
  · rintro d ⟨rfl⟩
    exact .inr ⟨rfl, fun e he _ => he⟩

/-- The shape of a piece that is recognized without looking for its end far ahead: anything but a
    comment and a fault that takes all of the text. -/
def Shape.IsLocal : Shape → Prop
  | .comment | .fault .unterminatedString | .fault .unterminatedComment => False
  | _ => True

namespace Piece

section Classes

variable (p : Char → Bool) (text more : List Char)

theorem forall_mem_takeWhile : ∀ c ∈ text.takeWhile p, p c = true :=
  List.all_eq_true.1 List.all_takeWhile

theorem takeWhile_takeWhile_append :
    (text.takeWhile p ++ more).takeWhile p = text.takeWhile p ++ more.takeWhile p :=
  List.takeWhile_append_of_pos (forall_mem_takeWhile p text)

theorem dropWhile_takeWhile_append :
    (text.takeWhile p ++ more).dropWhile p = more.dropWhile p :=
  List.dropWhile_append_of_pos (forall_mem_takeWhile p text)

theorem takeWhile_takeWhile : (text.takeWhile p).takeWhile p = text.takeWhile p := by
  simpa using takeWhile_takeWhile_append p text []

end Classes

section Ends

variable {p : Char → Bool} {text other : List Char}

/-- What follows the characters of a class is what is left without them. -/
theorem dropWhile_eq_of_append (h : text = text.takeWhile p ++ other) :
    text.dropWhile p = other := by
  have hwhole : text.takeWhile p ++ text.dropWhile p = text.takeWhile p ++ other := by
    rw [List.takeWhile_append_dropWhile, ← h]
  exact List.append_cancel_left hwhole

/-- A text goes on with no character of a class if it starts with none. -/
theorem takeWhile_eq_nil_of_head (h : ∀ d ∈ other.head?, p d = false) :
    other.takeWhile p = [] ∧ other.dropWhile p = other := by
  cases other with
  | nil => exact ⟨rfl, rfl⟩
  | cons d other =>
    have hd : p d = false := h d rfl
    simp [hd]

/-- Behind the characters of a class, none of the class follows in a text that ends the token. -/
theorem not_class_of_stops (hblank : ∀ d, isBlank d = true → p d = false)
    (hstop : Stops (text.dropWhile p) other) : ∀ d ∈ other.head?, p d = false := by
  intro d hd
  rcases hstop d hd with hd | ⟨hhead, -⟩
  · exact hblank d hd
  · have hnot := List.head?_dropWhile_not p text
    rw [hhead] at hnot
    simpa using hnot

end Ends

/-- A word goes on as far as its characters do. -/
theorem word_text (c : Char) (rest : List Char) :
    (word c rest).text = c :: rest.takeWhile isWordPart := by
  unfold word
  simp only
  split <;> rfl

theorem word_append {c : Char} {rest other : List Char}
    (hstop : Stops (rest.dropWhile isWordPart) other) :
    word c (rest.takeWhile isWordPart ++ other) = word c rest := by
  have hother := not_class_of_stops (fun _ hd => (isBlank_separates hd).1) hstop
  unfold word
  rw [takeWhile_takeWhile_append, (takeWhile_eq_nil_of_head hother).1, List.append_nil]

/-- A fraction is a fraction on its own too, and it starts with no digit. -/
theorem fraction_fraction (text : List Char) :
    fraction (fraction text) = fraction text ∧ (fraction text).takeWhile Char.isDigit = [] ∧
      (fraction text).dropWhile Char.isDigit = fraction text := by
  have hcases : fraction text = [] ∨
      ∃ (d : Char) (rest : List Char), d.isDigit = true ∧
        fraction text = '.' :: d :: rest.takeWhile Char.isDigit := by
    unfold fraction
    split
    · rename_i d rest
      split
      · rename_i hd
        exact .inr ⟨d, rest, hd, rfl⟩
      · exact .inl rfl
    · exact .inl rfl
  rcases hcases with h | ⟨d, rest, hd, h⟩
  · rw [h]
    exact ⟨rfl, rfl, rfl⟩
  · rw [h]
    refine ⟨?_, rfl, rfl⟩
    rw [fraction, if_pos hd, takeWhile_takeWhile]

/-- A fraction stays the same in front of a text that ends the number, and if there is none then
    that text does not start with one. -/
theorem fraction_append {text after other : List Char} (htext : text = fraction text ++ after)
    (hstop : Stops after other) : fraction (fraction text ++ other) = fraction text := by
  by_cases hpart : fraction text = []
  · rw [hpart] at htext ⊢
    obtain rfl : text = after := htext
    -- A point and a digit in `other` would be a point and a digit in `text`.
    unfold fraction
    split
    · next d rest heq =>
      subst heq
      split
      · next hd =>
        exfalso
        rcases hstop '.' rfl with hblank | ⟨hpoint, hdigit⟩
        · cases hblank
        · obtain ⟨rest', rfl⟩ : ∃ rest', text = '.' :: d :: rest' := by
            have hnext := hdigit d rfl hd
            rcases text with _ | ⟨a, _ | ⟨b, rest'⟩⟩
            · cases hpoint
            · cases hnext
            · cases hpoint
              cases hnext
              exact ⟨rest', rfl⟩
          rw [fraction, if_pos hd] at hpart
          cases hpart
      · rfl
    · rfl
  · revert hpart htext
    unfold fraction
    split
    · next d rest =>
      split
      · next hd =>
        intro htext _
        obtain rfl := dropWhile_eq_of_append (List.cons.inj (List.cons.inj htext).2).2
        have hother := not_class_of_stops (fun _ hd => (isBlank_separates hd).2.1) hstop
        show (if d.isDigit = true then
          '.' :: d :: (rest.takeWhile Char.isDigit ++ other).takeWhile Char.isDigit else []) = _
        rw [if_pos hd, takeWhile_takeWhile_append, (takeWhile_eq_nil_of_head hother).1,
          List.append_nil]
      · intro _ hne
        exact absurd rfl hne
    · intro _ hne
      exact absurd rfl hne

theorem number_append {c : Char} {rest after other : List Char}
    (hrest : rest.dropWhile Char.isDigit = fraction (rest.dropWhile Char.isDigit) ++ after)
    (hstop : Stops after other) :
    number c (rest.takeWhile Char.isDigit ++ (fraction (rest.dropWhile Char.isDigit) ++ other))
      = number c rest := by
  have hpart := fraction_append hrest hstop
  -- What follows the whole digits starts with no digit, with a fraction or without one.
  have hother : ∀ d ∈ (fraction (rest.dropWhile Char.isDigit) ++ other).head?,
      d.isDigit = false := by
    cases hf : fraction (rest.dropWhile Char.isDigit) with
    | nil =>
      rw [hf] at hrest
      rw [← show rest.dropWhile Char.isDigit = after from hrest] at hstop
      exact not_class_of_stops (fun _ hd => (isBlank_separates hd).2.1) hstop
    | cons point digits =>
      rintro d ⟨rfl⟩
      have hhead := (fraction_fraction (rest.dropWhile Char.isDigit)).2.1
      rw [hf, List.takeWhile_cons] at hhead
      split at hhead
      · cases hhead
      · next hd => simpa using hd
  obtain ⟨htake, hdrop⟩ := takeWhile_eq_nil_of_head hother
  unfold number
  simp only [takeWhile_takeWhile_append, dropWhile_takeWhile_append, htake, hdrop, hpart,
    List.append_nil]

theorem string_append {c : Char} {rest after : List Char}
    (h : rest.dropWhile (· != '"') = c :: after) (other : List Char) :
    string (rest.takeWhile (· != '"') ++ '"' :: other) = string rest := by
  have htake : ('"' :: other).takeWhile (· != '"') = [] := rfl
  have hdrop : ('"' :: other).dropWhile (· != '"') = '"' :: other := rfl
  unfold string
  simp only [takeWhile_takeWhile_append, dropWhile_takeWhile_append, htake, hdrop, h,
    List.append_nil]

theorem symbol_nil_text (c : Char) : (symbol c []).text = [c] := by
  unfold symbol
  simp only
  split <;> rfl

theorem symbol_of_ofPair?_eq_none {c d : Char} (h : Symbol.ofPair? c d = none)
    (rest : List Char) : symbol c (d :: rest) = symbol c [] := by
  simp only [symbol, h]

/-- A symbol starts with its character. -/
theorem symbol_text (c : Char) (rest : List Char) : ∃ text, (symbol c rest).text = c :: text := by
  cases rest with
  | nil => exact ⟨[], symbol_nil_text c⟩
  | cons d rest =>
    cases hpair : Symbol.ofPair? c d with
    | none =>
      rw [symbol_of_ofPair?_eq_none hpair]
      exact ⟨[], symbol_nil_text c⟩
    | some s => exact ⟨[d], by simp only [symbol, hpair]⟩

theorem symbol_append {c : Char} {rest text after other : List Char}
    (hrest : c :: rest = (symbol c rest).text ++ after) (htext : (symbol c rest).text = c :: text)
    (hstop : Stops after other) : symbol c (text ++ other) = symbol c rest := by
  -- Either the symbol is a pair, or it is one character that makes no pair with the next one.
  by_cases hpair : ∃ d rest' s, rest = d :: rest' ∧ Symbol.ofPair? c d = some s
  · obtain ⟨d, rest', s, rfl, hs⟩ := hpair
    obtain rfl : text = [d] := by
      simp only [symbol, hs] at htext
      simpa using htext.symm
    show symbol c (d :: other) = _
    simp only [symbol, hs]
  · have hone : symbol c rest = symbol c [] := by
      cases rest with
      | nil => rfl
      | cons d rest' =>
        cases hs : Symbol.ofPair? c d with
        | none => exact symbol_of_ofPair?_eq_none hs rest'
        | some s => exact absurd ⟨d, rest', s, rfl, hs⟩ hpair
    rw [hone, symbol_nil_text] at htext hrest
    obtain rfl : text = [] := by simpa using htext.symm
    obtain rfl : rest = after := by simpa using hrest
    rw [hone, List.nil_append]
    cases other with
    | nil => rfl
    | cons d other =>
      -- What follows now is a blank or what followed before, and neither makes a pair.
      have hnone : Symbol.ofPair? c d = none := by
        rcases hstop d rfl with hd | ⟨hhead, -⟩
        · exact (isBlank_separates hd).2.2 c
        · cases hs : Symbol.ofPair? c d with
          | none => rfl
          | some s =>
            obtain ⟨rest', rfl⟩ := List.head?_eq_some_iff.mp hhead
            exact absurd ⟨d, rest', s, rfl, hs⟩ hpair
      exact symbol_of_ofPair?_eq_none hnone other

/-- A slash makes a pair with nothing. -/
theorem symbol_slash_text (rest : List Char) : (symbol '/' rest).text = ['/'] := by
  cases rest with
  | nil => rfl
  | cons d rest => simp [symbol, Symbol.ofPair?, Symbol.ofChar?]

/-! #### The first character decides the class -/

/-- A blank is a piece by itself. -/
theorem front_blank {c : Char} (h : isBlank c = true) (rest : List Char) :
    front c rest = ⟨.blank, [c]⟩ := by
  unfold front
  rw [if_pos h]

/-- A digit starts a number. -/
theorem front_number {c : Char} (h : c.isDigit = true) (rest : List Char) :
    front c rest = number c rest := by
  have hblank : ¬ isBlank c = true := fun hc => by simp [(isBlank_separates hc).2.1] at h
  have hquote : ¬ (c == '"') = true := by
    rintro hc
    obtain rfl : c = '"' := by simpa using hc
    cases h
  unfold front
  rw [if_neg hblank, if_neg hquote, if_pos h]

/-- A letter starts a word. -/
theorem front_word {c : Char} (hdigit : ¬ c.isDigit = true) (h : isWordStart c = true)
    (rest : List Char) : front c rest = word c rest := by
  have hpart := isWordPart_of_isWordStart h
  have hblank : ¬ isBlank c = true := fun hc => by simp [(isBlank_separates hc).1] at hpart
  have hquote : ¬ (c == '"') = true := by
    intro hc
    obtain rfl : c = '"' := by simpa using hc
    cases hpart
  unfold front
  rw [if_neg hblank, if_neg hquote, if_neg hdigit, if_pos h]

/-- What starts neither a blank, a string, a number nor a word is a symbol, if it does not open a
    comment. -/
theorem front_eq_symbol {c : Char} {rest : List Char} (hblank : ¬ isBlank c = true)
    (hquote : ¬ (c == '"') = true) (hdigit : ¬ c.isDigit = true) (hword : ¬ isWordStart c = true)
    (hcomment : ¬ (c = '/' ∧ (rest.head? = some '/' ∨ rest.head? = some '*'))) :
    front c rest = symbol c rest := by
  unfold front
  rw [if_neg hblank, if_neg hquote, if_neg hdigit, if_neg hword]
  split
  · exact absurd ⟨rfl, .inl rfl⟩ hcomment
  · exact absurd ⟨rfl, .inr rfl⟩ hcomment
  · rfl

/-- What opens a comment is not local. -/
theorem not_isLocal_of_comment {rest : List Char}
    (h : rest.head? = some '/' ∨ rest.head? = some '*') : ¬ (front '/' rest).shape.IsLocal := by
  rcases h with h | h
  · obtain ⟨after, rfl⟩ := List.head?_eq_some_iff.mp h
    exact id
  · obtain ⟨after, rfl⟩ := List.head?_eq_some_iff.mp h
    show ¬ (blockComment after).shape.IsLocal
    unfold blockComment
    split <;> exact id

/-- A piece that is local stays the same in front of a text that ends a token where the text behind
    the piece does. -/
theorem front_append {c : Char} {rest after other : List Char}
    (hrest : c :: rest = (front c rest).text ++ after) (h : (front c rest).shape.IsLocal)
    (hstop : Stops after other) :
    ∃ text, (front c rest).text = c :: text ∧ front c (text ++ other) = front c rest := by
  by_cases hblank : isBlank c = true
  · exact ⟨[], by rw [front_blank hblank], by rw [front_blank hblank, front_blank hblank]⟩
  by_cases hquote : (c == '"') = true
  · obtain rfl : c = '"' := by simpa using hquote
    have hfront (text : List Char) : front '"' text = string text := rfl
    rw [hfront] at h ⊢
    cases hdrop : rest.dropWhile (· != '"') with
    | nil =>
      simp only [string, hdrop] at h
      exact h.elim
    | cons d after =>
      refine ⟨rest.takeWhile (· != '"') ++ ['"'], by simp only [string, hdrop], ?_⟩
      rw [hfront, List.append_assoc, List.singleton_append, string_append hdrop]
  by_cases hdigit : c.isDigit = true
  · rw [front_number hdigit] at hrest ⊢
    refine ⟨rest.takeWhile Char.isDigit ++ fraction (rest.dropWhile Char.isDigit), rfl, ?_⟩
    have hpart : rest.dropWhile Char.isDigit
        = fraction (rest.dropWhile Char.isDigit) ++ after := by
      apply dropWhile_eq_of_append
      rw [← List.append_assoc]
      exact (List.cons.inj hrest).2
    rw [front_number hdigit, List.append_assoc]
    exact number_append hpart hstop
  by_cases hword : isWordStart c = true
  · rw [front_word hdigit hword, word_text] at hrest
    have hafter := dropWhile_eq_of_append (List.cons.inj hrest).2
    refine ⟨rest.takeWhile isWordPart, by rw [front_word hdigit hword, word_text], ?_⟩
    rw [front_word hdigit hword, front_word hdigit hword]
    exact word_append (hafter ▸ hstop)
  by_cases hcomment : c = '/' ∧ (rest.head? = some '/' ∨ rest.head? = some '*')
  · obtain ⟨rfl, hmark⟩ := hcomment
    exact absurd h (not_isLocal_of_comment hmark)
  · rw [front_eq_symbol hblank hquote hdigit hword hcomment] at hrest ⊢
    obtain ⟨text, htext⟩ := symbol_text c rest
    refine ⟨text, htext, ?_⟩
    have hsafe : ¬ (c = '/' ∧
        ((text ++ other).head? = some '/' ∨ (text ++ other).head? = some '*')) := by
      rintro ⟨rfl, hmark⟩
      rw [symbol_slash_text] at htext hrest
      obtain rfl : text = [] := by simpa using htext.symm
      obtain rfl : rest = after := by simpa using hrest
      -- The slash stands alone, so what is behind it opened no comment there either.
      have hhead (d : Char) (hd : isBlank d = false) (hother : other.head? = some d) :
          rest.head? = some d := by
        rcases hstop d hother with h | ⟨h, -⟩
        · rw [hd] at h
          cases h
        · exact h
      exact hcomment ⟨rfl, hmark.imp (hhead '/' rfl) (hhead '*' rfl)⟩
    rw [front_eq_symbol hblank hquote hdigit hword hsafe]
    exact symbol_append hrest htext hstop

/-- A token is cut from its own text as well: what follows it in a text does not matter. -/
theorem front_text {c : Char} {rest : List Char} {kind : Kind}
    (h : (front c rest).shape = .token kind) :
    ∃ text, (front c rest).text = c :: text ∧ front c text = front c rest := by
  have hlocal : (front c rest).shape.IsLocal := by
    rw [h]
    trivial
  obtain ⟨-, after, hrest, -⟩ := fronts_front c rest
  simpa using front_append hrest hlocal (stops_nil after)

end Piece

/-- A piece that is local is cut off in front of a text that ends it. -/
theorem pieces_append {c : Char} {rest after other : List Char}
    (hrest : c :: rest = (Piece.front c rest).text ++ after)
    (h : (Piece.front c rest).shape.IsLocal) (hstop : Stops after other) :
    pieces ((Piece.front c rest).text ++ other) = Piece.front c rest :: pieces other := by
  obtain ⟨text, htext, hfront⟩ := Piece.front_append hrest h hstop
  have hwhole : c :: (text ++ other) = (Piece.front c (text ++ other)).text ++ other := by
    rw [hfront, htext, List.cons_append]
  rw [htext, List.cons_append, pieces_cons hwhole, hfront]

/-- A blank in front is cut off by itself. -/
theorem pieces_blank {c : Char} (hc : isBlank c = true) (rest : List Char) :
    pieces (c :: rest) = ⟨.blank, [c]⟩ :: pieces rest := by
  have hfront := Piece.front_blank hc rest
  have hwhole : c :: rest = (Piece.front c rest).text ++ rest := by
    rw [hfront, List.singleton_append]
  rw [pieces_cons hwhole, hfront]

/-! ### What scanning finds, without the positions -/

/-- What a token is and how it is written, without where. A string and a number carry what they
    denote in their kind. -/
def Token.content (t : Token) : Kind × String := (t.kind, t.lexeme)

/-- The content of the token that a piece is. -/
def Piece.content? (p : Piece) : Option (Kind × String) :=
  match p.shape with
  | .token kind => some (kind, String.ofList p.text)
  | _ => none

/-- The contents of the scanned tokens are those of the pieces, and the end of input. -/
theorem map_content_items (pos : Position) (ps : List Piece) :
    ((items pos ps).filterMap Item.token?).map Token.content
      = ps.filterMap Piece.content? ++ [(.endOfInput, "")] := by
  induction ps generalizing pos with
  | nil => rfl
  | cons p ps ih =>
    unfold items
    cases hshape : p.shape <;>
      simp [List.filterMap_cons, Piece.content?, hshape, Item.token?, Token.content, ih]

/-- Scanning finds a fault where a piece is one. -/
theorem filterMap_fault_items (pos : Position) (ps : List Piece) :
    (items pos ps).filterMap Item.fault? = [] ↔ ∀ p ∈ ps, ∀ fault, p.shape ≠ .fault fault := by
  induction ps generalizing pos with
  | nil => simp [items, Item.fault?]
  | cons p ps ih =>
    unfold items
    rw [List.forall_mem_cons, ← ih (pos.advance p.text)]
    cases hshape : p.shape <;> simp [List.filterMap_cons, Item.fault?]

theorem scan_eq_ok_iff {source : String} {tokens : List Token} :
    scan source = .ok tokens ↔
      (∀ p ∈ pieces source.toList, ∀ fault, p.shape ≠ .fault fault) ∧
        (itemsOf source).filterMap Item.token? = tokens := by
  rw [← filterMap_fault_items .start, scan, ← itemsOf]
  cases (itemsOf source).filterMap Item.fault? <;> simp

/-! ### Texts with gaps -/

/-- A gap between tokens: at least one space, tab, carriage return or line feed, and nothing
    else. -/
structure Gap where
  text : String
  nonempty : text ≠ ""
  blank : ∀ c ∈ text.toList, c ∈ [' ', '\t', '\r', '\n']

/-- Texts in order, with a gap between neighbours. -/
def joinWith (gap : Nat → Gap) : List String → String
  | [] => ""
  | [text] => text
  | text :: texts => text ++ (gap 0).text ++ joinWith (fun i => gap (i + 1)) texts

/-- Whether a piece is anything but a blank. -/
def Piece.isSolid (p : Piece) : Bool := p.shape != .blank

/-- A gap is cut into blanks. -/
theorem filter_pieces_gap (gap : Gap) (rest : List Char) :
    (pieces (gap.text.toList ++ rest)).filter Piece.isSolid
      = (pieces rest).filter Piece.isSolid := by
  have hblank := gap.blank
  revert hblank
  induction gap.text.toList with
  | nil => exact fun _ => rfl
  | cons c text ih =>
    intro hblank
    obtain ⟨hc, htext⟩ := List.forall_mem_cons.mp hblank
    rw [List.cons_append, pieces_blank (isBlank_iff.mpr hc),
      List.filter_cons_of_neg (by simp [Piece.isSolid])]
    exact ih htext

/-- A gap ends every token. -/
theorem stops_gap (after : List Char) (gap : Gap) (rest : List Char) :
    Stops after (gap.text.toList ++ rest) := by
  cases hgap : gap.text.toList with
  | nil => exact absurd (String.toList_eq_nil_iff.mp hgap) gap.nonempty
  | cons c text =>
    have hc : c ∈ gap.text.toList := hgap ▸ List.mem_cons_self
    exact stops_of_isBlank after (isBlank_iff.mpr (gap.blank c hc)) _

/-- Tokens that are set apart by gaps are cut as they were, with blanks between them. -/
theorem filter_pieces_joinWith (ps : List Piece)
    (hps : ∀ p ∈ ps, (∃ c rest, p = Piece.front c rest) ∧ ∃ kind, p.shape = .token kind)
    (gap : Nat → Gap) :
    (pieces (joinWith gap (ps.map fun p => String.ofList p.text)).toList).filter Piece.isSolid
      = ps := by
  induction ps generalizing gap with
  | nil => rfl
  | cons p ps ih =>
    obtain ⟨⟨⟨c, rest, rfl⟩, kind, hkind⟩, hmore⟩ := List.forall_mem_cons.mp hps
    obtain ⟨-, after, hrest, -⟩ := Piece.fronts_front c rest
    have hlocal : (Piece.front c rest).shape.IsLocal := by rw [hkind]; trivial
    have hsolid : (Piece.front c rest).isSolid = true := by simp [Piece.isSolid, hkind]
    cases ps with
    | nil =>
      have hpieces := pieces_append hrest hlocal (stops_nil after)
      rw [List.append_nil] at hpieces
      show (pieces (String.ofList (Piece.front c rest).text).toList).filter _ = _
      rw [String.toList_ofList, hpieces, List.filter_cons_of_pos hsolid]
      rfl
    | cons q qs =>
      have htext : (joinWith gap ((Piece.front c rest :: q :: qs).map
            fun p => String.ofList p.text)).toList
          = (Piece.front c rest).text ++ ((gap 0).text.toList ++
            (joinWith (fun i => gap (i + 1)) ((q :: qs).map
              fun p => String.ofList p.text)).toList) := by
        simp [joinWith]
      -- The gap ends the token, and is itself cut into blanks.
      rw [htext, pieces_append hrest hlocal (stops_gap _ _ _), List.filter_cons_of_pos hsolid,
        filter_pieces_gap, ih hmore]

/-- The texts of tokens, in order and without the end of input. -/
def lexemes (tokens : List Token) : List String :=
  (tokens.filter fun t => !t.isEnd).map Token.lexeme

/-- The texts of the scanned tokens are those of the pieces that are tokens. -/
theorem lexemes_items {ps : List Piece}
    (hps : ∀ p ∈ ps, ∀ kind, p.shape = .token kind → kind ≠ .endOfInput) (pos : Position) :
    lexemes ((items pos ps).filterMap Item.token?)
      = (ps.filter fun p => p.content?.isSome).map fun p => String.ofList p.text := by
  induction ps generalizing pos with
  | nil => rfl
  | cons p ps ih =>
    obtain ⟨hp, hmore⟩ := List.forall_mem_cons.mp hps
    have ih := ih hmore (pos.advance p.text)
    unfold items
    unfold lexemes at ih ⊢
    cases hshape : p.shape with
    | token kind =>
      have hend : (Token.mk kind (String.ofList p.text) pos).isEnd = false := by
        have hkind := hp kind hshape
        unfold Token.isEnd
        cases kind <;> simp_all
      simp [Item.token?, hend, Piece.content?, hshape, ih]
    | fault fault => simpa [List.filterMap_cons, Item.token?, Piece.content?, hshape] using ih
    | blank => simpa [Piece.content?, hshape] using ih
    | comment => simpa [Piece.content?, hshape] using ih

/-- Leaving out pieces that are no tokens does not change the contents. -/
theorem filterMap_content_filter {keeps : Piece → Bool}
    (h : ∀ p, p.content?.isSome = true → keeps p = true) (ps : List Piece) :
    (ps.filter keeps).filterMap Piece.content? = ps.filterMap Piece.content? := by
  rw [List.filterMap_filter]
  congr
  funext p
  by_cases hp : keeps p = true
  · rw [if_pos hp]
  · rw [if_neg hp, eq_comm, ← Option.not_isSome_iff_eq_none]
    exact mt (h p) hp

/-- **Tokens can be set apart.** The tokens of a text that is scanned without a fault, written again
    with any gaps between them, are scanned without a fault, as tokens of the same kinds that are
    written the same and denote the same. -/
theorem scan_joinWith {source : String} {tokens : List Token} (h : scan source = .ok tokens)
    (gap : Nat → Gap) :
    ∃ tokens', scan (joinWith gap (lexemes tokens)) = .ok tokens' ∧
      tokens'.map Token.content = tokens.map Token.content := by
  obtain ⟨hsound, rfl⟩ := scan_eq_ok_iff.mp h
  -- The pieces that are tokens; a gap is put between any two neighbours.
  let ps := (pieces source.toList).filter fun p => p.content?.isSome
  have hps : ∀ p ∈ ps, (∃ c rest, p = Piece.front c rest) ∧ ∃ kind, p.shape = .token kind := by
    intro p hp
    obtain ⟨hmem, hsome⟩ := List.mem_filter.mp hp
    refine ⟨exists_front_of_mem_cut hmem, ?_⟩
    revert hsome
    cases hshape : p.shape <;> simp [Piece.content?, hshape]
  have hlexemes : lexemes ((itemsOf source).filterMap Item.token?)
      = ps.map fun p => String.ofList p.text := by
    refine lexemes_items (fun p hp kind hshape => ?_) .start
    obtain ⟨c, rest, rfl⟩ := exists_front_of_mem_cut hp
    obtain ⟨-, after, -, hapt⟩ := Piece.fronts_front c rest
    unfold Piece.Apt at hapt
    rw [hshape] at hapt
    exact hapt.1
  have hfilter := filter_pieces_joinWith ps hps gap
  rw [← hlexemes] at hfilter
  refine ⟨_, scan_eq_ok_iff.mpr ⟨?_, rfl⟩, ?_⟩
  · intro p hp fault hshape
    have hmem : p ∈ ps := by
      rw [← hfilter]
      exact List.mem_filter.mpr ⟨hp, by simp [Piece.isSolid, hshape]⟩
    obtain ⟨kind, hkind⟩ := (hps p hmem).2
    rw [hshape] at hkind
    cases hkind
  · -- Neither the blanks here nor the blanks and comments there have contents.
    have hsolid : ∀ p : Piece, p.content?.isSome = true → p.isSolid = true := by
      intro p
      cases hshape : p.shape <;> simp [Piece.content?, Piece.isSolid, hshape]
    unfold itemsOf
    rw [map_content_items, map_content_items, ← filterMap_content_filter hsolid]
    show ((pieces (joinWith gap (lexemes ((itemsOf source).filterMap Item.token?))).toList).filter
      Piece.isSolid).filterMap Piece.content? ++ _ = _
    rw [hfilter, filterMap_content_filter fun _ h => h]

/-- Numbers in front of points, symbols and words without space between them, a string with the
    mark of a comment in it, and comments, which are left out. -/
theorem scan_joinWith_dense :
    ∃ (gap : Nat → Gap) (tokens tokens' : List Token),
      scan "1.5.x2.truer-->=/**///a\n\"/*\n\"/2./" = .ok tokens ∧
      joinWith gap (lexemes tokens)
        = "1.5\t\r.\nx2\n.\ntruer\n-\n->\n=\n\"/*\n\"\n/\n2\n.\n/" ∧
      scan (joinWith gap (lexemes tokens)) = .ok tokens' ∧
      tokens'.map Token.content = tokens.map Token.content := by
  let gap : Nat → Gap := fun i =>
    if i = 0 then ⟨"\t\r", by decide, by simp⟩ else ⟨"\n", by decide, by simp⟩
  have hread : (scan "1.5.x2.truer-->=/**///a\n\"/*\n\"/2./").toOption.any (fun tokens =>
      joinWith gap (lexemes tokens)
        == "1.5\t\r.\nx2\n.\ntruer\n-\n->\n=\n\"/*\n\"\n/\n2\n.\n/") = true := by
    decide +kernel
  obtain ⟨tokens, hscan, hjoined⟩ := exists_ok_of_any hread
  obtain ⟨tokens', hscan', hcontent⟩ := scan_joinWith hscan gap
  exact ⟨gap, tokens, tokens', hscan, by simpa using hjoined, hscan', hcontent⟩

end ClassScript
