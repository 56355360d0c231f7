import ClassScript.Token.Lexer

namespace ClassScript

/-!
# The pieces of a text

Cutting a text loses nothing: the pieces follow each other without gaps, each of them at least one
character long, and each is what its shape says.

* `ToClose`, `BlockComment`, `LineComment`: comments, without counting marks;
* `Piece.commentBody_eq_some_iff`: where counting marks finds the end of a comment;
* `Piece.Apt`: what a piece of a shape is, given the text after it;
* `pieces_induction`: the way to argue about all pieces of a text;
* `exists_front_of_scan`: what scanned tokens are.
-/

/-! ### Comments -/

/-- The two characters at the front of a text, if they are `a` and `b`. -/
def StartsWith (a b : Char) (text : List Char) : Prop := text.take 2 = [a, b]

/-- A text that goes from inside a block comment to its end: comments inside it are closed before,
    and every other character is one at which neither mark starts. -/
inductive ToClose : List Char → Prop
  | close : ToClose ['*', '/']
  | nested {inner rest : List Char} : ToClose inner → ToClose rest →
      ToClose ('/' :: '*' :: (inner ++ rest))
  | plain {c : Char} {rest : List Char} : ¬ StartsWith '/' '*' (c :: rest) →
      ¬ StartsWith '*' '/' (c :: rest) → ToClose rest → ToClose (c :: rest)

/-- A block comment that ends: its opening mark, and the text to the mark that closes it. -/
def BlockComment (text : List Char) : Prop := ∃ body, text = '/' :: '*' :: body ∧ ToClose body

/-- A line comment, in front of `after`: it goes up to the end of its line. -/
def LineComment (text after : List Char) : Prop :=
  (∃ body, text = '/' :: '/' :: body ∧ '\n' ∉ body) ∧ (after = [] ∨ after.head? = some '\n')

theorem ToClose.exists_cons {text : List Char} (h : ToClose text) :
    ∃ a b rest, text = a :: b :: rest := by
  induction h with
  | close => exact ⟨_, _, _, rfl⟩
  | nested => exact ⟨_, _, _, rfl⟩
  | plain _ _ _ ih =>
    obtain ⟨a, b, rest, rfl⟩ := ih
    exact ⟨_, _, _, rfl⟩

/-- Whether a mark stands in front of `c` and a text that closes does not depend on what follows. -/
theorem startsWith_append {a b c : Char} {rest : List Char} (h : ToClose rest) (more : List Char) :
    StartsWith a b (c :: (rest ++ more)) ↔ StartsWith a b (c :: rest) := by
  obtain ⟨d, e, rest, rfl⟩ := h.exists_cons
  simp [StartsWith]

namespace Piece

/-- The end of an inner comment. -/
theorem commentBody_close (depth : Nat) (rest : List Char) :
    commentBody (depth + 1) ('*' :: '/' :: rest)
      = (commentBody depth rest).map fun text => '*' :: '/' :: text := by
  rw [commentBody]

/-- The start of an inner comment. -/
theorem commentBody_open (depth : Nat) (rest : List Char) :
    commentBody depth ('/' :: '*' :: rest)
      = (commentBody (depth + 1) rest).map fun text => '/' :: '*' :: text := by
  rw [commentBody]

theorem commentBody_plain {c : Char} {rest : List Char} (depth : Nat)
    (hopen : ¬ StartsWith '/' '*' (c :: rest)) (hclose : ¬ StartsWith '*' '/' (c :: rest)) :
    commentBody depth (c :: rest) = (commentBody depth rest).map fun text => c :: text := by
  rw [commentBody]
  · rintro rest rfl rfl
    exact hclose rfl
  · rintro rest rfl rfl
    exact hopen rfl

/-- Counting marks over a text that closes a comment: with no other comment open it is all of the
    rest of the comment, else the count goes on behind it with one comment fewer. -/
theorem commentBody_append {text : List Char} (h : ToClose text) (more : List Char) :
    commentBody 0 (text ++ more) = some text ∧
      ∀ depth, commentBody (depth + 1) (text ++ more)
        = (commentBody depth more).map fun body => text ++ body := by
  induction h generalizing more with
  | close => exact ⟨rfl, fun depth => commentBody_close depth more⟩
  | @nested inner rest _ _ ihInner ihRest =>
    have assoc : '/' :: '*' :: (inner ++ rest) ++ more
        = '/' :: '*' :: (inner ++ (rest ++ more)) := by
      simp
    refine ⟨?_, fun depth => ?_⟩
    · rw [assoc, commentBody_open, (ihInner _).2, (ihRest more).1]
      rfl
    · rw [assoc, commentBody_open, (ihInner _).2, (ihRest more).2]
      cases commentBody depth more <;> simp
  | @plain c rest hopen hclose hrest ih =>
    have hopen' := mt (startsWith_append hrest more).1 hopen
    have hclose' := mt (startsWith_append hrest more).1 hclose
    refine ⟨?_, fun depth => ?_⟩
    · rw [List.cons_append, commentBody_plain 0 hopen' hclose', (ih more).1]
      rfl
    · rw [List.cons_append, commentBody_plain _ hopen' hclose', (ih more).2]
      cases commentBody depth more <;> rfl

/-- What counting marks takes is one text that closes a comment for each comment that is open. -/
theorem exists_of_commentBody {depth : Nat} {text body : List Char}
    (h : commentBody depth text = some body) :
    (∃ more, text = body ++ more) ∧
      ∃ parts : List (List Char), body = parts.flatten ∧ parts.length = depth + 1 ∧
        ∀ part ∈ parts, ToClose part := by
  fun_induction commentBody depth text generalizing body with
  | case1 => cases h
  | case2 rest =>
    obtain rfl := Option.some.inj h
    exact ⟨⟨rest, rfl⟩, [_], rfl, rfl, by simpa using ToClose.close⟩
  | case3 rest depth ih =>
    obtain ⟨body, hbody, rfl⟩ := Option.map_eq_some_iff.1 h
    obtain ⟨⟨more, rfl⟩, parts, rfl, hlength, hparts⟩ := ih hbody
    refine ⟨⟨more, rfl⟩, ['*', '/'] :: parts, rfl, by simp [hlength], ?_⟩
    exact List.forall_mem_cons.2 ⟨.close, hparts⟩
  | case4 depth rest ih =>
    obtain ⟨body, hbody, rfl⟩ := Option.map_eq_some_iff.1 h
    obtain ⟨⟨more, rfl⟩, parts, rfl, hlength, hparts⟩ := ih hbody
    -- The first part closes the comment that opens here, and the second goes on from there.
    match parts, hlength with
    | inner :: outer :: parts, hlength =>
      simp only [List.forall_mem_cons] at hparts
      refine ⟨⟨more, rfl⟩, ('/' :: '*' :: (inner ++ outer)) :: parts, by simp,
        by simpa using hlength, ?_⟩
      exact List.forall_mem_cons.2 ⟨.nested hparts.1 hparts.2.1, hparts.2.2⟩
  | case5 depth c rest hclose hopen ih =>
    obtain ⟨body, hbody, rfl⟩ := Option.map_eq_some_iff.1 h
    obtain ⟨⟨more, rfl⟩, parts, rfl, hlength, hparts⟩ := ih hbody
    match parts, hlength with
    | part :: parts, hlength =>
      simp only [List.forall_mem_cons] at hparts
      obtain ⟨a, b, part, rfl⟩ := hparts.1.exists_cons
      refine ⟨⟨more, rfl⟩, (c :: a :: b :: part) :: parts, rfl, by simpa using hlength, ?_⟩
      refine List.forall_mem_cons.2 ⟨.plain ?_ ?_ hparts.1, hparts.2⟩
      · intro hmark
        simp only [StartsWith, List.take_succ_cons, List.take_zero, List.cons.injEq, and_true]
          at hmark
        exact hopen (b :: part ++ parts.flatten ++ more) hmark.1 (by simp [hmark.2])
      · intro hmark
        simp only [StartsWith, List.take_succ_cons, List.take_zero, List.cons.injEq, and_true]
          at hmark
        exact hclose (b :: part ++ parts.flatten ++ more) hmark.1 (by simp [hmark.2])

/-- Counting marks finds the end of a comment exactly where the comment ends. -/
theorem commentBody_eq_some_iff {text body : List Char} :
    commentBody 0 text = some body ↔ ToClose body ∧ ∃ more, text = body ++ more := by
  constructor
  · intro h
    obtain ⟨hmore, parts, rfl, hlength, hparts⟩ := exists_of_commentBody h
    match parts, hlength with
    | [part], _ => exact ⟨by simpa using hparts, hmore⟩
  · rintro ⟨h, more, rfl⟩
    exact (commentBody_append h more).1

end Piece

/-- A text without a character, in front of that character or of nothing, is what stands before
    it. -/
theorem takeWhile_append_of_not_mem {c : Char} {s more : List Char} (hs : c ∉ s)
    (hmore : more = [] ∨ more.head? = some c) : (s ++ more).takeWhile (· != c) = s := by
  have hall : ∀ d ∈ s, (d != c) = true := fun d hd => bne_iff_ne.2 fun heq => hs (heq ▸ hd)
  rw [List.takeWhile_append_of_pos hall]
  rcases hmore with rfl | hmore
  · simp
  · obtain ⟨rest, rfl⟩ := List.head?_eq_some_iff.mp hmore
    simp

theorem eq_of_append_of_not_mem {c : Char} {s t more more' : List Char} (hs : c ∉ s) (ht : c ∉ t)
    (hmore : more = [] ∨ more.head? = some c) (hmore' : more' = [] ∨ more'.head? = some c)
    (h : s ++ more = t ++ more') : s = t := by
  rw [← takeWhile_append_of_not_mem hs hmore, h, takeWhile_append_of_not_mem ht hmore']

/-! ### What a piece is -/

/-- What a fault says about the stretch of text that it is about, given the text after it. -/
def LexFault.Describes : LexFault → List Char → List Char → Prop
  | .unexpectedCharacter c, text, _ => text = [c]
  | .unterminatedString, text, after => (∃ body, text = '"' :: body ∧ '"' ∉ body) ∧ after = []
  | .unterminatedComment, text, after =>
    (∃ body, text = '/' :: '*' :: body) ∧ (∀ s t, text = s ++ t → ¬ BlockComment s) ∧ after = []

namespace Piece

/-- The piece is what its shape says, in front of the text `after`. -/
def Apt (piece : Piece) (after : List Char) : Prop :=
  match piece.shape with
  | .blank => ∃ c, piece.text = [c] ∧ isBlank c = true
  | .comment => LineComment piece.text after ∨ BlockComment piece.text
  | .token kind =>
    kind ≠ .endOfInput ∧ ∀ s, kind = .string s → piece.text = '"' :: (s.toList ++ ['"'])
  | .fault fault => fault.Describes piece.text after

/-- The piece stands at the front of `text`, takes something of it, and is what it says. -/
def Fronts (piece : Piece) (text : List Char) : Prop :=
  piece.text ≠ [] ∧ ∃ after, text = piece.text ++ after ∧ piece.Apt after

/-- A word is in front of its text. -/
theorem fronts_word (c : Char) (rest : List Char) : (word c rest).Fronts (c :: rest) := by
  have whole : c :: rest = c :: rest.takeWhile isWordPart ++ rest.dropWhile isWordPart := by
    rw [List.cons_append, List.takeWhile_append_dropWhile]
  unfold word
  simp only
  split
  · exact ⟨List.cons_ne_nil _ _, _, whole, by simp [Apt]⟩
  · exact ⟨List.cons_ne_nil _ _, _, whole, by simp [Apt]⟩

/-- The fraction is in front of its text. -/
theorem exists_append_fraction (text : List Char) : ∃ after, text = fraction text ++ after := by
  unfold fraction
  split
  · rename_i d rest
    split
    · exact ⟨rest.dropWhile Char.isDigit, by simp [List.takeWhile_append_dropWhile]⟩
    · exact ⟨_, rfl⟩
  · exact ⟨text, rfl⟩

/-- A number is in front of its text. -/
theorem fronts_number (c : Char) (rest : List Char) : (number c rest).Fronts (c :: rest) := by
  obtain ⟨after, hafter⟩ := exists_append_fraction (rest.dropWhile Char.isDigit)
  refine ⟨List.cons_ne_nil _ _, after, ?_, by simp [Apt, number]⟩
  calc c :: rest
      = c :: (rest.takeWhile Char.isDigit ++ rest.dropWhile Char.isDigit) := by
        rw [List.takeWhile_append_dropWhile]
    _ = (number c rest).text ++ after := by
        rw [hafter]
        simp [number, ← hafter]

/-- Text up to a character does not hold the character. -/
theorem not_mem_takeWhile (c : Char) (text : List Char) : c ∉ text.takeWhile (· != c) := by
  intro h
  have hall := List.all_eq_true.1 (List.all_takeWhile (p := (· != c)) (l := text)) c h
  simp at hall

/-- Text that is left after the text up to a character starts with the character. -/
theorem eq_of_dropWhile {c d : Char} {text after : List Char}
    (h : text.dropWhile (· != c) = d :: after) : d = c := by
  have hhead := List.head?_dropWhile_not (· != c) text
  rw [h] at hhead
  simpa using hhead

theorem fronts_string (rest : List Char) : (string rest).Fronts ('"' :: rest) := by
  have hbody := not_mem_takeWhile '"' rest
  have hrest := List.takeWhile_append_dropWhile (p := (· != '"')) (l := rest)
  unfold string
  simp only
  split
  · rename_i c after heq
    obtain rfl := eq_of_dropWhile heq
    refine ⟨List.cons_ne_nil _ _, after, ?_, by simp [Apt]⟩
    rw [heq] at hrest
    rw [List.cons_append, List.append_assoc, List.singleton_append, hrest]
  · rename_i heq
    rw [heq, List.append_nil] at hrest
    refine ⟨List.cons_ne_nil _ _, [], (List.append_nil _).symm, ⟨rest, rfl, ?_⟩, rfl⟩
    rwa [hrest] at hbody

theorem fronts_blockComment (rest : List Char) :
    (blockComment rest).Fronts ('/' :: '*' :: rest) := by
  unfold blockComment
  split
  · rename_i body heq
    obtain ⟨hbody, after, rfl⟩ := commentBody_eq_some_iff.1 heq
    exact ⟨List.cons_ne_nil _ _, after, rfl, .inr ⟨body, rfl, hbody⟩⟩
  · rename_i heq
    refine ⟨List.cons_ne_nil _ _, [], by simp, ⟨rest, rfl⟩, ?_, rfl⟩
    rintro s t hst ⟨body, rfl, hbody⟩
    have hsome : commentBody 0 rest = some body :=
      commentBody_eq_some_iff.2 ⟨hbody, t, by simpa using hst⟩
    rw [hsome] at heq
    cases heq

/-- A line comment is in front of its text. -/
theorem fronts_lineComment (rest : List Char) : (lineComment rest).Fronts ('/' :: '/' :: rest) := by
  refine ⟨List.cons_ne_nil _ _, rest.dropWhile (· != '\n'), ?_,
    .inl ⟨⟨_, rfl, not_mem_takeWhile '\n' rest⟩, ?_⟩⟩
  · simp [lineComment, List.takeWhile_append_dropWhile]
  · cases heq : rest.dropWhile (· != '\n') with
    | nil => exact .inl rfl
    | cons c after => exact .inr (congrArg some (eq_of_dropWhile heq))

/-- A symbol is in front of its text. -/
theorem fronts_symbol (c : Char) (rest : List Char) : (symbol c rest).Fronts (c :: rest) := by
  have known (s : Symbol) : Fronts ⟨.token (.symbol s), [c]⟩ (c :: rest) :=
    ⟨List.cons_ne_nil _ _, rest, rfl, by simp [Apt]⟩
  have unknown : Fronts ⟨.fault (.unexpectedCharacter c), [c]⟩ (c :: rest) :=
    ⟨List.cons_ne_nil _ _, rest, rfl, rfl⟩
  unfold symbol
  simp only
  split
  · rename_i d rest
    split
    · exact ⟨List.cons_ne_nil _ _, rest, rfl, by simp [Apt]⟩
    · split
      · exact known _
      · exact unknown
  · split
    · exact known _
    · exact unknown

/-- Whatever comes first is in front of the text. -/
theorem fronts_front (c : Char) (rest : List Char) : (front c rest).Fronts (c :: rest) := by
  unfold front
  split
  · rename_i hc
    exact ⟨List.cons_ne_nil _ _, rest, rfl, c, rfl, hc⟩
  split
  · rename_i hc
    obtain rfl : c = '"' := by simpa using hc
    exact fronts_string rest
  split
  · exact fronts_number c rest
  split
  · exact fronts_word c rest
  split
  · exact fronts_lineComment _
  · exact fronts_blockComment _
  · exact fronts_symbol c rest

end Piece

/-! ### Cutting -/

/-- What belongs to the piece before is skipped. -/
theorem cut_append (s t : List Char) : cut s.length (s ++ t) = cut 0 t := by
  induction s with
  | nil => rfl
  | cons c s ih => exact ih

theorem pieces_cons {c : Char} {rest after : List Char}
    (h : c :: rest = (Piece.front c rest).text ++ after) :
    pieces (c :: rest) = Piece.front c rest :: pieces after := by
  have hne := (Piece.fronts_front c rest).1
  show Piece.front c rest :: cut ((Piece.front c rest).text.length - 1) rest = _
  cases htext : (Piece.front c rest).text with
  | nil => exact absurd htext hne
  | cons d text =>
    rw [htext, List.cons_append, List.cons.injEq] at h
    rw [h.2, List.length_cons, Nat.add_sub_cancel, cut_append]
    rfl

/-- What holds of the empty text, and holds of a text and its pieces if it does of the text behind
    the first piece, holds of every text and its pieces. -/
theorem pieces_induction_front {P : List Char → List Piece → Prop} (nil : P [] [])
    (cons : ∀ (c : Char) (rest after : List Char), c :: rest = (Piece.front c rest).text ++ after →
      P after (pieces after) → P (c :: rest) (Piece.front c rest :: pieces after))
    (text : List Char) : P text (pieces text) := by
  -- The text after a piece is no tail of the text in general, so the induction is on the length.
  induction hn : text.length using Nat.strongRecOn generalizing text with
  | ind n ih =>
    cases text with
    | nil => exact nil
    | cons c rest =>
      obtain ⟨hne, after, hafter, -⟩ := Piece.fronts_front c rest
      have hshort : after.length < n := by
        have := congrArg List.length hafter
        have := List.length_pos_iff.2 hne
        simp only [List.length_cons, List.length_append] at *
        omega
      rw [pieces_cons hafter]
      exact cons c rest after hafter (ih after.length hshort after rfl)

/-- What holds of the empty text, and is kept when a piece is put in front of a text, holds of every
    text and its pieces. -/
theorem pieces_induction {P : List Char → List Piece → Prop} (nil : P [] [])
    (cons : ∀ (piece : Piece) (after : List Char), piece.text ≠ [] → piece.Apt after →
      P after (pieces after) → P (piece.text ++ after) (piece :: pieces after))
    (text : List Char) : P text (pieces text) := by
  refine pieces_induction_front nil (fun c rest after hafter ih => ?_) text
  obtain ⟨hne, after', hafter', hapt⟩ := Piece.fronts_front c rest
  obtain rfl : after' = after := List.append_cancel_left (hafter'.symm.trans hafter)
  rw [hafter']
  exact cons _ _ hne hapt ih

/-! ### Scanned tokens -/

/-- Every piece is what comes first in some text. -/
theorem exists_front_of_mem_cut {skip : Nat} {text : List Char} {p : Piece}
    (h : p ∈ cut skip text) : ∃ c rest, p = Piece.front c rest := by
  induction text generalizing skip with
  | nil => cases h
  | cons c rest ih =>
    cases skip with
    | succ skip => exact ih h
    | zero =>
      rcases List.mem_cons.mp h with rfl | h
      · exact ⟨c, rest, rfl⟩
      · exact ih h

theorem exists_piece_of_mem_items {pos : Position} {ps : List Piece} {t : Token}
    (h : .token t ∈ items pos ps) :
    (t.kind = .endOfInput ∧ t.lexeme = "") ∨
      ∃ p ∈ ps, p.shape = .token t.kind ∧ t.lexeme = String.ofList p.text := by
  induction ps generalizing pos with
  | nil =>
    rw [items, List.mem_singleton] at h
    cases h
    exact .inl ⟨rfl, rfl⟩
  | cons p more ih =>
    have hmore {pos : Position} (h : .token t ∈ items pos more) :
        (t.kind = .endOfInput ∧ t.lexeme = "") ∨
          ∃ q ∈ p :: more, q.shape = .token t.kind ∧ t.lexeme = String.ofList q.text :=
      (ih h).imp_right fun ⟨q, hq, hshape⟩ => ⟨q, List.mem_cons_of_mem p hq, hshape⟩
    simp only [items] at h
    split at h
    · next kind hkind =>
      rcases List.mem_cons.mp h with heq | h
      · cases heq
        exact .inr ⟨p, List.mem_cons_self, hkind, rfl⟩
      · exact hmore h
    · rcases List.mem_cons.mp h with heq | h
      · cases heq
      · exact hmore h
    · exact hmore h
    · exact hmore h

/-- A scanned token is the end of the input, or a piece at the front of some text. -/
theorem exists_front_of_scan {source : String} {tokens : List Token} {t : Token}
    (h : scan source = .ok tokens) (ht : t ∈ tokens) :
    (t.kind = .endOfInput ∧ t.lexeme = "") ∨
      ∃ c rest, (Piece.front c rest).shape = .token t.kind ∧
        t.lexeme = String.ofList (Piece.front c rest).text := by
  simp only [scan] at h
  split at h
  · cases h
    obtain ⟨item, hitem, ht⟩ := List.mem_filterMap.mp ht
    cases item with
    | fault f => cases ht
    | token u =>
      cases ht
      refine (exists_piece_of_mem_items hitem).imp_right ?_
      rintro ⟨p, hp, hshape, hlexeme⟩
      obtain ⟨c, rest, rfl⟩ := exists_front_of_mem_cut hp
      exact ⟨c, rest, hshape, hlexeme⟩
  · cases h

end ClassScript
