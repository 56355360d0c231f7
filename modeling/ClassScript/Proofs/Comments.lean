import ClassScript.Proofs.Layout
import ClassScript.Proofs.Respacing

namespace ClassScript

/-!
# Comments read as blanks

What is a comment is said here without scanning: a text is divided into strings, comments and single
characters outside of both, and a block comment ends where the count of open comments first comes
down to zero. A text then scans alike, with the same positions, when each byte of its comments that
is no line feed is replaced by a space. A block comment that does not end is the one exception: it
is a fault, and nothing but the end of input comes after it.

* `openAfter`, `Closes`: the count of open comments, and the text at whose end it is zero;
* `Stretch`, `Divides`: strings, comments and other characters of a text;
* `Divides.unique`, `exists_readsAlike`: a text is divided in one way only, and every text is, into
  stretches that scan alike with blanks for comments;
* `pieces_flatMap_text`: a text that is cut off behind a piece has the same pieces up to there;
* `comments_scan_as_blanks`: the main result.
-/

/-! ### The end of a block comment -/

/-- How many block comments are open behind a text if `depth` are open in front of it. Opening and
    closing marks are counted from left to right and do not overlap. -/
def openAfter (depth : Nat) : List Char → Nat
  | [] => depth
  | '*' :: '/' :: rest => openAfter (depth - 1) rest
  | '/' :: '*' :: rest => openAfter (depth + 1) rest
  | _ :: rest => openAfter depth rest

/-- The text goes from inside of `depth` block comments to where the first mark closes the last of
    them: it is the shortest text over which the count comes down to zero. -/
def Closes (depth : Nat) (text : List Char) : Prop :=
  openAfter depth text = 0 ∧ ∀ start rest, text = start ++ rest → rest ≠ [] →
    openAfter depth start ≠ 0

theorem openAfter_plain {c : Char} {rest : List Char} (depth : Nat)
    (hopen : ¬ StartsWith '/' '*' (c :: rest)) (hclose : ¬ StartsWith '*' '/' (c :: rest)) :
    openAfter depth (c :: rest) = openAfter depth rest := by
  rw [openAfter]
  · rintro rest rfl rfl
    exact hclose rfl
  · rintro rest rfl rfl
    exact hopen rfl

/-- A start of a text has no mark in front if the text has none. -/
theorem not_startsWith_of_append {a b c : Char} {start rest : List Char}
    (h : ∀ more, c = a → start ++ rest = b :: more → False) : ¬ StartsWith a b (c :: start) := by
  unfold StartsWith
  intro hmark
  cases start with
  | nil => simp at hmark
  | cons d start =>
    simp only [List.take_succ_cons, List.take_zero, List.cons.injEq, and_true] at hmark
    exact h (start ++ rest) hmark.1 (by rw [hmark.2, List.cons_append])

/-- Where a mark stands in front, the count is not zero before the mark, so it is zero only behind
    it. -/
theorem openAfter_ne_zero_of_mark {depth depth' : Nat} {a b : Char} {more start rest : List Char}
    (hone : openAfter (depth + 1) [a] = depth + 1)
    (hmark : ∀ s, openAfter (depth + 1) (a :: b :: s) = openAfter depth' s)
    (htext : a :: b :: more = start ++ rest)
    (h : ∀ s, start = a :: b :: s → more = s ++ rest → openAfter depth' s ≠ 0) :
    openAfter (depth + 1) start ≠ 0 := by
  rcases start with _ | ⟨c, _ | ⟨d, start⟩⟩
  · exact Nat.succ_ne_zero _
  · cases htext
    rw [hone]
    exact Nat.succ_ne_zero _
  · cases htext
    rw [hmark]
    exact h start rfl rfl

namespace Piece

/-- At the end of what counting marks takes, no comment is open. -/
theorem openAfter_commentBody {depth : Nat} {text body : List Char}
    (h : commentBody depth text = some body) : openAfter (depth + 1) body = 0 := by
  fun_induction commentBody depth text generalizing body with
  | case1 => cases h
  | case2 rest =>
    obtain rfl := Option.some.inj h
    rfl
  | case3 rest depth ih =>
    obtain ⟨body, hbody, rfl⟩ := Option.map_eq_some_iff.1 h
    rw [openAfter]
    exact ih hbody
  | case4 depth rest ih =>
    obtain ⟨body, hbody, rfl⟩ := Option.map_eq_some_iff.1 h
    rw [openAfter]
    exact ih hbody
  | case5 depth c rest hclose hopen ih =>
    obtain ⟨body, hbody, rfl⟩ := Option.map_eq_some_iff.1 h
    obtain ⟨more, rfl⟩ := (exists_of_commentBody hbody).1
    rw [openAfter_plain _ (not_startsWith_of_append hopen) (not_startsWith_of_append hclose)]
    exact ih hbody

/-- Before the end of what counting marks takes, some comment is open; if it takes nothing, then one
    is open everywhere. -/
theorem openAfter_ne_zero {depth : Nat} {text start rest : List Char} (htext : text = start ++ rest)
    (hshort : ∀ body ∈ commentBody depth text, start.length < body.length) :
    openAfter (depth + 1) start ≠ 0 := by
  fun_induction commentBody depth text generalizing start with
  | case1 =>
    obtain ⟨rfl, -⟩ := List.nil_eq_append_iff.mp htext
    exact Nat.succ_ne_zero _
  | case2 more =>
    -- What is taken ends with this mark, and `start` is shorter.
    refine openAfter_ne_zero_of_mark rfl (fun s => by rw [openAfter]) htext ?_
    rintro s rfl -
    have hlength := hshort _ rfl
    simp only [List.length_cons, List.length_nil] at hlength
    omega
  | case3 more depth ih =>
    refine openAfter_ne_zero_of_mark rfl (fun s => by rw [openAfter]) htext ?_
    rintro s rfl hmore
    exact ih hmore (by simpa using hshort)
  | case4 depth more ih =>
    refine openAfter_ne_zero_of_mark rfl (fun s => by rw [openAfter]) htext ?_
    rintro s rfl hmore
    exact ih hmore (by simpa using hshort)
  | case5 depth c more hclose hopen ih =>
    rcases start with _ | ⟨d, start⟩
    · exact Nat.succ_ne_zero _
    · cases htext
      rw [openAfter_plain _ (not_startsWith_of_append hopen) (not_startsWith_of_append hclose)]
      exact ih rfl (by simpa using hshort)

/-- Counting marks takes the text up to where a comment closes. -/
theorem closes_of_commentBody {depth : Nat} {text body : List Char}
    (h : commentBody depth text = some body) : Closes (depth + 1) body := by
  refine ⟨openAfter_commentBody h, fun start rest hbody hne => ?_⟩
  obtain ⟨more, rfl⟩ := (exists_of_commentBody h).1
  subst hbody
  refine openAfter_ne_zero (List.append_assoc start rest more) fun body' hbody' => ?_
  obtain rfl := Option.some.inj (h.symm.trans hbody')
  have := List.length_pos_iff.2 hne
  simp only [List.length_append]
  omega

end Piece

/-- Texts that close at the same depth and start the same text are equal. -/
theorem Closes.eq_of_append {depth : Nat} {s t more more' : List Char} (hs : Closes depth s)
    (ht : Closes depth t) (h : s ++ more = t ++ more') : s = t := by
  rcases List.append_eq_append_iff.mp h with ⟨rest, hrest, -⟩ | ⟨rest, hrest, -⟩
  · by_cases hnil : rest = []
    · rw [hrest, hnil, List.append_nil]
    · exact absurd hs.1 (ht.2 s rest hrest hnil)
  · by_cases hnil : rest = []
    · rw [hrest, hnil, List.append_nil]
    · exact absurd ht.1 (hs.2 t rest hrest hnil)

/-! ### Stretches -/

/-- A part of a text: a string or a comment as a whole, or one character outside of both. -/
inductive Stretch where
  | char (c : Char)
  /-- A string; `body` is what stands between the quotes. -/
  | string (body : List Char)
  /-- A string without a closing quote. -/
  | openString (body : List Char)
  /-- A line comment; `body` is what stands after its mark. -/
  | lineComment (body : List Char)
  /-- A block comment; `body` is what stands after its opening mark, the end included. -/
  | blockComment (body : List Char)
  /-- A block comment without an end. -/
  | openComment (body : List Char)

namespace Stretch

/-- The text of a stretch. -/
def text : Stretch → List Char
  | char c => [c]
  | string body => '"' :: (body ++ ['"'])
  | openString body => '"' :: body
  | lineComment body => '/' :: '/' :: body
  | blockComment body => '/' :: '*' :: body
  | openComment body => '/' :: '*' :: body

/-- The stretch is what it says, in front of the text `after`. -/
def Fits (after : List Char) : Stretch → Prop
  | char c => c ≠ '"' ∧ ¬ (c = '/' ∧ (after.head? = some '/' ∨ after.head? = some '*'))
  | string body => '"' ∉ body
  | openString body => '"' ∉ body ∧ after = []
  | lineComment body => '\n' ∉ body ∧ (after = [] ∨ after.head? = some '\n')
  | blockComment body => Closes 1 body
  | openComment body => (∀ start rest, body = start ++ rest → ¬ Closes 1 start) ∧ after = []

end Stretch

/-- The text of stretches, one after the other. -/
def textOf (ss : List Stretch) : List Char := ss.flatMap Stretch.text

/-- The text is divided into the stretches: each of them is what it says. -/
def Divides : List Stretch → List Char → Prop
  | [], text => text = []
  | s :: ss, text => ∃ after, text = s.text ++ after ∧ s.Fits after ∧ Divides ss after

theorem Divides.text_eq {ss : List Stretch} {text : List Char} (h : Divides ss text) :
    textOf ss = text := by
  induction ss generalizing text with
  | nil => exact h.symm
  | cons s ss ih =>
    obtain ⟨after, rfl, -, hmore⟩ := h
    rw [textOf, List.flatMap_cons, ← textOf, ih hmore]

/-- What stands in front of a text whose first character is outside of strings and comments is that
    character. -/
theorem Stretch.eq_char_of_append {c : Char} {t : Stretch} {after after' : List Char}
    (hc : (Stretch.char c).Fits after) (ht : t.Fits after') (h : c :: after = t.text ++ after') :
    t = .char c := by
  cases t <;> simp_all [Stretch.text, Fits]

/-- The first stretch of a text is determined by the text. -/
theorem Stretch.eq_of_append {s t : Stretch} {after after' : List Char} (hs : s.Fits after)
    (ht : t.Fits after') (h : s.text ++ after = t.text ++ after') : s = t := by
  cases s with
  | char c => exact (eq_char_of_append hs ht h).symm
  | string body =>
    cases t with
    | char c => exact eq_char_of_append ht hs h.symm
    | string body' =>
      simp only [Stretch.text, List.cons_append, List.append_assoc, List.cons.injEq, true_and] at h
      exact congrArg string (eq_of_append_of_not_mem hs ht (.inr rfl) (.inr rfl) h)
    | openString body' =>
      obtain ⟨hbody', rfl⟩ := ht
      -- An open string runs to the end of the text, and there is a quote on the way.
      have heq : body ++ '"' :: after = body' := by simpa [Stretch.text] using h
      exact absurd (heq ▸ by simp) hbody'
    | _ => simp_all [Stretch.text, Fits]
  | openString body =>
    cases t with
    | char c => exact eq_char_of_append ht hs h.symm
    | string body' =>
      obtain ⟨hbody, rfl⟩ := hs
      have heq : body' ++ '"' :: after' = body := by simpa [Stretch.text] using h.symm
      exact absurd (heq ▸ by simp) hbody
    | _ => simp_all [Stretch.text, Fits]
  | lineComment body =>
    cases t with
    | char c => exact eq_char_of_append ht hs h.symm
    | lineComment body' =>
      simp only [Stretch.text, List.cons_append, List.cons.injEq, true_and] at h
      exact congrArg lineComment (eq_of_append_of_not_mem hs.1 ht.1 hs.2 ht.2 h)
    | _ => simp_all [Stretch.text, Fits]
  | blockComment body =>
    cases t with
    | char c => exact eq_char_of_append ht hs h.symm
    | blockComment body' =>
      simp only [Stretch.text, List.cons_append, List.cons.injEq, true_and] at h
      exact congrArg blockComment (hs.eq_of_append ht h)
    | openComment body' =>
      obtain ⟨hopen, rfl⟩ := ht
      -- An open comment runs to the end of the text, and closes nowhere on the way.
      exact absurd hs (hopen body after (by simpa [Stretch.text] using h.symm))
    | _ => simp_all [Stretch.text, Fits]
  | openComment body =>
    cases t with
    | char c => exact eq_char_of_append ht hs h.symm
    | blockComment body' =>
      obtain ⟨hopen, rfl⟩ := hs
      exact absurd ht (hopen body' after' (by simpa [Stretch.text] using h))
    | _ => simp_all [Stretch.text, Fits]

/-- A text is divided in one way only. -/
theorem Divides.unique {ss ts : List Stretch} {text : List Char} (hs : Divides ss text)
    (ht : Divides ts text) : ss = ts := by
  induction ss generalizing ts text with
  | nil =>
    cases ts with
    | nil => rfl
    | cons t ts =>
      obtain ⟨after, rfl, -, -⟩ := ht
      cases t <;> cases hs
  | cons s ss ih =>
    obtain ⟨after, rfl, hfits, hmore⟩ := hs
    cases ts with
    | nil => cases s <;> cases ht
    | cons t ts =>
      obtain ⟨after', heq, hfits', hmore'⟩ := ht
      obtain rfl := Stretch.eq_of_append hfits hfits' heq
      obtain rfl := List.append_cancel_left heq
      rw [ih hmore hmore']

/-! ### Blanks in the place of comments -/

/-- A text with a space in the place of each byte that is no line feed. -/
def blanks (text : List Char) : List Char :=
  text.flatMap fun c => if c = '\n' then ['\n'] else List.replicate c.utf8Size ' '

/-- What a byte is replaced by: a space, or itself if it is a line feed. -/
def blankByte (byte : UInt8) : UInt8 := if byte = lineFeed then lineFeed else 32

/-- The bytes of a stretch, with those of a comment that ends replaced. -/
def Stretch.blankedBytes (s : Stretch) : List UInt8 :=
  match s with
  | .lineComment _ | .blockComment _ => (bytesOf (String.ofList s.text)).map blankByte
  | _ => bytesOf (String.ofList s.text)

/-- The text of a stretch, with the bytes of a comment that ends replaced. -/
def Stretch.blanked (s : Stretch) : List Char :=
  match s with
  | .lineComment _ | .blockComment _ => blanks s.text
  | _ => s.text

/-- What is blanked out has blanks only. -/
theorem isBlank_of_mem_blanks {text : List Char} : ∀ c ∈ blanks text, isBlank c = true := by
  intro c hc
  obtain ⟨d, -, hd⟩ := List.mem_flatMap.mp hc
  split at hd
  · rw [List.mem_singleton.mp hd]
    rfl
  · rw [List.eq_of_mem_replicate hd]
    rfl

theorem bytesOf_blanks (text : List Char) :
    bytesOf (String.ofList (blanks text)) = (bytesOf (String.ofList text)).map blankByte := by
  rw [bytesOf_ofList, bytesOf_ofList, blanks, List.flatMap_assoc, List.map_flatMap]
  congr
  funext c
  by_cases hc : c = '\n'
  · subst hc
    rfl
  · -- No byte of the character is a line feed, and there are as many spaces as bytes.
    have hbytes : (String.utf8EncodeChar c).map blankByte
        = List.replicate (String.utf8EncodeChar c).length 32 := by
      refine List.map_eq_replicate_iff.mpr fun byte hbyte => if_neg ?_
      rintro rfl
      exact hc (lineFeed_mem_utf8EncodeChar.1 hbyte)
    rw [if_neg hc, hbytes, String.length_utf8EncodeChar, List.flatMap_replicate]
    have hspace : String.utf8EncodeChar ' ' = [32] := rfl
    simp [hspace]

/-- The bytes of a blanked stretch. -/
theorem Stretch.bytesOf_blanked (s : Stretch) :
    bytesOf (String.ofList s.blanked) = s.blankedBytes := by
  cases s with
  | lineComment body => exact bytesOf_blanks _
  | blockComment body => exact bytesOf_blanks _
  | _ => rfl

theorem bytesOf_flatMap_blanked (ss : List Stretch) :
    bytesOf (String.ofList (ss.flatMap Stretch.blanked)) = ss.flatMap Stretch.blankedBytes := by
  induction ss with
  | nil => rfl
  | cons s ss ih =>
    rw [List.flatMap_cons, List.flatMap_cons, String.ofList_append, bytesOf_append, ih,
      s.bytesOf_blanked]

/-- Spaces move the column on, one by one. -/
theorem Position.advance_spaces (p : Position) (n : Nat) :
    p.advance (List.replicate n ' ') = ⟨p.line, p.column + n⟩ := by
  induction n generalizing p with
  | zero => rfl
  | succ n ih =>
    have hstep : p.step ' ' = ⟨p.line, p.column + 1⟩ := rfl
    rw [List.replicate_succ, Position.advance_cons, ih, hstep]
    show Position.mk p.line (p.column + 1 + n) = _
    rw [Nat.add_right_comm, Nat.add_assoc]

/-- The position behind a text does not change. -/
theorem Position.advance_blanks (p : Position) (text : List Char) :
    p.advance (blanks text) = p.advance text := by
  induction text generalizing p with
  | nil => rfl
  | cons c text ih =>
    have hcons : blanks (c :: text) = blanks [c] ++ blanks text := by simp [blanks]
    have hone : p.advance (blanks [c]) = p.step c := by
      by_cases hc : c = '\n'
      · subst hc
        rfl
      · simp [blanks, hc, Position.advance_spaces, Position.step]
    rw [hcons, Position.advance_append, hone, ih, Position.advance_cons]

/-- Blanks in front of a text only move its items. -/
theorem items_pieces_blank {text : List Char} (h : ∀ c ∈ text, isBlank c = true) (pos : Position)
    (other : List Char) :
    items pos (pieces (text ++ other)) = items (pos.advance text) (pieces other) := by
  induction text generalizing pos with
  | nil => rfl
  | cons c text ih =>
    obtain ⟨hc, hmore⟩ := List.forall_mem_cons.mp h
    rw [List.cons_append, pieces_blank hc, Position.advance_cons, ← ih hmore]
    rfl

/-! ### Characters outside of strings and comments -/

namespace Piece

theorem mem_symbol_text {c d : Char} {rest : List Char} (h : d ∈ (symbol c rest).text) :
    d = c ∨ d = '>' ∨ d = '=' := by
  have hpair {e : Char} {s : Symbol} (hs : Symbol.ofPair? c e = some s) : e = '>' ∨ e = '=' := by
    unfold Symbol.ofPair? at hs
    split at hs <;> simp_all
  cases rest with
  | nil => exact .inl (by simpa [symbol_nil_text] using h)
  | cons e rest =>
    cases hs : Symbol.ofPair? c e with
    | none =>
      rw [symbol_of_ofPair?_eq_none hs, symbol_nil_text] at h
      exact .inl (List.mem_singleton.mp h)
    | some s =>
      simp only [symbol, hs, List.mem_cons, List.not_mem_nil, or_false] at h
      rcases h with rfl | rfl
      · exact .inl rfl
      · exact .inr (hpair hs)

/-- A fraction has a point and digits only. -/
theorem mem_fraction {d : Char} {text : List Char} (h : d ∈ fraction text) :
    d = '.' ∨ d.isDigit = true := by
  unfold fraction at h
  split at h
  · split at h
    · next hd =>
      rcases List.mem_cons.mp h with rfl | h
      · exact .inl rfl
      · rcases List.mem_cons.mp h with rfl | h
        · exact .inr hd
        · exact .inr (forall_mem_takeWhile _ _ _ h)
    · cases h
  · cases h

theorem isLocal_word (c : Char) (rest : List Char) : (word c rest).shape.IsLocal := by
  unfold word
  simp only
  split <;> trivial

theorem isLocal_symbol (c : Char) (rest : List Char) : (symbol c rest).shape.IsLocal := by
  have hsingle : (symbol c []).shape.IsLocal := by
    unfold symbol
    simp only
    split <;> trivial
  cases rest with
  | nil => exact hsingle
  | cons d rest =>
    cases hs : Symbol.ofPair? c d with
    | none =>
      rw [symbol_of_ofPair?_eq_none hs]
      exact hsingle
    | some s =>
      simp only [symbol, hs]
      trivial

/-- A piece that starts with neither a quote nor a comment is local; no quote stands in it, and a
    slash only if it is all of it. -/
theorem plain_front {c : Char} {rest : List Char} (hquote : c ≠ '"')
    (hcomment : ¬ (c = '/' ∧ (rest.head? = some '/' ∨ rest.head? = some '*'))) :
    (front c rest).shape.IsLocal ∧
      ∀ d ∈ (front c rest).text, d ≠ '"' ∧ (d = '/' → (front c rest).text = ['/']) := by
  -- Blanks, numbers and words are made of characters of a kind that has neither quote nor slash.
  have hsafe {p : Char → Bool} {text : List Char} (hslash : p '/' = false) (hmark : p '"' = false)
      (h : ∀ d ∈ text, p d = true) : ∀ d ∈ text, d ≠ '"' ∧ (d = '/' → text = ['/']) := by
    intro d hd
    have hp := h d hd
    refine ⟨?_, ?_⟩
    · rintro rfl
      rw [hmark] at hp
      cases hp
    · rintro rfl
      rw [hslash] at hp
      cases hp
  by_cases hblank : isBlank c = true
  · rw [front_blank hblank]
    exact ⟨trivial, hsafe rfl rfl (List.forall_mem_singleton.mpr hblank)⟩
  by_cases hdigit : c.isDigit = true
  · rw [front_number hdigit]
    refine ⟨trivial, hsafe (p := fun d => d == '.' || d.isDigit) rfl rfl fun d hd => ?_⟩
    rcases List.mem_append.mp hd with hd | hd
    · rcases List.mem_cons.mp hd with rfl | hd
      · simp [hdigit]
      · simp [forall_mem_takeWhile _ _ d hd]
    · simpa using mem_fraction hd
  by_cases hword : isWordStart c = true
  · rw [front_word hdigit hword]
    refine ⟨isLocal_word c rest, hsafe (p := isWordPart) rfl rfl fun d hd => ?_⟩
    rw [word_text] at hd
    rcases List.mem_cons.mp hd with rfl | hd
    · exact isWordPart_of_isWordStart hword
    · exact forall_mem_takeWhile _ _ d hd
  · rw [front_eq_symbol hblank (by simpa using hquote) hdigit hword hcomment]
    refine ⟨isLocal_symbol c rest, fun d hd => ?_⟩
    rcases mem_symbol_text hd with rfl | rfl | rfl
    · refine ⟨hquote, ?_⟩
      rintro rfl
      exact symbol_slash_text rest
    · exact ⟨by decide, fun h => absurd h (by decide)⟩
    · exact ⟨by decide, fun h => absurd h (by decide)⟩

end Piece

/-! ### The start of a text, up to a piece -/

/-- Cutting a text off somewhere behind its first piece does not change the piece. -/
theorem Piece.front_cut {c : Char} {rest other more : List Char}
    (hrest : c :: rest = (front c rest).text ++ (other ++ more)) :
    ∃ text, (front c rest).text = c :: text ∧ front c (text ++ other) = front c rest := by
  by_cases hlocal : (front c rest).shape.IsLocal
  · exact front_append hrest hlocal (stops_append other more)
  obtain ⟨-, after, hafter, hapt⟩ := fronts_front c rest
  obtain rfl : after = other ++ more := List.append_cancel_left (hafter.symm.trans hrest)
  unfold Apt at hapt
  -- A fault that takes all of the text leaves nothing to cut off.
  have hall (hnil : other ++ more = []) :
      ∃ text, (front c rest).text = c :: text ∧ front c (text ++ other) = front c rest := by
    obtain ⟨rfl, rfl⟩ := List.append_eq_nil_iff.mp hnil
    exact ⟨rest, by simpa using hrest.symm, by rw [List.append_nil]⟩
  cases hshape : (front c rest).shape with
  | blank => exact absurd (hshape ▸ trivial) hlocal
  | token kind => exact absurd (hshape ▸ trivial) hlocal
  | fault fault =>
    rw [hshape] at hapt
    cases fault with
    | unexpectedCharacter d => exact absurd (hshape ▸ trivial) hlocal
    | unterminatedString => exact hall hapt.2
    | unterminatedComment => exact hall hapt.2.2
  | comment =>
    rw [hshape] at hapt
    rcases hapt with ⟨⟨body, htext, hbody⟩, hend⟩ | ⟨body, htext, hbody⟩
    · have hpiece : front c rest = ⟨.comment, '/' :: '/' :: body⟩ := by rw [← hshape, ← htext]
      rw [htext] at hrest
      obtain ⟨rfl, rfl⟩ := List.cons.inj hrest
      refine ⟨'/' :: body, htext, ?_⟩
      rw [hpiece]
      show lineComment (body ++ other) = _
      have hother : other = [] ∨ other.head? = some '\n' := by
        cases other with
        | nil => exact .inl rfl
        | cons d other => exact .inr (hend.resolve_left (List.cons_ne_nil _ _))
      rw [lineComment, takeWhile_append_of_not_mem hbody hother]
    · have hpiece : front c rest = ⟨.comment, '/' :: '*' :: body⟩ := by rw [← hshape, ← htext]
      rw [htext] at hrest
      obtain ⟨rfl, rfl⟩ := List.cons.inj hrest
      refine ⟨'*' :: body, htext, ?_⟩
      rw [hpiece]
      show blockComment (body ++ other) = _
      rw [blockComment, (commentBody_append hbody other).1]

/-- The pieces of a text make up the text. -/
theorem flatMap_text_pieces (text : List Char) : (pieces text).flatMap Piece.text = text := by
  refine pieces_induction (P := fun text ps => ps.flatMap Piece.text = text) rfl ?_ text
  intro piece after _ _ ih
  rw [List.flatMap_cons, ih]

/-- The first pieces of a text are the pieces of the text that they make up. -/
theorem pieces_flatMap_text {text : List Char} {ps qs : List Piece}
    (h : pieces text = ps ++ qs) : pieces (ps.flatMap Piece.text) = ps := by
  induction ps generalizing text with
  | nil => rfl
  | cons p ps ih =>
    cases text with
    | nil => cases h
    | cons c rest =>
      obtain ⟨-, after, hafter, -⟩ := Piece.fronts_front c rest
      rw [pieces_cons hafter, List.cons_append, List.cons.injEq] at h
      obtain ⟨rfl, hmore⟩ := h
      have htext : after = ps.flatMap Piece.text ++ qs.flatMap Piece.text := by
        rw [← List.flatMap_append, ← hmore, flatMap_text_pieces]
      rw [htext] at hafter
      obtain ⟨text, htext, hfront⟩ := Piece.front_cut hafter
      have hwhole : c :: (text ++ ps.flatMap Piece.text)
          = (Piece.front c (text ++ ps.flatMap Piece.text)).text ++ ps.flatMap Piece.text := by
        rw [hfront, htext, List.cons_append]
      rw [List.flatMap_cons, htext, List.cons_append, pieces_cons hwhole, hfront, ih hmore]

theorem items_ne_nil (pos : Position) (ps : List Piece) : items pos ps ≠ [] := by
  induction ps generalizing pos with
  | nil => exact List.cons_ne_nil _ _
  | cons p ps ih =>
    rw [items]
    cases p.shape <;> simp [ih]

/-- The items of pieces in a row: those of the first ones without an end of input, and those of the
    others from there on. -/
theorem items_append (pos : Position) (ps qs : List Piece) :
    items pos (ps ++ qs)
      = (items pos ps).dropLast ++ items (pos.advance (ps.flatMap Piece.text)) qs := by
  induction ps generalizing pos with
  | nil => rfl
  | cons p ps ih =>
    rw [List.cons_append, items, items, ih, List.flatMap_cons, Position.advance_append]
    cases p.shape <;> simp [List.dropLast_cons_of_ne_nil, items_ne_nil]

/-! ### Every text is divided -/

/-- What holds of a text and the stretches that it is divided into: with blanks for comments the
    items stay the same, and a comment without an end is the last piece. -/
structure ReadsAlike (ss : List Stretch) (text : List Char) : Prop where
  divides : Divides ss text
  stops : Stops text (ss.flatMap Stretch.blanked)
  items_eq : ∀ pos, items pos (pieces (ss.flatMap Stretch.blanked)) = items pos (pieces text)
  last : ∀ body, ss.getLast? = some (.openComment body) →
    (pieces text).getLast? = some ⟨.fault .unterminatedComment, '/' :: '*' :: body⟩

namespace ReadsAlike

variable {ss : List Stretch} {c : Char} {rest after : List Char}

theorem nil : ReadsAlike [] [] := ⟨rfl, stops_nil [], fun _ => rfl, nofun⟩

/-- A comment without an end behind some stretches that end is the last piece behind theirs. -/
theorem last_append {xs : List Stretch} (hxs : ∀ body, .openComment body ∉ xs)
    (hrest : c :: rest = (Piece.front c rest).text ++ after) (h : ReadsAlike ss after)
    {body : List Char} (hlast : (xs ++ ss).getLast? = some (.openComment body)) :
    (pieces (c :: rest)).getLast? = some ⟨.fault .unterminatedComment, '/' :: '*' :: body⟩ := by
  rw [List.getLast?_append] at hlast
  cases hss : ss.getLast? with
  | none =>
    rw [hss, Option.none_or] at hlast
    exact absurd (List.mem_of_getLast? hlast) (hxs body)
  | some s =>
    rw [hss, Option.some_or] at hlast
    rw [pieces_cons hrest, List.getLast?_cons, h.last body (hss.trans hlast), Option.getD_some]

/-- A piece that is local, written as stretches without a comment. -/
theorem append_local {xs : List Stretch}
    (hrest : c :: rest = (Piece.front c rest).text ++ after)
    (hlocal : (Piece.front c rest).shape.IsLocal) (h : ReadsAlike ss after)
    (hdivides : Divides (xs ++ ss) (c :: rest))
    (hblanked : xs.flatMap Stretch.blanked = (Piece.front c rest).text)
    (hxs : ∀ body, .openComment body ∉ xs) : ReadsAlike (xs ++ ss) (c :: rest) where
  divides := hdivides
  stops := by
    rw [List.flatMap_append, hblanked, hrest]
    exact h.stops.append_left _
  items_eq pos := by
    rw [List.flatMap_append, hblanked, pieces_append hrest hlocal h.stops, pieces_cons hrest,
      items, items, h.items_eq]
  last _ hlast := h.last_append hxs hrest hlast

/-- A comment that ends. -/
theorem cons_comment {s : Stretch} (hrest : '/' :: rest = (Piece.front '/' rest).text ++ after)
    (hshape : (Piece.front '/' rest).shape = .comment) (h : ReadsAlike ss after)
    (hdivides : Divides (s :: ss) ('/' :: rest))
    (hblanked : s.blanked = blanks (Piece.front '/' rest).text)
    (hs : ∀ body, s ≠ .openComment body) : ReadsAlike (s :: ss) ('/' :: rest) where
  divides := hdivides
  stops := by
    obtain ⟨text, htext⟩ : ∃ text, (Piece.front '/' rest).text = '/' :: text := by
      cases htext : (Piece.front '/' rest).text with
      | nil => exact absurd htext (Piece.fronts_front '/' rest).1
      | cons c text =>
        rw [htext, List.cons_append, List.cons.injEq] at hrest
        exact ⟨text, by rw [hrest.1]⟩
    rw [List.flatMap_cons, hblanked, htext]
    exact stops_of_isBlank _ (by decide) _
  items_eq pos := by
    rw [List.flatMap_cons, hblanked, items_pieces_blank isBlank_of_mem_blanks,
      Position.advance_blanks, h.items_eq, pieces_cons hrest, items, hshape]
  last _ hlast := by
    have hends : ∀ body, .openComment body ∉ [s] := by simpa [eq_comm] using hs
    exact h.last_append hends hrest hlast

/-- A text that is divided into one stretch without an end. -/
theorem singleton {s : Stretch} {text : List Char} (hdivides : Divides [s] text)
    (hblanked : s.blanked = text)
    (hlast : ∀ body, s = .openComment body →
      pieces text = [⟨.fault .unterminatedComment, '/' :: '*' :: body⟩]) :
    ReadsAlike [s] text where
  divides := hdivides
  stops := by
    rw [List.flatMap_singleton, hblanked]
    simpa using stops_append text []
  items_eq pos := by rw [List.flatMap_singleton, hblanked]
  last body hbody := by
    rw [hlast body (by simpa using hbody)]
    rfl

end ReadsAlike

/-- Characters that are neither quotes nor slashes, in front of a text that is divided. -/
theorem divides_chars {ss : List Stretch} {text after : List Char} (h : Divides ss after)
    (htext : ∀ c ∈ text, c ≠ '"' ∧ c ≠ '/') :
    Divides (text.map Stretch.char ++ ss) (text ++ after) := by
  induction text with
  | nil => exact h
  | cons c text ih =>
    obtain ⟨hc, hmore⟩ := List.forall_mem_cons.mp htext
    exact ⟨text ++ after, rfl, ⟨hc.1, fun hslash => hc.2 hslash.1⟩, ih hmore⟩

/-- The characters of a piece that starts with neither a quote nor a comment are outside of strings
    and comments. -/
theorem divides_front {ss : List Stretch} {c : Char} {rest after : List Char} (hquote : c ≠ '"')
    (hcomment : ¬ (c = '/' ∧ (rest.head? = some '/' ∨ rest.head? = some '*')))
    (hrest : c :: rest = (Piece.front c rest).text ++ after) (h : Divides ss after) :
    Divides ((Piece.front c rest).text.map Stretch.char ++ ss) (c :: rest) := by
  have hplain := (Piece.plain_front hquote hcomment).2
  by_cases hslash : (Piece.front c rest).text = ['/']
  · rw [hslash] at hrest ⊢
    obtain ⟨rfl, rfl⟩ := List.cons.inj hrest
    exact ⟨rest, rfl, ⟨hquote, hcomment⟩, h⟩
  · rw [hrest]
    exact divides_chars h fun d hd => ⟨(hplain d hd).1, fun heq => hslash ((hplain d hd).2 heq)⟩

namespace ReadsAlike

variable {ss : List Stretch} {rest after : List Char}

/-- A text that starts with a quote. -/
theorem exists_quote (hrest : '"' :: rest = (Piece.front '"' rest).text ++ after)
    (h : ReadsAlike ss after) : ∃ ts, ReadsAlike ts ('"' :: rest) := by
  have hbody := Piece.not_mem_takeWhile '"' rest
  have hwhole := List.takeWhile_append_dropWhile (p := (· != '"')) (l := rest)
  cases hdrop : rest.dropWhile (· != '"') with
  | nil =>
    -- There is no other quote, and the string runs to the end of the text.
    rw [hdrop, List.append_nil] at hwhole
    rw [hwhole] at hbody
    refine ⟨[.openString rest], .singleton ⟨[], ?_, ⟨hbody, rfl⟩, rfl⟩ rfl nofun⟩
    rw [List.append_nil]
    rfl
  | cons d more =>
    obtain rfl := Piece.eq_of_dropWhile hdrop
    -- The string ends at the next quote.
    have hfront : Piece.front '"' rest
        = ⟨.token (.string (String.ofList (rest.takeWhile (· != '"')))),
          '"' :: (rest.takeWhile (· != '"') ++ ['"'])⟩ := by
      show Piece.string rest = _
      simp only [Piece.string, hdrop]
    refine ⟨[.string (rest.takeWhile (· != '"'))] ++ ss, h.append_local hrest ?_ ?_ ?_ ?_⟩
    · rw [hfront]
      trivial
    · rw [hrest, hfront]
      exact ⟨after, rfl, hbody, h.divides⟩
    · rw [hfront, List.flatMap_singleton]
      rfl
    · simp

/-- A text that starts with a line comment. -/
theorem exists_lineComment
    (hrest : '/' :: '/' :: rest = (Piece.front '/' ('/' :: rest)).text ++ after)
    (h : ReadsAlike ss after) : ∃ ts, ReadsAlike ts ('/' :: '/' :: rest) := by
  have hfront : Piece.front '/' ('/' :: rest)
      = ⟨.comment, '/' :: '/' :: rest.takeWhile (· != '\n')⟩ := rfl
  rw [hfront] at hrest
  have hafter := Piece.dropWhile_eq_of_append (List.cons.inj (List.cons.inj hrest).2).2
  have hend : after = [] ∨ after.head? = some '\n' := by
    cases after with
    | nil => exact .inl rfl
    | cons d after => exact .inr (congrArg some (Piece.eq_of_dropWhile hafter))
  refine ⟨.lineComment (rest.takeWhile (· != '\n')) :: ss, h.cons_comment hrest rfl ?_ rfl nofun⟩
  exact ⟨after, hrest, ⟨Piece.not_mem_takeWhile '\n' rest, hend⟩, h.divides⟩

/-- A text that starts with a block comment. -/
theorem exists_blockComment
    (hrest : '/' :: '*' :: rest = (Piece.front '/' ('*' :: rest)).text ++ after)
    (h : ReadsAlike ss after) : ∃ ts, ReadsAlike ts ('/' :: '*' :: rest) := by
  cases hbody : Piece.commentBody 0 rest with
  | none =>
    have hfront : Piece.front '/' ('*' :: rest)
        = ⟨.fault .unterminatedComment, '/' :: '*' :: rest⟩ := by
      show Piece.blockComment rest = _
      rw [Piece.blockComment, hbody]
    -- No start of the text closes the comment, since counting marks finds no end.
    have hopen : ∀ start more, rest = start ++ more → ¬ Closes 1 start := by
      intro start more heq hcloses
      refine Piece.openAfter_ne_zero heq ?_ hcloses.1
      rw [hbody]
      nofun
    refine ⟨[.openComment rest], .singleton ⟨[], ?_, ⟨hopen, rfl⟩, rfl⟩ rfl ?_⟩
    · rw [List.append_nil]
      rfl
    · rintro body ⟨rfl⟩
      rw [hfront] at hrest
      obtain rfl : after = [] := by simpa using hrest
      rw [pieces_cons (by rw [hfront]; exact hrest), hfront]
      rfl
  | some body =>
    have hfront : Piece.front '/' ('*' :: rest) = ⟨.comment, '/' :: '*' :: body⟩ := by
      show Piece.blockComment rest = _
      rw [Piece.blockComment, hbody]
    refine ⟨.blockComment body :: ss, h.cons_comment hrest (by rw [hfront]) ?_ ?_ nofun⟩
    · rw [hrest, hfront]
      exact ⟨after, rfl, Piece.closes_of_commentBody hbody, h.divides⟩
    · rw [hfront]
      rfl

end ReadsAlike

/-- Every text can be divided into stretches. -/
theorem exists_readsAlike (text : List Char) : ∃ ss, ReadsAlike ss text := by
  refine pieces_induction_front (P := fun text _ => ∃ ss, ReadsAlike ss text) ⟨[], .nil⟩ ?_ text
  rintro c rest after hrest ⟨ss, hss⟩
  by_cases hquote : c = '"'
  · subst hquote
    exact hss.exists_quote hrest
  by_cases hcomment : c = '/' ∧ (rest.head? = some '/' ∨ rest.head? = some '*')
  · obtain ⟨rfl, hmark | hmark⟩ := hcomment
    · obtain ⟨rest, rfl⟩ := List.head?_eq_some_iff.mp hmark
      exact hss.exists_lineComment hrest
    · obtain ⟨rest, rfl⟩ := List.head?_eq_some_iff.mp hmark
      exact hss.exists_blockComment hrest
  · refine ⟨(Piece.front c rest).text.map Stretch.char ++ ss,
      hss.append_local hrest (Piece.plain_front hquote hcomment).1
        (divides_front hquote hcomment hrest hss.divides) ?_ (by simp)⟩
    rw [List.flatMap_map]
    exact List.flatMap_singleton' _

/-! ### The main result -/

/-- **Comments read as blanks.** A source text is divided into strings, comments and characters
    outside of both in exactly one way. With a space in the place of each byte of a comment that
    ends, line feeds apart, it is scanned to the same items at the same positions. If the text ends
    inside a block comment, then scanning yields what the text before the comment yields, one fault
    at the opening of the comment, and the end of input. -/
theorem comments_scan_as_blanks (source : String) :
    ∃ ss, Divides ss source.toList ∧ (∀ ts, Divides ts source.toList → ts = ss) ∧
      (∃ blanked : String, bytesOf blanked = ss.flatMap Stretch.blankedBytes ∧
        itemsOf blanked = itemsOf source) ∧
      ∀ before body, ss = before ++ [.openComment body] →
        itemsOf source = (itemsOf (String.ofList (textOf before))).dropLast ++
          [.fault ⟨.unterminatedComment, Position.start.advance (textOf before)⟩,
            .token ⟨.endOfInput, "", Position.start.advance source.toList⟩] := by
  obtain ⟨ss, hss⟩ := exists_readsAlike source.toList
  refine ⟨ss, hss.divides, fun ts hts => hts.unique hss.divides, ?_, ?_⟩
  · refine ⟨String.ofList (ss.flatMap Stretch.blanked), bytesOf_flatMap_blanked ss, ?_⟩
    rw [itemsOf, itemsOf, String.toList_ofList]
    exact hss.items_eq .start
  · rintro before body rfl
    obtain ⟨ps, hps⟩ := List.getLast?_eq_some_iff.mp (hss.last body List.getLast?_concat)
    have hsource : ps.flatMap Piece.text ++ '/' :: '*' :: body = source.toList := by
      rw [← flatMap_text_pieces source.toList, hps, List.flatMap_append, List.flatMap_singleton]
    -- The text before the comment is what the pieces before the last one make up.
    have htext : ps.flatMap Piece.text = textOf before := by
      have hwhole := hsource.trans hss.divides.text_eq.symm
      rw [textOf, List.flatMap_append, List.flatMap_singleton] at hwhole
      exact List.append_cancel_right hwhole
    rw [← hsource, Position.advance_append, ← htext, itemsOf, itemsOf, hps, items_append,
      String.toList_ofList, pieces_flatMap_text hps]
    rfl

end ClassScript
