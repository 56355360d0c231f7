import ClassScript.Proofs.Pieces

namespace ClassScript

/-!
# The layout of a source text

Scanning is about the bytes of the source text. Each item stands for a span of bytes; the spans
follow each other in order, and what lies between them is blank or comment. Lines and columns are
those of the bytes before the span.

* `Position.after`: the line and the column behind given bytes;
* `Span.Reads`: the characters whose bytes a span holds;
* `Find.Right`, `Skips`: what an item says about its span, and what is passed over;
* `Layout`: how items and what is passed over share the bytes of a text;
* `itemsOf_layout`: the items of a text are laid out so, and the end of input follows.
-/

/-! ### Bytes -/

/-- The bytes of a text. -/
def bytesOf (text : String) : List UInt8 := text.toUTF8.data.toList

/-- The byte of a line feed. -/
def lineFeed : UInt8 := 10

theorem bytesOf_ofList (text : List Char) :
    bytesOf (String.ofList text) = text.flatMap String.utf8EncodeChar := by
  simp [bytesOf, String.toUTF8, List.utf8Encode]

/-- The bytes of two texts follow each other. -/
theorem bytesOf_append (s t : String) : bytesOf (s ++ t) = bytesOf s ++ bytesOf t := by
  simp [bytesOf, String.toUTF8]

/-- A text has as many bytes as its size. -/
theorem length_bytesOf (text : String) : (bytesOf text).length = text.utf8ByteSize := by
  simp [bytesOf]

theorem lineFeed_eq_ofNat_iff {n : Nat} : lineFeed = UInt8.ofNat n ↔ n % 256 = 10 := by
  rw [eq_comm, ← UInt8.toNat_inj, UInt8.toNat_ofNat']
  rfl

/-- Only the encoding of a line feed holds the byte of a line feed. -/
theorem lineFeed_mem_utf8EncodeChar {c : Char} :
    lineFeed ∈ String.utf8EncodeChar c ↔ c = '\n' := by
  have hval : c = '\n' ↔ c.val.toNat = 10 := by
    rw [Char.ext_iff, ← UInt32.toNat_inj]
    rfl
  rw [hval, String.utf8EncodeChar]
  generalize c.val.toNat = v
  -- Every byte of an encoding of more than one byte has its highest bit set.
  repeat' split
  all_goals
    simp only [List.mem_cons, List.not_mem_nil, or_false, lineFeed_eq_ofNat_iff]
    omega

/-! ### Lines and columns -/

/-- The position behind the given bytes: a line for each line feed, and a column for each byte
    after the last one. -/
def Position.after (bytes : List UInt8) : Position :=
  ⟨1 + bytes.count lineFeed, 1 + (bytes.reverse.takeWhile (· != lineFeed)).length⟩

theorem Position.step_after (bytes : List UInt8) (c : Char) :
    (Position.after bytes).step c = Position.after (bytes ++ String.utf8EncodeChar c) := by
  by_cases hc : c = '\n'
  · subst hc
    have hencode : String.utf8EncodeChar '\n' = [lineFeed] := rfl
    simp [Position.step, Position.after, hencode, Nat.add_assoc]
  · have hnone : lineFeed ∉ String.utf8EncodeChar c := fun h => hc (lineFeed_mem_utf8EncodeChar.1 h)
    have hall : ∀ b ∈ (String.utf8EncodeChar c).reverse, (b != lineFeed) = true := by
      intro b hb
      rw [List.mem_reverse] at hb
      exact bne_iff_ne.2 fun h => hnone (h ▸ hb)
    rw [Position.step, if_neg hc, Position.after, Position.after, List.count_append,
      List.count_eq_zero_of_not_mem hnone, List.reverse_append,
      List.takeWhile_append_of_pos hall, List.length_append, List.length_reverse,
      String.length_utf8EncodeChar]
    simp only [Nat.add_zero, Position.mk.injEq, true_and]
    omega

/-- A text moves the position over its bytes. -/
theorem Position.advance_after (bytes : List UInt8) (text : List Char) :
    (Position.after bytes).advance text
      = Position.after (bytes ++ text.flatMap String.utf8EncodeChar) := by
  induction text generalizing bytes with
  | nil => simp
  | cons c text ih =>
    rw [Position.advance_cons, Position.step_after, ih, List.flatMap_cons, List.append_assoc]

/-- Reading a text from its start leads to the position behind its bytes. -/
theorem Position.advance_start (text : List Char) :
    Position.start.advance text = Position.after (bytesOf (String.ofList text)) := by
  rw [bytesOf_ofList]
  exact Position.advance_after [] text

/-- The position of a byte offset in a source text. -/
def positionAt (source : String) (offset : Nat) : Position :=
  Position.after ((bytesOf source).take offset)

/-! ### Spans -/

/-- A span of bytes: the offset of its first byte, and the offset behind its last. -/
structure Span where
  start : Nat
  stop : Nat

namespace Span

/-- The byte at the offset is in the span. -/
def Contains (span : Span) (offset : Nat) : Prop := span.start ≤ offset ∧ offset < span.stop

/-- The one span ends before the other starts. -/
def Before (a b : Span) : Prop := a.stop ≤ b.start

/-- The span lies in the source, its ends do not cut a character, and it holds the bytes of
    `text`. -/
structure Reads (source : String) (span : Span) (text : String) : Prop where
  start_valid : String.Pos.Raw.IsValid source ⟨span.start⟩
  stop_valid : String.Pos.Raw.IsValid source ⟨span.stop⟩
  bytes_eq : (bytesOf source).extract span.start span.stop = bytesOf text

end Span

/-- The span that `text` takes behind the text `before`. -/
def spanOf (before text : List Char) : Span :=
  ⟨(String.ofList before).utf8ByteSize, (String.ofList (before ++ text)).utf8ByteSize⟩

theorem isValid_of_eq_append {source : String} {before after : List Char}
    (h : source.toList = before ++ after) :
    String.Pos.Raw.IsValid source ⟨(String.ofList before).utf8ByteSize⟩ := by
  rw [String.Pos.Raw.isValid_iff_exists_append]
  refine ⟨String.ofList before, String.ofList after, ?_, rfl⟩
  rw [← String.ofList_append, ← h, String.ofList_toList]

theorem bytesOf_of_eq_append {source : String} {before after : List Char}
    (h : source.toList = before ++ after) :
    bytesOf source = bytesOf (String.ofList before) ++ bytesOf (String.ofList after) := by
  rw [← bytesOf_append, ← String.ofList_append, ← h, String.ofList_toList]

theorem reads_spanOf {source : String} {before text after : List Char}
    (h : source.toList = before ++ (text ++ after)) :
    (spanOf before text).Reads source (String.ofList text) := by
  refine ⟨isValid_of_eq_append h, isValid_of_eq_append ((List.append_assoc ..).symm ▸ h), ?_⟩
  have hall : bytesOf source = bytesOf (String.ofList before) ++
      (bytesOf (String.ofList text) ++ bytesOf (String.ofList after)) := by
    rw [bytesOf_of_eq_append h, String.ofList_append, bytesOf_append]
  have hwidth : (spanOf before text).stop - (spanOf before text).start
      = (bytesOf (String.ofList text)).length := by
    simp only [spanOf, String.ofList_append, String.utf8ByteSize_append, length_bytesOf]
    omega
  rw [hall, List.extract_eq_take_drop, hwidth]
  show List.take _ (List.drop (String.ofList before).utf8ByteSize _) = _
  rw [← length_bytesOf, List.drop_left, List.take_left]

/-- What follows a text takes the rest of the source. -/
theorem reads_rest {source : String} {before text after : List Char}
    (h : source.toList = before ++ (text ++ after)) :
    Span.Reads source ⟨(spanOf before text).stop, source.utf8ByteSize⟩ (String.ofList after) := by
  have hall : source.toList = (before ++ text) ++ (after ++ []) := by
    rw [h, List.append_assoc, List.append_nil]
  have hsize : (String.ofList ((before ++ text) ++ after)).utf8ByteSize = source.utf8ByteSize := by
    rw [List.append_assoc, ← h, String.ofList_toList]
  have hreads := reads_spanOf hall
  rwa [spanOf, hsize] at hreads

theorem positionAt_of_eq_append {source : String} {before after : List Char}
    (h : source.toList = before ++ after) :
    positionAt source (String.ofList before).utf8ByteSize = Position.start.advance before := by
  rw [positionAt, bytesOf_of_eq_append h, ← length_bytesOf, List.take_left, Position.advance_start]

/-! ### Items and what is passed over -/

/-- The position that an item carries. -/
def Item.pos : Item → Position
  | .token t => t.pos
  | .fault f => f.pos

/-- An item, and the span of bytes that it stands for. -/
structure Find where
  item : Item
  span : Span

/-- What an item says about the bytes that it stands for. -/
def Item.Tells (source : String) (span : Span) : Item → Prop
  | .token t =>
    t.kind ≠ .endOfInput ∧ span.Reads source t.lexeme ∧
      ∀ s, t.kind = .string s → Span.Reads source ⟨span.start + 1, span.stop - 1⟩ s
  | .fault f =>
    ∃ text after, span.Reads source (String.ofList text) ∧ f.what.Describes text after ∧
      Span.Reads source ⟨span.stop, source.utf8ByteSize⟩ (String.ofList after)

/-- A find is right: its span holds something, lies in the source, and holds what the item says, and
    the position of the item is that of the first byte of the span. -/
structure Find.Right (source : String) (find : Find) : Prop where
  start_lt : find.span.start < find.span.stop
  stop_le : find.span.stop ≤ source.utf8ByteSize
  pos_eq : find.item.pos = positionAt source find.span.start
  tells : find.item.Tells source find.span

/-- A span that scanning passes over: one blank character, a line comment up to the end of its line,
    or a block comment up to the mark that closes it. -/
def Skips (source : String) (span : Span) : Prop :=
  ∃ text after, span.Reads source (String.ofList text) ∧
    Span.Reads source ⟨span.stop, source.utf8ByteSize⟩ (String.ofList after) ∧
      (text ∈ [[' '], ['\t'], ['\r'], ['\n']] ∨ LineComment text after ∨ BlockComment text)

/-- How finds share the bytes of a source text from the offset `first` on: they stand in order and
    do not overlap, each is right, and each byte outside of them is passed over. -/
structure Layout (source : String) (first : Nat) (finds : List Find) : Prop where
  from_first : ∀ find ∈ finds, first ≤ find.span.start
  ordered : finds.Pairwise fun a b => a.span.Before b.span
  right : ∀ find ∈ finds, find.Right source
  skipped : ∀ offset, first ≤ offset → offset < source.utf8ByteSize →
    (∃ find ∈ finds, find.span.Contains offset) ∨
      ∃ span, first ≤ span.start ∧ span.Contains offset ∧ Skips source span ∧
        ∀ find ∈ finds, span.Before find.span ∨ find.span.Before span

/-- Nothing is left to lay out behind the last byte. -/
theorem Layout.nil (source : String) : Layout source source.utf8ByteSize [] := by
  refine ⟨by simp, .nil, by simp, fun offset hfirst hlast => ?_⟩
  omega

/-- Passing over a span in front of a layout. -/
theorem Layout.skip {source : String} {span : Span} {finds : List Find} (hskip : Skips source span)
    (hle : span.start ≤ span.stop) (h : Layout source span.stop finds) :
    Layout source span.start finds := by
  refine ⟨fun find hfind => ?_, h.ordered, h.right, fun offset hfirst hlast => ?_⟩
  · exact Nat.le_trans hle (h.from_first find hfind)
  by_cases hin : offset < span.stop
  · exact .inr ⟨span, Nat.le_refl _, ⟨hfirst, hin⟩, hskip, fun find hfind =>
      .inl (h.from_first find hfind)⟩
  · obtain hfind | ⟨other, hother, hcontains, hskips, hapart⟩ := h.skipped offset (by omega) hlast
    · exact .inl hfind
    · exact .inr ⟨other, by omega, hcontains, hskips, hapart⟩

/-- Putting a find in front of a layout that starts where it ends. -/
theorem Layout.cons {source : String} {find : Find} {finds : List Find}
    (hright : find.Right source) (h : Layout source find.span.stop finds) :
    Layout source find.span.start (find :: finds) := by
  have hlt := hright.start_lt
  refine ⟨?_, ?_, ?_, fun offset hfirst hlast => ?_⟩
  · refine List.forall_mem_cons.2 ⟨Nat.le_refl _, fun other hother => ?_⟩
    have := h.from_first other hother
    omega
  · exact List.pairwise_cons.2 ⟨h.from_first, h.ordered⟩
  · exact List.forall_mem_cons.2 ⟨hright, h.right⟩
  by_cases hin : offset < find.span.stop
  · exact .inl ⟨find, List.mem_cons_self, hfirst, hin⟩
  · obtain ⟨other, hother, hcontains⟩ | ⟨span, hspan, hcontains, hskips, hapart⟩ :=
      h.skipped offset (by omega) hlast
    · exact .inl ⟨other, List.mem_cons_of_mem _ hother, hcontains⟩
    · exact .inr ⟨span, by omega, hcontains, hskips,
        List.forall_mem_cons.2 ⟨.inr hspan, hapart⟩⟩

/-! ### Pieces have their places -/

theorem spanOf_lt (before : List Char) {text : List Char} (h : text ≠ []) :
    (spanOf before text).start < (spanOf before text).stop := by
  obtain ⟨c, text, rfl⟩ := List.exists_cons_of_ne_nil h
  have hcons : String.ofList (before ++ c :: text)
      = String.ofList before ++ (String.singleton c ++ String.ofList text) := by
    rw [String.singleton_eq_ofList, ← String.ofList_append, ← String.ofList_append]
    rfl
  have hc := c.utf8Size_pos
  simp only [spanOf, hcons, String.utf8ByteSize_append, String.utf8ByteSize_singleton]
  omega

theorem Span.Reads.stop_le {source text : String} {span : Span} (h : span.Reads source text) :
    span.stop ≤ source.utf8ByteSize :=
  String.Pos.Raw.IsValid.le_utf8ByteSize h.stop_valid

/-- The text of a string stands between the two quotes. -/
theorem reads_string {source s : String} {before after : List Char}
    (h : source.toList = before ++ ('"' :: (s.toList ++ ['"']) ++ after)) :
    Span.Reads source ⟨(spanOf before ('"' :: (s.toList ++ ['"']))).start + 1,
      (spanOf before ('"' :: (s.toList ++ ['"']))).stop - 1⟩ s := by
  have hall : source.toList = (before ++ ['"']) ++ (s.toList ++ ('"' :: after)) := by
    rw [h]
    simp
  have hreads := reads_spanOf hall
  have hquote : (String.ofList ['"']).utf8ByteSize = 1 := rfl
  have hspan : spanOf (before ++ ['"']) s.toList
      = ⟨(spanOf before ('"' :: (s.toList ++ ['"']))).start + 1,
        (spanOf before ('"' :: (s.toList ++ ['"']))).stop - 1⟩ := by
    have hcons : before ++ '"' :: (s.toList ++ ['"']) = before ++ ['"'] ++ s.toList ++ ['"'] := by
      simp
    simp only [spanOf, hcons, String.ofList_append, String.utf8ByteSize_append, hquote]
    rfl
  rwa [hspan, String.ofList_toList] at hreads

/-- A piece that is a token gives a find that is right. -/
theorem right_token {source : String} {before after : List Char} {piece : Piece} {kind : Kind}
    (h : source.toList = before ++ (piece.text ++ after)) (hne : piece.text ≠ [])
    (hapt : piece.Apt after) (hshape : piece.shape = .token kind) :
    Find.Right source ⟨.token ⟨kind, String.ofList piece.text, Position.start.advance before⟩,
      spanOf before piece.text⟩ := by
  unfold Piece.Apt at hapt
  rw [hshape] at hapt
  have hreads := reads_spanOf h
  have hpos := (positionAt_of_eq_append h).symm
  refine ⟨spanOf_lt before hne, hreads.stop_le, hpos, hapt.1, hreads, ?_⟩
  intro s hs
  have htext := hapt.2 s hs
  show Span.Reads source
    ⟨(spanOf before piece.text).start + 1, (spanOf before piece.text).stop - 1⟩ s
  rw [htext] at h ⊢
  exact reads_string h

/-- A faulty piece gives a find that is right. -/
theorem right_fault {source : String} {before after : List Char} {piece : Piece} {fault : LexFault}
    (h : source.toList = before ++ (piece.text ++ after)) (hne : piece.text ≠ [])
    (hapt : piece.Apt after) (hshape : piece.shape = .fault fault) :
    Find.Right source
      ⟨.fault ⟨fault, Position.start.advance before⟩, spanOf before piece.text⟩ := by
  unfold Piece.Apt at hapt
  rw [hshape] at hapt
  have hreads := reads_spanOf h
  have hpos := (positionAt_of_eq_append h).symm
  exact ⟨spanOf_lt before hne, hreads.stop_le, hpos, piece.text, after, hreads, hapt, reads_rest h⟩

/-- A piece that is blank or a comment is passed over. -/
theorem skips_of_apt {source : String} {before after : List Char} {piece : Piece}
    (h : source.toList = before ++ (piece.text ++ after)) (hapt : piece.Apt after)
    (hshape : piece.shape = .blank ∨ piece.shape = .comment) :
    Skips source (spanOf before piece.text) := by
  refine ⟨piece.text, after, reads_spanOf h, reads_rest h, ?_⟩
  unfold Piece.Apt at hapt
  rcases hshape with hshape | hshape <;> rw [hshape] at hapt
  · obtain ⟨c, htext, hc⟩ := hapt
    left
    rw [htext]
    simpa [isBlank, or_assoc] using hc
  · exact .inr hapt

/-- The items of a text that stands behind the text `before`, with their spans. -/
theorem exists_layout (source : String) (text : List Char) :
    ∀ before, source.toList = before ++ text →
      ∃ finds, Layout source (String.ofList before).utf8ByteSize finds ∧
        items (Position.start.advance before) (pieces text) = finds.map Find.item ++
          [.token ⟨.endOfInput, "", positionAt source source.utf8ByteSize⟩] := by
  refine pieces_induction (P := fun text pieces => ∀ before, source.toList = before ++ text →
    ∃ finds, Layout source (String.ofList before).utf8ByteSize finds ∧
      items (Position.start.advance before) pieces = finds.map Find.item ++
        [.token ⟨.endOfInput, "", positionAt source source.utf8ByteSize⟩]) ?_ ?_ text
  · intro before h
    have hsize : (String.ofList before).utf8ByteSize = source.utf8ByteSize := by
      rw [← List.append_nil before, ← h, String.ofList_toList]
    refine ⟨[], hsize ▸ Layout.nil source, ?_⟩
    rw [← positionAt_of_eq_append h, hsize]
    rfl
  · intro piece after hne hapt ih before h
    obtain ⟨finds, hlayout, hitems⟩ := ih (before ++ piece.text) (by rw [h, List.append_assoc])
    rw [Position.advance_append] at hitems
    have hle := Nat.le_of_lt (spanOf_lt before hne)
    unfold items
    rw [hitems]
    split
    · rename_i kind hshape
      exact ⟨_ :: finds, .cons (right_token h hne hapt hshape) hlayout, rfl⟩
    · rename_i fault hshape
      exact ⟨_ :: finds, .cons (right_fault h hne hapt hshape) hlayout, rfl⟩
    · rename_i hshape
      exact ⟨finds, .skip (skips_of_apt h hapt (.inl hshape)) hle hlayout, rfl⟩
    · rename_i hshape
      exact ⟨finds, .skip (skips_of_apt h hapt (.inr hshape)) hle hlayout, rfl⟩

/-- **The layout of a text.** The items of a source text stand for spans of its bytes that are in
    order and do not overlap; the bytes outside of them are blanks and comments; and one end of
    input follows, at the position behind the last byte. -/
theorem itemsOf_layout (source : String) :
    ∃ finds, Layout source 0 finds ∧
      itemsOf source = finds.map Find.item ++
        [.token ⟨.endOfInput, "", positionAt source source.utf8ByteSize⟩] :=
  exists_layout source source.toList [] rfl

end ClassScript
