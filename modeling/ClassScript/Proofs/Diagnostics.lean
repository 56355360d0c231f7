import ClassScript.Proofs.Grammar.FaultOrder
import ClassScript.Proofs.StaticReports

namespace ClassScript

/-!
# Where diagnostics point

A diagnostic shows a line of the source and puts a caret below it. Whichever stage found the fault,
the position is that of a token or of a stretch of text that is no token; the line that is shown is
the line of the position; and the caret stands below a character of it, or right behind the last one
at the end of the input.

* `Text.IsLine`: the text of a line of a source, by what stands around it;
* `Text.isLine_lineAt`: the line that is shown, and where in it a place is;
* `Source.TokenAt`, `Source.FaultAt`: what a position may be that of;
* `Diagnostic.PointsInto`: what is said about a diagnostic;
* `diagnostics_pointInto`: it holds of all diagnostics, of every stage.
-/

/-! ### Lines -/

namespace Text

/-- The text of line number `number` of a source, without its end. It follows on a line feed or the
    start of the source, has no line feed inside, and goes up to a line feed or the end of the
    source. A carriage return before the line feed belongs to the end of the line. -/
def IsLine (source : List Char) (number : Nat) (line : List Char) : Prop :=
  ∃ before ending after, source = before ++ (line ++ (ending ++ after)) ∧
    (before = [] ∨ before.getLast? = some '\n') ∧ number = 1 + before.count '\n' ∧
    '\n' ∉ line ∧
    (ending = ['\r', '\n'] ∨ ending = ['\n'] ∧ line.getLast? ≠ some '\r' ∨ ending = [] ∧ after = [])

/-- Lines one after the other, each with a line feed at its end. -/
def joined (lines : List (List Char)) : List Char := lines.flatMap fun line => line ++ ['\n']

/-- A line without the carriage return at its end. -/
def trimmed (line : List Char) : List Char :=
  if line.getLast? = some '\r' then line.dropLast else line

/-- The first line, its end, and the other lines. -/
theorem joined_cons (line : List Char) (lines : List (List Char)) :
    joined (line :: lines) = line ++ '\n' :: joined lines := by
  simp [joined]

/-- Every text is a number of lines with their ends, and a last one without. -/
theorem exists_lines (text : List Char) :
    ∃ lines last, text = joined lines ++ last ∧ (∀ line ∈ lines, '\n' ∉ line) ∧ '\n' ∉ last := by
  induction text with
  | nil => exact ⟨[], [], rfl, List.forall_mem_nil _, List.not_mem_nil⟩
  | cons c text ih =>
    obtain ⟨lines, last, rfl, hlines, hlast⟩ := ih
    by_cases hc : c = '\n'
    · subst hc
      exact ⟨[] :: lines, last, rfl, List.forall_mem_cons.mpr ⟨List.not_mem_nil, hlines⟩, hlast⟩
    have hcons {line : List Char} (hline : '\n' ∉ line) : '\n' ∉ c :: line := by
      simp [hline, Ne.symm hc]
    cases lines with
    | nil => exact ⟨[], c :: last, rfl, hlines, hcons hlast⟩
    | cons line lines =>
      obtain ⟨hline, hmore⟩ := List.forall_mem_cons.mp hlines
      refine ⟨(c :: line) :: lines, last, ?_, List.forall_mem_cons.mpr ⟨hcons hline, hmore⟩, hlast⟩
      rw [joined_cons, joined_cons]
      rfl

/-- There are as many ends of lines as lines. -/
theorem count_joined {lines : List (List Char)} (h : ∀ line ∈ lines, '\n' ∉ line) :
    (joined lines).count '\n' = lines.length := by
  induction lines with
  | nil => rfl
  | cons line lines ih =>
    obtain ⟨hline, hlines⟩ := List.forall_mem_cons.mp h
    rw [joined_cons, List.count_append, List.count_eq_zero_of_not_mem hline, List.count_cons_self,
      ih hlines, List.length_cons]
    omega

/-- Joined lines end with the end of a line. -/
theorem joined_ends (lines : List (List Char)) :
    joined lines = [] ∨ (joined lines).getLast? = some '\n' := by
  rcases List.eq_nil_or_concat lines with rfl | ⟨lines, line, rfl⟩
  · exact .inl rfl
  · right
    simp [joined, ← List.append_assoc]

/-! ### The lines of a text -/

/-- A character that ends no line stands at the front of the first line. -/
theorem splitLines_cons {c : Char} {rest line : List Char} {more : List (List Char)}
    (hc : c ≠ '\n') (hreturn : c = '\r' → rest.head? ≠ some '\n')
    (h : splitLines rest = line :: more) : splitLines (c :: rest) = (c :: line) :: more := by
  rw [splitLines, h]
  · exact hc
  · rintro tail rfl rfl
    exact hreturn rfl rfl

/-- A text is split at its first end of a line. -/
theorem splitLines_line {line : List Char} (h : '\n' ∉ line) (more : List Char) :
    splitLines (line ++ '\n' :: more) = trimmed line :: splitLines more := by
  induction line with
  | nil => rfl
  | cons c line ih =>
    obtain ⟨hc, hline⟩ : c ≠ '\n' ∧ '\n' ∉ line := by
      simpa [eq_comm] using h
    cases line with
    | nil =>
      by_cases hreturn : c = '\r'
      · subst hreturn
        rfl
      · rw [show trimmed [c] = [c] by simp [trimmed, hreturn]]
        exact splitLines_cons hc (fun heq => absurd heq hreturn) (ih hline)
    | cons d line =>
      have hd : d ≠ '\n' := fun heq => hline (heq ▸ List.mem_cons_self)
      have htrimmed : trimmed (c :: d :: line) = c :: trimmed (d :: line) := by
        unfold trimmed
        rw [List.getLast?_cons_cons]
        split <;> rfl
      rw [htrimmed]
      exact splitLines_cons hc (fun _ heq => hd (Option.some.inj heq)) (ih hline)

/-- Joined lines are split into the lines again. -/
theorem splitLines_joined {lines : List (List Char)} (h : ∀ line ∈ lines, '\n' ∉ line)
    (text : List Char) :
    splitLines (joined lines ++ text) = lines.map trimmed ++ splitLines text := by
  induction lines with
  | nil => rfl
  | cons line lines ih =>
    obtain ⟨hline, hlines⟩ := List.forall_mem_cons.mp h
    rw [joined_cons, List.append_assoc, List.cons_append, splitLines_line hline, ih hlines]
    rfl

/-- Text without a line feed is one line, if it is any. -/
theorem splitLines_last {last : List Char} (h : '\n' ∉ last) :
    (splitLines last)[0]?.getD [] = last := by
  have hwhole : ∀ (c : Char) (text : List Char), '\n' ∉ c :: text →
      splitLines (c :: text) = [c :: text] := by
    intro c text
    induction text generalizing c with
    | nil =>
      intro hc
      rw [splitLines, splitLines]
      · simpa [eq_comm] using hc
      · simp
    | cons d text ih =>
      intro hc
      obtain ⟨hne, hrest⟩ : c ≠ '\n' ∧ '\n' ∉ d :: text := by
        simpa [eq_comm] using hc
      refine splitLines_cons hne (fun _ heq => hrest ?_) (ih d hrest)
      rw [← Option.some.inj heq]
      exact List.mem_cons_self
  cases last with
  | nil => rfl
  | cons c text => rw [hwhole c text h]; rfl

/-- The line of a place behind `lines` whole lines is the first of what follows on them. -/
theorem toList_lineAt {source : String} {lines : List (List Char)} {text : List Char}
    (h : source.toList = joined lines ++ text) (hlines : ∀ line ∈ lines, '\n' ∉ line) :
    (lineAt source (1 + lines.length)).toList = (splitLines text)[0]?.getD [] := by
  have hindex : 1 + lines.length - 1 = (lines.map trimmed).length := by
    rw [List.length_map]
    omega
  rw [lineAt, String.toList_ofList, h, splitLines_joined hlines, hindex,
    List.getElem?_append_right (Nat.le_refl _), Nat.sub_self]

/-- The line that is shown for a place, which is the end of the source or that of a character that
    is no blank. What stands before the place in its line is shown, and so is the character. -/
theorem isLine_lineAt {source : String} {lines : List (List Char)} {left rest : List Char}
    (h : source.toList = joined lines ++ (left ++ rest)) (hlines : ∀ line ∈ lines, '\n' ∉ line)
    (hleft : '\n' ∉ left) (hrest : ∀ c ∈ rest.head?, isBlank c = false) :
    IsLine source.toList (1 + lines.length) (lineAt source (1 + lines.length)).toList ∧
      ∃ shown, (lineAt source (1 + lines.length)).toList = left ++ shown ∧
        (shown = [] → rest = []) := by
  obtain ⟨right, after, hsplit, hright, hafter⟩ :
      ∃ right after, rest = right ++ after ∧ '\n' ∉ right ∧
        (after = [] ∨ ∃ more, after = '\n' :: more) := by
    refine ⟨rest.takeWhile (· != '\n'), rest.dropWhile (· != '\n'),
      List.takeWhile_append_dropWhile.symm, Piece.not_mem_takeWhile '\n' rest, ?_⟩
    cases hdrop : rest.dropWhile (· != '\n') with
    | nil => exact .inl rfl
    | cons c more => exact .inr ⟨more, by rw [Piece.eq_of_dropWhile hdrop]⟩
  have hline : '\n' ∉ left ++ right := by simp [hleft, hright]
  have hnumber : 1 + lines.length = 1 + (joined lines).count '\n' := by rw [count_joined hlines]
  rw [toList_lineAt h hlines]
  rcases hafter with rfl | ⟨more, rfl⟩
  · rw [List.append_nil] at hsplit
    subst hsplit
    rw [splitLines_last hline]
    exact ⟨⟨joined lines, [], [], by simpa using h, joined_ends lines, hnumber, hline,
      .inr (.inr ⟨rfl, rfl⟩)⟩, rest, rfl, id⟩
  -- A line feed follows, so the place is that of a character, which is not cut off.
  obtain ⟨c, tail, rfl, hc⟩ : ∃ c tail, right = c :: tail ∧ c ≠ '\r' := by
    cases right with
    | nil =>
      have := hrest '\n' (by rw [hsplit]; rfl)
      cases this
    | cons c tail =>
      refine ⟨c, tail, rfl, ?_⟩
      rintro rfl
      have := hrest '\r' (by rw [hsplit]; rfl)
      cases this
  have hsource : source.toList = joined lines ++ ((left ++ c :: tail) ++ '\n' :: more) := by
    rw [h, hsplit, List.append_assoc]
  rw [hsplit, ← List.append_assoc, splitLines_line hline]
  show IsLine _ _ (trimmed (left ++ c :: tail)) ∧ ∃ shown, trimmed (left ++ c :: tail) = _ ∧ _
  unfold trimmed
  split
  · next hreturn =>
    have htail : tail ≠ [] := by
      rintro rfl
      rw [List.getLast?_concat] at hreturn
      exact hc (Option.some.inj hreturn)
    have hdrop : (left ++ c :: tail).dropLast = left ++ c :: tail.dropLast := by
      rw [List.dropLast_append_of_ne_nil (List.cons_ne_nil c tail),
        List.dropLast_cons_of_ne_nil htail]
    refine ⟨⟨joined lines, ['\r', '\n'], more, ?_, joined_ends lines, hnumber, ?_, .inl rfl⟩,
      c :: tail.dropLast, hdrop, fun hnil => nomatch hnil⟩
    · have hlast : left ++ c :: tail = (left ++ c :: tail).dropLast ++ ['\r'] := by
        obtain ⟨front, heq⟩ := List.getLast?_eq_some_iff.mp hreturn
        rw [heq, List.dropLast_concat]
      rw [hsource]
      nth_rewrite 1 [hlast]
      simp
    · exact fun hmem => hline (List.dropLast_subset _ hmem)
  · next hreturn =>
    exact ⟨⟨joined lines, ['\n'], more, hsource, joined_ends lines, hnumber, hline,
      .inr (.inl ⟨rfl, hreturn⟩)⟩, c :: tail, rfl, fun hnil => nomatch hnil⟩

end Text

/-! ### Places -/

theorem Position.advance_line {text : List Char} (h : '\n' ∉ text) (p : Position) :
    p.advance text = ⟨p.line, p.column + (String.ofList text).utf8ByteSize⟩ := by
  induction text generalizing p with
  | nil => rfl
  | cons c text ih =>
    obtain ⟨hc, htext⟩ : c ≠ '\n' ∧ '\n' ∉ text := by
      simpa [eq_comm] using h
    have hcons : String.ofList (c :: text) = String.singleton c ++ String.ofList text := by
      rw [String.singleton_eq_ofList, ← String.ofList_append]
      rfl
    rw [advance_cons, ih htext, step, if_neg hc, hcons, String.utf8ByteSize_append,
      String.utf8ByteSize_singleton, Nat.add_assoc]

theorem Position.advance_joined {lines : List (List Char)} (h : ∀ line ∈ lines, '\n' ∉ line)
    (n : Nat) : Position.advance ⟨n, 1⟩ (Text.joined lines) = ⟨n + lines.length, 1⟩ := by
  induction lines generalizing n with
  | nil => rfl
  | cons line lines ih =>
    obtain ⟨hline, hlines⟩ := List.forall_mem_cons.mp h
    rw [Text.joined_cons, advance_append, advance_line hline, advance_cons, step, if_pos rfl,
      ih hlines, List.length_cons]
    simp only [Position.mk.injEq, and_true]
    omega

/-- The position is that of the end of the source, or of a character that is no blank. -/
def Source.PlaceAt (source : String) (pos : Position) : Prop :=
  ∃ before rest, source.toList = before ++ rest ∧ pos = Position.start.advance before ∧
    ∀ c ∈ rest.head?, isBlank c = false

/-- A piece of a text that is no blank starts with a character that is none. -/
theorem exists_start_of_mem_pieces {text : List Char} {piece : Piece} (h : piece ∈ pieces text)
    (hshape : piece.shape ≠ .blank) : ∃ c rest, piece.text = c :: rest ∧ isBlank c = false := by
  obtain ⟨c, rest, rfl⟩ := exists_front_of_mem_cut h
  obtain ⟨hne, after, hafter, -⟩ := Piece.fronts_front c rest
  obtain ⟨d, tail, htext⟩ := List.exists_cons_of_ne_nil hne
  rw [htext, List.cons_append] at hafter
  refine ⟨d, tail, htext, ?_⟩
  obtain rfl := (List.cons.inj hafter).1
  rw [Bool.eq_false_iff]
  intro hblank
  unfold Piece.front at hshape
  rw [if_pos hblank] at hshape
  exact hshape rfl

/-- The pieces of a text are the text. -/
theorem flatMap_pieces (text : List Char) : (pieces text).flatMap Piece.text = text :=
  pieces_induction (P := fun text ps => ps.flatMap Piece.text = text) rfl
    (fun piece after _ _ ih => by rw [List.flatMap_cons, ih]) text

/-- Items stand where pieces start that are no blanks; the last one stands at the end. -/
theorem Source.placeAt_of_mem_items {source : String} {ps : List Piece}
    (hps : ∀ p ∈ ps, p.shape ≠ .blank → ∃ c rest, p.text = c :: rest ∧ isBlank c = false)
    {before : List Char} (h : source.toList = before ++ ps.flatMap Piece.text) {item : Item}
    (hitem : item ∈ items (Position.start.advance before) ps) : PlaceAt source item.pos := by
  induction ps generalizing before with
  | nil =>
    cases List.mem_singleton.mp hitem
    exact ⟨before, [], h, rfl, by simp⟩
  | cons p ps ih =>
    obtain ⟨hp, hps⟩ := List.forall_mem_cons.mp hps
    have hmore : item ∈ items ((Position.start.advance before).advance p.text) ps →
        PlaceAt source item.pos := by
      rw [← Position.advance_append]
      exact ih hps (by rw [h, List.flatMap_cons, List.append_assoc])
    -- An item of this piece stands where the piece starts.
    have hhere (hshape : p.shape ≠ .blank) (hpos : item.pos = Position.start.advance before) :
        PlaceAt source item.pos := by
      obtain ⟨c, rest, htext, hc⟩ := hp hshape
      refine ⟨before, p.text ++ ps.flatMap Piece.text, h, hpos, ?_⟩
      rw [htext]
      rintro d ⟨⟩
      exact hc
    unfold items at hitem
    simp only at hitem
    split at hitem
    · next kind hkind =>
      rcases List.mem_cons.mp hitem with rfl | hitem
      · exact hhere (by simp [hkind]) rfl
      · exact hmore hitem
    · next fault hfault =>
      rcases List.mem_cons.mp hitem with rfl | hitem
      · exact hhere (by simp [hfault]) rfl
      · exact hmore hitem
    · exact hmore hitem
    · exact hmore hitem

theorem Source.placeAt_of_mem_itemsOf {source : String} {item : Item}
    (h : item ∈ itemsOf source) : PlaceAt source item.pos := by
  have hwhole : source.toList = [] ++ (pieces source.toList).flatMap Piece.text := by
    rw [flatMap_pieces, List.nil_append]
  exact placeAt_of_mem_items (fun _ => exists_start_of_mem_pieces) hwhole h

theorem Item.token?_eq_some {item : Item} {t : Token} : item.token? = some t ↔ item = .token t := by
  cases item <;> simp [token?]

theorem Item.fault?_eq_some {item : Item} {fault : Located LexFault} :
    item.fault? = some fault ↔ item = .fault fault := by
  cases item <;> simp [fault?]

/-- Scanning gives all tokens among the items, or all faults. -/
theorem scan_cases (source : String) :
    (∀ tokens, scan source = .ok tokens → ∀ t, t ∈ tokens ↔ .token t ∈ itemsOf source) ∧
      ∀ faults, scan source = .error faults → ∀ f, f ∈ faults ↔ .fault f ∈ itemsOf source := by
  have htoken : ∀ t, t ∈ (itemsOf source).filterMap Item.token? ↔ .token t ∈ itemsOf source := by
    simp [List.mem_filterMap, Item.token?_eq_some]
  have hfault : ∀ f, f ∈ (itemsOf source).filterMap Item.fault? ↔ .fault f ∈ itemsOf source := by
    simp [List.mem_filterMap, Item.fault?_eq_some]
  unfold scan
  simp only
  constructor
  · intro tokens h
    split at h <;> cases h
    exact htoken
  · intro faults h
    split at h <;> cases h
    exact hfault

/-- The end of input is an item, and all others are right about the spans that they stand for. -/
theorem itemsOf_right (source : String) :
    .token ⟨.endOfInput, "", positionAt source source.utf8ByteSize⟩ ∈ itemsOf source ∧
      ∀ item ∈ itemsOf source,
        item = .token ⟨.endOfInput, "", positionAt source source.utf8ByteSize⟩ ∨
          ∃ span, Find.Right source ⟨item, span⟩ := by
  obtain ⟨finds, hlayout, hitems⟩ := exists_layout source source.toList [] rfl
  unfold itemsOf
  rw [show Position.start = Position.start.advance [] from rfl, hitems]
  refine ⟨List.mem_append_right _ List.mem_cons_self, fun item hitem => ?_⟩
  rcases List.mem_append.mp hitem with hitem | hitem
  · obtain ⟨⟨item, span⟩, hfind, rfl⟩ := List.mem_map.mp hitem
    exact .inr ⟨span, hlayout.right _ hfind⟩
  · exact .inl (List.mem_singleton.mp hitem)

/-! ### Diagnostics -/

/-- The position is that of a token of the source; the end of input is one. -/
def Source.TokenAt (source : String) (pos : Position) : Prop :=
  ∃ tokens, scan source = .ok tokens ∧ ∃ t ∈ tokens, t.pos = pos

/-- The position is that of the first byte of a stretch of the source that is no token. -/
def Source.FaultAt (source : String) (pos : Position) : Prop :=
  ∃ fault span, .fault fault ∈ itemsOf source ∧ Find.Right source ⟨.fault fault, span⟩ ∧
    pos = positionAt source span.start

/-- The diagnostic points into the source. -/
structure Diagnostic.PointsInto (source : String) (d : Diagnostic) : Prop where
  /-- Scanning reports what is no token, and all other stages report at tokens. -/
  place : if d.stage = .lexing then Source.FaultAt source d.pos else Source.TokenAt source d.pos
  /-- The line that is shown is that of the position. -/
  line : Text.IsLine source.toList d.pos.line d.sourceLine.toList
  first_column : 1 ≤ d.pos.column
  /-- The caret is not further on than right behind the line. -/
  column : d.pos.column - 1 ≤ d.sourceLine.utf8ByteSize
  /-- It is below a byte of the line, unless the input has come to its end. -/
  column_lt : d.pos ≠ positionAt source source.utf8ByteSize →
    d.pos.column - 1 < d.sourceLine.utf8ByteSize

/-- A diagnostic at a place of the source points into it. -/
theorem Diagnostic.pointsInto {source : String} {d : Diagnostic}
    (hplace : if d.stage = .lexing then Source.FaultAt source d.pos
      else Source.TokenAt source d.pos) :
    (d.withSource source).PointsInto source := by
  have hat : Source.PlaceAt source d.pos := by
    split at hplace
    · obtain ⟨fault, span, hitem, hright, hpos⟩ := hplace
      rw [hpos, ← hright.pos_eq]
      exact Source.placeAt_of_mem_itemsOf hitem
    · obtain ⟨tokens, hscan, t, ht, hpos⟩ := hplace
      rw [← hpos]
      exact Source.placeAt_of_mem_itemsOf (((scan_cases source).1 tokens hscan t).mp ht)
  -- The text before the place is a number of lines and the left part of the line that is shown.
  obtain ⟨before, rest, hsource, hpos, hrest⟩ := hat
  obtain ⟨lines, left, rfl, hlines, hleft⟩ := Text.exists_lines before
  have hpos' : d.pos = ⟨1 + lines.length, 1 + (String.ofList left).utf8ByteSize⟩ := by
    rw [hpos, Position.advance_append, Position.start, Position.advance_joined hlines,
      Position.advance_line hleft]
  obtain ⟨hline, shown, hshown, hnil⟩ :=
    Text.isLine_lineAt (by rw [hsource, List.append_assoc]) hlines hleft hrest
  have hshown' : Text.lineAt source (1 + lines.length) = String.ofList (left ++ shown) := by
    rw [← hshown, String.ofList_toList]
  refine ⟨hplace, ?_, ?_, ?_, ?_⟩
  · show Text.IsLine source.toList d.pos.line (Text.lineAt source d.pos.line).toList
    rw [hpos']
    exact hline
  · show 1 ≤ d.pos.column
    rw [hpos']
    exact Nat.le_add_right _ _
  · show d.pos.column - 1 ≤ (Text.lineAt source d.pos.line).utf8ByteSize
    rw [hpos', hshown', String.ofList_append, String.utf8ByteSize_append, Nat.add_sub_cancel_left]
    exact Nat.le_add_right _ _
  · intro hend
    show d.pos.column - 1 < (Text.lineAt source d.pos.line).utf8ByteSize
    -- If nothing is shown behind the caret, then nothing follows in the source either: what stands
    -- at the place is no blank, so it is no part of the end of a line.
    have hmore : shown ≠ [] := by
      intro hshort
      rw [hnil hshort] at hsource
      refine hend ?_
      show d.pos = _
      rw [hpos, ← positionAt_of_eq_append hsource]
      rw [List.append_nil] at hsource
      rw [← hsource, String.ofList_toList]
    rw [hpos', hshown', Nat.add_sub_cancel_left]
    exact spanOf_lt left hmore

/-- All diagnostics among the failures point into the source. -/
def PointInto (source : String) (failures : List Failure) : Prop :=
  ∀ d, .diagnostic d ∈ failures → d.PointsInto source

theorem pointInto_nil (source : String) : PointInto source [] :=
  fun _ h => nomatch h

/-- Faults at places of the source, each with its line. -/
theorem pointInto_map {α : Type} {source : String} {stage : Stage} {message : α → String}
    {faults : List (Located α)} (h : ∀ f ∈ faults,
      if stage = .lexing then Source.FaultAt source f.pos else Source.TokenAt source f.pos) :
    PointInto source (faults.map fun f => (Failure.of stage message f).withSource source) := by
  intro d hd
  obtain ⟨f, hf, heq⟩ := List.mem_map.mp hd
  cases heq
  exact Diagnostic.pointsInto (h f hf)

/-- One fault at a place of the source. -/
theorem pointInto_singleton {α : Type} {source : String} {stage : Stage} {message : α → String}
    {fault : Located α} (h : if stage = .lexing then Source.FaultAt source fault.pos
      else Source.TokenAt source fault.pos) :
    PointInto source [(Failure.of stage message fault).withSource source] :=
  pointInto_map (List.forall_mem_singleton.mpr h)

theorem pointInto_bind {α β : Type} {source : String} {x : Except (List Failure) α}
    {f : α → Except (List Failure) β} (hx : PointInto source (failuresOf x))
    (hf : ∀ a, x = .ok a → PointInto source (failuresOf (f a))) :
    PointInto source (failuresOf (x >>= f)) := by
  cases x with
  | ok a => exact hf a rfl
  | error failures => exact hx

namespace Source

/-- Lexical faults are reported where they are. -/
theorem tokens_pointInto (source : String) : PointInto source (failuresOf (tokens source)) := by
  unfold tokens
  cases hscan : scan source with
  | ok ts => exact pointInto_nil source
  | error faults =>
    refine pointInto_map fun f hf => ?_
    have hitem := ((scan_cases source).2 faults hscan f).mp hf
    rcases (itemsOf_right source).2 _ hitem with heq | ⟨span, hright⟩
    · cases heq
    · exact ⟨f, span, hitem, hright, hright.pos_eq⟩

/-- Faults of grammar are reported at tokens. -/
theorem tokenAt_of_parse {source : String} {ts : List Token} {faults : List (Located SyntaxFault)}
    (hscan : scan source = .ok ts) (hparse : parse ts = .error faults) :
    ∀ f ∈ faults, TokenAt source f.pos := by
  intro f hf
  obtain ⟨ks, hks⟩ := (orderlyReading ts).faults_at
  have hpos : f.pos ∈ ks.map (positionOf ts) := by
    rw [← hks.positions, hparse]
    exact List.mem_map_of_mem hf
  obtain ⟨k, -, hk⟩ := List.mem_map.mp hpos
  refine ⟨ts, hscan, ?_⟩
  rw [← hk, positionOf]
  cases hget : ts[k]? with
  | some t => exact ⟨t, List.mem_of_getElem? hget, rfl⟩
  | none =>
    -- Behind the list, faults are reported at its last token, and there always is one.
    cases hlast : ts.getLast? with
    | some t => exact ⟨t, List.mem_of_getLast? hlast, rfl⟩
    | none =>
      have hmem := ((scan_cases source).1 ts hscan _).mpr (itemsOf_right source).1
      rw [List.getLast?_eq_none_iff.mp hlast] at hmem
      cases hmem

theorem program_pointInto (source : String) : PointInto source (failuresOf (program source)) := by
  refine pointInto_bind (tokens_pointInto source) fun ts hts => ?_
  have hscan : scan source = .ok ts := by
    unfold tokens at hts
    cases hscan : scan source <;> rw [hscan] at hts <;> cases hts
    rfl
  cases hparse : parse ts with
  | ok p => exact pointInto_nil source
  | error faults => exact pointInto_map (tokenAt_of_parse hscan hparse)

/-- All positions in the program of a source are those of tokens. -/
theorem program_placedIn {source : String} {p : Program} (h : program source = .ok p) :
    Stmt.AllPlacedIn (TokenAt source) p := by
  obtain ⟨ts, hscan, hparse⟩ := program_eq_ok h
  exact placedIn_of_parse hparse fun t ht => ⟨ts, hscan, t, ht, rfl⟩

/-- What the checks report, they report at tokens. -/
theorem analyze_pointInto {source : String} {p : Program}
    (h : Stmt.AllPlacedIn (TokenAt source) p) :
    PointInto source (failuresOf ((analyze p).mapError fun f => [f.withSource source])) := by
  unfold analyze
  cases hresolve : resolve p with
  | error fault =>
    have hfault := resolve_reportsIn h fault hresolve
    exact pointInto_singleton hfault
  | ok table =>
    show PointInto source (failuresOf (Except.mapError _ ((typecheck table p).mapError _ >>= _)))
    cases htypes : typecheck table p with
    | error fault =>
      have hfault := typecheck_reportsIn h fault htypes
      exact pointInto_singleton hfault
    | ok _ => exact pointInto_nil source

theorem checked_pointInto (source : String) : PointInto source (failuresOf (checked source)) :=
  pointInto_bind (program_pointInto source) fun _ hp =>
    pointInto_bind (analyze_pointInto (program_placedIn hp)) fun _ _ => pointInto_nil source

end Source

/-! ### Runs -/

/-- What a run reports. -/
def Verdict.failures : Verdict → List Failure
  | failed failures => failures
  | finished => []
  | outOfFuel => []

/-- A run of a program reports its failures at tokens, if all positions in the program are those of
    tokens. -/
theorem Machine.tokenAt_of_interpret {source : String} {fuel : Nat} {p : Program}
    {table : Distances} {sink : Sink} {fault : Located RuntimeFault} {m : Machine}
    (hwf : Stmt.AllWellFormed p) (hplaced : Stmt.AllPlacedIn (Source.TokenAt source) p)
    (h : (Machine.fresh sink).interpret fuel p table = (.failed fault, m)) :
    Source.TokenAt source fault.pos := by
  have hlaws := (CodeRule.placed_lawful (P := Source.TokenAt source)).lawful
  have hsince : (CodeRule.placed (Source.TokenAt source)).Since (.fresh sink)
      { Machine.fresh sink with table } := .of_eq (CodeRule.good_fresh _ sink) rfl rfl
  have hready : (CodeRule.placed (Source.TokenAt source)).discipline.Ready
      ⟨.executeAll p, { Machine.fresh sink with table }⟩ := ⟨hsince.good, hwf, hplaced⟩
  have hstopped := (hlaws.done fuel hready).of_error (executeAll_of_interpret h)
  exact hstopped.1.1

/-- The faults of a run point into the source. -/
theorem Source.run_pointInto (fuel : Nat) (source : String) (sink : Sink) :
    PointInto source (run fuel source sink).1.failures := by
  have hchecked := checked_pointInto source
  unfold run
  cases hsource : checked source with
  | error failures =>
    rw [hsource] at hchecked
    exact hchecked
  | ok prepared =>
    obtain ⟨p, table⟩ := prepared
    obtain ⟨p', hp, hrest⟩ := except_bind_eq_ok.mp hsource
    obtain ⟨table', -, heq⟩ := except_bind_eq_ok.mp hrest
    cases heq
    simp only
    cases hrun : (Machine.fresh sink).interpret fuel p table with
    | mk ending m =>
      cases ending with
      | failed fault =>
        have hfault :=
          Machine.tokenAt_of_interpret (program_wellFormed hp) (program_placedIn hp) hrun
        exact pointInto_singleton hfault
      | flushFailed text => exact fun d hd => nomatch List.mem_singleton.mp hd
      | finished => exact pointInto_nil source
      | outOfFuel => exact pointInto_nil source

/-- **Diagnostics point into the source.** Whatever is reported about a source text, by scanning it,
    parsing it, checking it or running it, is reported at a token, or where a stretch of text that
    is no token starts. It is shown with the text of just the line of its position, and the column
    is one of this line, or the one right behind it at the end of the input. -/
theorem diagnostics_pointInto (source : String) :
    PointInto source (failuresOf (Source.tokens source)) ∧
      PointInto source (failuresOf (Source.program source)) ∧
      PointInto source (failuresOf (Source.checked source)) ∧
      ∀ fuel sink, PointInto source (Source.run fuel source sink).1.failures :=
  ⟨Source.tokens_pointInto source, Source.program_pointInto source, Source.checked_pointInto source,
    fun fuel sink => Source.run_pointInto fuel source sink⟩

/-- Lines that end in a carriage return and a line feed, a string over two lines, and a carriage
    return at the end that belongs to no line end. -/
theorem diagnostics_pointInto_returns :
    .diagnostic ⟨.parsing, "Expected ';' after expression", ⟨3, 4⟩, "b\" y\r"⟩
        ∈ failuresOf (Source.program "x;\r\n\"a\r\nb\" y\r") ∧
      Diagnostic.PointsInto "x;\r\n\"a\r\nb\" y\r"
        ⟨.parsing, "Expected ';' after expression", ⟨3, 4⟩, "b\" y\r"⟩ := by
  have h : .diagnostic ⟨.parsing, "Expected ';' after expression", ⟨3, 4⟩, "b\" y\r"⟩
      ∈ failuresOf (Source.program "x;\r\n\"a\r\nb\" y\r") := by decide +kernel
  exact ⟨h, (diagnostics_pointInto _).2.1 _ h⟩

end ClassScript
