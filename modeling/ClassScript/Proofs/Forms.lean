import ClassScript.Proofs.Pieces

namespace ClassScript

/-!
# Forms

Nested lists of atoms, written with parentheses around each list and one blank between its items.
An atom is a word, in which neither blanks nor parentheses nor quotes stand, or any text between
quotes that has no quote in it. Such a text can be read in one way only, wherever it stands: the
end of a form shows without looking at what follows, as long as that starts with a blank or a
closing parenthesis.

* `Form.render`: the text of a form;
* `Form.IsLegible`: the atoms are words and quoted texts;
* `Form.render_append_inj`: the text of a form determines the form and where it ends.
-/

/-- Nested lists of atoms. -/
inductive Form where
  | atom (text : String)
  | list (items : List Form)

namespace Form

mutual

/-- The text of a form. -/
def render : Form → List Char
  | .atom text => text.toList
  | .list [] => ['(', ')']
  | .list (item :: items) => '(' :: (item.render ++ renderEach items ++ [')'])

/-- The texts of forms, each after a blank. -/
def renderEach : List Form → List Char
  | [] => []
  | item :: items => ' ' :: (item.render ++ renderEach items)

end

/-- The characters that end a word. -/
def delimiters : List Char := [' ', '(', ')', '"']

/-- A word: at least one character, and none of them ends a word. -/
def IsWord (text : List Char) : Prop := text ≠ [] ∧ text.all (· ∉ delimiters) = true

instance (text : List Char) : Decidable (IsWord text) := inferInstanceAs (Decidable (_ ∧ _))

/-- A text between quotes with no quote in it. -/
def IsQuoted (text : List Char) : Prop := ∃ body, text = '"' :: (body ++ ['"']) ∧ '"' ∉ body

/-- What an atom may be. -/
def IsAtom (text : List Char) : Prop := IsWord text ∨ IsQuoted text

mutual

/-- All atoms of the form are words or quoted texts. -/
def IsLegible : Form → Prop
  | .atom text => IsAtom text.toList
  | .list items => AllLegible items

/-- All atoms of the forms are words or quoted texts. -/
def AllLegible : List Form → Prop
  | [] => True
  | item :: items => item.IsLegible ∧ AllLegible items

end

theorem allLegible_append {items more : List Form} :
    AllLegible (items ++ more) ↔ AllLegible items ∧ AllLegible more := by
  induction items with
  | nil => simp [AllLegible]
  | cons item items ih => simp [AllLegible, ih, and_assoc]

theorem IsWord.append {text more : List Char} (htext : IsWord text) (hmore : IsWord more) :
    IsWord (text ++ more) := by
  refine ⟨List.append_ne_nil_of_left_ne_nil htext.1 _, ?_⟩
  rw [List.all_append, htext.2, hmore.2]
  rfl

/-! ### Where atoms end -/

/-- What may follow a form: nothing, a blank or a closing parenthesis. -/
def Ends (after : List Char) : Prop := ∀ c ∈ after.head?, c = ' ' ∨ c = ')'

theorem ends_renderEach (items : List Form) (after : List Char) :
    Ends (renderEach items ++ ')' :: after) := by
  cases items with
  | nil =>
    rintro c ⟨rfl⟩
    exact .inr rfl
  | cons item items =>
    rintro c ⟨rfl⟩
    exact .inl rfl

/-- A word ends where the first delimiter stands. -/
theorem takeWhile_word {text after : List Char} (hword : IsWord text) (hafter : Ends after) :
    (text ++ after).takeWhile (· ∉ delimiters) = text := by
  have hall : ∀ c ∈ text, decide (c ∉ delimiters) = true := List.all_eq_true.mp hword.2
  have hnone : after.takeWhile (· ∉ delimiters) = [] := by
    cases after with
    | nil => rfl
    | cons c rest => rcases hafter c rfl with rfl | rfl <;> rfl
  rw [List.takeWhile_append_of_pos hall, hnone, List.append_nil]

/-- A word starts with no delimiter. -/
theorem word_append_ne {text : List Char} (h : IsWord text) {d : Char} (hd : d ∈ delimiters)
    (after after' : List Char) : text ++ after ≠ d :: after' := by
  obtain ⟨c, rest, rfl⟩ := List.exists_cons_of_ne_nil h.1
  intro heq
  have hc := of_decide_eq_true (List.all_eq_true.mp h.2 c List.mem_cons_self)
  exact hc ((List.cons.inj heq).1 ▸ hd)

theorem atom_append_inj {text other after after' : List Char}
    (htext : IsAtom text) (hother : IsAtom other) (hafter : Ends after) (hafter' : Ends after')
    (h : text ++ after = other ++ after') : text = other ∧ after = after' := by
  have heq : text = other := by
    rcases htext with htext | ⟨body, rfl, hbody⟩ <;>
      rcases hother with hother | ⟨body', rfl, hbody'⟩
    · -- Both words end at the first delimiter.
      rw [← takeWhile_word htext hafter, h, takeWhile_word hother hafter']
    · exact absurd h (word_append_ne htext (by decide) _ _)
    · exact absurd h.symm (word_append_ne hother (by decide) _ _)
    · simp only [List.cons_append, List.append_assoc, List.nil_append] at h
      -- Both bodies end at the next quote.
      rw [eq_of_append_of_not_mem hbody hbody' (.inr rfl) (.inr rfl) (List.cons.inj h).2]
  subst heq
  exact ⟨rfl, List.append_cancel_left h⟩

/-! ### Where forms end -/

/-- The text of a legible form does not start with a closing parenthesis. -/
theorem render_ne_close {f : Form} (hf : f.IsLegible) (after after' : List Char) :
    f.render ++ after ≠ ')' :: after' := by
  cases f with
  | atom text =>
    rw [render]
    rcases hf with hf | ⟨body, hbody, -⟩
    · exact word_append_ne hf (by decide) _ _
    · simp [hbody]
  | list items => cases items <;> simp [render]

/-- An atom does not start with a parenthesis. -/
theorem atom_ne_open {text : List Char} (h : IsAtom text) (after after' : List Char) :
    text ++ after ≠ '(' :: after' := by
  rcases h with h | ⟨body, rfl, -⟩
  · exact word_append_ne h (by decide) _ _
  · simp

theorem render_list (items : List Form) : ∃ text, (list items).render = '(' :: text := by
  cases items with
  | nil => exact ⟨_, rfl⟩
  | cons item items => exact ⟨_, by rw [render]⟩

mutual

/-- The text of a form determines the form and where it ends. -/
theorem render_append_inj : ∀ {f g : Form} {after after' : List Char}, f.IsLegible → g.IsLegible →
    Ends after → Ends after' → f.render ++ after = g.render ++ after' → f = g ∧ after = after'
  | .atom text, .atom other, after, after', hf, hg, hafter, hafter', h => by
    rw [render, render] at h
    obtain ⟨htext, hrest⟩ := atom_append_inj hf hg hafter hafter' h
    exact ⟨congrArg atom (String.toList_inj.mp htext), hrest⟩
  | .atom text, .list items, after, after', hf, hg, hafter, hafter', h => by
    obtain ⟨rest, hrest⟩ := render_list items
    rw [render, hrest, List.cons_append] at h
    exact absurd h (atom_ne_open hf _ _)
  | .list items, .atom text, after, after', hf, hg, hafter, hafter', h => by
    obtain ⟨rest, hrest⟩ := render_list items
    rw [render, hrest, List.cons_append] at h
    exact absurd h.symm (atom_ne_open hg _ _)
  | .list [], .list [], after, after', hf, hg, hafter, hafter', h => by
    simpa [render] using h
  | .list [], .list (item :: items), after, after', hf, hg, hafter, hafter', h => by
    simp only [render, List.cons_append, List.append_assoc, List.nil_append] at h
    exact absurd (List.cons.inj h).2.symm (render_ne_close hg.1 _ _)
  | .list (item :: items), .list [], after, after', hf, hg, hafter, hafter', h => by
    simp only [render, List.cons_append, List.append_assoc, List.nil_append] at h
    exact absurd (List.cons.inj h).2 (render_ne_close hf.1 _ _)
  | .list (item :: items), .list (other :: others), after, after', hf, hg, hafter, hafter', h => by
    simp only [render, List.cons_append, List.append_assoc, List.nil_append] at h
    -- The first items are the same, so what follows them is the same text.
    obtain ⟨rfl, hitems⟩ := render_append_inj hf.1 hg.1 (ends_renderEach _ _) (ends_renderEach _ _)
      (List.cons.inj h).2
    obtain ⟨rfl, hrest⟩ := renderEach_append_inj hf.2 hg.2 hitems
    exact ⟨rfl, hrest⟩

/-- The texts of forms up to a closing parenthesis determine the forms. -/
theorem renderEach_append_inj : ∀ {fs gs : List Form} {after after' : List Char}, AllLegible fs →
    AllLegible gs → renderEach fs ++ ')' :: after = renderEach gs ++ ')' :: after' →
    fs = gs ∧ after = after'
  | [], [], after, after', hfs, hgs, h => ⟨rfl, (List.cons.inj h).2⟩
  | [], g :: gs, after, after', hfs, hgs, h => by simp [renderEach] at h
  | f :: fs, [], after, after', hfs, hgs, h => by simp [renderEach] at h
  | f :: fs, g :: gs, after, after', hfs, hgs, h => by
    simp only [renderEach, List.cons_append, List.append_assoc] at h
    obtain ⟨rfl, hitems⟩ := render_append_inj hfs.1 hgs.1 (ends_renderEach _ _)
      (ends_renderEach _ _) (List.cons.inj h).2
    obtain ⟨rfl, hrest⟩ := renderEach_append_inj hfs.2 hgs.2 hitems
    exact ⟨rfl, hrest⟩

end

/-- Legible forms with the same text are the same. -/
theorem render_inj {f g : Form} (hf : f.IsLegible) (hg : g.IsLegible) (h : f.render = g.render) :
    f = g := by
  have hnil : Ends [] := fun c hc => nomatch hc
  exact (render_append_inj hf hg hnil hnil (by rw [h])).1

end Form

end ClassScript
