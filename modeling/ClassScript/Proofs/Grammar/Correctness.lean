import ClassScript.Proofs.Grammar.Completeness

namespace ClassScript

/-!
# The parser and the grammar

As it is written, the grammar is ambiguous: an `else` may belong to any `if` before it that is still
without one. Whatever tokens it derives can also be derived with every `else` at the nearest `if`,
and so derived they have one tree, which is the one that is read.

* `Grammar.Derives.exists_attach`: an `else` moves to the innermost open `if`;
* `Grammar.Derives.balanced`: the tokens of any derivation have one with the nearest `if`;
* `parse_eq_ok_iff_reads`: what is read is what is derived.
-/

namespace Grammar

variable {m m' : Mark}

/-! ### The two rules for `else` -/

/-- A derivation with the nearest `if` is one of the grammar as it is written. -/
theorem Derives.free_of_nearest {p : Phrase} (h : Derives .nearest m p m') :
    Derives .free m p m' := by
  induction h
  case call hopening _ hclosing hlength ihcallee ihargs =>
    exact .call ihcallee hopening ihargs hclosing hlength
  case get hdot hname ih => exact .get ih hdot hname
  all_goals constructor <;> first | assumption | nofun

/-- An `else` after a statement that ends with an open `if` goes to the innermost such `if`. -/
theorem Derives.exists_attach {p : Phrase} {s no : Stmt} {t : Token} {ts : List Token} {i : Nat}
    {d : Bool} {m₁ : Mark} (h : Derives .nearest m p m₁) (hp : p = .statement s true)
    (hm₁ : m₁ = ⟨t :: ts, i⟩) (ht : t.kind = .keyword .kwElse)
    (hno : Derives .nearest ⟨ts, i⟩ (.statement no d) m') :
    ∃ s' d', Derives .nearest m (.statement s' d') m' := by
  induction h generalizing s <;> cases hp
  case forStatement hk hopening hfirst htest hsemicolon hstep hclosing _ ihfirst ihtest ihstep ih =>
    obtain ⟨s', d', hs'⟩ := ih rfl hm₁
    exact ⟨_, d', .forStatement hk hopening hfirst htest hsemicolon hstep hclosing hs'⟩
  case ifStatement dangling hk htest hyes ihtest ih =>
    subst hm₁
    cases dangling with
    | false => exact ⟨_, d, .ifElseStatement hk htest hyes (fun _ => rfl) ht hno⟩
    | true =>
      obtain ⟨s', d', hs'⟩ := ih rfl rfl
      exact ⟨_, true, .ifStatement hk htest hs'⟩
  case ifElseStatement hk htest hyes hclosed hotherwise hno' ihtest ihyes ih =>
    obtain ⟨s', d', hs'⟩ := ih rfl hm₁
    exact ⟨_, d', .ifElseStatement hk htest hyes hclosed hotherwise hs'⟩
  case whileStatement hk htest hbody ihtest ih =>
    obtain ⟨s', d', hs'⟩ := ih rfl hm₁
    exact ⟨_, d', .whileStatement hk htest hs'⟩

/-- The tokens of a phrase can be derived with the nearest `if`. Where no `else` is involved the
    tree stays the same. -/
def Balanced (m m' : Mark) : Phrase → Prop
  | .declarations _ => ∃ ss, Derives .nearest m (.declarations ss) m'
  | .declaration _ => ∃ s, Derives .nearest m (.declaration s) m'
  | .methods _ => ∃ decls, Derives .nearest m (.methods decls) m'
  | .function _ => ∃ decl, Derives .nearest m (.function decl) m'
  | .block _ => ∃ ss, Derives .nearest m (.block ss) m'
  | .statement _ _ => ∃ s d, Derives .nearest m (.statement s d) m'
  | p => Derives .nearest m p m'

theorem Derives.balanced {p : Phrase} (h : Derives .free m p m') : Balanced m m' p := by
  induction h
  case declarationsNil => exact ⟨[], .declarationsNil⟩
  case declarationsCons ihs ihss =>
    obtain ⟨s, hs⟩ := ihs
    obtain ⟨ss, hss⟩ := ihss
    exact ⟨s :: ss, .declarationsCons hs hss⟩
  case block hopening _ hclosing ih =>
    obtain ⟨ss, hss⟩ := ih
    exact ⟨ss, .block hopening hss hclosing⟩
  case classDeclaration hk hname _ hopening _ hclosing ihsuper ihdecls =>
    obtain ⟨decls, hdecls⟩ := ihdecls
    exact ⟨_, .classDeclaration hk hname ihsuper hopening hdecls hclosing⟩
  case functionDeclaration hk _ ih =>
    obtain ⟨decl, hdecl⟩ := ih
    exact ⟨_, .functionDeclaration hk hdecl⟩
  case variableDeclaration hk _ ih => exact ⟨_, .variableDeclaration hk ih⟩
  case statementDeclaration ih =>
    obtain ⟨s, d, hs⟩ := ih
    exact ⟨s, .statementDeclaration hs⟩
  case methodsNil => exact ⟨[], .methodsNil⟩
  case methodsCons ihdecl ihdecls =>
    obtain ⟨decl, hdecl⟩ := ihdecl
    obtain ⟨decls, hdecls⟩ := ihdecls
    exact ⟨decl :: decls, .methodsCons hdecl hdecls⟩
  case function hname hopening _ hclosing hlength _ _ ihparams ihreturns ihbody =>
    obtain ⟨body, hbody⟩ := ihbody
    exact ⟨_, .function hname hopening ihparams hclosing hlength ihreturns hbody⟩
  case forStatement hk hopening _ _ hsemicolon _ hclosing _ ihfirst ihtest ihstep ihbody =>
    obtain ⟨body, d, hbody⟩ := ihbody
    exact ⟨_, d, .forStatement hk hopening ihfirst ihtest hsemicolon ihstep hclosing hbody⟩
  case ifStatement hk _ _ ihtest ihyes =>
    obtain ⟨yes, d, hyes⟩ := ihyes
    exact ⟨_, true, .ifStatement hk ihtest hyes⟩
  case ifElseStatement hk _ _ _ hotherwise _ ihtest ihyes ihno =>
    obtain ⟨yes, d, hyes⟩ := ihyes
    obtain ⟨no, d', hno⟩ := ihno
    cases d with
    | false => exact ⟨_, d', .ifElseStatement hk ihtest hyes (fun _ => rfl) hotherwise hno⟩
    | true =>
      -- The `else` belongs to an `if` inside the branch.
      obtain ⟨s', d'', hs'⟩ := hyes.exists_attach rfl rfl hotherwise hno
      exact ⟨_, true, .ifStatement hk ihtest hs'⟩
  case whileStatement hk _ _ ihtest ihbody =>
    obtain ⟨body, d, hbody⟩ := ihbody
    exact ⟨_, d, .whileStatement hk ihtest hbody⟩
  case returnStatement hk _ hsemicolon ih => exact ⟨_, false, .returnStatement hk ih hsemicolon⟩
  case blockStatement ih =>
    obtain ⟨ss, hss⟩ := ih
    exact ⟨_, false, .blockStatement hss⟩
  case expressionStatement _ hsemicolon ih => exact ⟨_, false, .expressionStatement ih hsemicolon⟩
  case call hopening _ hclosing hlength ihcallee ihargs =>
    exact .call ihcallee hopening ihargs hclosing hlength
  case get hdot hname ih => exact .get ih hdot hname
  all_goals constructor <;> assumption

end Grammar

/-- **The parser is the grammar.** A token list is accepted exactly if its tokens before the first
    end of input derive a program in the grammar as it is written, and the tree that it is read as
    is the one derivation in which every `else` belongs to the nearest `if`. -/
theorem parse_eq_ok_iff_reads (tokens : List Token) :
    ((∃ p, parse tokens = .ok p) ↔ ∃ p, Grammar.Reads .free tokens p) ∧
      ∀ p, parse tokens = .ok p ↔ Grammar.Reads .nearest tokens p := by
  refine ⟨⟨?_, ?_⟩, fun p => ⟨reads_of_parse, parse_of_reads⟩⟩
  · rintro ⟨p, hp⟩
    obtain ⟨n, hn⟩ := reads_of_parse hp
    exact ⟨p, n, hn.free_of_nearest⟩
  · rintro ⟨p, n, hn⟩
    obtain ⟨q, hq⟩ := hn.balanced
    exact ⟨q, parse_of_reads ⟨n, hq⟩⟩

end ClassScript
