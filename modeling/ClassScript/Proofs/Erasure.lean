import ClassScript.Pipeline
import ClassScript.Proofs.Erasure.Checking
import ClassScript.Proofs.Erasure.Parsing
import ClassScript.Proofs.Erasure.Running
import ClassScript.Proofs.Respacing

namespace ClassScript

/-!
# Positions mean nothing

Blanks, line breaks and comments move tokens around and have no other effect. Two source texts with
the same tokens up to positions are the same program up to positions: every stage succeeds on both
or fails on both with the same messages, and both write the same bytes.

* `Kind.ofLexeme`: the kind of a scanned token is in its text;
* `Failure.erase`, `Verdict.erase`: what is reported, without where;
* `SameUpToPositions`: two source texts at every stage;
* `sameUpToPositions_of_scan`: the result.
-/

/-! ### Tokens -/

/-- The kind of the token that a text is on its own; the end of input is spelt by no character. -/
def Kind.ofLexeme (lexeme : String) : Kind :=
  match lexeme.toList with
  | [] => .endOfInput
  | c :: text =>
    match (Piece.front c text).shape with
    | .token kind => kind
    | _ => .endOfInput

theorem kind_eq_ofLexeme {source : String} {tokens : List Token} {t : Token}
    (h : scan source = .ok tokens) (ht : t ∈ tokens) : t.kind = .ofLexeme t.lexeme := by
  rcases exists_front_of_scan h ht with ⟨hkind, hlexeme⟩ | ⟨c, rest, hshape, hlexeme⟩
  · rw [hkind, hlexeme]
    rfl
  · obtain ⟨text, htext, hfront⟩ := Piece.front_text hshape
    rw [hlexeme, htext, Kind.ofLexeme, String.toList_ofList]
    simp only [hfront, hshape]

/-- What is left of scanned tokens without positions is in their texts. -/
theorem map_erase_of_scan {source : String} {tokens : List Token} (h : scan source = .ok tokens) :
    tokens.map Token.erase
      = (tokens.map Token.lexeme).map fun lexeme => ⟨.ofLexeme lexeme, lexeme, .start⟩ := by
  rw [List.map_map]
  apply List.map_congr_left
  intro t ht
  exact congrArg (Token.mk · t.lexeme .start) (kind_eq_ofLexeme h ht)

/-! ### Reports -/

/-- A failure without its position and its source line; it keeps its stage and its message. -/
def Failure.erase : Failure → Failure
  | diagnostic d => .diagnostic (.bare d.stage d.message .start)
  | f => f

/-- A verdict without positions. -/
def Verdict.erase : Verdict → Verdict
  | failed failures => .failed (failures.map Failure.erase)
  | verdict => verdict

theorem Failure.erase_withSource (f : Failure) (source : String) :
    (f.withSource source).erase = f.erase := by
  cases f <;> rfl

theorem Ending.erase_verdict (ending : Ending) (source : String) :
    (ending.verdict source).erase = (ending.erase.verdict "").erase := by
  cases ending <;> rfl

/-- Both succeed with results that `f` makes equal, or both fail, with failures that are equal one
    by one but for their positions. -/
inductive Alike {α : Type} (f : α → α) :
    Except (List Failure) α → Except (List Failure) α → Prop
  | ok {x y : α} (h : f x = f y) : Alike f (.ok x) (.ok y)
  | error {fs gs : List Failure} (h : fs.map Failure.erase = gs.map Failure.erase) :
      Alike f (.error fs) (.error gs)

namespace Alike

variable {α β : Type} {f : α → α}

/-- Two stages, one after the other. -/
theorem bind {g : β → β} {x y : Except (List Failure) α} {k l : α → Except (List Failure) β}
    (h : Alike f x y) (hk : ∀ a b, f a = f b → Alike g (k a) (l b)) :
    Alike g (x >>= k) (y >>= l) := by
  cases h with
  | ok h => exact hk _ _ h
  | error h => exact .error h

/-- One stage: the faults that it finds on both sides are equal once changed by `e`, and so are the
    failures that they are reported as. -/
theorem of_eq {ε γ : Type} {e : ε → γ} {r r' : ε → List Failure} {x y : Except ε α}
    (h : (x.map f).mapError e = (y.map f).mapError e)
    (hr : ∀ s t, e s = e t → (r s).map Failure.erase = (r' t).map Failure.erase) :
    Alike f (x.mapError r) (y.mapError r') := by
  cases x with
  | ok v =>
    cases y with
    | ok w => exact .ok (Except.ok.inj h)
    | error t => cases h
  | error s =>
    cases y with
    | ok w => cases h
    | error t => exact .error (hr s t (Except.error.inj h))

end Alike

/-! ### Stages -/

/-- Analysis ends on an erased program as on the program. -/
theorem analyze_erase (program : Program) :
    analyze (Stmt.eraseAll program) = (analyze program).mapError Failure.erase := by
  refine bind_mapError ?_ fun table => bind_mapError ?_ fun _ => rfl
  · rw [resolve_erase]
    cases resolve program <;> rfl
  · rw [typecheck_erase]
    cases typecheck table program <;> rfl

theorem alike_parse {s t : List Token} (h : s.map Token.erase = t.map Token.erase) (a b : String) :
    Alike Stmt.eraseAll
      ((parse s).mapError fun faults => faults.map fun f => (Failure.ofSyntax f).withSource a)
      ((parse t).mapError fun faults => faults.map fun f => (Failure.ofSyntax f).withSource b) := by
  have herase (faults : List (Located SyntaxFault)) (source : String) :
      (faults.map fun f => (Failure.ofSyntax f).withSource source).map Failure.erase
        = (faults.map Located.erase).map Failure.ofSyntax := by
    rw [List.map_map, List.map_map]
    exact List.map_congr_left fun f _ => Failure.erase_withSource _ source
  have hparse : ((parse s).map Stmt.eraseAll).mapError (List.map Located.erase)
      = ((parse t).map Stmt.eraseAll).mapError (List.map Located.erase) := by
    rw [← parse_erase, ← parse_erase, h]
  refine .of_eq hparse fun fs gs hfaults => ?_
  rw [herase, herase, hfaults]

theorem alike_analyze {p q : Program} (h : Stmt.eraseAll p = Stmt.eraseAll q) (a b : String) :
    Alike id ((analyze p).mapError fun f => [f.withSource a])
      ((analyze q).mapError fun f => [f.withSource b]) := by
  have hanalyze : ((analyze p).map id).mapError Failure.erase
      = ((analyze q).map id).mapError Failure.erase := by
    rw [Except.map_id]
    show (analyze p).mapError _ = (analyze q).mapError _
    rw [← analyze_erase, ← analyze_erase, h]
  refine .of_eq hanalyze fun f g hf => ?_
  simp only [List.map_cons, List.map_nil, Failure.erase_withSource, hf]

/-- Two source texts are the same program at every stage, but for positions. -/
structure SameUpToPositions (a b : String) : Prop where
  /-- Reading gives programs that are equal without positions, with the same identities of uses of
      names; or the same failures. -/
  program : Alike Stmt.eraseAll (Source.program a) (Source.program b)
  /-- Resolution finds the same table of distances, or the same fault. -/
  table {p q : Program} : Source.program a = .ok p → Source.program b = .ok q →
    (resolve p).mapError Located.erase = (resolve q).mapError Located.erase
  /-- The check gives equal programs and the same table; or the same failures. -/
  checked : Alike (fun c => (Stmt.eraseAll c.1, c.2)) (Source.checked a) (Source.checked b)
  /-- A run of any length comes to the same verdict. -/
  verdict (fuel : Nat) (sink : Sink) :
    (Source.run fuel a sink).1.erase = (Source.run fuel b sink).1.erase
  /-- A run of any length leaves the same sink, with the same bytes in it. -/
  output (fuel : Nat) (sink : Sink) : (Source.run fuel a sink).2 = (Source.run fuel b sink).2

/-- A run of what the check gives, for one source text and for another. -/
theorem run_alike {a b : String}
    (h : Alike (fun c => (Stmt.eraseAll c.1, c.2)) (Source.checked a) (Source.checked b))
    (fuel : Nat) (sink : Sink) :
    (Source.run fuel a sink).1.erase = (Source.run fuel b sink).1.erase ∧
      (Source.run fuel a sink).2 = (Source.run fuel b sink).2 := by
  unfold Source.run
  -- Only how the check ends matters; the texts themselves are used for the reports alone.
  revert h
  generalize Source.checked a = x
  generalize Source.checked b = y
  intro h
  cases h with
  | error h => exact ⟨congrArg Verdict.failed h, rfl⟩
  | @ok c d h =>
    obtain ⟨p, table⟩ := c
    obtain ⟨q, other⟩ := d
    obtain ⟨hprogram, rfl⟩ := Prod.mk.inj h
    -- Without positions both runs are the run of one erased program on one erased machine.
    have hp := Machine.interpret_erase fuel p table (.fresh sink)
    have hq := Machine.interpret_erase fuel q table (.fresh sink)
    simp only at hprogram
    rw [hprogram] at hp
    obtain ⟨hending, hmachine⟩ := Prod.mk.inj (hp.symm.trans hq)
    constructor
    · show (Ending.verdict a _).erase = (Ending.verdict b _).erase
      rw [Ending.erase_verdict, hending, ← Ending.erase_verdict]
    · have hsink := congrArg Machine.sink hmachine
      exact hsink

/-- **Positions mean nothing.** Two source texts whose tokens have the same kinds and texts, in the
    same order, are the same program up to positions, wherever the tokens stand. -/
theorem sameUpToPositions_of_scan {a b : String} {s t : List Token} (ha : scan a = .ok s)
    (hb : scan b = .ok t)
    (h : s.map (fun u => (u.kind.name, u.lexeme)) = t.map fun u => (u.kind.name, u.lexeme)) :
    SameUpToPositions a b := by
  have hlexemes : s.map Token.lexeme = t.map Token.lexeme := by
    have := congrArg (List.map Prod.snd) h
    rwa [List.map_map, List.map_map] at this
  -- The name of a kind leaves out the value of a literal, but the text has it.
  have htokens : s.map Token.erase = t.map Token.erase := by
    rw [map_erase_of_scan ha, map_erase_of_scan hb, hlexemes]
  have hprogram : Alike Stmt.eraseAll (Source.program a) (Source.program b) := by
    unfold Source.program Source.tokens
    rw [ha, hb]
    exact alike_parse htokens a b
  have hchecked :
      Alike (fun c => (Stmt.eraseAll c.1, c.2)) (Source.checked a) (Source.checked b) :=
    hprogram.bind fun p q hpq =>
      (alike_analyze hpq a b).bind fun table other htable =>
        .ok (by rw [hpq, show table = other from htable])
  refine ⟨hprogram, ?_, hchecked, fun fuel sink => (run_alike hchecked fuel sink).1,
    fun fuel sink => (run_alike hchecked fuel sink).2⟩
  intro p q hp hq
  rw [hp, hq] at hprogram
  cases hprogram with
  | ok hpq => rw [← resolve_erase, ← resolve_erase, hpq]

/-- A function and its call in one line, and the same over several lines with comments. -/
theorem sameUpToPositions_reformatted :
    ∃ s t, scan "def f(s: String) \x7b println(s); \x7d f(\"hi\");" = .ok s ∧
      scan "// greets\ndef f(s: String)\n\x7b println(s); /* once */ \x7d\nf( \"hi\" );" = .ok t ∧
      s ≠ t ∧
      s.map (fun u => (u.kind.name, u.lexeme)) = t.map (fun u => (u.kind.name, u.lexeme)) ∧
      SameUpToPositions "def f(s: String) \x7b println(s); \x7d f(\"hi\");"
        "// greets\ndef f(s: String)\n\x7b println(s); /* once */ \x7d\nf( \"hi\" );" := by
  have hscans : (scan "def f(s: String) \x7b println(s); \x7d f(\"hi\");").toOption.any (fun s =>
      (scan "// greets\ndef f(s: String)\n\x7b println(s); /* once */ \x7d\nf( \"hi\" );"
        ).toOption.any fun t => s ≠ t ∧
          s.map (fun u => (u.kind.name, u.lexeme)) = t.map fun u => (u.kind.name, u.lexeme))
      = true := by
    decide +kernel
  obtain ⟨s, ha, hrest⟩ := exists_ok_of_any hscans
  obtain ⟨t, hb, hpairs⟩ := exists_ok_of_any hrest
  obtain ⟨hne, h⟩ := of_decide_eq_true hpairs
  exact ⟨s, t, ha, hb, hne, h, sameUpToPositions_of_scan ha hb h⟩

end ClassScript
