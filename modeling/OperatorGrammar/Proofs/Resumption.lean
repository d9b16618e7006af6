import OperatorGrammar.Proofs.Scanning.Joined
import OperatorGrammar.Proofs.Turn.Joined

/-!
Two texts with a semicolon on a line of its own between them. Their results are those of the first
text and those of the second: what is left open in front of the semicolon fails there as it does at
the end of the input, and has no part in what is read behind it. Main statement:
`Session.start_resumes`.
-/

namespace OperatorGrammar

/-- What a fault says does not depend on the token that shows it. -/
theorem Fault.message_cause (fault : Fault) (found found' : Lexeme) :
    (fault.cause found').message = (fault.cause found).message := by
  cases fault <;> rfl

namespace FormResult

/-- How a result comes out if a semicolon at `l`, which is all of its line, is behind the input:
trees are the same, and so are errors, but for a failure at the end of the input, which now finds
the semicolon. -/
inductive CutOffAt (l : Location) : FormResult → FormResult → Prop where
  | ok (kind : FormKind) (n : Node) : CutOffAt l ⟨kind, .ok n⟩ ⟨kind, .ok n⟩
  | error (kind : FormKind) {f f' : Failure} : f.token.token.lexeme ≠ .endOfInput →
    f'.fault = f.fault → f'.diagnostic = f.diagnostic →
      CutOffAt l ⟨kind, .error f⟩ ⟨kind, .error f'⟩
  | ending (kind : FormKind) {f f' : Failure} : f.token.token.lexeme = .endOfInput →
    f'.fault = f.fault → f'.diagnostic.message = f.diagnostic.message →
    f'.diagnostic = ⟨f.fault.cause (.char ';'), some l, some ";"⟩ →
      CutOffAt l ⟨kind, .error f⟩ ⟨kind, .error f'⟩

/-- How a result comes out if so many lines are in front of the input. -/
inductive MovedDown (n : Nat) : FormResult → FormResult → Prop where
  | ok (kind : FormKind) (e : Node) :
    MovedDown n ⟨kind, .ok e⟩ ⟨kind, .ok (e.relocate (Location.down n))⟩
  | error (kind : FormKind) {f f' : Failure} : f'.fault = f.fault →
    f'.diagnostic = { f.diagnostic with location := some (f.location.down n) } →
      MovedDown n ⟨kind, .error f⟩ ⟨kind, .error f'⟩

variable {r r' : FormResult} {l : Location} {n : Nat}

theorem CutOffAt.failure? (h : r.CutOffAt l r') : r'.failure?.isSome = r.failure?.isSome := by
  cases h <;> rfl

theorem MovedDown.failure? (h : r.MovedDown n r') : r'.failure?.isSome = r.failure?.isSome := by
  cases h <;> rfl

theorem Alike.cutOffAt {s : Scanned} (h : r.Alike (Scanned.Placed id) id r')
    (hs : s.token = ⟨.char ';', l⟩) (hl : s.sourceLine = some ";") :
    r.CutOffAt l (r'.cutOffBy s) := by
  obtain ⟨kind, outcome⟩ := r
  obtain ⟨kind', outcome'⟩ := r'
  obtain ⟨rfl, hr⟩ := h
  cases hr with
  | ok n =>
    rw [Node.relocate_id]
    exact .ok _ n
  | @error f f' hfault ht =>
    have hlexeme := ht.lexeme
    simp only [cutOffBy, Except.mapError]
    by_cases hend : f.token.token.lexeme = .endOfInput
    · rw [if_pos (hlexeme.trans hend)]
      have hd : (⟨f'.fault, s⟩ : Failure).diagnostic =
          ⟨f.fault.cause (.char ';'), some l, some ";"⟩ := by
        rw [Failure.diagnostic, Failure.location, hs, hl, hfault]
      exact .ending _ hend hfault (by rw [hd]; exact f.fault.message_cause _ _) hd
    · rw [if_neg (by rwa [hlexeme])]
      exact .error _ hend hfault (Failure.diagnostic_of_placed hfault ht)

theorem Alike.movedDown (h : r.Alike (Scanned.Placed (Location.down n)) (Location.down n) r') :
    r.MovedDown n r' := by
  obtain ⟨kind, outcome⟩ := r
  obtain ⟨kind', outcome'⟩ := r'
  obtain ⟨rfl, hr⟩ := h
  cases hr with
  | ok e => exact .ok _ e
  | error hfault ht => exact .error _ hfault (Failure.diagnostic_of_placed hfault ht)

/-- As many forms fail as do elsewhere. -/
theorem length_failures {P : FormResult → FormResult → Prop}
    (hP : ∀ {r r'}, P r r' → r'.failure?.isSome = r.failure?.isSome) {rs rs' : List FormResult}
    (h : List.Forall₂ P rs rs') :
    (rs'.filterMap failure?).length = (rs.filterMap failure?).length := by
  induction h with
  | nil => rfl
  | @cons r r' rs rs' hr _ ih =>
    have hs := hP hr
    rw [List.filterMap_cons, List.filterMap_cons]
    cases hf : r.failure? with
    | none =>
      rw [hf, Option.isSome_none, Option.isSome_eq_false_iff, Option.isNone_iff_eq_none] at hs
      rw [hs, ih]
    | some f =>
      rw [hf, Option.isSome_some] at hs
      obtain ⟨f', hf'⟩ := Option.isSome_iff_exists.1 hs
      rw [hf', List.length_cons, List.length_cons, ih]

end FormResult

namespace Upcoming

open Scanner

/-- Two texts with a semicolon between them are scanned as the first, the semicolon and the second,
which is further down. -/
theorem exists_followedBy (file first more : String) :
    ∃ u s v, ofSource file (.ofString (first ++ "\n;\n" ++ more)) = followedBy u s v ∧
      (ofSource file (.ofString first)).Paired (Scanned.Placed id) u ∧
      (ofSource file (.ofString more)).Paired
        (Scanned.Placed (Location.down (first.toList.count '\n' + 2))) v ∧
      s.token = ⟨.char ';', ⟨file, first.toList.count '\n' + 2, 1⟩⟩ ∧
      s.sourceLine = some ";" := by
  have htext : (first ++ "\n;\n" ++ more).toList = terminated first.toList ++ more.toList := by
    rw [String.toList_append, String.toList_append]
    rfl
  obtain ⟨us, s, vs, htokens, hus, hvs, hs⟩ := tokens_terminated file first.toList more.toList
  have hlast := ending_placed_terminated file first.toList more.toList
  rw [← htext, ← ofString_tokens] at htokens
  rw [← htext, ← ofString_last, ← ofString_last] at hlast
  rw [← ofString_tokens] at hus hvs
  exact ⟨(ofSource file (.ofString first)).withTokens us, s,
    (ofSource file (.ofString (first ++ "\n;\n" ++ more))).withTokens vs,
    congrArg (withTokens _) htokens, ⟨hus, rfl, rfl⟩, ⟨hvs, hlast⟩, hs⟩

end Upcoming

namespace Parser

/-- The forms of two texts with a semicolon between them. -/
theorem start_forms_resume (R : Rules) (file first more : String) :
    ∃ rs rs', (start R file (.ofString (first ++ "\n;\n" ++ more))).prime.forms = rs ++ rs' ∧
      List.Forall₂ (FormResult.CutOffAt ⟨file, first.toList.count '\n' + 2, 1⟩)
        (start R file (.ofString first)).prime.forms rs ∧
      List.Forall₂ (FormResult.MovedDown (first.toList.count '\n' + 2))
        (start R file (.ofString more)).prime.forms rs' := by
  obtain ⟨u, s, v, hjoined, hu, hv, hs, hl⟩ := Upcoming.exists_followedBy file first more
  have ho := Upcoming.ofString_ordered file (first ++ "\n;\n" ++ more)
  rw [hjoined] at ho
  have hend : ∀ t ∈ u.tokens, t.token.lexeme ≠ .endOfInput := fun t ht =>
    ho.ne_endOfInput t (List.mem_append_left _ ht)
  have hfirst := forms_alike (p := (start R file (.ofString first)).prime) (R.pairs_placed _) hu
  have hmore := forms_alike (p := (start R file (.ofString more)).prime) (R.pairs_placed _) hv
  have hforms := forms_followedBy (p := { (start R file (.ofString first)).prime with
    upcoming := u }) (v := v) (by rw [hs]) hend
  rw [← hjoined] at hforms
  refine ⟨_, _, hforms, ?_, hmore.imp fun _ _ h => h.movedDown⟩
  exact List.forall₂_map_right_iff.2 (hfirst.imp fun _ _ h => h.cutOffAt hs hl)

end Parser

namespace Session

/-- The results of two texts with a semicolon on a line of its own between them are those of the
first, where a form that is cut off finds the semicolon instead of the end, and those of the second,
which is so many lines further down. -/
def Resumes (R : Rules) (maxErrors : Int) (file first more : String) : Prop :=
  ∃ rs rs', (start R maxErrors file (.ofString (first ++ "\n;\n" ++ more))).results = rs ++ rs' ∧
    List.Forall₂ (FormResult.CutOffAt ⟨file, first.toList.count '\n' + 2, 1⟩)
      (start R maxErrors file (.ofString first)).results rs ∧
    List.Forall₂ (FormResult.MovedDown (first.toList.count '\n' + 2))
      (start R maxErrors file (.ofString more)).results rs'

/-- Unless it stops because of errors, a run resumes behind a semicolon, whatever comes before. -/
theorem start_resumes {R : Rules} {maxErrors : Int} {file first more : String}
    (h : (start R maxErrors file
      (.ofString (first ++ "\n;\n" ++ more))).drain.2.collector.shouldStop = false) :
    Resumes R maxErrors file first more := by
  have ho := Upcoming.ofString_ordered file
  obtain ⟨rs, rs', hforms, hfirst, hmore⟩ := Parser.start_forms_resume R file first more
  -- as many forms fail as do in the two texts, so neither of the two runs is stopped
  have hcount := (start_shouldStop_iff (ho _)).1 h
  rw [hforms, List.filterMap_append, List.length_append,
    FormResult.length_failures FormResult.CutOffAt.failure? hfirst,
    FormResult.length_failures FormResult.MovedDown.failure? hmore] at hcount
  have hstop : (start R maxErrors file (.ofString first)).drain.2.collector.shouldStop = false :=
    (start_shouldStop_iff (ho _)).2 (by omega)
  have hstop' : (start R maxErrors file (.ofString more)).drain.2.collector.shouldStop = false :=
    (start_shouldStop_iff (ho _)).2 (by omega)
  refine ⟨rs, rs', ?_, ?_, ?_⟩
  · rw [start_results_eq_forms (ho _) h, hforms]
  · rwa [start_results_eq_forms (ho _) hstop]
  · rwa [start_results_eq_forms (ho _) hstop']

/-- Behind a call that is cut off in a comment, a stray parenthesis and an expression are read as
they are alone. -/
theorem resumes_behind_open_call :
    (start ⟨.standard, 256, true⟩ 3 "p"
      (.ofString ("f(1, # 2" ++ "\n;\n" ++ ") x"))).drain.2.collector.shouldStop = false ∧
      Resumes ⟨.standard, 256, true⟩ 3 "p" "f(1, # 2" ") x" := by
  have h : (start ⟨.standard, 256, true⟩ 3 "p"
      (.ofString ("f(1, # 2" ++ "\n;\n" ++ ") x"))).drain.2.collector.shouldStop = false := by
    decide +kernel
  exact ⟨h, start_resumes h⟩

end Session

end OperatorGrammar
