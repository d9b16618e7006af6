import OperatorGrammar.Proofs.Scanning.Window
import OperatorGrammar.Proofs.Turn.Forms

/-!
Where the caret of a diagnostic stands. A column counts every character of the line, but the line
that is quoted has no carriage returns. So the caret stands behind the character that shows the
fault, by as many columns as there are carriage returns in front of it on its line. Main statement:
`Session.start_pointsOut`.
-/

namespace OperatorGrammar

namespace Diagnostic

/-- A diagnostic with a place and a line quotes the line, with the caret below it. -/
theorem lines_of_excerpt {d : Diagnostic} {l : Location} {line : String} (hl : d.location = some l)
    (hs : d.sourceLine = some line) (hc : 0 < l.column) :
    ∃ header advice, d.lines = header :: ("    " ++ line) ::
      String.ofList (List.replicate (l.column.toNat + 3) ' ' ++ ['^']) :: advice := by
  simp only [lines, hl, hs, excerpt, if_pos hc]
  exact ⟨_, _, rfl⟩

end Diagnostic

namespace Failure

/-- How the diagnostic of a failure quotes the source. The character that shows the fault is at an
offset in the line, and the caret stands some columns behind it. -/
structure Excerpt (f : Failure) (line : String) (offset shift : Nat) : Prop where
  quoted : f.diagnostic.sourceLine = some line
  column : f.location.column = offset + shift + 1
  /-- The character is the first one of the token that shows the fault. -/
  character : f.token.token.lexeme ≠ .endOfInput →
    ∃ c, f.token.token.lexeme.text.toList.head? = some c ∧ line.toList[offset]? = some c
  /-- The end of the input is shown behind the line. -/
  ending : f.token.token.lexeme = .endOfInput → offset = line.length
  /-- The line is moved in by four columns, and the caret is below it. -/
  caret : ∃ header advice, f.diagnostic.lines = header :: ("    " ++ line) ::
    String.ofList (List.replicate (offset + shift + 4) ' ' ++ ['^']) :: advice

variable {f : Failure} {file : String} {text before : List Char} {line : String}

/-- A failure quotes what is known of the line that its token is on. -/
theorem excerpt_of_sourceLine (hl : f.location = .behind file before)
    (hs : f.token.sourceLine = some line)
    (hc : f.token.token.lexeme ≠ .endOfInput → ∃ c,
      f.token.token.lexeme.text.toList.head? = some c ∧
        line.toList[(quoted (lastLine before)).length]? = some c)
    (he : f.token.token.lexeme = .endOfInput → (quoted (lastLine before)).length = line.length) :
    f.Excerpt line (quoted (lastLine before)).length ((lastLine before).count '\r') := by
  have hcolumn : f.location.column =
      ((quoted (lastLine before)).length + (lastLine before).count '\r' + 1 : Nat) := by
    rw [hl, length_quoted_add_count, Nat.add_comm, ← columnBehind_eq]
    rfl
  obtain ⟨header, advice, hlines⟩ :=
    Diagnostic.lines_of_excerpt (d := f.diagnostic) rfl hs (by omega)
  refine ⟨hs, by rw [hcolumn]; push_cast; rfl, hc, he, header, advice, ?_⟩
  rw [hlines, hcolumn, Int.toNat_natCast]

end Failure

namespace Scanner

variable {f : Failure} {file : String} {text : List Char}

/-- A failure at a word has the word behind what is quoted of the line in front of it. -/
theorem Cut.exists_excerpt {c : Cut} (h : c ∈ cuts [] text) (hf : f.token = c.scanned file text) :
    ∃ line offset, f.Excerpt line offset ((f.location.lineUpTo text).count '\r') := by
  obtain ⟨-, ⟨rest, hrest⟩, hne, htext⟩ := mem_cuts c h
  obtain ⟨d, ds, hd⟩ := List.exists_cons_of_ne_nil hne
  have hl : f.location = .behind file c.before := by
    rw [Failure.location, hf]
    rfl
  have hlexeme : f.token.token.lexeme.text.toList = c.word := by
    rw [hf, ← String.toList_ofList (l := c.word), ← htext]
    rfl
  -- a word starts with no blank, so its first character is quoted
  have hquoted : d ≠ '\r' := by
    rintro rfl
    exact absurd (not_isBlank_of_mem_cuts h '\r' (by simp [hd])) (by decide)
  have hup : (f.location.lineUpTo text) = lastLine c.before := by
    rw [hl, ← List.nil_append text, ← hrest, Cut.upTo, List.append_assoc,
      Location.lineUpTo_behind]
  rw [hup]
  refine ⟨_, _, Failure.excerpt_of_sourceLine hl (hf ▸ c.sourceLine_scanned file h) ?_ ?_⟩
  · intro _
    refine ⟨d, by rw [hlexeme, hd]; rfl, ?_⟩
    rw [String.toList_ofList, Cut.line, List.append_assoc, quoted_append, hd, List.cons_append,
      quoted_cons hquoted, List.getElem?_append_right (Nat.le_refl _), Nat.sub_self]
    rfl
  · intro he
    rw [hf] at he
    exact absurd he (lexemeOf_ne_endOfInput hne)

/-- A failure at the end of the input has the caret behind what is quoted of the last line. -/
theorem exists_excerpt_ending (hf : f.token = ending file text) :
    ∃ line offset, f.Excerpt line offset ((f.location.lineUpTo text).count '\r') := by
  have hl : f.location = .behind file text := by
    rw [Failure.location, hf]
    rfl
  have hup : f.location.lineUpTo text = lastLine text := by
    rw [hl]
    simpa using Location.lineUpTo_behind file text []
  rw [hup]
  refine ⟨_, _, Failure.excerpt_of_sourceLine hl (hf ▸ sourceLine_ending file text) ?_ ?_⟩
  · intro he
    rw [hf] at he
    exact absurd rfl he
  · intro _
    simp

end Scanner

namespace Session

/-- Each failure of a run quotes the line of the token that shows it, with the caret behind that
token's first character by the number of carriage returns in front of it on the line. -/
def PointsOut (s : Session) (text : List Char) : Prop :=
  ∀ r ∈ s.results, ∀ f, r.outcome = .error f →
    ∃ line offset, f.Excerpt line offset ((f.location.lineUpTo text).count '\r')

/-- Every failure of every run on a text is shown where it is, but for carriage returns. -/
theorem start_pointsOut (R : Rules) (maxErrors : Int) (file text : String) :
    (start R maxErrors file (.ofString text)).PointsOut text.toList := by
  intro r hr f hf
  obtain ⟨hmem, -⟩ := start_failure (Upcoming.ofString_ordered file text) hr hf
  rw [Upcoming.toList, Upcoming.ofString_tokens, Upcoming.ofString_last, List.mem_append] at hmem
  rcases hmem with hmem | hmem
  · obtain ⟨c, hc, hcf⟩ := List.mem_map.1 hmem
    exact c.exists_excerpt hc hcf.symm
  · exact Scanner.exists_excerpt_ending (List.mem_singleton.1 hmem)

/-- A carriage return in front of a parenthesis that closes nothing moves the caret off it. -/
theorem caret_moved_by_return :
    ¬ ∀ r ∈ (start ⟨.standard, 256, true⟩ 100 "<input>" (.ofString "\r)")).results, ∀ f,
      r.outcome = .error f → ∃ line offset, f.Excerpt line offset 0 := by
  have hfailures : ((start ⟨.standard, 256, true⟩ 100 "<input>"
      (.ofString "\r)")).results.filterMap FormResult.failure?).map
        (fun f => (f.token.token.lexeme, f.location.column, f.token.sourceLine)) =
      [(.char ')', 2, some ")")] := by
    decide +kernel
  obtain ⟨f, hf, hshown⟩ := List.map_eq_singleton_iff.1 hfailures
  obtain ⟨r, hr, hrf⟩ := List.mem_filterMap.1 (hf ▸ List.mem_singleton_self f)
  obtain ⟨hl, hc, hs⟩ : _ ∧ _ ∧ _ := by simpa using hshown
  intro hall
  obtain ⟨line, offset, h⟩ := hall r hr f (FormResult.failure?_eq_some_iff.1 hrf)
  have hline : line = ")" := Option.some.inj (h.quoted.symm.trans hs)
  obtain ⟨c, -, hat⟩ := h.character (by simp [hl])
  have hoffset : offset = 1 := by
    have := h.column
    omega
  rw [hline, hoffset] at hat
  simp at hat

end Session

end OperatorGrammar
