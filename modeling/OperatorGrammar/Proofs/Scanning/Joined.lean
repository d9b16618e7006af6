import OperatorGrammar.Proofs.Relocation
import OperatorGrammar.Proofs.Scanning.Window

/-!
The words of a text behind a line break. No word and no comment goes on behind a line feed, so what
stands in front of one is cut into words as it is alone, and so is what stands behind it. Places
behind it are so many lines further down. Main statements: `Scanner.cuts_append_lineFeed`,
`Scanner.tokensToEnd_append_lineFeed` and `Scanner.tokens_terminated`.
-/

namespace OperatorGrammar

/-- A place so many lines further down. -/
def Location.down (n : Nat) (l : Location) : Location := { l with line := l.line + n }

theorem Location.behind_append_lineFeed (file : String) (text more : List Char) :
    behind file (text ++ '\n' :: more) = (behind file more).down (text.count '\n' + 1) := by
  have hline : lineBehind (text ++ '\n' :: more) =
      lineBehind more + (text.count '\n' + 1) := by
    simp only [lineBehind, List.count_append, List.count_cons_self]
    omega
  simp only [behind, down, hline, columnBehind_eq, lastLine_append_lineFeed]
  push_cast
  rfl

namespace Scanner

/-! ## Words in front of a line feed and behind it -/

theorem takeWhile_append_lineFeed {p : Char → Bool} (h : p '\n' = false) (text more : List Char) :
    (text ++ '\n' :: more).takeWhile p = text.takeWhile p := by
  rw [List.takeWhile_append]
  split
  · rename_i hlen
    rw [List.takeWhile_cons, h, if_neg Bool.false_ne_true, List.append_nil,
      (List.takeWhile_prefix p).eq_of_length hlen]
  · rfl

theorem wordOf_append_lineFeed {text : List Char} (h : text ≠ []) (more : List Char) :
    wordOf (text ++ '\n' :: more) = wordOf text := by
  obtain ⟨c, cs, rfl⟩ := List.exists_cons_of_ne_nil h
  have hword := takeWhile_append_lineFeed (p := isLetterOrDigit) (by decide) (c :: cs) more
  have hnumber := takeWhile_append_lineFeed (p := isDigitOrPoint) (by decide) (c :: cs) more
  rw [List.cons_append] at *
  simp only [wordOf, hword, hnumber]

/-- A comment ends at a line feed, and layout goes on behind one. -/
theorem layoutOf_append_lineFeed {inComment : Bool} {text : List Char}
    (h : layoutOf inComment text = text) (more : List Char) :
    layoutOf inComment (text ++ '\n' :: more) = text ++ '\n' :: layoutOf false more := by
  induction text generalizing inComment with
  | nil => cases inComment <;> rfl
  | cons c cs ih =>
    rw [List.cons_append, layoutOf]
    rw [layoutOf] at h
    split_ifs at h ⊢
    all_goals
      obtain ⟨-, h⟩ := List.cons.inj h
      rw [ih h, List.cons_append]

/-- Layout that ends in front of a word ends there, whatever comes behind. -/
theorem layoutOf_append_of_ne {inComment : Bool} {text : List Char}
    (h : layoutOf inComment text ≠ text) (more : List Char) :
    layoutOf inComment (text ++ more) = layoutOf inComment text := by
  induction text generalizing inComment with
  | nil => exact absurd rfl h
  | cons c cs ih =>
    rw [List.cons_append, layoutOf, layoutOf]
    rw [layoutOf] at h
    split_ifs at h ⊢
    all_goals first
      | rfl
      | rw [ih fun he => h (by rw [he])]

theorem cuts_of_layout {rest : List Char} (h : layoutOf false rest = rest) (before : List Char) :
    cuts before rest = [] := by
  rw [cuts]
  exact if_pos (by rw [h, List.drop_length])

@[simp] theorem cuts_nil (before : List Char) : cuts before [] = [] := cuts_of_layout rfl before

theorem cuts_of_word {layout text : List Char} (h : layoutOf false (layout ++ text) = layout)
    (hne : text ≠ []) (before : List Char) :
    cuts before (layout ++ text) = ⟨before ++ layout, wordOf text⟩ ::
      cuts (before ++ layout ++ wordOf text) (text.drop (wordOf text).length) := by
  rw [cuts]
  simp only [h, List.drop_left]
  exact if_neg hne

/-- A text is all layout, or layout with a word behind it. -/
theorem layoutOf_cases (rest : List Char) :
    layoutOf false rest = rest ∨ ∃ layout text, rest = layout ++ text ∧ text ≠ [] ∧
      layoutOf false (layout ++ text) = layout := by
  have h := layoutOf_append_drop false rest
  by_cases hnil : rest.drop (layoutOf false rest).length = []
  · rw [hnil, List.append_nil] at h
    exact .inl h
  · exact .inr ⟨_, _, h.symm, hnil, by rw [h]⟩

/-- What holds of layout, and of a text if it holds of what is behind its first word, holds of every
text. -/
@[elab_as_elim]
theorem cuts_induction {motive : List Char → List Char → Prop}
    (layout : ∀ before rest, layoutOf false rest = rest → motive before rest)
    (word : ∀ before layout text, layoutOf false (layout ++ text) = layout → text ≠ [] →
      motive (before ++ layout ++ wordOf text) (text.drop (wordOf text).length) →
        motive before (layout ++ text))
    (before rest : List Char) : motive before rest := by
  induction hn : rest.length using Nat.strongRecOn generalizing before rest with
  | ind n ih =>
    rcases layoutOf_cases rest with hall | ⟨layout, text, rfl, hne, hl⟩
    · exact layout before rest hall
    · refine word before layout text hl hne (ih _ ?_ _ _ rfl)
      have hw := List.length_pos_iff.2 (wordOf_ne_nil hne)
      have ht := List.length_pos_iff.2 hne
      rw [← hn, List.length_drop, List.length_append]
      omega

/-- The words in front of a line feed are cut out as if nothing came behind it, and those behind it
as if it were all that comes before them. -/
theorem cuts_append_lineFeed (before rest more : List Char) :
    cuts before (rest ++ '\n' :: more) =
      cuts before rest ++ cuts (before ++ rest ++ ['\n']) more := by
  induction before, rest using cuts_induction with
  | layout before rest hall =>
    have hlayout := layoutOf_append_lineFeed hall more
    rw [cuts_of_layout hall, List.nil_append]
    rcases layoutOf_cases more with hmore | ⟨layout, text, rfl, hne, hl⟩
    · rw [hmore] at hlayout
      rw [cuts_of_layout hlayout, cuts_of_layout hmore]
    · rw [hl] at hlayout
      rw [← List.cons_append, ← List.append_assoc] at hlayout
      have hword := cuts_of_word hlayout hne before
      rw [cuts_of_word hl hne]
      simpa using hword
  | word before layout text hl hne ih =>
    have hlayout : layoutOf false (layout ++ (text ++ '\n' :: more)) = layout := by
      rw [← List.append_assoc, layoutOf_append_of_ne, hl]
      rw [hl]
      simpa using hne
    have hdrop : (text ++ '\n' :: more).drop (wordOf text).length =
        text.drop (wordOf text).length ++ '\n' :: more :=
      List.drop_append_of_le_length (List.IsPrefix.length_le ⟨_, wordOf_append_drop text⟩)
    have hrest : before ++ layout ++ wordOf text ++ text.drop (wordOf text).length =
        before ++ (layout ++ text) := by
      rw [List.append_assoc, wordOf_append_drop, List.append_assoc]
    rw [List.append_assoc, cuts_of_word hlayout (by simp), cuts_of_word hl hne,
      wordOf_append_lineFeed hne, hdrop, ih, hrest, List.cons_append]

/-- A cut of a text, with more in front of the text. -/
def Cut.behind (first : List Char) (c : Cut) : Cut := { c with before := first ++ c.before }

theorem cuts_behind (first before rest : List Char) :
    cuts (first ++ before) rest = (cuts before rest).map (Cut.behind first) := by
  induction before, rest using cuts_induction with
  | layout before rest hall => rw [cuts_of_layout hall, cuts_of_layout hall, List.map_nil]
  | word before layout text hl hne ih =>
    rw [cuts_of_word hl hne, cuts_of_word hl hne, List.map_cons, ← ih]
    simp [Cut.behind]

/-! ## A line break -/

/-- A word behind a line feed is the token that it is alone, further down. -/
theorem Cut.token_behind (file : String) (text : List Char) (c : Cut) :
    (c.behind (text ++ ['\n'])).token file =
      (c.token file).relocate (Location.down (text.count '\n' + 1)) := by
  rw [token, behind, List.append_assoc, List.singleton_append, Location.behind_append_lineFeed]
  rfl

/-- The tokens of two texts with a line feed between them are those of the first, but for the end of
the input, and behind them those of the second, in the same columns and so many lines further
down. -/
theorem tokensToEnd_append_lineFeed (file a b : String) :
    ∃ ts last, (start file (.ofString a)).tokensToEnd.1 = ts ++ [last] ∧
      last.lexeme = .endOfInput ∧ (∀ t ∈ ts, t.lexeme ≠ .endOfInput) ∧
      (start file (.ofString (a ++ "\n" ++ b))).tokensToEnd.1 =
        ts ++ (start file (.ofString b)).tokensToEnd.1.map
          (Token.relocate (Location.down (a.toList.count '\n' + 1))) := by
  have htext : (a ++ "\n" ++ b).toList = a.toList ++ '\n' :: b.toList := by simp
  have hcuts := cuts_append_lineFeed [] a.toList b.toList
  rw [List.nil_append, ← List.append_nil (a.toList ++ ['\n']), cuts_behind] at hcuts
  have hbehind : ((cuts [] b.toList).map (Cut.behind (a.toList ++ ['\n']))).map (·.token file) =
      ((cuts [] b.toList).map (·.token file)).map
        (Token.relocate (Location.down (a.toList.count '\n' + 1))) := by
    rw [List.map_map, List.map_map]
    exact List.map_congr_left fun c _ => c.token_behind file a.toList
  refine ⟨(cuts [] a.toList).map (·.token file), _, tokensToEnd_ofString file a, rfl, ?_, ?_⟩
  · intro t ht
    obtain ⟨c, hc, rfl⟩ := List.mem_map.1 ht
    exact lexemeOf_ne_endOfInput (mem_cuts c hc).nonempty
  · rw [tokensToEnd_ofString, tokensToEnd_ofString, htext, hcuts, List.map_append, List.map_append,
      hbehind, Location.behind_append_lineFeed, List.append_assoc]
    rfl

/-! ## A semicolon on a line of its own -/

/-- A text with a semicolon on a line of its own behind it. -/
def terminated (text : List Char) : List Char := text ++ ['\n', ';', '\n']

/-- The semicolon behind a text. -/
def terminator (text : List Char) : Cut := ⟨text ++ ['\n'], [';']⟩

theorem terminated_append (text more : List Char) :
    terminated text ++ more = text ++ '\n' :: ';' :: '\n' :: more := by
  simp [terminated]

theorem terminated_append_eq (text more : List Char) :
    terminated text ++ more = (terminator text).upTo ++ '\n' :: more := by
  simp [terminated, terminator, Cut.upTo]

theorem cuts_terminated (text more : List Char) :
    cuts [] (terminated text ++ more) = cuts [] text ++
      terminator text :: (cuts [] more).map (Cut.behind (terminated text)) := by
  have hword : wordOf (';' :: '\n' :: more) = [';'] := rfl
  have hsemicolon := cuts_of_word
    (show layoutOf false ([] ++ ';' :: '\n' :: more) = [] from rfl) (by simp) (text ++ ['\n'])
  have hbehind := cuts_append_lineFeed (text ++ ['\n', ';']) [] more
  rw [cuts_nil, List.nil_append, List.nil_append] at hbehind
  rw [hword] at hsemicolon
  rw [terminated_append, cuts_append_lineFeed, ← cuts_behind]
  simpa [hbehind, terminator, terminated] using hsemicolon

variable {text more : List Char} {c : Cut}

/-- A word in front of the semicolon is scanned as it is alone. -/
theorem Cut.placed_terminated (file : String) (h : c ∈ cuts [] text) (more : List Char) :
    (c.scanned file text).Placed id (c.scanned file (terminated text ++ more)) := by
  have hmem : c ∈ cuts [] (terminated text ++ more) := by
    rw [cuts_terminated]
    exact List.mem_append_left _ h
  refine ⟨rfl, ?_⟩
  rw [c.sourceLine_scanned file h, c.sourceLine_scanned file hmem]
  obtain ⟨rest, hrest⟩ := (mem_cuts c h).within
  rw [List.nil_append] at hrest
  -- the character behind the word is the same, or there is none and the line ends
  simp only [Cut.line, terminated_append, ← hrest, List.append_assoc, List.drop_left]
  cases rest <;> rfl

theorem behind_terminated (file : String) (text more : List Char) :
    Location.behind file (terminated text ++ more) =
      (Location.behind file more).down (text.count '\n' + 2) := by
  rw [terminated_append_eq, Location.behind_append_lineFeed]
  simp [terminator, Cut.upTo]

theorem lastLine_terminated (text more : List Char) :
    lastLine (terminated text ++ more) = lastLine more := by
  rw [terminated_append_eq, lastLine_append_lineFeed]

/-- A word behind the semicolon is scanned as it is alone, further down. -/
theorem Cut.behind_placed_terminated (file : String) (text : List Char) (h : c ∈ cuts [] more) :
    (c.scanned file more).Placed (Location.down (text.count '\n' + 2))
      ((c.behind (terminated text)).scanned file (terminated text ++ more)) := by
  have hmem : c.behind (terminated text) ∈ cuts [] (terminated text ++ more) := by
    rw [cuts_terminated]
    exact List.mem_append_right _ (List.mem_cons_of_mem _ (List.mem_map_of_mem h))
  have hline : (c.behind (terminated text)).line (terminated text ++ more) = c.line more := by
    have hlength : (c.behind (terminated text)).upTo.length =
        (terminated text).length + c.upTo.length := by
      simp [Cut.behind, Cut.upTo]
    rw [Cut.line, Cut.line, hlength, List.drop_length_add_append, Cut.behind, lastLine_terminated]
  constructor
  · show Token.mk (lexemeOf c.word) (Location.behind file (terminated text ++ c.before)) = _
    rw [behind_terminated]
    rfl
  · rw [c.sourceLine_scanned file h, Cut.sourceLine_scanned file hmem, hline]

theorem ending_placed_terminated (file : String) (text more : List Char) :
    (ending file more).Placed (Location.down (text.count '\n' + 2))
      (ending file (terminated text ++ more)) := by
  constructor
  · show Token.mk .endOfInput (Location.behind file (terminated text ++ more)) = _
    rw [behind_terminated]
    rfl
  · rw [sourceLine_ending, sourceLine_ending, lastLine_terminated]

/-- The semicolon is all of its line. -/
theorem scanned_terminator (file : String) (text more : List Char) :
    ((terminator text).scanned file (terminated text ++ more)).token =
        ⟨.char ';', ⟨file, text.count '\n' + 2, 1⟩⟩ ∧
      ((terminator text).scanned file (terminated text ++ more)).sourceLine = some ";" := by
  have hmem : terminator text ∈ cuts [] (terminated text ++ more) := by
    rw [cuts_terminated]
    exact List.mem_append_right _ List.mem_cons_self
  constructor
  · show Token.mk (.char ';') (Location.behind file (text ++ ['\n'])) = _
    rw [Location.behind_append_lineFeed]
    simp [Location.behind, Location.down, lineBehind, columnBehind]
    omega
  · rw [Cut.sourceLine_scanned file hmem, Cut.line, terminated_append_eq, List.drop_left,
      terminator, lastLine_concat_lineFeed]
    rfl

/-- The tokens in front of the semicolon and those behind it are those of the two texts. -/
theorem tokens_terminated (file : String) (text more : List Char) :
    ∃ us s vs, (cuts [] (terminated text ++ more)).map
          (·.scanned file (terminated text ++ more)) = us ++ s :: vs ∧
      List.Forall₂ (Scanned.Placed id) ((cuts [] text).map (·.scanned file text)) us ∧
      List.Forall₂ (Scanned.Placed (Location.down (text.count '\n' + 2)))
        ((cuts [] more).map (·.scanned file more)) vs ∧
      s.token = ⟨.char ';', ⟨file, text.count '\n' + 2, 1⟩⟩ ∧ s.sourceLine = some ";" := by
  rw [cuts_terminated, List.map_append, List.map_cons, List.map_map]
  refine ⟨_, _, _, rfl, ?_, ?_, scanned_terminator file text more⟩
  all_goals rw [List.forall₂_map_left_iff, List.forall₂_map_right_iff, List.forall₂_same]
  · exact fun c hc => c.placed_terminated file hc more
  · exact fun c hc => c.behind_placed_terminated file text hc

end Scanner

end OperatorGrammar
