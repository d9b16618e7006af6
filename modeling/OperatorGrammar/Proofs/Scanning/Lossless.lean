import OperatorGrammar.Proofs.Scanning.Layout

/-!
Scanning loses nothing. The words of a text lie apart from each other and in order, each of them is
as long as it can be, and between them there is nothing but blanks and comments. Main statement:
`Scanner.tokensToEnd_lossless`.
-/

namespace OperatorGrammar

namespace Scanner

/-- An offset lies in a word. -/
def Cut.Covers (c : Cut) (i : Nat) : Prop := c.before.length ≤ i ∧ i < c.upTo.length

/-- An offset lies in no word. -/
def Outside (cs : List Cut) (i : Nat) : Prop := ∀ c ∈ cs, ¬ c.Covers i

/-- From `k` on up to `i` no line ends. -/
def SameLine (text : List Char) (k i : Nat) : Prop :=
  ∀ j, k ≤ j → j ≤ i → ∀ d ∈ text[j]?, endsComment d = false

/-- An offset lies in a comment: a number sign in no word stands at or before it on the line. -/
def InComment (text : List Char) (cs : List Cut) (i : Nat) : Prop :=
  ∃ k ≤ i, text[k]? = some '#' ∧ Outside cs k ∧ SameLine text k i

/-- The words account for the whole text. -/
structure Lossless (text : List Char) (cs : List Cut) : Prop where
  /-- Words are not empty, and each stands in the text behind what is said to be before it. -/
  within : ∀ c ∈ cs, c.word ≠ [] ∧ c.upTo <+: text
  /-- Words do not overlap and are in order. -/
  ordered : cs.Pairwise fun c d => c.upTo <+: d.before
  /-- A word cannot be longer, and its class shows in its first character. -/
  munched : ∀ c ∈ cs, Munches (text.drop c.upTo.length) c.word (lexemeOf c.word)
  /-- A token keeps the characters of its word. -/
  kept : ∀ c ∈ cs, (lexemeOf c.word).text = String.ofList c.word
  keywords : ∀ c ∈ cs, (lexemeOf c.word = .define ↔ c.word = ['d', 'e', 'f']) ∧
    (lexemeOf c.word = .external ↔ c.word = ['e', 'x', 't', 'e', 'r', 'n'])
  /-- No word is taken for the end of the input. -/
  ne_endOfInput : ∀ c ∈ cs, lexemeOf c.word ≠ .endOfInput
  /-- What lies in no word is a blank or belongs to a comment. -/
  outside : ∀ i d, text[i]? = some d → Outside cs i → isBlank d = true ∨ InComment text cs i
  /-- A comment goes on up to the end of its line: there is no word in it. -/
  comments : ∀ i d, text[i]? = some d → InComment text cs i → Outside cs i

/-! ## Words -/

theorem all_takeWhile {p : Char → Bool} {text : List Char} :
    ∀ d ∈ text.takeWhile p, p d = true :=
  List.all_eq_true.1 List.all_takeWhile

/-- A run of characters is as long as it can be. -/
theorem ends_takeWhile (p : Char → Bool) (text : List Char) :
    ∀ d ∈ (text.drop (text.takeWhile p).length).head?, p d = false := by
  induction text with
  | nil => simp
  | cons c cs ih =>
    by_cases hc : p c = true
    · simpa [hc] using ih
    · simp [hc]

theorem munches_wordOf {text : List Char} (hne : text ≠ []) (he : EndsLayout text) :
    Munches (text.drop (wordOf text).length) (wordOf text) (lexemeOf (wordOf text)) := by
  obtain ⟨c, cs, rfl⟩ := List.exists_cons_of_ne_nil hne
  obtain ⟨hn, hb⟩ := he c rfl
  by_cases hl : isLetter c = true
  · have hw : wordOf (c :: cs) = c :: cs.takeWhile isLetterOrDigit := by
      simp [wordOf, hl, isLetterOrDigit_of_isLetter hl]
    rw [hw, lexemeOf, if_pos hl, List.length_cons, List.drop_succ_cons]
    exact .word hl all_takeWhile (ends_takeWhile _ cs)
  · by_cases hd : isDigitOrPoint c = true
    · have hw : wordOf (c :: cs) = c :: cs.takeWhile isDigitOrPoint := by
        simp [wordOf, hl, hd]
      rw [hw, lexemeOf, if_neg hl, if_pos hd, List.length_cons, List.drop_succ_cons]
      exact .number hd all_takeWhile (ends_takeWhile _ cs)
    · rw [Bool.not_eq_true] at hl hd
      simpa [wordOf, lexemeOf, hl, hd] using Munches.char hl hd hn hb

/-- Behind layout there is no layout. -/
theorem endsLayout_drop_layoutOf (inComment : Bool) (text : List Char) :
    EndsLayout (text.drop (layoutOf inComment text).length) := by
  induction text generalizing inComment with
  | nil => simp [EndsLayout]
  | cons c cs ih =>
    cases inComment with
    | true => simpa [layoutOf] using ih (!endsComment c)
    | false =>
      by_cases hn : c = '#'
      · simpa [layoutOf, hn] using ih true
      · by_cases hb : isBlank c = true
        · simpa [layoutOf, hn, hb] using ih false
        · simp [layoutOf, hn, hb, EndsLayout]

theorem ofWord_eq_define_iff (w : String) : Lexeme.ofWord w = .define ↔ w = "def" := by
  unfold Lexeme.ofWord
  split
  · simp [*]
  · split <;> simp [*]

theorem ofWord_eq_external_iff (w : String) : Lexeme.ofWord w = .external ↔ w = "extern" := by
  unfold Lexeme.ofWord
  split
  · simp [*]
  · split <;> simp [*]

/-- A word is a keyword only if it is written like one. -/
theorem Munches.keywords {rest word : List Char} {x : Lexeme} (h : Munches rest word x) :
    (x = .define ↔ word = ['d', 'e', 'f']) ∧
      (x = .external ↔ word = ['e', 'x', 't', 'e', 'r', 'n']) := by
  cases h with
  | word hc hcs hr =>
    rw [ofWord_eq_define_iff, ofWord_eq_external_iff, ← String.toList_inj, ← String.toList_inj,
      String.toList_ofList]
    exact ⟨Iff.rfl, Iff.rfl⟩
  | number hc hcs hr =>
    -- a keyword starts with a letter, which is no digit
    refine ⟨⟨nofun, ?_⟩, ⟨nofun, ?_⟩⟩ <;>
    · intro hw
      obtain ⟨rfl, -⟩ := List.cons.inj hw
      exact absurd hc (by decide)
  | char hl hd hn hb => exact ⟨⟨nofun, nofun⟩, ⟨nofun, nofun⟩⟩

/-! ## What lies between words -/

theorem isBlank_of_endsComment {c : Char} (h : endsComment c = true) : isBlank c = true := by
  simp only [endsComment, Bool.or_eq_true, beq_iff_eq] at h
  rcases h with rfl | rfl <;> decide

theorem sameLine_cons {c : Char} {cs : List Char} {k i : Nat} :
    SameLine (c :: cs) (k + 1) (i + 1) ↔ SameLine cs k i := by
  constructor
  · intro h j hk hi d hd
    exact h (j + 1) (by omega) (by omega) d (by simpa using hd)
  · intro h j hk hi d hd
    obtain ⟨j, rfl⟩ : ∃ j', j = j' + 1 := ⟨j - 1, by omega⟩
    exact h j (by omega) (by omega) d (by simpa using hd)

/-- A line that goes on from the first character to another goes on from there. -/
theorem sameLine_zero_cons {c : Char} {cs : List Char} {i : Nat} :
    SameLine (c :: cs) 0 (i + 1) ↔ endsComment c = false ∧ SameLine cs 0 i := by
  constructor
  · intro h
    refine ⟨h 0 (Nat.le_refl 0) (Nat.zero_le _) c rfl, ?_⟩
    exact sameLine_cons.1 fun j hk hi => h j (Nat.zero_le j) hi
  · rintro ⟨hc, h⟩ j - hi d hd
    cases j with
    | zero =>
      obtain rfl : c = d := by simpa using hd
      exact hc
    | succ j => exact h j (Nat.zero_le j) (by omega) d (by simpa using hd)

/-- A character of layout is a blank, or the comment that the layout starts in goes on to it, or
there is a number sign at or before it on the line. -/
theorem getElem?_layoutOf {inComment : Bool} {text : List Char} {i : Nat} {d : Char}
    (h : (layoutOf inComment text)[i]? = some d) :
    isBlank d = true ∨ (inComment = true ∧ SameLine text 0 i) ∨
      ∃ k ≤ i, text[k]? = some '#' ∧ SameLine text k i := by
  induction text generalizing inComment i with
  | nil => simp [layoutOf] at h
  | cons c cs ih =>
    -- what is known of the rest of the layout, said of the whole
    have later : ∀ {b : Bool} {i : Nat}, (layoutOf b cs)[i]? = some d →
        isBlank d = true ∨ (b = true ∧ SameLine cs 0 i) ∨
          ∃ k ≤ i + 1, (c :: cs)[k]? = some '#' ∧ SameLine (c :: cs) k (i + 1) := by
      intro b i h
      rcases ih h with hd | hs | ⟨k, hk, ht, hs⟩
      · exact .inl hd
      · exact .inr (.inl hs)
      · exact .inr (.inr ⟨k + 1, by omega, by simpa using ht, sameLine_cons.2 hs⟩)
    have first : ∀ {e : Char}, endsComment e = false → SameLine (e :: cs) 0 0 := by
      intro e he j _ hj x hx
      obtain rfl : j = 0 := by omega
      obtain rfl : e = x := by simpa using hx
      exact he
    cases inComment with
    | true =>
      rw [layoutOf, if_pos rfl] at h
      cases i with
      | zero =>
        obtain rfl : c = d := by simpa using h
        by_cases he : endsComment c = true
        · exact .inl (isBlank_of_endsComment he)
        · exact .inr (.inl ⟨rfl, first (by simpa using he)⟩)
      | succ i =>
        rw [List.getElem?_cons_succ] at h
        rcases later h with hd | ⟨hc, hs⟩ | hk
        · exact .inl hd
        · exact .inr (.inl ⟨rfl, sameLine_zero_cons.2 ⟨by simpa using hc, hs⟩⟩)
        · exact .inr (.inr hk)
    | false =>
      rw [layoutOf, if_neg Bool.false_ne_true] at h
      by_cases hn : c = '#'
      · subst hn
        rw [if_pos rfl] at h
        cases i with
        | zero => exact .inr (.inr ⟨0, Nat.le_refl 0, rfl, first rfl⟩)
        | succ i =>
          rw [List.getElem?_cons_succ] at h
          rcases later h with hd | ⟨-, hs⟩ | hk
          · exact .inl hd
          · exact .inr (.inr ⟨0, Nat.zero_le _, rfl, sameLine_zero_cons.2 ⟨rfl, hs⟩⟩)
          · exact .inr (.inr hk)
      · by_cases hb : isBlank c = true
        · rw [if_neg hn, if_pos hb] at h
          cases i with
          | zero =>
            obtain rfl : c = d := by simpa using h
            exact .inl hb
          | succ i =>
            rw [List.getElem?_cons_succ] at h
            rcases later h with hd | ⟨hc, -⟩ | hk
            · exact .inl hd
            · cases hc
            · exact .inr (.inr hk)
        · simp [hn, hb] at h

/-- A comment that layout starts in is layout up to the end of its line. -/
theorem lt_length_layoutOf_of_sameLine {text : List Char} {i : Nat} (hi : i < text.length)
    (h : SameLine text 0 i) : i < (layoutOf true text).length := by
  induction text generalizing i with
  | nil => simp at hi
  | cons c cs ih =>
    rw [layoutOf, if_pos rfl, List.length_cons]
    cases i with
    | zero => exact Nat.zero_lt_succ _
    | succ i =>
      obtain ⟨hc, hs⟩ := sameLine_zero_cons.1 h
      rw [hc]
      exact Nat.succ_lt_succ (ih (by simpa using hi) hs)

/-- Behind a number sign in layout there is layout up to the end of the line. -/
theorem lt_length_layoutOf {inComment : Bool} {text : List Char} {k i : Nat}
    (hk : k < (layoutOf inComment text).length) (hki : k ≤ i) (hi : i < text.length)
    (ht : text[k]? = some '#') (hs : SameLine text k i) : i < (layoutOf inComment text).length := by
  induction text generalizing inComment k i with
  | nil => simp at hi
  | cons c cs ih =>
    -- the layout goes on behind its first character, in a comment or not
    obtain ⟨b, hlayout, hb⟩ : ∃ b, layoutOf inComment (c :: cs) = c :: layoutOf b cs ∧
        (c = '#' → b = true) := by
      cases inComment with
      | true => exact ⟨!endsComment c, by rw [layoutOf, if_pos rfl], by rintro rfl; rfl⟩
      | false =>
        by_cases hn : c = '#'
        · exact ⟨true, by simp [layoutOf, hn], fun _ => rfl⟩
        · by_cases hb : isBlank c = true
          · exact ⟨false, by simp [layoutOf, hn, hb], fun h => absurd h hn⟩
          · simp [layoutOf, hn, hb] at hk
    rw [hlayout, List.length_cons] at hk ⊢
    cases i with
    | zero => exact Nat.zero_lt_succ _
    | succ i =>
      rw [List.length_cons] at hi
      refine Nat.succ_lt_succ ?_
      cases k with
      | zero =>
        obtain rfl := hb (by simpa using ht)
        exact lt_length_layoutOf_of_sameLine (by omega) (sameLine_zero_cons.1 hs).2
      | succ k =>
        exact ih (by omega) (by omega) (by omega) (by simpa using ht) (sameLine_cons.1 hs)

/-! ## All words of a text -/

/-- Whatever comes before the words lies outside them. -/
theorem outside_of_lt {before rest : List Char} {i : Nat} (h : i < before.length) :
    Outside (cuts before rest) i := by
  rintro c hc ⟨hi, -⟩
  have := (mem_cuts c hc).behind.length_le
  omega

theorem munches_of_mem_cuts {before rest : List Char} :
    ∀ c ∈ cuts before rest,
      Munches ((before ++ rest).drop c.upTo.length) c.word (lexemeOf c.word) := by
  fun_induction cuts before rest with
  | case1 => simp
  | case2 before rest layout text h word ih =>
    have hall : before ++ layout ++ word ++ text.drop word.length = before ++ rest :=
      layoutOf_append_wordOf before rest
    refine List.forall_mem_cons.2 ⟨?_, hall ▸ ih⟩
    rw [← hall, Cut.upTo, List.drop_left]
    exact munches_wordOf h (endsLayout_drop_layoutOf false rest)

/-- Text in front of which something is put, at an offset behind that. -/
theorem getElem?_append_add (before rest : List Char) (i : Nat) :
    (before ++ rest)[before.length + i]? = rest[i]? := by
  rw [List.getElem?_append_right (Nat.le_add_right _ _), Nat.add_sub_cancel_left]

theorem sameLine_append {before rest : List Char} {k i : Nat} :
    SameLine (before ++ rest) (before.length + k) (before.length + i) ↔ SameLine rest k i := by
  constructor
  · intro h j hk hi d hd
    exact h (before.length + j) (by omega) (by omega) d (by rwa [getElem?_append_add])
  · intro h j hk hi d hd
    obtain ⟨j, rfl⟩ := Nat.exists_eq_add_of_le (Nat.le_trans (Nat.le_add_right _ k) hk)
    exact h j (by omega) (by omega) d (by rwa [getElem?_append_add] at hd)

/-- An offset in the first gap or behind the first word. -/
theorem lt_or_le_of_outside {c : Cut} {cs : List Cut} {i : Nat} (h : Outside (c :: cs) i) :
    (i < c.before.length ∨ c.upTo.length ≤ i) ∧ Outside cs i := by
  have hc := h c List.mem_cons_self
  refine ⟨?_, fun d hd => h d (List.mem_cons_of_mem c hd)⟩
  simp only [Cut.Covers, not_and_or, Nat.not_le, Nat.not_lt] at hc
  exact hc

theorem outside_cons {c : Cut} {cs : List Cut} {i : Nat} (h : c.upTo.length ≤ i)
    (hcs : Outside cs i) : Outside (c :: cs) i := by
  intro d hd
  rcases List.mem_cons.1 hd with rfl | hd
  · exact fun hi => absurd hi.2 (Nat.not_lt.2 h)
  · exact hcs d hd

theorem isBlank_or_inComment {before rest : List Char} {i : Nat} {d : Char}
    (hi : before.length ≤ i) (hd : (before ++ rest)[i]? = some d)
    (ho : Outside (cuts before rest) i) :
    isBlank d = true ∨ ∃ k, before.length ≤ k ∧ k ≤ i ∧ (before ++ rest)[k]? = some '#' ∧
      Outside (cuts before rest) k ∧ SameLine (before ++ rest) k i := by
  -- in front of the first word, only layout counts
  have inLayout : ∀ {before rest : List Char} {i : Nat}, before.length ≤ i →
      i < (before ++ layoutOf false rest).length → (before ++ rest)[i]? = some d →
      isBlank d = true ∨ ∃ k, before.length ≤ k ∧ k ≤ i ∧ (before ++ rest)[k]? = some '#' ∧
        SameLine (before ++ rest) k i := by
    intro before rest i hi hlt hd
    obtain ⟨i, rfl⟩ := Nat.exists_eq_add_of_le hi
    have hl : (layoutOf false rest)[i]? = some d := by
      rw [getElem?_append_add, ← layoutOf_append_drop false rest, List.getElem?_append_left] at hd
      · exact hd
      · rw [List.length_append] at hlt
        omega
    rcases getElem?_layoutOf hl with hb | ⟨hf, -⟩ | ⟨k, hk, ht, hs⟩
    · exact .inl hb
    · cases hf
    · exact .inr ⟨before.length + k, by omega, by omega, by rwa [getElem?_append_add],
        sameLine_append.2 hs⟩
  fun_induction cuts before rest with
  | case1 before rest layout text h =>
    have hlayout : layoutOf false rest = rest := by
      have := layoutOf_append_drop false rest
      rwa [show rest.drop (layoutOf false rest).length = [] from h, List.append_nil] at this
    rcases inLayout hi (by rw [hlayout]; exact (List.getElem?_eq_some_iff.1 hd).1) hd with hb |
      ⟨k, hk, hki, ht, hs⟩
    · exact .inl hb
    · exact .inr ⟨k, hk, hki, ht, by simp [Outside], hs⟩
  | case2 before rest layout text h word ih =>
    have hall : before ++ layout ++ word ++ text.drop word.length = before ++ rest :=
      layoutOf_append_wordOf before rest
    obtain ⟨hlt | hge, hcs⟩ := lt_or_le_of_outside ho
    · rcases inLayout hi hlt hd with hb | ⟨k, hk, hki, ht, hs⟩
      · exact .inl hb
      · refine .inr ⟨k, hk, hki, ht, ?_, hs⟩
        have hk' : k < (before ++ layout).length := Nat.lt_of_le_of_lt hki hlt
        intro c hc
        rcases List.mem_cons.1 hc with rfl | hc
        · exact fun hcov => absurd hcov.1 (Nat.not_le.2 hk')
        · exact outside_of_lt (by rw [List.length_append]; omega) c hc
    · rw [← hall] at hd
      rcases ih hge hd hcs with hb | ⟨k, hk, hki, ht, hout, hs⟩
      · exact .inl hb
      · rw [hall] at ht hs
        refine .inr ⟨k, ?_, hki, ht, outside_cons hk hout, hs⟩
        rw [List.length_append, List.length_append] at hk
        omega

theorem outside_of_comment {before rest : List Char} {k i : Nat} (hk : before.length ≤ k)
    (hki : k ≤ i) (hi : i < (before ++ rest).length) (ht : (before ++ rest)[k]? = some '#')
    (ho : Outside (cuts before rest) k) (hs : SameLine (before ++ rest) k i) :
    Outside (cuts before rest) i := by
  fun_induction cuts before rest with
  | case1 => simp [Outside]
  | case2 before rest layout text h word ih =>
    have hall : before ++ layout ++ word ++ text.drop word.length = before ++ rest :=
      layoutOf_append_wordOf before rest
    obtain ⟨hlt | hge, hcs⟩ := lt_or_le_of_outside ho
    · -- the comment is part of the layout in front of the first word
      obtain ⟨k, rfl⟩ := Nat.exists_eq_add_of_le hk
      obtain ⟨i, rfl⟩ := Nat.exists_eq_add_of_le (Nat.le_trans hk hki)
      rw [getElem?_append_add] at ht
      rw [sameLine_append] at hs
      have hk : before.length + k < (before ++ layout).length := hlt
      rw [List.length_append] at hk hi
      have hlen : i < layout.length :=
        lt_length_layoutOf (Nat.lt_of_add_lt_add_left hk) (by omega) (by omega) ht hs
      have hi' : before.length + i < (before ++ layout).length := by
        rw [List.length_append]
        omega
      intro c hc
      rcases List.mem_cons.1 hc with rfl | hc
      · exact fun hcov => absurd hcov.1 (Nat.not_le.2 hi')
      · exact outside_of_lt (by rw [List.length_append]; omega) c hc
    · rw [← hall] at hi ht hs
      exact outside_cons (Nat.le_trans hge hki) (ih hge hi ht hcs hs)

theorem cuts_lossless (text : List Char) : Lossless text (cuts [] text) := by
  have hmunch : ∀ c ∈ cuts [] text,
      Munches (text.drop c.upTo.length) c.word (lexemeOf c.word) := munches_of_mem_cuts
  constructor
  case within => exact fun c hc => ⟨(mem_cuts c hc).nonempty, (mem_cuts c hc).within⟩
  case ordered => exact cuts_pairwise [] text
  case munched => exact hmunch
  case kept => exact fun c hc => (mem_cuts c hc).text
  case keywords => exact fun c hc => (hmunch c hc).keywords
  case ne_endOfInput => exact fun c hc => lexemeOf_ne_endOfInput (mem_cuts c hc).nonempty
  case outside =>
    intro i d hd ho
    rcases isBlank_or_inComment (Nat.zero_le i) hd ho with hb | ⟨k, -, hki, ht, hout, hs⟩
    · exact .inl hb
    · exact .inr ⟨k, hki, ht, hout, hs⟩
  case comments =>
    rintro i d hd ⟨k, hki, ht, hout, hs⟩
    exact outside_of_comment (Nat.zero_le k) hki (List.getElem?_eq_some_iff.1 hd).1 ht hout hs

/-! ## All tokens of a text -/

theorem isWritten_of_mem_cuts {text : List Char} {c : Cut} (h : c ∈ cuts [] text) :
    (lexemeOf c.word).IsWritten :=
  (munches_of_mem_cuts c h).isWritten

/-- The tokens of a source can be written down. -/
theorem mem_isWritten {file : String} {answers : List (Option Char)} {remembersEnd : Bool}
    {t : Scanned} (h : t ∈ (Upcoming.ofSource file (.ofAnswers answers remembersEnd)).tokens) :
    t.token.lexeme.IsWritten := by
  obtain ⟨c, hc, rfl⟩ := Upcoming.mem_ofAnswers h
  exact isWritten_of_mem_cuts hc

theorem tokensToEnd_eq (s : Scanner) :
    s.tokensToEnd.1 = (Upcoming.scanOnto [] s).toList.map (·.token) := by
  fun_induction tokensToEnd s with
  | case1 s step h =>
    rw [Upcoming.scanOnto, dif_pos h]
    rfl
  | case2 s step h rest ih =>
    rw [Upcoming.scanOnto, dif_neg h, Upcoming.scanOnto_tokens]
    show step.1 :: rest.1 = _
    rw [ih]
    simp [Upcoming.toList, record, step]

/-- The tokens of a text are its words, and then the end of the input. -/
theorem tokensToEnd_ofString (file text : String) :
    (start file (.ofString text)).tokensToEnd.1 =
      (cuts [] text.toList).map (·.token file) ++ [⟨.endOfInput, .behind file text.toList⟩] := by
  have ht := Upcoming.ofString_tokens file text
  have hl := Upcoming.ofString_last file text
  rw [Upcoming.ofSource, Upcoming.ofScanner] at ht hl
  rw [tokensToEnd_eq, Upcoming.toList, ht, hl, List.map_append, List.map_map]
  rfl

/-- The tokens of a text are the words of a lossless cut, each at the line and column behind all
that comes before it, and then, once, the end of the input behind the whole text. -/
theorem tokensToEnd_lossless (file text : String) :
    ∃ cs : List Cut, Lossless text.toList cs ∧
      (start file (.ofString text)).tokensToEnd.1 =
        cs.map (·.token file) ++ [⟨.endOfInput, .behind file text.toList⟩] := by
  refine ⟨cuts [] text.toList, cuts_lossless text.toList, ?_⟩
  exact tokensToEnd_ofString file text

end Scanner

end OperatorGrammar
