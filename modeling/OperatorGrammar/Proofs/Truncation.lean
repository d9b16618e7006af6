import OperatorGrammar.Proofs.Literal
import OperatorGrammar.Proofs.Scanning.Joined

/-!
Cutting the numbers of a text down to what is well formed. Spaces take the place of what is cut off,
so that nothing moves: the tokens of the text are the same, at the same places, but for the texts of
its numbers, which keep their values. That is so unless a zero comes to stand directly behind a
name, which would go on with it. Main statement: `Upcoming.paired_truncates`.
-/

namespace OperatorGrammar

open Scanner

namespace Lexeme

/-- Whether a lexeme is a name or a keyword. -/
def isWord : Lexeme → Bool
  | define | external | identifier _ => true
  | _ => false

/-- Whether a lexeme is a number of which nothing at the front is well formed. -/
def isBare : Lexeme → Bool
  | number text => Literal.wellFormedLength text.toList == 0
  | _ => false

/-- The same lexeme, unless it is a number: then one that is well formed and has its value. -/
inductive Truncates : Lexeme → Lexeme → Prop where
  | same {x : Lexeme} : (∀ text, x ≠ number text) → Truncates x x
  | number {text text' : String} : Literal.isWellFormed text' = true →
    Literal.value text' = Literal.value text → Truncates (number text) (number text')

theorem isWord_ofWord (w : String) : (ofWord w).isWord = true := by
  unfold ofWord
  split
  · rfl
  · split <;> rfl

theorem ofWord_ne_number (w text : String) : ofWord w ≠ number text := by
  intro h
  have hw := isWord_ofWord w
  rw [h] at hw
  cases hw

theorem isBare_ofWord (w : String) : (ofWord w).isBare = false := by
  unfold isBare
  split
  · exact absurd ‹_› (ofWord_ne_number w _)
  · rfl

variable {x x' : Lexeme}

/-- Numbers that are cut down are well formed. -/
theorem Truncates.isWellFormed (h : x.Truncates x') {text : String} (hx : x' = Lexeme.number text) :
    Literal.isWellFormed text = true := by
  cases h with
  | same hne => exact absurd hx (hne text)
  | number hw _ =>
    obtain rfl := Lexeme.number.inj hx
    exact hw

/-- Where all numbers are accepted, what is cut down is read alike. -/
theorem Truncates.readsAs {R : Rules} (hR : R.strictNumbers = false) (h : x.Truncates x') :
    x.ReadsAs R x' := by
  have haccepts : ∀ text, R.acceptsNumber text = true := by simp [Rules.acceptsNumber, hR]
  cases h with
  | same _ => exact .same x
  | number _ hv => exact .number (haccepts _) (haccepts _) hv

end Lexeme

namespace Scanner

variable {f : List Char → List Char} {layout text rest more word : List Char} {inComment : Bool}
  {x : Lexeme}

/-! ## Words in place of words -/

/-- A text with each word replaced. Layout stays as it is. -/
def mapWords (f : List Char → List Char) (text : List Char) : List Char :=
  let layout := layoutOf false text
  let rest := text.drop layout.length
  if rest = [] then layout
  else layout ++ f (wordOf rest) ++ mapWords f (rest.drop (wordOf rest).length)
termination_by text.length
decreasing_by
  rename_i h
  have hw := List.length_pos_iff.2 (wordOf_ne_nil h)
  have ht := List.length_pos_iff.2 h
  simp only [layout, rest, List.length_drop] at *
  omega

/-- A word, cut down if it is a number that is not well formed. -/
def truncatedWord (word : List Char) : List Char :=
  match lexemeOf word with
  | .number text => if Literal.isWellFormed text then word else Literal.truncated word
  | _ => word

/-- A word with spaces in place of what is cut off it. -/
def paddedWord (word : List Char) : List Char := (truncatedWord word).rightpad word.length ' '

/-- A text in which each number that is not well formed is cut down to its longest well-formed part
at the front, or a zero, and padded with spaces to its old length. -/
def truncatedText (text : List Char) : List Char := mapWords paddedWord text

def truncate (text : String) : String := String.ofList (truncatedText text.toList)

theorem mapWords_of_layout (h : layoutOf false text = text) : mapWords f text = text := by
  rw [mapWords]
  simp only [h, List.drop_length, if_true]

theorem mapWords_of_word (h : layoutOf false (layout ++ text) = layout) (hne : text ≠ []) :
    mapWords f (layout ++ text) =
      layout ++ (f (wordOf text) ++ mapWords f (text.drop (wordOf text).length)) := by
  rw [mapWords]
  simp only [h, List.drop_left, if_neg hne, List.append_assoc]

/-! ## Words behind layout -/

/-- Behind the layout in front of a word layout may start over. -/
theorem layoutOf_append_append (h : layoutOf inComment (layout ++ text) = layout) (hne : text ≠ [])
    (more : List Char) : layoutOf inComment (layout ++ more) = layout ++ layoutOf false more := by
  induction layout generalizing inComment with
  | nil =>
    obtain ⟨c, cs, rfl⟩ := List.exists_cons_of_ne_nil hne
    cases inComment with
    | true => cases h
    | false => rfl
  | cons c cs ih =>
    rw [List.cons_append, layoutOf] at h ⊢
    split_ifs at h ⊢
    all_goals
      obtain ⟨-, h⟩ := List.cons.inj h
      rw [ih h, List.cons_append]

theorem layoutOf_replicate_append (n : Nat) (more : List Char) :
    layoutOf false (List.replicate n ' ' ++ more) =
      List.replicate n ' ' ++ layoutOf false more := by
  induction n with
  | zero => rfl
  | succ n ih =>
    rw [List.replicate_succ, List.cons_append, layoutOf, ih]
    rfl

theorem cuts_append_layout (h : layoutOf false (layout ++ more) = layout ++ layoutOf false more)
    (before : List Char) : cuts before (layout ++ more) = cuts (before ++ layout) more := by
  rcases layoutOf_cases more with hall | ⟨l, text, rfl, hne, hl⟩
  · rw [cuts_of_layout hall, cuts_of_layout (h.trans (by rw [hall]))]
  · rw [hl, ← List.append_assoc] at h
    rw [← List.append_assoc, cuts_of_word h hne, cuts_of_word hl hne]
    simp only [List.append_assoc]

theorem head?_cuts (h : layoutOf false text = []) (hne : text ≠ []) (before : List Char) :
    (cuts before text).head? = some ⟨before, wordOf text⟩ := by
  have hcuts := cuts_of_word (show layoutOf false ([] ++ text) = [] from h) hne before
  rw [List.nil_append, List.append_nil] at hcuts
  rw [hcuts]
  rfl

theorem munches_of_layoutOf (h : layoutOf false (layout ++ text) = layout) (hne : text ≠ []) :
    Munches (text.drop (wordOf text).length) (wordOf text) (lexemeOf (wordOf text)) := by
  have he := endsLayout_drop_layoutOf false (layout ++ text)
  rw [h, List.drop_left] at he
  exact munches_wordOf hne he

/-- A word behind layout, with anything behind it that does not go on with it. -/
theorem cuts_of_munches (h : layoutOf false (layout ++ text) = layout) (hne : text ≠ [])
    (hm : Munches more word x) (before : List Char) : cuts before (layout ++ (word ++ more)) =
      ⟨before ++ layout, word⟩ :: cuts (before ++ layout ++ word) more := by
  have hends : layoutOf false (word ++ more) = [] := Layout.nil.layoutOf_append (hm.endsLayout more)
  have hlayout := layoutOf_append_append h hne (word ++ more)
  rw [hends, List.append_nil] at hlayout
  rw [cuts_of_word hlayout (List.append_ne_nil_of_left_ne_nil hm.nonempty more), hm.wordOf_append,
    List.drop_left]

/-! ## Places -/

/-- Texts of one length with line feeds at the same offsets. -/
def SameLines (text text' : List Char) : Prop := text'.map (· == '\n') = text.map (· == '\n')

theorem SameLines.refl (text : List Char) : SameLines text text := rfl

theorem SameLines.append {text' more' : List Char} (h : SameLines text text')
    (h' : SameLines more more') : SameLines (text ++ more) (text' ++ more') := by
  rw [SameLines, List.map_append, List.map_append, h, h']

/-- Characters that are no line feeds can stand for each other. -/
theorem SameLines.of_not_mem {word' : List Char} (h : '\n' ∉ word) (h' : '\n' ∉ word')
    (hl : word'.length = word.length) : SameLines word word' := by
  have hall : ∀ cs : List Char, '\n' ∉ cs →
      cs.map (· == '\n') = List.replicate cs.length false := by
    intro cs hcs
    refine List.eq_replicate_iff.2 ⟨List.length_map _, ?_⟩
    intro b hb
    obtain ⟨c, hc, rfl⟩ := List.mem_map.1 hb
    rw [beq_eq_false_iff_ne]
    rintro rfl
    exact hcs hc
  rw [SameLines, hall word h, hall word' h', hl]

/-- The place behind a text depends on its length and its line feeds only. -/
theorem SameLines.behind (h : SameLines text more) (file : String) :
    Location.behind file more = Location.behind file text := by
  have hcount : ∀ cs : List Char, cs.count '\n' = (cs.map (· == '\n')).count true := by
    intro cs
    rw [List.count, List.count, List.countP_map]
    congr 1
    funext c
    simp
  have hcolumn : ∀ cs : List Char, (cs.reverse.takeWhile (· != '\n')).length =
      ((cs.map (· == '\n')).reverse.takeWhile (! ·)).length := by
    intro cs
    rw [← List.map_reverse, List.takeWhile_map, List.length_map]
    rfl
  have hlines : more.map (· == '\n') = text.map (· == '\n') := h
  simp only [Location.behind, lineBehind, columnBehind, hcount, hcolumn, hlines]

/-! ## Words that are cut down -/

theorem truncatedWord_of_number (h : lexemeOf word = .number (String.ofList word)) :
    truncatedWord word = Literal.truncated word := by
  rw [truncatedWord, h]
  dsimp only
  split
  · rename_i hw
    exact (Literal.truncated_of_isLiteral (Literal.isWellFormed_ofList_iff.1 hw)).symm
  · rfl

theorem truncatedWord_of_not_number (h : ∀ text, lexemeOf word ≠ .number text) :
    truncatedWord word = word := by
  unfold truncatedWord
  split
  · exact absurd ‹_› (h _)
  · rfl

theorem paddedWord_eq (word : List Char) : paddedWord word =
    truncatedWord word ++ List.replicate (word.length - (truncatedWord word).length) ' ' := rfl

theorem paddedWord_of_not_number (h : ∀ text, lexemeOf word ≠ .number text) :
    paddedWord word = word := by
  rw [paddedWord_eq, truncatedWord_of_not_number h, Nat.sub_self, List.replicate_zero,
    List.append_nil]

/-- What a number is cut down to has no other characters. -/
theorem isDigitOrPoint_of_mem_truncated (h : ∀ c ∈ word, isDigitOrPoint c = true) :
    ∀ c ∈ Literal.truncated word, isDigitOrPoint c = true := by
  rw [Literal.truncated_eq]
  split
  · exact List.forall_mem_singleton.2 (by decide)
  · exact fun c hc => h c ((Literal.longest_isPrefix word).subset hc)

/-- A word is a number, made up of digits and points, or it is none. -/
theorem Munches.number_or (h : Munches rest word x) :
    (x = .number (String.ofList word) ∧ (∀ c ∈ word, isDigitOrPoint c = true) ∧
      ∀ c ∈ rest.head?, isDigitOrPoint c = false) ∨ ∀ text, x ≠ .number text := by
  cases h with
  | word hc _ _ => exact .inr (Lexeme.ofWord_ne_number _)
  | number hc hcs hr => exact .inl ⟨rfl, List.forall_mem_cons.2 ⟨hc, hcs⟩, hr⟩
  | char hl hd _ _ => exact .inr nofun

theorem Munches.sameLines_paddedWord (h : Munches rest word x) :
    SameLines word (paddedWord word) := by
  rcases h.number_or with ⟨rfl, hd, -⟩ | hx
  · have hle := Literal.length_truncated_le h.nonempty
    have hno : ∀ cs : List Char, (∀ c ∈ cs, isDigitOrPoint c = true) → '\n' ∉ cs := by
      intro cs hcs hmem
      exact absurd (hcs _ hmem) (by decide)
    rw [paddedWord_eq, truncatedWord_of_number h.lexemeOf_eq]
    refine .of_not_mem (hno word hd) ?_ ?_
    · rw [List.mem_append, not_or]
      exact ⟨hno _ (isDigitOrPoint_of_mem_truncated hd), by simp⟩
    · rw [List.length_append, List.length_replicate]
      omega
  · rw [paddedWord_of_not_number (by rwa [h.lexemeOf_eq])]
    exact .refl word

/-- A word starts as it did, unless it has become a zero. -/
theorem Munches.head?_paddedWord (h : Munches rest word x) (hb : x.isBare = false) :
    (paddedWord word).head? = word.head? := by
  rcases h.number_or with ⟨rfl, hd, -⟩ | hx
  · have hlength : Literal.wellFormedLength word ≠ 0 := by
      simpa [Lexeme.isBare] using hb
    rw [paddedWord_eq, truncatedWord_of_number h.lexemeOf_eq,
      List.head?_append_of_ne_nil _ (Literal.isLiteral_truncated word).ne_nil, Literal.truncated,
      if_neg hlength, List.head?_take, if_neg hlength]
  · rw [paddedWord_of_not_number (by rwa [h.lexemeOf_eq])]

/-- What starts with neither a digit nor a point does not start with a number. -/
theorem isBare_of_head? (h : ∀ c ∈ text.head?, isDigitOrPoint c = false) :
    (lexemeOf (wordOf text)).isBare = false := by
  cases text with
  | nil => rfl
  | cons c cs =>
    have hd : isDigitOrPoint c = false := h c rfl
    by_cases hl : isLetter c = true
    · have hx : lexemeOf (wordOf (c :: cs)) = .ofWord (String.ofList (wordOf (c :: cs))) := by
        simp [wordOf, lexemeOf, hl, isLetterOrDigit_of_isLetter hl]
      rw [hx]
      exact Lexeme.isBare_ofWord _
    · simp [wordOf, lexemeOf, hl, hd, Lexeme.isBare]

/-- A text starts as it did, unless its first word does not. -/
theorem head?_truncatedText
    (h : layoutOf false text = [] → (lexemeOf (wordOf text)).isBare = false) :
    (truncatedText text).head? = text.head? := by
  rcases layoutOf_cases text with hall | ⟨layout, rest, rfl, hne, hl⟩
  · rw [truncatedText, mapWords_of_layout hall]
  · rw [truncatedText, mapWords_of_word hl hne]
    cases layout with
    | cons c cs => rfl
    | nil =>
      have hw := wordOf_ne_nil hne
      have hhead := (munches_of_layoutOf hl hne).head?_paddedWord (h hl)
      have hp : paddedWord (wordOf rest) ≠ [] := by
        intro hnil
        rw [hnil] at hhead
        exact hw (List.head?_eq_none_iff.1 hhead.symm)
      rw [List.nil_append, List.nil_append, List.head?_append_of_ne_nil _ hp, hhead,
        ← List.head?_append_of_ne_nil _ hw, wordOf_append_drop]

/-- A word that has been cut down is found in front of a text that has been. -/
theorem Munches.truncated (h : Munches rest word x)
    (hp : x.isWord = true → layoutOf false rest = [] → (lexemeOf (wordOf rest)).isBare = false) :
    ∃ x', x.Truncates x' ∧
      Munches (List.replicate (word.length - (truncatedWord word).length) ' ' ++ truncatedText rest)
        (truncatedWord word) x' := by
  rcases h.number_or with ⟨rfl, hd, hr⟩ | hx
  · have hlit := Literal.isLiteral_truncated word
    refine ⟨.number (String.ofList (Literal.truncated word)), ?_, ?_⟩
    · exact .number (Literal.isWellFormed_ofList_iff.2 hlit) (Literal.value_truncated word)
    · have hd' := isDigitOrPoint_of_mem_truncated hd
      rw [truncatedWord_of_number h.lexemeOf_eq]
      obtain ⟨c, cs, hc⟩ := List.exists_cons_of_ne_nil hlit.ne_nil
      rw [hc] at hd' ⊢
      obtain ⟨hc', hcs'⟩ := List.forall_mem_cons.1 hd'
      refine .number hc' hcs' ?_
      -- the number ends at a space, or where it did
      cases word.length - (c :: cs).length with
      | zero =>
        rw [List.replicate_zero, List.nil_append, head?_truncatedText fun _ => isBare_of_head? hr]
        exact hr
      | succ n =>
        intro d hd
        obtain rfl : ' ' = d := Option.some.inj hd
        decide
  · refine ⟨x, .same hx, ?_⟩
    rw [truncatedWord_of_not_number (by rwa [h.lexemeOf_eq]), Nat.sub_self, List.replicate_zero,
      List.nil_append]
    cases h with
    | word hc hcs hr =>
      refine .word hc hcs ?_
      rwa [head?_truncatedText (hp (Lexeme.isWord_ofWord _))]
    | number => exact absurd rfl (hx _)
    | char hl hd hn hb => exact .char hl hd hn hb

/-! ## Texts that are cut down -/

/-- No number of which nothing at the front is well formed stands directly behind a name or a
keyword. -/
def Parted (cs : List Cut) : Prop :=
  cs.IsChain fun c d =>
    c.upTo = d.before → (lexemeOf c.word).isWord = true → (lexemeOf d.word).isBare = false

/-- The same word, cut down, behind as much. -/
structure Cut.Truncates (c c' : Cut) : Prop where
  before : SameLines c.before c'.before
  lexeme : (lexemeOf c.word).Truncates (lexemeOf c'.word)

theorem sameLines_truncatedText (text : List Char) : SameLines text (truncatedText text) := by
  suffices h : ∀ before : List Char, SameLines text (truncatedText text) from h []
  intro before
  induction before, text using cuts_induction with
  | layout before text hall =>
    rw [truncatedText, mapWords_of_layout hall]
    exact .refl text
  | word before layout text hl hne ih =>
    have hword := (munches_of_layoutOf hl hne).sameLines_paddedWord
    have h := (SameLines.refl layout).append (hword.append ih)
    rw [wordOf_append_drop] at h
    rwa [truncatedText, mapWords_of_word hl hne]

/-- The words of a text that has been cut down are the words of the text, cut down. -/
theorem cuts_truncatedText {before before' rest : List Char} (hp : Parted (cuts before rest))
    (hb : SameLines before before') :
    List.Forall₂ Cut.Truncates (cuts before rest) (cuts before' (truncatedText rest)) := by
  induction before, rest using cuts_induction generalizing before' with
  | layout before rest hall =>
    rw [truncatedText, mapWords_of_layout hall, cuts_of_layout hall, cuts_of_layout hall]
    exact .nil
  | word before layout text hl hne ih =>
    have hm := munches_of_layoutOf hl hne
    rw [cuts_of_word hl hne] at hp ⊢
    obtain ⟨hfirst, hrest⟩ := List.isChain_cons.1 hp
    -- the word that is found directly behind the first one is the next
    obtain ⟨x', hx, hm'⟩ := hm.truncated fun hword hnext => by
      by_cases hnil : text.drop (wordOf text).length = []
      · rw [hnil]
        rfl
      · exact hfirst _ (head?_cuts hnext hnil _) rfl hword
    have htext : truncatedText (layout ++ text) = layout ++ (truncatedWord (wordOf text) ++
        (List.replicate ((wordOf text).length - (truncatedWord (wordOf text)).length) ' ' ++
          truncatedText (text.drop (wordOf text).length))) := by
      rw [truncatedText, mapWords_of_word hl hne, paddedWord_eq, List.append_assoc]
      rfl
    have hbefore := hb.append (.refl layout)
    have hbehind := ih hrest (hbefore.append hm.sameLines_paddedWord)
    rw [paddedWord_eq, ← List.append_assoc, ← cuts_append_layout (layoutOf_replicate_append _ _)]
      at hbehind
    rw [htext, cuts_of_munches hl hne hm']
    exact .cons ⟨hbefore, by rwa [hm'.lexemeOf_eq]⟩ hbehind

end Scanner

/-! ## Tokens -/

/-- The same token, cut down if it is a number. -/
structure Scanned.Truncates (t t' : Scanned) : Prop where
  lexeme : t.token.lexeme.Truncates t'.token.lexeme
  location : t'.token.location = t.token.location

/-- The tokens of a text that has been cut down are those of the text, cut down. -/
theorem Upcoming.paired_truncates {text : String} (h : Parted (cuts [] text.toList))
    (file : String) :
    (ofSource file (.ofString text)).Paired Scanned.Truncates
      (ofSource file (.ofString (truncate text))) := by
  constructor
  · rw [ofString_tokens, ofString_tokens, truncate, String.toList_ofList,
      List.forall₂_map_left_iff, List.forall₂_map_right_iff]
    refine (cuts_truncatedText h (.refl [])).imp ?_
    intro c c' hc
    exact ⟨hc.lexeme, hc.before.behind file⟩
  · rw [ofString_last, ofString_last, truncate, String.toList_ofList]
    exact ⟨.same nofun, (sameLines_truncatedText text.toList).behind file⟩

/-- The numbers of a text that has been cut down are well formed. -/
theorem Upcoming.isWellFormed_of_mem_truncate {text file : String} {t : Scanned} {x : String}
    (h : Parted (cuts [] text.toList)) (ht : t ∈ (ofSource file (.ofString (truncate text))).tokens)
    (hx : t.token.lexeme = .number x) : Literal.isWellFormed x = true := by
  have hall : List.Forall₂ (fun t' t => (∀ x, t'.token.lexeme = .number x →
        Literal.isWellFormed x = true) ∧ Scanned.Truncates t t')
      (ofSource file (.ofString (truncate text))).tokens (ofSource file (.ofString text)).tokens :=
    (paired_truncates h file).tokens.flip.imp fun t' t ht => ⟨fun x => ht.lexeme.isWellFormed, ht⟩
  exact ((List.forall₂_and_left _ _).1 hall).1 t ht x hx

end OperatorGrammar
