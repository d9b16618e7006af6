import Mathlib.Data.List.Chain
import OperatorGrammar.Proofs.Scanning

/-!
Writing lexemes down. A spelling puts layout in front of each lexeme and at the end; two runs of
characters that stand next to each other need some. Scanning finds the lexemes again. Main
statement: `Spelling.ofSource_tokens`.
-/

namespace OperatorGrammar

open Scanner

/-- Blanks and comments, each comment with the end of its line. -/
inductive Layout : List Char → Prop where
  | nil : Layout []
  | blank {c : Char} {cs : List Char} : isBlank c = true → Layout cs → Layout (c :: cs)
  | comment {body cs : List Char} {e : Char} :
    (∀ c ∈ body, endsComment c = false) → endsComment e = true → Layout cs →
      Layout ('#' :: (body ++ e :: cs))

/-- A letter and any number of letters and digits, but no keyword. -/
structure IsName (x : String) : Prop where
  letters : ∃ c cs, x.toList = c :: cs ∧ isLetter c = true ∧ ∀ d ∈ cs, isLetterOrDigit d = true
  ne_def : x ≠ "def"
  ne_extern : x ≠ "extern"

namespace Lexeme

/-- Whether a lexeme is a word or a number. -/
def isRun : Lexeme → Bool
  | define | external | identifier _ | number _ => true
  | endOfInput | char _ => false

/-- The lexemes that can be written down. -/
inductive IsWritten : Lexeme → Prop where
  | define : IsWritten define
  | external : IsWritten external
  | identifier {x : String} : IsName x → IsWritten (identifier x)
  | number {text : String} : text.toList ≠ [] → (∀ c ∈ text.toList, isDigitOrPoint c = true) →
    IsWritten (number text)
  | char {c : Char} : isLetterOrDigit c = false → c ≠ '.' → c ≠ '#' → isBlank c = false →
    IsWritten (char c)

end Lexeme

/-- Characters that no word and no number goes on with. -/
def EndsRun (rest : List Char) : Prop :=
  ∀ c ∈ rest.head?, isLetterOrDigit c = false ∧ isDigitOrPoint c = false

/-- Characters that no layout goes on with. -/
def EndsLayout (rest : List Char) : Prop := ∀ c ∈ rest.head?, c ≠ '#' ∧ isBlank c = false

theorem isDigitOrPoint_eq_false {c : Char} (h : isLetterOrDigit c = false) (hp : c ≠ '.') :
    isDigitOrPoint c = false := by
  simp only [isLetterOrDigit, Char.isAlphanum, Bool.or_eq_false_iff] at h
  simp [isDigitOrPoint, h.2, hp]

theorem isLetter_eq_false {c : Char} (h : isLetterOrDigit c = false) : isLetter c = false := by
  apply Bool.eq_false_iff.2
  intro hl
  rw [isLetterOrDigit_of_isLetter hl] at h
  cases h

theorem isLetter_of_isDigit {c : Char} (h : c.isDigit = true) : isLetter c = false := by
  simp only [Char.isDigit, ge_iff_le, Bool.and_eq_true, decide_eq_true_eq,
    UInt32.le_iff_toNat_le] at h
  delta isLetter Char.isAlpha Char.isUpper Char.isLower
  simp only [ge_iff_le, Bool.or_eq_false_iff, Bool.and_eq_false_iff, decide_eq_false_iff_not,
    not_and, UInt32.le_iff_toNat_le]
  simp only [Char.reduceVal, UInt32.reduceToNat, Nat.not_le] at h ⊢
  omega

theorem isLetter_of_isDigitOrPoint {c : Char} (h : isDigitOrPoint c = true) :
    isLetter c = false := by
  simp only [isDigitOrPoint, Bool.or_eq_true, beq_iff_eq] at h
  rcases h with h | rfl
  · exact isLetter_of_isDigit h
  · decide

theorem endsLayout_of_isBlank {c : Char} (h : c ≠ '#') (hb : isBlank c = false) (cs : List Char) :
    EndsLayout (c :: cs) := by
  intro d hd
  obtain rfl := Option.some.inj hd
  exact ⟨h, hb⟩

/-- A blank is no letter, no digit and no point. -/
theorem not_isRun_of_isBlank {c : Char} (h : isBlank c = true) :
    isLetterOrDigit c = false ∧ isDigitOrPoint c = false := by
  simp only [isBlank, Bool.or_eq_true, beq_iff_eq] at h
  rcases h with ((((rfl | rfl) | rfl) | rfl) | rfl) | rfl <;> decide

theorem isBlank_of_isLetterOrDigit {c : Char} (h : isLetterOrDigit c = true) :
    isBlank c = false := by
  apply Bool.eq_false_iff.2
  intro hb
  rw [(not_isRun_of_isBlank hb).1] at h
  cases h

theorem isBlank_of_isDigitOrPoint {c : Char} (h : isDigitOrPoint c = true) : isBlank c = false := by
  apply Bool.eq_false_iff.2
  intro hb
  rw [(not_isRun_of_isBlank hb).2] at h
  cases h

/-! ## Layout -/

namespace Layout

variable {l rest : List Char}

/-- Layout does not go on with a run. -/
theorem endsRun (h : Layout l) (hr : EndsRun rest) : EndsRun (l ++ rest) := by
  cases h with
  | nil => exact hr
  | @blank c cs hc _ =>
    intro d hd
    obtain rfl : c = d := by simpa using hd
    exact not_isRun_of_isBlank hc
  | comment _ _ _ =>
    intro d hd
    obtain rfl : '#' = d := by simpa using hd
    decide

theorem endsRun_of_ne_nil (h : Layout l) (hne : l ≠ []) (rest : List Char) :
    EndsRun (l ++ rest) := by
  have hl := h.endsRun (show EndsRun [] by simp [EndsRun])
  rw [List.append_nil] at hl
  intro c hc
  obtain ⟨d, cs, rfl⟩ := List.exists_cons_of_ne_nil hne
  exact hl c hc

theorem layoutOf_comment {body : List Char} {e : Char} (hb : ∀ c ∈ body, endsComment c = false)
    (he : endsComment e = true) (rest : List Char) :
    layoutOf true (body ++ e :: rest) = body ++ e :: layoutOf false rest := by
  induction body with
  | nil => simp [layoutOf, he]
  | cons c body ih =>
    obtain ⟨hc, hb⟩ := List.forall_mem_cons.1 hb
    simp only [List.cons_append, layoutOf, if_true, hc, Bool.not_false, ih hb]

/-- Layout is skipped, and nothing behind it. -/
theorem layoutOf_append (h : Layout l) (hr : EndsLayout rest) : layoutOf false (l ++ rest) = l := by
  induction h with
  | nil =>
    cases rest with
    | nil => rfl
    | cons c cs =>
      obtain ⟨hc, hb⟩ := hr c rfl
      simp [layoutOf, hc, hb]
  | @blank c cs hc _ ih =>
    rw [List.cons_append, layoutOf, if_neg Bool.false_ne_true, ih]
    have hne : c ≠ '#' := by
      rintro rfl
      exact absurd hc (by decide)
    rw [if_neg hne, if_pos hc]
  | @comment body cs e hb he _ ih =>
    rw [List.cons_append, layoutOf, if_neg Bool.false_ne_true, if_pos rfl, List.append_assoc,
      List.cons_append, layoutOf_comment hb he, ih]

end Layout

/-! ## Lexemes -/

theorem takeWhile_append_of_ends {p : Char → Bool} {word rest : List Char}
    (hw : ∀ c ∈ word, p c = true) (hr : ∀ c ∈ rest.head?, p c = false) :
    (word ++ rest).takeWhile p = word := by
  rw [List.takeWhile_append_of_pos hw]
  cases rest with
  | nil => simp
  | cons c cs => simp [hr c rfl]

/-- A word is told apart from what ends it. -/
theorem append_inj_of_ends {p : Char → Bool} {word word' rest rest' : List Char}
    (hw : ∀ c ∈ word, p c = true) (hw' : ∀ c ∈ word', p c = true)
    (hr : ∀ c ∈ rest.head?, p c = false) (hr' : ∀ c ∈ rest'.head?, p c = false)
    (h : word ++ rest = word' ++ rest') : word = word' ∧ rest = rest' := by
  have hword : word = word' := by
    rw [← takeWhile_append_of_ends hw hr, h, takeWhile_append_of_ends hw' hr']
  subst hword
  exact ⟨rfl, List.append_cancel_left h⟩

namespace Scanner

/-- What a word in front of `rest` is read as: the longest run of letters and digits from a letter
on, the longest run of digits and points, or any other single character that starts no layout. -/
inductive Munches (rest : List Char) : List Char → Lexeme → Prop where
  | word {c : Char} {cs : List Char} : isLetter c = true → (∀ d ∈ cs, isLetterOrDigit d = true) →
    (∀ d ∈ rest.head?, isLetterOrDigit d = false) →
      Munches rest (c :: cs) (.ofWord (String.ofList (c :: cs)))
  | number {c : Char} {cs : List Char} : isDigitOrPoint c = true →
    (∀ d ∈ cs, isDigitOrPoint d = true) → (∀ d ∈ rest.head?, isDigitOrPoint d = false) →
      Munches rest (c :: cs) (.number (String.ofList (c :: cs)))
  | char {c : Char} : isLetter c = false → isDigitOrPoint c = false → c ≠ '#' →
    isBlank c = false → Munches rest [c] (.char c)

variable {rest word : List Char} {x : Lexeme}

/-- What a word is read as can be written down. -/
theorem Munches.isWritten (h : Munches rest word x) : x.IsWritten := by
  cases h with
  | @word c cs hc hcs hr =>
    unfold Lexeme.ofWord
    split
    · exact .define
    · split
      · exact .external
      · rename_i hdef hextern
        exact .identifier ⟨⟨c, cs, String.toList_ofList, hc, hcs⟩, hdef, hextern⟩
  | @number c cs hc hcs hr =>
    refine .number ?_ ?_
    · rw [String.toList_ofList]
      exact List.cons_ne_nil c cs
    · rw [String.toList_ofList]
      exact List.forall_mem_cons.2 ⟨hc, hcs⟩
  | @char c hl hd hn hb =>
    obtain ⟨hdigit, hpoint⟩ : c.isDigit = false ∧ c ≠ '.' := by
      simpa [isDigitOrPoint] using hd
    refine .char ?_ hpoint hn hb
    rw [isLetterOrDigit, Char.isAlphanum, Bool.or_eq_false_iff]
    exact ⟨hl, hdigit⟩

theorem Munches.not_isBlank (h : Munches rest word x) : ∀ d ∈ word, isBlank d = false := by
  cases h with
  | word hc hcs _ =>
    exact List.forall_mem_cons.2 ⟨isBlank_of_isLetterOrDigit (isLetterOrDigit_of_isLetter hc),
      fun d hd => isBlank_of_isLetterOrDigit (hcs d hd)⟩
  | number hc hcs _ =>
    exact List.forall_mem_cons.2 ⟨isBlank_of_isDigitOrPoint hc,
      fun d hd => isBlank_of_isDigitOrPoint (hcs d hd)⟩
  | char _ _ _ hb => simpa using hb

theorem Munches.nonempty (h : Munches rest word x) : word ≠ [] := by
  cases h <;> exact List.cons_ne_nil _ _

/-- A word is found where it is written. -/
theorem Munches.wordOf_append (h : Munches rest word x) : wordOf (word ++ rest) = word := by
  cases h with
  | word hc hcs hr =>
    rw [List.cons_append, wordOf, if_pos hc]
    exact takeWhile_append_of_ends (List.forall_mem_cons.2 ⟨isLetterOrDigit_of_isLetter hc, hcs⟩) hr
  | number hc hcs hr =>
    rw [List.cons_append, wordOf, isLetter_of_isDigitOrPoint hc, if_neg Bool.false_ne_true,
      if_pos hc]
    exact takeWhile_append_of_ends (List.forall_mem_cons.2 ⟨hc, hcs⟩) hr
  | char hl hd _ _ => simp [wordOf, hl, hd]

theorem Munches.lexemeOf_eq (h : Munches rest word x) : lexemeOf word = x := by
  cases h with
  | word hc _ _ => rw [lexemeOf, if_pos hc]
  | number hc _ _ =>
    rw [lexemeOf, isLetter_of_isDigitOrPoint hc, if_neg Bool.false_ne_true, if_pos hc]
  | char hl hd _ _ => simp [lexemeOf, hl, hd]

theorem Munches.endsLayout (h : Munches rest word x) (more : List Char) :
    EndsLayout (word ++ more) := by
  cases h with
  | word hc _ _ =>
    refine endsLayout_of_isBlank ?_ (isBlank_of_isLetterOrDigit (isLetterOrDigit_of_isLetter hc)) _
    rintro rfl
    exact absurd hc (by decide)
  | number hc _ _ =>
    refine endsLayout_of_isBlank ?_ (isBlank_of_isDigitOrPoint hc) _
    rintro rfl
    exact absurd hc (by decide)
  | char _ _ hn hb => exact endsLayout_of_isBlank hn hb _

end Scanner

namespace Lexeme

/-- What is written for a lexeme is read as that lexeme. -/
theorem IsWritten.munches {x : Lexeme} {rest : List Char} (h : x.IsWritten)
    (hr : x.isRun = true → EndsRun rest) : Munches rest x.text.toList x := by
  -- a name is no keyword, so it is read as a name
  have word : ∀ {x : Lexeme} {c : Char} {cs : List Char}, x.text.toList = c :: cs →
      isLetter c = true → (∀ d ∈ cs, isLetterOrDigit d = true) → ofWord x.text = x →
      EndsRun rest → Munches rest x.text.toList x := by
    intro x c cs ht hc hcs hx hr
    have hm := Munches.word hc hcs fun d hd => (hr d hd).1
    rwa [← ht, String.ofList_toList, hx] at hm
  cases h with
  | define => exact word (c := 'd') rfl rfl (List.all_eq_true.1 rfl) rfl (hr rfl)
  | external => exact word (c := 'e') rfl rfl (List.all_eq_true.1 rfl) rfl (hr rfl)
  | @identifier x hx =>
    obtain ⟨⟨c, cs, ht, hc, hcs⟩, hdef, hextern⟩ := hx
    exact word ht hc hcs (by simp [ofWord, text, hdef, hextern]) (hr rfl)
  | @number text hne hall =>
    obtain ⟨c, cs, ht⟩ := List.exists_cons_of_ne_nil hne
    rw [ht] at hall
    obtain ⟨hc, hcs⟩ := List.forall_mem_cons.1 hall
    have hm := Munches.number hc hcs fun d hd => (hr rfl d hd).2
    rwa [← ht, String.ofList_toList] at hm
  | @char c hd hp hn hb =>
    have htext : (Lexeme.char c).text.toList = [c] := by simp [text]
    rw [htext]
    exact .char (isLetter_eq_false hd) (isDigitOrPoint_eq_false hd hp) hn hb

/-- What is written for a lexeme is read as a word, which is that lexeme. -/
structure IsFound (x : Lexeme) : Prop where
  word : ∀ rest, (x.isRun = true → EndsRun rest) → wordOf (x.text.toList ++ rest) = x.text.toList
  lexeme : lexemeOf x.text.toList = x
  nonempty : x.text.toList ≠ []
  endsLayout : EndsLayout x.text.toList

theorem IsWritten.isFound {x : Lexeme} (h : x.IsWritten) : x.IsFound := by
  have hm : Munches [] x.text.toList x := h.munches fun _ => by simp [EndsRun]
  constructor
  case word => exact fun rest hr => (h.munches hr).wordOf_append
  case lexeme => exact hm.lexemeOf_eq
  case nonempty => exact hm.nonempty
  case endsLayout => simpa using hm.endsLayout []

/-- What does not go on with a run does not start with one. -/
theorem IsWritten.endsRun {x : Lexeme} (h : x.IsWritten) (hr : x.isRun = false)
    (rest : List Char) : EndsRun (x.text.toList ++ rest) := by
  cases h with
  | @char c hd hp _ _ =>
    intro d he
    obtain rfl : c = d := by simpa [text] using he
    exact ⟨hd, isDigitOrPoint_eq_false hd hp⟩
  | _ => cases hr

end Lexeme

/-! ## Spellings -/

/-- Lexemes, each with layout in front of it, and layout behind the last. -/
structure Spelling where
  items : List (List Char × Lexeme)
  trailing : List Char
  items_layout : ∀ i ∈ items, Layout i.1
  trailing_layout : Layout trailing
  /-- There is some layout between two runs. -/
  parted : items.IsChain fun i j => i.2.isRun = true → j.2.isRun = true → j.1 ≠ []

namespace Spelling

def lexemes (sp : Spelling) : List Lexeme := sp.items.map Prod.snd

/-- The text of items with layout behind them. -/
def textOf (trailing : List Char) : List (List Char × Lexeme) → List Char
  | [] => trailing
  | (l, x) :: items => l ++ (x.text.toList ++ textOf trailing items)

def text (sp : Spelling) : String := String.ofList (textOf sp.trailing sp.items)

/-- What is written behind a lexeme does not go on with it. -/
theorem endsRun_textOf {trailing : List Char} {i : List Char × Lexeme}
    {items : List (List Char × Lexeme)} (hi : ∀ j ∈ items, Layout j.1 ∧ j.2.IsWritten)
    (ht : Layout trailing)
    (hp : (i :: items).IsChain fun i j => i.2.isRun = true → j.2.isRun = true → j.1 ≠ [])
    (hr : i.2.isRun = true) : EndsRun (textOf trailing items) := by
  cases items with
  | nil =>
    have := ht.endsRun (show EndsRun [] by simp [EndsRun])
    rwa [List.append_nil] at this
  | cons j items =>
    obtain ⟨l, x⟩ := j
    obtain ⟨hl, hx⟩ := hi (l, x) List.mem_cons_self
    have hpart := (List.isChain_cons_cons.1 hp).1 hr
    cases hxr : x.isRun with
    | true => exact hl.endsRun_of_ne_nil (hpart hxr) _
    | false => exact hl.endsRun (hx.endsRun hxr _)

/-- The words of a spelling are its lexemes. -/
theorem cuts_textOf {trailing : List Char} {items : List (List Char × Lexeme)}
    (hi : ∀ j ∈ items, Layout j.1 ∧ j.2.IsWritten) (ht : Layout trailing)
    (hp : items.IsChain fun i j => i.2.isRun = true → j.2.isRun = true → j.1 ≠ [])
    (before : List Char) :
    (cuts before (textOf trailing items)).map (fun c => lexemeOf c.word) = items.map Prod.snd := by
  induction items generalizing before with
  | nil =>
    have hl := ht.layoutOf_append (show EndsLayout [] by simp [EndsLayout])
    rw [List.append_nil] at hl
    rw [textOf, cuts]
    simp [hl]
  | cons i items ih =>
    obtain ⟨l, x⟩ := i
    obtain ⟨⟨hl, hx⟩, hrest⟩ := List.forall_mem_cons.1 hi
    have hf := hx.isFound
    -- the layout ends in front of the lexeme, and the lexeme in front of what is written behind it
    have hends : EndsLayout (x.text.toList ++ textOf trailing items) := by
      intro c hc
      obtain ⟨d, ds, hd⟩ := List.exists_cons_of_ne_nil hf.nonempty
      refine hf.endsLayout c ?_
      rw [hd] at hc ⊢
      exact hc
    have hlayout := hl.layoutOf_append hends
    have hword := hf.word (textOf trailing items) fun hr => endsRun_textOf hrest ht hp hr
    rw [textOf, cuts]
    simp only [hlayout, List.drop_left, hword]
    rw [if_neg (by simp [hf.nonempty]), List.map_cons, List.map_cons, ih hrest hp.tail, hf.lexeme]

/-- The tokens of a spelling have its lexemes. -/
theorem ofSource_tokens (sp : Spelling) (h : ∀ x ∈ sp.lexemes, x.IsWritten) (file : String) :
    (Upcoming.ofSource file (.ofString sp.text)).tokens.map (fun t => t.token.lexeme) =
      sp.lexemes := by
  have hi : ∀ j ∈ sp.items, Layout j.1 ∧ j.2.IsWritten := fun j hj =>
    ⟨sp.items_layout j hj, h j.2 (List.mem_map_of_mem hj)⟩
  have ht := cuts_textOf hi sp.trailing_layout sp.parted []
  rw [Upcoming.ofString_tokens, Spelling.text, String.toList_ofList, List.map_map, lexemes, ← ht]
  rfl

end Spelling

end OperatorGrammar
