import OperatorGrammar.Proofs.Scanning.Layout

/-!
S-expressions. One is a word, or a list of s-expressions in parentheses with a blank between each
two. As words have neither blanks nor parentheses in them, a text is read in one way only: no text
writes two s-expressions, and where one ends is seen from what follows. Main statements:
`chars_append_inj` and `chars_inj`.
-/

namespace OperatorGrammar

inductive SExpression where
  | word (cs : List Char)
  | list (items : List SExpression)

namespace SExpression

mutual

def chars : SExpression → List Char
  | word cs => cs
  | list items => '(' :: ((spaced items).drop 1 ++ [')'])

/-- The items of a list, a blank before each. -/
def spaced : List SExpression → List Char
  | [] => []
  | e :: es => ' ' :: (chars e ++ spaced es)

end

/-- Whether a word goes on with a character. -/
def inWord (c : Char) : Bool := c != ' ' && c != '(' && c != ')'

/-- What kinds of character stay in a word. -/
theorem inWord_of {p : Char → Bool} {c : Char} (h : p c = true) (hblank : p ' ' = false)
    (hopen : p '(' = false) (hclose : p ')' = false) : inWord c = true := by
  have hne {d : Char} (hd : p d = false) : c ≠ d := by
    rintro rfl
    rw [h] at hd
    cases hd
  simp [inWord, hne hblank, hne hopen, hne hclose]

/-- Words say something, and all of it stays in the word. -/
inductive IsWritten : SExpression → Prop where
  | word {cs : List Char} : cs ≠ [] → (∀ c ∈ cs, inWord c = true) → IsWritten (.word cs)
  | list {items : List SExpression} : (∀ e ∈ items, IsWritten e) → IsWritten (.list items)

/-- What may follow an s-expression: nothing, or what ends a word. -/
def Ends (rest : List Char) : Prop := ∀ c ∈ rest.head?, inWord c = false

theorem ends_nil : Ends [] := by
  intro c hc
  cases hc

theorem ends_cons {c : Char} (h : inWord c = false) (cs : List Char) : Ends (c :: cs) := by
  intro d hd
  obtain rfl := Option.some.inj hd
  exact h

theorem ends_spaced (es : List SExpression) (cs : List Char) : Ends (spaced es ++ ')' :: cs) := by
  cases es with
  | nil => exact ends_cons (by decide) cs
  | cons e es =>
    rw [spaced]
    exact ends_cons (by decide) _

variable {e f : SExpression} {es fs : List SExpression} {cs ds r s : List Char}

/-- An item of a list does not begin like the end of the list. -/
theorem IsWritten.exists_chars (h : e.IsWritten) : ∃ c cs, e.chars = c :: cs ∧ c ≠ ')' := by
  cases h with
  | @word cs hne hcs =>
    obtain ⟨c, cs, rfl⟩ := List.exists_cons_of_ne_nil hne
    refine ⟨c, cs, by rw [chars], ?_⟩
    rintro rfl
    exact absurd (hcs _ List.mem_cons_self) (by decide)
  | list _ => exact ⟨'(', _, by rw [chars], by decide⟩

/-- No written s-expression is a word at one time and a list at another. -/
theorem word_ne_list (hcs : ∀ c ∈ cs, inWord c = true) (hne : cs ≠ []) (es : List SExpression) :
    cs ++ r ≠ (list es).chars ++ s := by
  obtain ⟨c, cs, rfl⟩ := List.exists_cons_of_ne_nil hne
  rw [chars]
  intro h
  obtain rfl : c = '(' := (List.cons.inj h).1
  exact absurd (hcs _ List.mem_cons_self) (by decide)

/-- The items of a list are found one by one. -/
theorem spaced_append_inj
    (ih : ∀ e ∈ es, ∀ f r s, f.IsWritten → Ends r → Ends s → e.chars ++ r = f.chars ++ s →
      e = f ∧ r = s)
    (hfs : ∀ f ∈ fs, f.IsWritten) (h : spaced es ++ ')' :: r = spaced fs ++ ')' :: s) :
    es = fs ∧ r = s := by
  induction es generalizing fs with
  | nil =>
    cases fs with
    | nil => exact ⟨rfl, (List.cons.inj h).2⟩
    | cons f fs =>
      rw [spaced, spaced] at h
      exact absurd (List.cons.inj h).1 (by decide)
  | cons e es ihes =>
    cases fs with
    | nil =>
      rw [spaced, spaced] at h
      exact absurd (List.cons.inj h).1 (by decide)
    | cons f fs =>
      obtain ⟨ihe, ih'⟩ := List.forall_mem_cons.1 ih
      obtain ⟨hf, hfs'⟩ := List.forall_mem_cons.1 hfs
      simp only [spaced, List.cons_append, List.append_assoc, List.cons.injEq, true_and] at h
      obtain ⟨rfl, hrest⟩ := ihe f _ _ hf (ends_spaced es r) (ends_spaced fs s) h
      obtain ⟨rfl, hrs⟩ := ihes ih' hfs' hrest
      exact ⟨rfl, hrs⟩

theorem ne_drop_spaced (he : e.IsWritten) :
    ')' :: r ≠ (spaced (e :: es)).drop 1 ++ s := by
  obtain ⟨c, cs, hc, hne⟩ := he.exists_chars
  rw [spaced, hc]
  intro h
  exact hne (List.cons.inj h).1.symm

/-- Lists that agree behind their first blanks agree with them. -/
theorem spaced_of_drop (hes : ∀ e ∈ es, e.IsWritten) (hfs : ∀ f ∈ fs, f.IsWritten)
    (h : (spaced es).drop 1 ++ ')' :: r = (spaced fs).drop 1 ++ ')' :: s) :
    spaced es ++ ')' :: r = spaced fs ++ ')' :: s := by
  cases es with
  | nil =>
    cases fs with
    | nil => exact h
    | cons f fs => exact absurd h (ne_drop_spaced (hfs f List.mem_cons_self))
  | cons e es =>
    cases fs with
    | nil => exact absurd h.symm (ne_drop_spaced (hes e List.mem_cons_self))
    | cons f fs =>
      rw [spaced, spaced] at h ⊢
      exact congrArg (' ' :: ·) h

/-- An s-expression is found again in front of whatever ends it. -/
theorem chars_append_inj (he : e.IsWritten) (hf : f.IsWritten) (hr : Ends r) (hs : Ends s)
    (h : e.chars ++ r = f.chars ++ s) : e = f ∧ r = s := by
  induction he generalizing f r s with
  | @word cs hne hcs =>
    cases hf with
    | @word ds hne' hds =>
      rw [chars, chars] at h
      obtain ⟨rfl, hrs⟩ := append_inj_of_ends hcs hds hr hs h
      exact ⟨rfl, hrs⟩
    | @list fs hfs =>
      rw [chars] at h
      exact absurd h (word_ne_list hcs hne fs)
  | @list es hes ih =>
    cases hf with
    | @word ds hne hds =>
      rw [chars.eq_1 ds] at h
      exact absurd h.symm (word_ne_list hds hne es)
    | @list fs hfs =>
      simp only [chars, List.cons_append, List.append_assoc, List.cons.injEq, true_and,
        List.nil_append] at h
      obtain ⟨rfl, hrs⟩ := spaced_append_inj (fun e he f r s hf hr hs => ih e he hf hr hs) hfs
        (spaced_of_drop hes hfs h)
      exact ⟨rfl, hrs⟩

/-- No text writes two s-expressions. -/
theorem chars_inj (he : e.IsWritten) (hf : f.IsWritten) : e.chars = f.chars ↔ e = f := by
  refine ⟨?_, fun h => h ▸ rfl⟩
  intro h
  exact (chars_append_inj he hf ends_nil ends_nil (by rw [h])).1

end SExpression

end OperatorGrammar
