import OperatorGrammar.Proofs.Scanning.Joined
import OperatorGrammar.Proofs.Turn

/-!
The front of a text. A word whose end has been seen stays as it is whatever comes behind it, and a
scanned token shows no more than the text up to there and one character further. So sources that
give the same answers for a while show the same tokens for as long. Main statements:
`Scanner.cuts_append` and `Upcoming.ofAnswers_sameWithin`.
-/

namespace OperatorGrammar

namespace Source

/-- The first characters of a text are the first answers of its source, up to an answer of
nothing. -/
theorem take_text {s : Source} (h : s.ended = false) (n : Nat) :
    s.text.take n = ((s.readMany n).1.takeWhile Option.isSome).filterMap id := by
  induction n generalizing s with
  | zero => rfl
  | succ n ih =>
    obtain ⟨ha, -, hrest⟩ := read_of_live h
    rw [readMany]
    dsimp only
    rw [ha]
    cases ht : s.text with
    | nil => simp
    | cons c cs =>
      obtain ⟨hlive, htail⟩ := hrest (by simp [ht])
      rw [ht, List.tail_cons] at htail
      rw [List.take_succ_cons, ← htail, ih hlive]
      rfl

end Source

namespace Scanner

variable {text rest : List Char}

/-! ## Words -/

/-- A word that ends within a text ends there, whatever comes behind the text. -/
theorem wordOf_append_of_ne (h : wordOf text ≠ text) (more : List Char) :
    wordOf (text ++ more) = wordOf text := by
  have run : ∀ {p : Char → Bool} {cs : List Char}, cs.takeWhile p ≠ cs →
      (cs ++ more).takeWhile p = cs.takeWhile p := by
    intro p cs hcs
    rw [List.takeWhile_append, if_neg]
    exact fun hlen => hcs ((List.takeWhile_prefix p).eq_of_length hlen)
  cases text with
  | nil => exact absurd rfl h
  | cons c cs =>
    rw [List.cons_append, wordOf, wordOf]
    rw [wordOf] at h
    split_ifs at h ⊢ with hl hd
    · exact run h
    · exact run h
    · rfl

/-- A word that ends where a text does may go on behind it. -/
theorem prefix_wordOf_append (h : wordOf text = text) (more : List Char) :
    text <+: wordOf (text ++ more) := by
  have run : ∀ {p : Char → Bool} {cs : List Char}, cs.takeWhile p = cs →
      cs <+: (cs ++ more).takeWhile p := by
    intro p cs hcs
    rw [List.takeWhile_append, hcs, if_pos rfl]
    exact List.prefix_append cs _
  cases text with
  | nil => exact List.nil_prefix
  | cons c cs =>
    rw [List.cons_append, wordOf]
    rw [wordOf] at h
    split_ifs at h ⊢ with hl hd
    · exact run h
    · exact run h
    · exact h ▸ List.prefix_rfl

/-- Layout that ends where a text does may go on behind it. -/
theorem prefix_layoutOf_append {inComment : Bool} (h : layoutOf inComment text = text)
    (more : List Char) : text <+: layoutOf inComment (text ++ more) := by
  induction text generalizing inComment with
  | nil => exact List.nil_prefix
  | cons c cs ih =>
    rw [List.cons_append, layoutOf]
    rw [layoutOf] at h
    split_ifs at h ⊢
    all_goals
      obtain ⟨-, h⟩ := List.cons.inj h
      exact List.cons_prefix_cons.2 ⟨rfl, ih h⟩

/-- Behind a first word, no word ends earlier. -/
theorem le_length_upTo_of_word {before layout : List Char} {n : Nat}
    (h : layoutOf false (layout ++ text) = layout) (hne : text ≠ [])
    (hn : n ≤ (before ++ layout ++ wordOf text).length) :
    ∀ c ∈ cuts before (layout ++ text), n ≤ c.upTo.length := by
  rw [cuts_of_word h hne]
  refine List.forall_mem_cons.2 ⟨hn, fun c hc => ?_⟩
  have hle := (mem_cuts c hc).behind.length_le
  rw [Cut.upTo, List.length_append]
  omega

/-- The words that end within a text are found in it whatever comes behind it, and the others reach
to its end at least. -/
theorem cuts_append (before rest : List Char) : ∃ cs : List Cut,
    (∀ c ∈ cs, c.upTo.length < (before ++ rest).length) ∧
    ∀ more, ∃ ds, cuts before (rest ++ more) = cs ++ ds ∧
      ∀ d ∈ ds, (before ++ rest).length ≤ d.upTo.length := by
  induction before, rest using cuts_induction with
  | layout before rest hall =>
    refine ⟨[], List.forall_mem_nil _, fun more => ⟨_, rfl, ?_⟩⟩
    have hlayout := prefix_layoutOf_append hall more
    rcases layoutOf_cases (rest ++ more) with hmore | ⟨layout, text, he, hne, hl⟩
    · rw [cuts_of_layout hmore]
      exact List.forall_mem_nil _
    · rw [he] at hlayout ⊢
      rw [hl] at hlayout
      have hle := hlayout.length_le
      refine le_length_upTo_of_word hl hne ?_
      simp only [List.length_append]
      omega
  | word before layout text hl hne ih =>
    have htext := wordOf_append_drop text
    have hlayout : ∀ more, layoutOf false (layout ++ (text ++ more)) = layout := by
      intro more
      rw [← List.append_assoc, layoutOf_append_of_ne, hl]
      rw [hl]
      simpa using hne
    have hne' : ∀ more, text ++ more ≠ [] := fun more => List.append_ne_nil_of_left_ne_nil hne more
    by_cases hword : wordOf text = text
    · -- the only word reaches to the end
      refine ⟨[], List.forall_mem_nil _, fun more => ⟨_, rfl, ?_⟩⟩
      rw [List.append_assoc]
      have hle := (prefix_wordOf_append hword more).length_le
      refine le_length_upTo_of_word (hlayout more) (hne' more) ?_
      simp only [List.length_append]
      omega
    · obtain ⟨cs, hcs, hds⟩ := ih
      have hall : before ++ layout ++ wordOf text ++ text.drop (wordOf text).length =
          before ++ (layout ++ text) := by
        rw [List.append_assoc, htext, List.append_assoc]
      rw [hall] at hcs hds
      refine ⟨⟨before ++ layout, wordOf text⟩ :: cs, List.forall_mem_cons.2 ⟨?_, hcs⟩, ?_⟩
      · have hrest : text.drop (wordOf text).length ≠ [] := by
          intro hnil
          rw [hnil, List.append_nil] at htext
          exact hword htext
        show (before ++ layout ++ wordOf text).length < (before ++ (layout ++ text)).length
        have hpos := List.length_pos_iff.2 hrest
        rw [← hall]
        simp only [List.length_append]
        omega
      · intro more
        obtain ⟨ds, hcuts, hle⟩ := hds more
        refine ⟨ds, ?_, hle⟩
        have hle' : (wordOf text).length ≤ text.length := List.IsPrefix.length_le ⟨_, htext⟩
        rw [List.append_assoc, cuts_of_word (hlayout more) (hne' more), wordOf_append_of_ne hword,
          List.drop_append_of_le_length hle', hcuts, List.cons_append]

end Scanner

namespace Upcoming

open Scanner

/-- Inputs with the same tokens as far as one comes with so many requests: they are the same, or
behind some tokens that are the same, both need more. -/
inductive SameWithin (requests : Nat) (u : Upcoming) : Upcoming → Prop where
  | refl : SameWithin requests u u
  | front {us : List Scanned} {v u' v' : Upcoming} : u.Moves us u' → v.Moves us v' →
    requests < u'.head.requests → requests < v'.head.requests → SameWithin requests u v

variable {u v w : Upcoming} {us : List Scanned} {n : Nat}

theorem alike_of_head? {ts vs : List Scanned} (h : vs.head? = ts.head?) : Alike ts vs := by
  cases ts with
  | nil =>
    obtain rfl := List.head?_eq_none_iff.1 h
    exact .nothing
  | cons t ts =>
    obtain ⟨vs, rfl⟩ := List.head?_eq_some_iff.1 h
    exact .token t ts vs

/-- Moving on takes no request back. -/
theorem Ordered.requests_le (ho : u.Ordered) (hm : u.Moves us v) :
    u.head.requests ≤ v.head.requests := by
  cases us with
  | nil =>
    obtain rfl := hm.eq_of_nil
    exact Nat.le_refl _
  | cons a us =>
    have ht := hm.tokens
    obtain ⟨-, hi, hb⟩ := ho
    rw [head_of_tokens ht]
    rw [ht] at hi hb
    cases hv : v.tokens with
    | nil =>
      rw [head, hv, hm.last]
      exact hb a List.mem_cons_self
    | cons b vs =>
      rw [head_of_tokens hv]
      rw [hv] at hi
      exact Nat.le_of_lt ((List.pairwise_cons.1 hi).1 b (by simp))

theorem Moves.right_unique (h : u.Moves us v) (h' : u.Moves us w) : w = v :=
  Moves.eq_of_nil ⟨List.append_cancel_left (h.tokens.symm.trans h'.tokens), h'.last.trans h.last.symm⟩

/-- Where one comes with so many requests, one comes to the same token in an input with the same
tokens. -/
theorem SameWithin.moves (h : u.SameWithin n v) (ho : u.Ordered) (hm : u.Moves us w)
    (hw : w.head.requests ≤ n) :
    ∃ w', v.Moves us w' ∧ w.SameWithin n w' ∧ w'.head = w.head ∧
      w'.tokens.head? = w.tokens.head? := by
  cases h with
  | refl => exact ⟨w, hm, .refl, rfl, rfl⟩
  | @front ks v u' v' hu hv hu' hv' =>
    rcases List.append_eq_append_iff.1 (hm.tokens.symm.trans hu.tokens) with
      ⟨bs, rfl, hrest⟩ | ⟨bs, rfl, hrest⟩
    · have hmore : w.Moves bs u' := ⟨hrest, hu.last.trans hm.last.symm⟩
      cases bs with
      | nil =>
        obtain rfl := hmore.eq_of_nil
        omega
      | cons b bs =>
        obtain ⟨hfirst, hrest'⟩ := hv.of_append
        refine ⟨_, hfirst, .front hmore hrest' hu' hv', ?_, ?_⟩
        · rw [head_of_tokens hrest, head_of_tokens rfl]
        · rw [hrest]
          rfl
    · -- the place lies behind one for which more is needed
      have hle := (ho.of_moves hu).requests_le ⟨hrest, hm.last.trans hu.last.symm⟩
      omega

/-- At a place to which one comes with so many requests, the lookahead is the same. -/
theorem SameWithin.head_eq (h : u.SameWithin n v) (ho : u.Ordered) (hn : u.head.requests ≤ n) :
    v.head = u.head ∧ v.tokens.head? = u.tokens.head? := by
  obtain ⟨w, hm, -, hhead⟩ := h.moves ho (.refl u) hn
  obtain rfl := hm.eq_of_nil
  exact hhead

/-- So it is when one moves on by one token. -/
theorem SameWithin.advance (h : u.SameWithin n v) (ho : u.Ordered)
    (hn : u.advance.head.requests ≤ n) :
    u.advance.SameWithin n v.advance ∧ v.advance.head = u.advance.head := by
  have hm := u.moves_advance
  obtain ⟨-, hfirst⟩ := h.head_eq ho (Nat.le_trans (ho.requests_le hm) hn)
  obtain ⟨w, hw, hsame, hhead, -⟩ := h.moves ho hm hn
  rw [List.take_one, ← hfirst, ← List.take_one] at hw
  obtain rfl := v.moves_advance.right_unique hw
  exact ⟨hsame, hhead⟩

/-- The words that reach to the end of a front are scanned with more requests than it has
characters. -/
theorem lt_requests_of_front {file : String} {front more : List Char} {ds : List Cut}
    (hu : u.last = ending file (front ++ more)) (h : ∀ d ∈ ds, front.length ≤ d.upTo.length) :
    front.length <
      (u.withTokens (ds.map (·.scanned file (front ++ more)))).head.requests := by
  cases ds with
  | nil =>
    show front.length < u.last.requests
    rw [hu]
    simp only [ending, List.length_append]
    omega
  | cons d ds => exact Nat.lt_succ_of_le (h d List.mem_cons_self)

/-- Sources that give the same answers to so many requests hand out the same tokens as far as one
comes with these. -/
theorem ofAnswers_sameWithin (file : String) {answers answers' : List (Option Char)}
    {remembersEnd remembersEnd' : Bool}
    (h : ((Source.ofAnswers answers' remembersEnd').readMany n).1 =
      ((Source.ofAnswers answers remembersEnd).readMany n).1) :
    (ofSource file (.ofAnswers answers remembersEnd)).SameWithin n
      (ofSource file (.ofAnswers answers' remembersEnd')) := by
  have htext := Source.take_text (s := .ofAnswers answers remembersEnd) rfl n
  rw [← h, ← Source.take_text rfl] at htext
  obtain ⟨htokens, hlast⟩ := ofAnswers_spec file answers remembersEnd
  obtain ⟨htokens', hlast'⟩ := ofAnswers_spec file answers' remembersEnd'
  generalize (Source.ofAnswers answers remembersEnd).text = text at *
  generalize (Source.ofAnswers answers' remembersEnd').text = text' at *
  by_cases hn : text.length < n
  · -- the end of the text has been seen
    rw [List.take_of_length_le (Nat.le_of_lt hn)] at htext
    have hlength := congrArg List.length htext
    rw [List.length_take] at hlength
    rw [List.take_of_length_le (by omega)] at htext
    subst htext
    have hsame : (ofSource file (.ofAnswers answers remembersEnd)).Moves []
        (ofSource file (.ofAnswers answers' remembersEnd')) :=
      ⟨htokens.trans htokens'.symm, hlast'.trans hlast.symm⟩
    rw [hsame.eq_of_nil]
    exact .refl
  · have hfront : (text.take n).length = n := List.length_take_of_le (Nat.le_of_not_lt hn)
    have hmore := List.take_append_drop n text
    have hmore' := List.take_append_drop n text'
    rw [← htext] at hmore'
    generalize text.take n = front at *
    generalize text.drop n = more at *
    generalize text'.drop n = more' at *
    subst hmore hmore' hfront
    obtain ⟨cs, hcs, hds⟩ := cuts_append [] front
    obtain ⟨ds, hcuts, hle⟩ := hds more
    obtain ⟨ds', hcuts', hle'⟩ := hds more'
    have hseen : cs.map (·.scanned file (front ++ more')) =
        cs.map (·.scanned file (front ++ more)) := by
      refine List.map_congr_left fun c hc => ?_
      have hlt : c.upTo.length + 1 ≤ front.length := hcs c hc
      rw [Cut.scanned, Cut.scanned, List.take_append_of_le_length hlt,
        List.take_append_of_le_length hlt]
    rw [hcuts, List.map_append] at htokens
    rw [hcuts', List.map_append, hseen] at htokens'
    exact .front (moves_withTokens htokens) (moves_withTokens htokens')
      (lt_requests_of_front hlast hle) (lt_requests_of_front hlast' hle')

end Upcoming

end OperatorGrammar
