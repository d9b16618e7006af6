import Mathlib.Data.List.DropRight
import OperatorGrammar.Proofs.Literal

/-!
Patterns for the front of a text. A pattern that can match in several ways tries them in a fixed
order, so that its first match need not be its longest one. The pattern of a literal is read in two
ways, by its first match at the front of a text and by its matches with the text as a whole; the
literal that is found at the front of a text is the first match, and a text is well formed if it is
a match. Main statements: `Pattern.mem_rests_iff`, `Pattern.first?_literal` and
`Pattern.matches_literal_iff`.
-/

namespace OperatorGrammar

inductive Pattern where
  | nothing
  /-- One character of a class. -/
  | one (p : Char → Bool)
  /-- Any number of characters of a class; more of them are tried before fewer. -/
  | many (p : Char → Bool)
  /-- One pattern and another behind it. -/
  | both (first second : Pattern)
  /-- One of two patterns; the first is tried before the second. -/
  | either (first second : Pattern)

namespace Pattern

/-! ## What is left behind a match -/

/-- What is left when the characters of a class at the front of a text are taken away, first all of
them and last none. -/
def restsOfRun (p : Char → Bool) : List Char → List (List Char)
  | [] => [[]]
  | c :: cs => if p c then restsOfRun p cs ++ [c :: cs] else [c :: cs]

/-- What is left of a text behind each match at its front, in the order in which they are tried. -/
def rests : Pattern → List Char → List (List Char)
  | nothing, cs => [cs]
  | one _, [] => []
  | one p, c :: cs => if p c then [cs] else []
  | many p, cs => restsOfRun p cs
  | both a b, cs => (a.rests cs).flatMap b.rests
  | either a b, cs => a.rests cs ++ b.rests cs

/-- The first match at the front of a text. -/
def first? (a : Pattern) (cs : List Char) : Option (List Char) :=
  (a.rests cs).head?.map fun rest => cs.take (cs.length - rest.length)

/-- The texts that a pattern matches as a whole. -/
def Matches : Pattern → List Char → Prop
  | nothing, cs => cs = []
  | one p, cs => ∃ c, cs = [c] ∧ p c = true
  | many p, cs => ∀ c ∈ cs, p c = true
  | both a b, cs => ∃ front back, cs = front ++ back ∧ a.Matches front ∧ b.Matches back
  | either a b, cs => a.Matches cs ∨ b.Matches cs

/-- One character of a class at least. -/
def oneOrMore (p : Char → Bool) : Pattern := both (one p) (many p)

/-- One character of a class or none; one is tried first. -/
def oneOrNone (p : Char → Bool) : Pattern := either (one p) nothing

variable {p : Char → Bool} {a b : Pattern} {cs rest rest' : List Char}

theorem mem_restsOfRun_iff :
    rest ∈ restsOfRun p cs ↔ ∃ front, cs = front ++ rest ∧ ∀ c ∈ front, p c = true := by
  induction cs with
  | nil =>
    rw [restsOfRun, List.mem_singleton]
    constructor
    · rintro rfl
      exact ⟨[], rfl, List.forall_mem_nil _⟩
    · rintro ⟨front, h, -⟩
      exact (List.append_eq_nil_iff.1 h.symm).2
  | cons c cs ih =>
    rw [restsOfRun]
    constructor
    · intro h
      split at h
      · rename_i hc
        rcases List.mem_append.1 h with h | h
        · obtain ⟨front, rfl, hfront⟩ := ih.1 h
          exact ⟨c :: front, rfl, List.forall_mem_cons.2 ⟨hc, hfront⟩⟩
        · exact ⟨[], (List.mem_singleton.1 h).symm, List.forall_mem_nil _⟩
      · exact ⟨[], (List.mem_singleton.1 h).symm, List.forall_mem_nil _⟩
    · rintro ⟨front, h, hfront⟩
      cases front with
      | nil =>
        rw [List.nil_append] at h
        split <;> simp [h]
      | cons d front =>
        obtain ⟨rfl, rfl⟩ := List.cons.inj h
        obtain ⟨hc, hfront⟩ := List.forall_mem_cons.1 hfront
        rw [if_pos hc]
        exact List.mem_append_left _ (ih.2 ⟨front, rfl, hfront⟩)

/-- Whatever the order, what is left is what comes behind a text that the pattern matches. -/
theorem mem_rests_iff : rest ∈ a.rests cs ↔ ∃ front, cs = front ++ rest ∧ a.Matches front := by
  induction a generalizing cs rest with
  | nothing => simp [rests, Matches, eq_comm]
  | one p =>
    cases cs with
    | nil =>
      simp only [rests, Matches, List.not_mem_nil, false_iff]
      rintro ⟨_, h, c, rfl, -⟩
      cases h
    | cons c cs =>
      simp only [rests, Matches]
      constructor
      · intro h
        split at h
        · rename_i hc
          obtain rfl := List.mem_singleton.1 h
          exact ⟨[c], rfl, c, rfl, hc⟩
        · cases h
      · rintro ⟨_, h, d, rfl, hd⟩
        obtain ⟨rfl, rfl⟩ := List.cons.inj h
        rw [if_pos hd]
        exact List.mem_singleton_self _
  | many p => exact mem_restsOfRun_iff
  | both a b iha ihb =>
    simp only [rests, Matches, List.mem_flatMap]
    constructor
    · rintro ⟨middle, hm, hr⟩
      obtain ⟨front, rfl, hf⟩ := iha.1 hm
      obtain ⟨back, rfl, hb⟩ := ihb.1 hr
      exact ⟨front ++ back, (List.append_assoc ..).symm, front, back, rfl, hf, hb⟩
    · rintro ⟨_, rfl, front, back, rfl, hf, hb⟩
      exact ⟨back ++ rest, iha.2 ⟨front, List.append_assoc .., hf⟩, ihb.2 ⟨back, rfl, hb⟩⟩
  | either a b iha ihb =>
    simp only [rests, Matches, List.mem_append, iha, ihb, and_or_left, exists_or]

/-! ## First matches -/

/-- As many characters as possible are tried first. -/
theorem head?_restsOfRun (p : Char → Bool) (cs : List Char) :
    (restsOfRun p cs).head? = some (cs.dropWhile p) := by
  induction cs with
  | nil => rfl
  | cons c cs ih =>
    rw [restsOfRun, List.dropWhile_cons]
    split
    · rw [List.head?_append, ih]
      rfl
    · rfl

/-- The second of two patterns is tried behind the first match of the first one. -/
theorem head?_rests_both (h : (a.rests cs).head? = some rest)
    (h' : (b.rests rest).head? = some rest') : ((both a b).rests cs).head? = some rest' := by
  obtain ⟨others, ho⟩ := List.head?_eq_some_iff.1 h
  rw [rests, ho, List.flatMap_cons, List.head?_append, h']
  rfl

theorem first?_eq_some {front : List Char} (hcs : front ++ rest = cs)
    (h : (a.rests cs).head? = some rest) : a.first? cs = some front := by
  subst hcs
  rw [first?, h, Option.map_some, List.length_append, Nat.add_sub_cancel, List.take_left' rfl]

theorem first?_eq_none (h : a.rests cs = []) : a.first? cs = none := by
  rw [first?, h]
  rfl

theorem head?_rests_oneOrMore {c : Char} (hc : p c = true) (cs : List Char) :
    ((oneOrMore p).rests (c :: cs)).head? = some (cs.dropWhile p) := by
  have hmany : ((many p).rests cs).head? = some (cs.dropWhile p) := head?_restsOfRun p cs
  refine head?_rests_both ?_ hmany
  rw [rests, if_pos hc]
  rfl

theorem rests_oneOrMore_of_not (h : ∀ c ∈ cs.head?, p c = false) :
    (oneOrMore p).rests cs = [] := by
  cases cs with
  | nil => rfl
  | cons c cs => simp [oneOrMore, rests, h c rfl]

/-! ## Literals -/

open Text Literal

/-- Digits with a point among them or behind them, or a point with digits behind it. -/
def literal : Pattern :=
  either
    (both (oneOrMore isDecimalDigit) (both (oneOrNone (· == '.')) (many isDecimalDigit)))
    (both (one (· == '.')) (oneOrMore isDecimalDigit))

theorem matches_oneOrMore_iff :
    (oneOrMore p).Matches cs ↔ cs ≠ [] ∧ ∀ c ∈ cs, p c = true := by
  constructor
  · rintro ⟨_, back, rfl, ⟨c, rfl, hc⟩, hback⟩
    exact ⟨List.cons_ne_nil _ _, List.forall_mem_cons.2 ⟨hc, hback⟩⟩
  · rintro ⟨hne, h⟩
    obtain ⟨c, cs, rfl⟩ := List.exists_cons_of_ne_nil hne
    obtain ⟨hc, hcs⟩ := List.forall_mem_cons.1 h
    exact ⟨[c], cs, rfl, ⟨c, rfl, hc⟩, hcs⟩

/-- The pattern matches literals and nothing else. -/
theorem matches_literal_iff : literal.Matches cs ↔ IsLiteral cs := by
  constructor
  · rintro (⟨ds, _, rfl, hds, _, es, rfl, ⟨_, rfl, hp⟩ | rfl, hes⟩ |
      ⟨_, es, rfl, ⟨_, rfl, hp⟩, hes⟩)
    · obtain ⟨hne, hds⟩ := matches_oneOrMore_iff.1 hds
      obtain rfl := beq_iff_eq.1 hp
      exact .point hds hes (List.append_ne_nil_of_left_ne_nil hne es)
    · obtain ⟨hne, hds⟩ := matches_oneOrMore_iff.1 hds
      refine .whole (List.append_ne_nil_of_left_ne_nil hne _) ?_
      exact List.forall_mem_append.2 ⟨hds, hes⟩
    · obtain ⟨hne, hes⟩ := matches_oneOrMore_iff.1 hes
      obtain rfl := beq_iff_eq.1 hp
      exact .point (List.forall_mem_nil _) hes hne
  · intro h
    cases h with
    | whole hne hd =>
      exact .inl ⟨cs, [], (List.append_nil _).symm, matches_oneOrMore_iff.2 ⟨hne, hd⟩, [], [], rfl,
        .inr rfl, List.forall_mem_nil _⟩
    | @point ds es hds hes hne =>
      by_cases hnil : ds = []
      · subst hnil
        exact .inr ⟨['.'], es, rfl, ⟨'.', rfl, rfl⟩, matches_oneOrMore_iff.2 ⟨hne, hes⟩⟩
      · exact .inl ⟨ds, '.' :: es, rfl, matches_oneOrMore_iff.2 ⟨hnil, hds⟩, ['.'], es, rfl,
          .inl ⟨'.', rfl, rfl⟩, hes⟩

/-- A text is well formed if some match takes it as a whole. -/
theorem isWellFormed_iff_mem_rests :
    isWellFormed (String.ofList cs) = true ↔ [] ∈ literal.rests cs := by
  rw [isWellFormed_ofList_iff, mem_rests_iff, ← matches_literal_iff]
  simp

/-- Behind digits, a point is tried before none, and then digits. -/
theorem head?_rests_fraction (cs : List Char) :
    ((both (oneOrNone (· == '.')) (many isDecimalDigit)).rests cs).head? =
      some (((if cs.head? = some '.' then cs.tail else cs)).dropWhile isDecimalDigit) := by
  refine head?_rests_both ?_ (head?_restsOfRun _ _)
  cases cs with
  | nil => rfl
  | cons c cs =>
    by_cases hc : c = '.'
    · subst hc
      rfl
    · simp [oneOrNone, rests, hc]

/-- Behind a digit, the digits, a point and more digits are taken as far as they go. -/
theorem head?_rests_literal_cons {c : Char} (hc : isDecimalDigit c = true) (cs : List Char) :
    (literal.rests (c :: cs)).head? =
      some ((if (cs.dropWhile isDecimalDigit).head? = some '.'
        then (cs.dropWhile isDecimalDigit).tail
        else cs.dropWhile isDecimalDigit).dropWhile isDecimalDigit) := by
  rw [literal, rests, List.head?_append,
    head?_rests_both (head?_rests_oneOrMore hc cs) (head?_rests_fraction _)]
  rfl

/-- With no digit at the front, a point with digits behind it is left. -/
theorem rests_literal_of_not (h : ∀ c ∈ cs.head?, isDecimalDigit c = false) :
    literal.rests cs = (both (one (· == '.')) (oneOrMore isDecimalDigit)).rests cs := by
  have hfirst (b : Pattern) : (both (oneOrMore isDecimalDigit) b).rests cs = [] := by
    rw [rests, rests_oneOrMore_of_not h]
    rfl
  exact congrArg (· ++ _) (hfirst _)

theorem rests_literal_point (cs : List Char) :
    literal.rests ('.' :: cs) = (oneOrMore isDecimalDigit).rests cs := by
  have hpoint : ∀ c ∈ ('.' :: cs).head?, isDecimalDigit c = false := by
    intro c hc
    obtain rfl := Option.some.inj hc
    decide
  rw [rests_literal_of_not hpoint]
  exact List.append_nil _

theorem first?_literal_digit {c : Char} (hc : isDecimalDigit c = true) (cs : List Char) :
    literal.first? (c :: cs) = some (longest (c :: cs)) := by
  have hdrop := List.dropWhile_cons_of_pos hc (l := cs)
  have htake := List.takeWhile_cons_of_pos hc (l := cs)
  have hcs := List.takeWhile_append_dropWhile (p := isDecimalDigit) (l := cs)
  have hhead := head?_rests_literal_cons hc cs
  by_cases hp : ∃ rest, cs.dropWhile isDecimalDigit = '.' :: rest
  · obtain ⟨rest, hp⟩ := hp
    have hrest := List.takeWhile_append_dropWhile (p := isDecimalDigit) (l := rest)
    rw [hp] at hhead hcs
    rw [longest_of_point (hdrop.trans hp), htake, List.cons_append,
      if_neg (List.cons_ne_nil _ _)]
    refine first?_eq_some ?_ hhead
    simp [hrest, hcs]
  · have hp' : (cs.dropWhile isDecimalDigit).head? ≠ some '.' := fun h =>
      hp (List.head?_eq_some_iff.1 h)
    rw [if_neg hp', List.dropWhile_idempotent] at hhead
    rw [longest_of_no_point fun rest h => hp ⟨rest, hdrop.symm.trans h⟩, htake]
    exact first?_eq_some (congrArg (c :: ·) hcs) hhead

theorem first?_literal_point (cs : List Char) :
    literal.first? ('.' :: cs) =
      if longest ('.' :: cs) = [] then none else some (longest ('.' :: cs)) := by
  have hlongest := longest_cons_point cs
  cases cs with
  | nil => rfl
  | cons c cs =>
    by_cases hc : isDecimalDigit c = true
    · rw [List.takeWhile_cons_of_pos hc, if_neg (List.cons_ne_nil _ _)] at hlongest
      have hcs : '.' :: c :: cs.takeWhile isDecimalDigit ++ cs.dropWhile isDecimalDigit =
          '.' :: c :: cs := by
        simp
      rw [hlongest, if_neg (List.cons_ne_nil _ _)]
      refine first?_eq_some hcs ?_
      rw [rests_literal_point]
      exact head?_rests_oneOrMore hc cs
    · rw [List.takeWhile_cons_of_neg hc, if_pos rfl] at hlongest
      rw [hlongest, if_pos rfl]
      refine first?_eq_none ?_
      rw [rests_literal_point]
      exact rests_oneOrMore_of_not (by simpa using hc)

/-- The first match is the longest one. -/
theorem first?_literal (cs : List Char) :
    literal.first? cs = if longest cs = [] then none else some (longest cs) := by
  cases cs with
  | nil => rfl
  | cons c cs =>
    by_cases hc : isDecimalDigit c = true
    · rw [first?_literal_digit hc, if_neg (longest_cons_digit_ne_nil hc cs)]
    · by_cases hp : c = '.'
      · subst hp
        exact first?_literal_point cs
      · have hno : ∀ rest, (c :: cs).dropWhile isDecimalDigit ≠ '.' :: rest := by
          intro rest h
          rw [List.dropWhile_cons_of_neg hc] at h
          exact hp (List.cons.inj h).1
        rw [longest_of_no_point hno, List.takeWhile_cons_of_neg hc, if_pos rfl]
        refine first?_eq_none ?_
        rw [rests_literal_of_not (by simpa using hc), rests, rests,
          if_neg (by simpa using hp)]
        rfl

end Pattern

end OperatorGrammar
