import Mathlib.Data.List.Forall2
import OperatorGrammar.Options
import OperatorGrammar.Proofs.Consumption
import OperatorGrammar.Proofs.Literal.Run
import OperatorGrammar.Proofs.Tables

/-!
Entries as a user writes them. An entry is read back as the operator and the number that it was
written from, even if the operator is made of equals signs. Of a list of entries the first that is
refused decides; if none is, the table has the last number of each operator, and its operators in
the order in which they were mentioned first. Main statements: `parseEntry_append`,
`setEntries_eq_error_iff`, `setEntries_eq_ok_iff` and `Options.ofFlags_lastWins`.
-/

namespace OperatorGrammar

/-! ## Numbers -/

namespace Text

variable {ds : List Char}

theorem AreDigits.not_mem (h : AreDigits ds) {c : Char} (hc : c.isDigit = false) : c ∉ ds := by
  intro hm
  rw [h c hm] at hc
  cases hc

/-- Digits are an integer, and so are digits with a minus sign in front. -/
theorem integer?_digits (h : AreDigits ds) (hne : ds ≠ []) (hl : ds.length ≤ maxIntegerDigits) :
    integer? ds = some (digitsValue ds : Int) ∧
      integer? ('-' :: ds) = some (-(digitsValue ds : Int)) := by
  have hblank : ∀ c ∈ ds, isBlank c = false := fun c hc => not_isBlank_of_isDigit (h c hc)
  have hsigned : ∀ c ∈ '-' :: ds, isBlank c = false :=
    List.forall_mem_cons.2 ⟨by decide, hblank⟩
  have hungrouped := ungrouped?_of_not_mem (h.not_mem (c := '_') (by decide)) false
  constructor
  · rw [integer?, trimBlanks_of_not_isBlank hblank,
      splitSign_of_not_mem (h.not_mem (by decide)) (h.not_mem (by decide))]
    simp [hungrouped, h.allDigits?, hl]
  · rw [integer?, trimBlanks_of_not_isBlank hsigned, splitSign]
    simp [hungrouped, h.allDigits?, hl]

theorem toList_toString (n : Int) : (toString n).toList =
    if n < 0 then '-' :: Nat.toDigits 10 n.natAbs else Nat.toDigits 10 n.natAbs := by
  cases n with
  | ofNat m =>
    have hm : ¬ Int.ofNat m < 0 := Int.not_lt.2 (Int.natCast_nonneg m)
    rw [if_neg hm]
    exact Nat.toList_repr
  | negSucc m =>
    rw [if_pos (Int.negSucc_lt_zero m)]
    show ("-" ++ (m + 1).repr).toList = _
    rw [String.toList_append, Nat.toList_repr]
    rfl

/-- An integer is read back from its digits. -/
theorem integer?_toString {n : Int} (h : (Nat.toDigits 10 n.natAbs).length ≤ maxIntegerDigits) :
    integer? (toString n).toList = some n := by
  obtain ⟨hpos, hneg⟩ := integer?_digits (areDigits_toDigits n.natAbs) Nat.toDigits_ne_nil h
  rw [digitsValue_toDigits] at hpos hneg
  rw [toList_toString]
  split
  · rw [hneg, Int.ofNat_natAbs_of_nonpos (by omega), Int.neg_neg]
  · rw [hpos, Int.natAbs_of_nonneg (by omega)]

theorem equalsSign_not_mem_toString (n : Int) : '=' ∉ (toString n).toList := by
  have hd := (areDigits_toDigits n.natAbs).not_mem (c := '=') (by decide)
  rw [toList_toString]
  split
  · exact List.not_mem_cons_of_ne_of_not_mem (by decide) hd
  · exact hd

end Text

namespace PrecedenceTable

variable {t t' : PrecedenceTable} {entry : String} {entries : List String} {e : ConfigurationError}
  {m : Operator × Int} {ms : List (Operator × Int)} {c : Char}

/-! ## Reading entries -/

theorem splitAtLast_append {mark : Char} {number : List Char} (h : mark ∉ number)
    (op : List Char) : splitAtLast mark (op ++ mark :: number) = some (op, number) := by
  have hr : mark ∉ number.reverse := fun hm => h (List.mem_reverse.1 hm)
  simp [splitAtLast, List.append_assoc, Text.dropWhile_bne_append hr,
    Text.takeWhile_bne_append hr]

/-- An entry is split at its last equals sign, so any text in front of a number can be an
operator. -/
theorem parseEntry_append {op : String} {n : Int} (hop : op ≠ "")
    (hn : (Nat.toDigits 10 n.natAbs).length ≤ Text.maxIntegerDigits) :
    parseEntry (op ++ "=" ++ toString n) = .ok (op, n) := by
  have hlist : (op ++ "=" ++ toString n).toList = op.toList ++ '=' :: (toString n).toList := by
    simp [String.toList_append]
  obtain ⟨c, cs, hcs⟩ :=
    List.exists_cons_of_ne_nil fun h : op.toList = [] => hop (String.toList_eq_nil_iff.1 h)
  rw [parseEntry, hlist, splitAtLast_append (Text.equalsSign_not_mem_toString n), hcs]
  simp only [Text.integer?_toString hn]
  rw [← hcs, String.ofList_toList]

/-- What an entry asks for: an operator and its number. -/
def readEntry (entry : String) : Except ConfigurationError (Operator × Int) :=
  match parseEntry entry with
  | .error e => .error e
  | .ok (op, n) => (operator (.text op)).map (·, n)

theorem setEntry_eq (h : t.frozen = false) (entry : String) : (t.setEntry entry).map Prod.snd =
    (readEntry entry).map fun m => t.insert m.1 m.2 := by
  unfold setEntry readEntry
  cases parseEntry entry with
  | error e => rfl
  | ok parsed =>
    simp only [bind, Except.bind, set, h]
    cases operator (.text parsed.1) <;> rfl

/-- An entry is refused, either as it is written or by a table that takes changes. -/
def IsRefused (entry : String) (e : ConfigurationError) : Prop :=
  parseEntry entry = .error e ∨ ∃ op n, parseEntry entry = .ok (op, n) ∧
    ∃ t : PrecedenceTable, t.frozen = false ∧ t.set (.text op) (.integer n) = .error e

theorem set_eq_error_iff (h : t.frozen = false) {op : Value} {n : Int} :
    t.set op (.integer n) = .error e ↔ operator op = .error e := by
  unfold set
  rw [h, if_neg Bool.false_ne_true]
  cases operator op with
  | error d => simp
  | ok o => simp

theorem readEntry_eq_error_iff : readEntry entry = .error e ↔ IsRefused entry e := by
  unfold readEntry IsRefused
  cases parseEntry entry with
  | error d => simp
  | ok parsed =>
    obtain ⟨op, n⟩ := parsed
    rw [Except.map_eq_error_iff]
    constructor
    · intro h
      exact .inr ⟨op, n, rfl, empty, rfl, (set_eq_error_iff rfl).2 h⟩
    · rintro (h | ⟨op', n', h, t, ht, hset⟩)
      · cases h
      · cases h
        exact (set_eq_error_iff ht).1 hset

theorem exists_readEntry_iff : (∃ m, readEntry entry = .ok m) ↔ ∀ e, ¬ IsRefused entry e := by
  simp only [← readEntry_eq_error_iff]
  cases readEntry entry <;> simp

theorem readEntry_eq_ok_iff :
    readEntry entry = .ok m ↔ parseEntry entry = .ok (String.ofList [m.1.1], m.2) := by
  unfold readEntry
  cases parseEntry entry with
  | error d => simp
  | ok parsed =>
    obtain ⟨op, n⟩ := parsed
    rw [Except.map_eq_ok_iff]
    simp only [operator_eq_ok_iff]
    constructor
    · rintro ⟨o, ho, rfl⟩
      rw [Value.text.inj ho]
    · intro h
      cases h
      exact ⟨m.1, rfl, rfl⟩

/-! ## Setting entries in order -/

/-- Inserts numbers of operators in order. -/
def insertAll (t : PrecedenceTable) (ms : List (Operator × Int)) : PrecedenceTable :=
  ms.foldl (fun t m => t.insert m.1 m.2) t

theorem frozen_insertAll (t : PrecedenceTable) (ms : List (Operator × Int)) :
    (t.insertAll ms).frozen = t.frozen := by
  induction ms generalizing t with
  | nil => rfl
  | cons m ms ih => exact ih (t.insert m.1 m.2)

theorem setEntries_cons (h : t.frozen = false) (entry : String) (entries : List String) :
    t.setEntries (entry :: entries) =
      (readEntry entry).bind fun m => (t.insert m.1 m.2).setEntries entries := by
  rw [setEntries, List.foldlM_cons, setEntry_eq h]
  cases readEntry entry <;> rfl

/-- The first member of a list with a property is its head, or the first of its tail. -/
theorem exists_first_cons {α : Type} {P Q : α → Prop} {x : α} {xs : List α} :
    (∃ before y after, x :: xs = before ++ y :: after ∧ (∀ z ∈ before, P z) ∧ Q y) ↔
      Q x ∨ P x ∧ ∃ before y after, xs = before ++ y :: after ∧ (∀ z ∈ before, P z) ∧ Q y := by
  constructor
  · rintro ⟨_ | ⟨z, before⟩, y, after, hxs, hp, hq⟩
    · obtain ⟨rfl, rfl⟩ := List.cons.inj hxs
      exact .inl hq
    · obtain ⟨rfl, rfl⟩ := List.cons.inj hxs
      obtain ⟨hx, hp⟩ := List.forall_mem_cons.1 hp
      exact .inr ⟨hx, before, y, after, rfl, hp, hq⟩
  · rintro (hq | ⟨hx, before, y, after, rfl, hp, hq⟩)
    · exact ⟨[], x, xs, rfl, List.forall_mem_nil _, hq⟩
    · exact ⟨x :: before, y, after, rfl, List.forall_mem_cons.2 ⟨hx, hp⟩, hq⟩

/-- The first entry that is refused decides. -/
theorem setEntries_eq_error_iff (h : t.frozen = false) : t.setEntries entries = .error e ↔
    ∃ before entry after, entries = before ++ entry :: after ∧
      (∀ x ∈ before, ∃ m, readEntry x = .ok m) ∧ readEntry entry = .error e := by
  induction entries generalizing t with
  | nil => simp [setEntries, pure, Except.pure]
  | cons x entries ih =>
    rw [setEntries_cons h, exists_first_cons]
    cases readEntry x with
    | error d => simp [Except.bind]
    | ok m => simpa [Except.bind] using ih (t := t.insert m.1 m.2) h

theorem setEntries_eq_ok_iff (h : t.frozen = false) : t.setEntries entries = .ok t' ↔
    ∃ ms, entries.Forall₂ (fun entry m => readEntry entry = .ok m) ms ∧ t.insertAll ms = t' := by
  induction entries generalizing t with
  | nil => simp [setEntries, pure, Except.pure, insertAll]
  | cons x entries ih =>
    rw [setEntries_cons h]
    simp only [List.forall₂_cons_left_iff]
    cases readEntry x with
    | error d => simp [Except.bind]
    | ok m =>
      refine (ih (t := t.insert m.1 m.2) h).trans ⟨?_, ?_⟩
      · rintro ⟨ms, hms, ht⟩
        exact ⟨m :: ms, ⟨m, ms, rfl, hms, rfl⟩, ht⟩
      · rintro ⟨_, ⟨m', ms, hm, hms, rfl⟩, ht⟩
        obtain rfl := Except.ok.inj hm
        exact ⟨ms, hms, ht⟩

/-- What is not mentioned is as before. -/
theorem get?_insertAll_of_not_mem (h : c ∉ ms.map fun m => m.1.1) :
    (t.insertAll ms).get? c = t.get? c := by
  induction ms generalizing t with
  | nil => rfl
  | cons m ms ih =>
    rw [List.map_cons, List.mem_cons, not_or] at h
    exact (ih h.2).trans ((get?_insert t m.1 c m.2).trans (if_neg h.1))

/-- The last number of an operator is in the table. -/
theorem get?_insertAll_append {before after : List (Operator × Int)}
    (h : m.1.1 ∉ after.map fun m => m.1.1) :
    (t.insertAll (before ++ m :: after)).get? m.1.1 = some m.2 := by
  rw [insertAll, List.foldl_append, List.foldl_cons]
  exact (get?_insertAll_of_not_mem h).trans ((get?_insert _ m.1 _ m.2).trans (if_pos rfl))

/-- The operators that a table lists, in order of first mention. -/
def listed (t : PrecedenceTable) : List Char := t.entries.map Prod.fst

theorem map_fst_replaceOrAppend (c : Char) (n : Int) (entries : List (Char × Int)) :
    (replaceOrAppend c n entries).map Prod.fst =
      if c ∈ entries.map Prod.fst then entries.map Prod.fst else entries.map Prod.fst ++ [c] := by
  induction entries with
  | nil => rfl
  | cons d rest ih =>
    obtain ⟨d, m⟩ := d
    by_cases h : d = c
    · simp [replaceOrAppend, h]
    · rw [replaceOrAppend, if_neg h, List.map_cons, ih]
      simp only [List.map_cons, List.mem_cons, Ne.symm h, false_or]
      split <;> rfl

theorem listed_insert (t : PrecedenceTable) (o : Operator) (n : Int) :
    (t.insert o n).listed = if o.1 ∈ t.listed then t.listed else t.listed ++ [o.1] :=
  map_fst_replaceOrAppend o.1 n t.entries

/-- New operators stand behind those of the table, in the order in which they were mentioned
first. -/
theorem listed_insertAll (t : PrecedenceTable) (ms : List (Operator × Int)) :
    (t.insertAll ms).listed =
      t.listed ++ ((ms.map fun m => m.1.1).filter (· ∉ t.listed)).eraseDups := by
  induction ms using List.reverseRecOn with
  | nil => exact (List.append_nil _).symm
  | append_singleton ms m ih =>
    have hlast : t.insertAll (ms ++ [m]) = (t.insertAll ms).insert m.1 m.2 := by
      rw [insertAll, List.foldl_append]
      rfl
    rw [hlast, listed_insert, ih, List.map_append, List.filter_append, List.eraseDups_append]
    generalize (ms.map fun m => m.1.1).filter (· ∉ t.listed) = new
    by_cases ht : m.1.1 ∈ t.listed
    · simp [ht, List.removeAll]
    · by_cases hm : m.1.1 ∈ new
      · simp [ht, hm, List.removeAll]
      · simp [ht, hm, List.removeAll, List.append_assoc]
        rfl

/-- A table into which operators with numbers have been set in order, starting with `base`. -/
structure LastWins (base : PrecedenceTable) (ms : List (Operator × Int))
    (table : PrecedenceTable) : Prop where
  /-- An operator has the number that it was mentioned with last. -/
  last : ∀ before m after, ms = before ++ m :: after → m.1.1 ∉ after.map (fun m => m.1.1) →
    table.get? m.1.1 = some m.2
  /-- What is not mentioned is as before. -/
  kept : ∀ c ∉ ms.map fun m => m.1.1, table.get? c = base.get? c
  /-- New operators stand behind the others, in the order in which they were mentioned first. -/
  order : table.listed =
    base.listed ++ ((ms.map fun m => m.1.1).filter (· ∉ base.listed)).eraseDups
  takesChanges : table.frozen = false

theorem lastWins_insertAll (h : t.frozen = false) (ms : List (Operator × Int)) :
    t.LastWins ms (t.insertAll ms) where
  last := by
    rintro before m after rfl hm
    exact get?_insertAll_append hm
  kept c hc := get?_insertAll_of_not_mem hc
  order := listed_insertAll t ms
  takesChanges := (frozen_insertAll t ms).trans h

end PrecedenceTable

/-! ## Flags -/

namespace Options

open PrecedenceTable

/-- The table that the entries of a user are set into. -/
def baseTable (noDefaults : Bool) : PrecedenceTable := if noDefaults then .empty else .standard

theorem frozen_baseTable (noDefaults : Bool) : (baseTable noDefaults).frozen = false := by
  cases noDefaults <;> rfl

/-- An entry that is written from an operator and a number is read back. The first entry that is
refused is why there are no options. If none is refused, the last number of each operator counts. -/
theorem ofFlags_lastWins :
    (∀ (op : String) (n : Int), op ≠ "" → (Nat.toDigits 10 n.natAbs).length ≤ 4300 →
      parseEntry (op ++ "=" ++ toString n) = .ok (op, n)) ∧
    ∀ (entries : List String) (noDefaults lenient : Bool) (maxDepth : Int),
      (∀ e, ofFlags entries noDefaults lenient maxDepth = .error e ↔
        ∃ before entry after, entries = before ++ entry :: after ∧
          (∀ x ∈ before, ∀ e', ¬ IsRefused x e') ∧ IsRefused entry e) ∧
      ((∀ entry ∈ entries, ∀ e, ¬ IsRefused entry e) →
        ∃ table ms, ofFlags entries noDefaults lenient maxDepth =
            .ok ⟨table, maxDepth, !lenient, Collector.standardMaxErrors⟩ ∧
          entries.Forall₂ (fun entry m => parseEntry entry = .ok (String.ofList [m.1.1], m.2)) ms ∧
          (baseTable noDefaults).LastWins ms table) := by
  refine ⟨fun op n hop hn => parseEntry_append hop hn, ?_⟩
  intro entries noDefaults lenient maxDepth
  have hopen := frozen_baseTable noDefaults
  have herror : ∀ e, ofFlags entries noDefaults lenient maxDepth = .error e ↔
      ∃ before entry after, entries = before ++ entry :: after ∧
        (∀ x ∈ before, ∀ e', ¬ IsRefused x e') ∧ IsRefused entry e := by
    intro e
    refine Except.map_eq_error_iff.trans ((setEntries_eq_error_iff hopen).trans ?_)
    simp only [exists_readEntry_iff, readEntry_eq_error_iff]
  refine ⟨herror, ?_⟩
  intro hentries
  cases ht : (baseTable noDefaults).setEntries entries with
  | error e =>
    obtain ⟨before, entry, after, rfl, -, hentry⟩ := (herror e).1 (Except.map_eq_error_iff.2 ht)
    exact absurd hentry (hentries entry (by simp) e)
  | ok table =>
    obtain ⟨ms, hms, rfl⟩ := (setEntries_eq_ok_iff hopen).1 ht
    exact ⟨_, ms, Except.map_eq_ok_iff.2 ⟨_, ht, rfl⟩,
      hms.imp fun _ _ => readEntry_eq_ok_iff.1, lastWins_insertAll hopen ms⟩

/-- The number of `==` is read, and of two numbers of a slash the second counts. -/
theorem ofFlags_lastWins_slash :
    parseEntry ("==" ++ "=" ++ toString (-3 : Int)) = .ok ("==", -3) ∧
    ∃ table, ofFlags ["/=40", "+=5", "/=7"] false true 100 =
        .ok ⟨table, 100, false, Collector.standardMaxErrors⟩ ∧
      table.get? '/' = some 7 ∧ table.get? '*' = some 40 ∧
      table.listed = ['<', '+', '-', '*', '/'] := by
  obtain ⟨hread, hset⟩ := ofFlags_lastWins
  have hslash : readEntry "/=40" = .ok (⟨'/', by decide⟩, 40) := by rfl
  have hplus : readEntry "+=5" = .ok (⟨'+', by decide⟩, 5) := by rfl
  have hagain : readEntry "/=7" = .ok (⟨'/', by decide⟩, 7) := by rfl
  have hentries : ∀ entry ∈ ["/=40", "+=5", "/=7"], ∀ e, ¬ IsRefused entry e := by
    simp only [List.forall_mem_cons]
    exact ⟨exists_readEntry_iff.1 ⟨_, hslash⟩, exists_readEntry_iff.1 ⟨_, hplus⟩,
      exists_readEntry_iff.1 ⟨_, hagain⟩, List.forall_mem_nil _⟩
  obtain ⟨table, ms, htable, hms, hlast⟩ := (hset _ false true 100).2 hentries
  simp only [← readEntry_eq_ok_iff] at hms
  obtain rfl := List.right_unique_forall₂' (fun _ _ _ h h' => Except.ok.inj (h.symm.trans h')) hms
    (.cons hslash (.cons hplus (.cons hagain .nil)))
  refine ⟨hread "==" (-3) (by decide) (by decide), table, htable, ?_, ?_, hlast.order⟩
  · exact hlast.last [_, _] _ [] rfl List.not_mem_nil
  · exact hlast.kept '*' (by decide)

end Options

end OperatorGrammar
