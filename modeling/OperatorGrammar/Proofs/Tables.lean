import Mathlib.Data.List.Induction
import OperatorGrammar.Precedence

/-!
Operator tables as a caller holds them: by reference. Each table refers to a map of entries, which
calls read and write, and no two tables refer to the same map. So calls do to the tables that are
held what they would do to plain values. Main statements: `TableStore.call_apply`, what one call
does, and `TableStore.callAll_kept`.
-/

namespace OperatorGrammar

/-! ## Tables from entries -/

namespace PrecedenceTable

variable {t : PrecedenceTable} {c : Char}

/-- What can be told of an operator: it is one character of printable ASCII, no letter, no digit, no
blank, and none that the grammar keeps. -/
structure IsOperatorCharacter (c : Char) : Prop where
  printable : 0x20 ≤ c.toNat ∧ c.toNat < 0x7F
  not_alphanumeric : c.isAlphanum = false
  not_whitespace : c.isWhitespace = false
  not_reserved : c ∉ ['(', ')', ',', ';', '.', '#']

theorem isUsable_iff : isUsable c = true ↔ IsOperatorCharacter c := by
  simp only [isUsable, isPrintableAscii, isTaken, isReserved, Bool.and_eq_true, decide_eq_true_eq,
    Bool.not_eq_true', Bool.or_eq_false_iff, beq_eq_false_iff_ne]
  constructor
  · rintro ⟨hp, ⟨ha, hb⟩, hr⟩
    refine ⟨hp, ha, ?_, by simpa [and_assoc] using hr⟩
    have hlow : ∀ d : Char, d.toNat < 0x20 → c ≠ d := by
      rintro d hd rfl
      omega
    simp [Char.isWhitespace, hb, hlow '\t' (by decide), hlow '\r' (by decide),
      hlow '\n' (by decide)]
  · rintro ⟨hp, ha, hw, hr⟩
    refine ⟨hp, ⟨ha, ?_⟩, by simpa [and_assoc] using hr⟩
    rintro rfl
    cases hw

theorem operator_of_isUsable (h : isUsable c = true) :
    operator (.text (String.ofList [c])) = .ok ⟨c, h⟩ := by
  obtain ⟨hp, ht⟩ : isPrintableAscii c = true ∧ isTaken c = false := by simpa [isUsable] using h
  simp [operator, hp, ht]

theorem operator_eq_ok_iff {v : Value} {o : Operator} :
    operator v = .ok o ↔ v = .text (String.ofList [o.1]) := by
  constructor
  · unfold operator
    split
    · rename_i s
      split
      · rename_i c hs
        split
        · split
          · intro h; cases h
          · intro h
            obtain rfl := Except.ok.inj h
            rw [← hs, String.ofList_toList]
        · intro h; cases h
      · intro h; cases h
    · intro h; cases h
  · rintro rfl
    exact operator_of_isUsable o.2

theorem set_eq_ok_iff {op precedence : Value} {t' : PrecedenceTable} :
    t.set op precedence = .ok t' ↔ t.frozen = false ∧ ∃ (o : Operator) (n : Int),
      op = .text (String.ofList [o.1]) ∧ precedence = .integer n ∧ t' = t.insert o n := by
  constructor
  · unfold set
    split
    · intro h; cases h
    · rename_i hf
      split
      · intro h; cases h
      · rename_i o n ho
        intro h
        exact ⟨by simpa using hf, o, n, operator_eq_ok_iff.1 ho, rfl, (Except.ok.inj h).symm⟩
      · intro h; cases h
  · rintro ⟨hf, o, n, rfl, rfl, rfl⟩
    have ho := operator_eq_ok_iff.2 (rfl : Value.text (String.ofList [o.1]) = _)
    unfold set
    rw [ho, hf]
    rfl

theorem ext_of {t t' : PrecedenceTable} (he : t.entries = t'.entries) (hf : t.frozen = t'.frozen) :
    t = t' := by
  obtain ⟨entries, frozen, hu, hn⟩ := t
  obtain ⟨entries', frozen', hu', hn'⟩ := t'
  obtain rfl : entries = entries' := he
  obtain rfl : frozen = frozen' := hf
  rfl

/-- An entry as a caller gives it. -/
def given (e : Char × Int) : Value × Value := (.text (String.ofList [e.1]), .integer e.2)

theorem replaceOrAppend_of_not_mem {entries : List (Char × Int)}
    (h : c ∉ entries.map Prod.fst) (n : Int) :
    replaceOrAppend c n entries = entries ++ [(c, n)] := by
  induction entries with
  | nil => rfl
  | cons d rest ih =>
    obtain ⟨e, m⟩ := d
    rw [List.map_cons, List.mem_cons, not_or] at h
    rw [replaceOrAppend, if_neg (Ne.symm h.1), ih h.2, List.cons_append]

/-- Entries with different operators are a map already. -/
theorem distinct_given {entries : List (Char × Int)} (h : (entries.map Prod.fst).Nodup) :
    distinct (entries.map given) = entries.map given := by
  induction entries using List.reverseRecOn with
  | nil => rfl
  | append_singleton entries e ih =>
    rw [List.map_append, List.nodup_append] at h
    obtain ⟨hn, -, hne⟩ := h
    have hnew : (entries.map given).any (fun f => f.1.same (given e).1) = false := by
      rw [List.any_eq_false]
      intro f hf
      obtain ⟨d, hd, rfl⟩ := List.mem_map.1 hf
      have hde := hne d.1 (List.mem_map_of_mem hd) e.1 (by simp)
      simpa [given, Value.same] using hde
    have hfold := ih hn
    rw [distinct] at hfold ⊢
    rw [List.map_append, List.foldl_append, hfold]
    simp only [List.map_cons, List.map_nil, List.foldl_cons, List.foldl_nil, hnew,
      Bool.false_eq_true, if_false]

/-- Setting the entries of a map in order gives the map back. -/
theorem setAll_given {t : PrecedenceTable} {entries : List (Char × Int)} (hf : t.frozen = false)
    (hu : ∀ e ∈ entries, isUsable e.1 = true)
    (hn : ((t.entries ++ entries).map Prod.fst).Nodup) :
    ∃ t', t.setAll (entries.map given) = .ok t' ∧ t'.entries = t.entries ++ entries ∧
      t'.frozen = false := by
  induction entries generalizing t with
  | nil => exact ⟨t, rfl, (List.append_nil _).symm, hf⟩
  | cons e entries ih =>
    obtain ⟨he, hu⟩ := List.forall_mem_cons.1 hu
    have hset : t.set (given e).1 (given e).2 = .ok (t.insert ⟨e.1, he⟩ e.2) :=
      set_eq_ok_iff.2 ⟨hf, ⟨e.1, he⟩, e.2, rfl, rfl, rfl⟩
    have hentries : (t.insert ⟨e.1, he⟩ e.2).entries = t.entries ++ [e] := by
      refine replaceOrAppend_of_not_mem ?_ e.2
      rw [List.map_append, List.nodup_append] at hn
      intro hm
      exact hn.2.2 e.1 hm e.1 (List.mem_map_of_mem List.mem_cons_self) rfl
    obtain ⟨t', ht, hall, hopen⟩ := ih (t := t.insert ⟨e.1, he⟩ e.2) hf hu (by
      rw [hentries]
      simpa using hn)
    refine ⟨t', ?_, ?_, hopen⟩
    · rw [List.map_cons, setAll, List.foldlM_cons, hset]
      exact ht
    · rw [hall, hentries, List.append_assoc, List.singleton_append]

/-- A copy is a table of the same entries. Each of them is looked at again, and none is refused. -/
theorem ofEntries_given (t : PrecedenceTable) : ofEntries (t.entries.map given) = .ok t.copy := by
  have hkeys : (t.entries.map given).find? (fun e => !e.1.isKey) = none := by
    rw [List.find?_eq_none]
    intro f hf
    obtain ⟨e, -, rfl⟩ := List.mem_map.1 hf
    simp [given, Value.isKey]
  obtain ⟨t', ht, hentries, hopen⟩ :=
    setAll_given (t := empty) rfl t.entries_usable t.entries_nodup
  have hcopy : t' = t.copy := ext_of hentries hopen
  rw [ofEntries, hkeys, distinct_given t.entries_nodup]
  exact ht.trans (congrArg _ hcopy)

end PrecedenceTable

/-! ## Tables by reference -/

/-- The entries that a table refers to. -/
structure EntryMap where
  entries : List (Char × Int)
  usable : ∀ e ∈ entries, PrecedenceTable.isUsable e.1 = true
  nodup : (entries.map Prod.fst).Nodup

def EntryMap.table (m : EntryMap) (frozen : Bool) : PrecedenceTable :=
  ⟨m.entries, frozen, m.usable, m.nodup⟩

def PrecedenceTable.entryMap (t : PrecedenceTable) : EntryMap :=
  ⟨t.entries, t.entries_usable, t.entries_nodup⟩

@[simp] theorem PrecedenceTable.table_entryMap (t : PrecedenceTable) :
    t.entryMap.table t.frozen = t := rfl

/-- A table that is held. -/
structure TableRef where
  /-- Where its entries are. -/
  map : Nat
  frozen : Bool

structure TableStore where
  maps : List EntryMap
  /-- The tables that are held, in the order in which they were made. -/
  refs : List TableRef

/-- What a table can be made from. -/
inductive TableSource where
  | mapping (entries : List (Value × Value))
  | table (i : Nat)
  /-- Anything else. -/
  | value (v : Value)

inductive TableCall where
  | create (source : TableSource)
  | default
  | copy (i : Nat)
  | freeze (i : Nat)
  | set (i : Nat) (operator precedence : Value)

/-- Why a call is refused. -/
inductive TableRefusal where
  | configuration (e : ConfigurationError)
  /-- A table is made from what is no mapping. -/
  | notAMapping (kind : ValueKind)
  /-- No such table is held. -/
  | noTable

/-- Makes a table. What says nothing gives an empty one. -/
def TableSource.make (tables : List PrecedenceTable) : TableSource → Except TableRefusal PrecedenceTable
  | mapping entries => (PrecedenceTable.ofEntries entries).mapError .configuration
  | table i =>
    match tables[i]? with
    | none => .error .noTable
    | some t => (PrecedenceTable.ofEntries (t.entries.map PrecedenceTable.given)).mapError
        .configuration
  | value (.record fields) =>
    (PrecedenceTable.ofEntries (fields.map fun f => (.text f.1, f.2))).mapError .configuration
  | value v => if v.isVoid then .ok .empty else .error (.notAMapping v.kind)

namespace TableStore

/-- Nothing is held. The standard entries are the first map. -/
def initial : TableStore := ⟨[PrecedenceTable.standard.entryMap], []⟩

/-- The table that is referred to. -/
def tableAt (s : TableStore) (r : TableRef) : PrecedenceTable :=
  (s.maps[r.map]?.getD PrecedenceTable.empty.entryMap).table r.frozen

def tables (s : TableStore) : List PrecedenceTable := s.refs.map s.tableAt

/-- Holds a table that has been made, with a map of its own. -/
def hold (s : TableStore) : Except TableRefusal PrecedenceTable → Except TableRefusal Nat × TableStore
  | .error e => (.error e, s)
  | .ok t =>
    (.ok s.refs.length, ⟨s.maps ++ [t.entryMap], s.refs ++ [⟨s.maps.length, t.frozen⟩]⟩)

/-- Overwrites a map. -/
def write (s : TableStore) (place : Nat) (m : EntryMap) : TableStore :=
  { s with maps := s.maps.set place m }

/-- One call. It answers with the table that it is about, or is refused. -/
def call (s : TableStore) : TableCall → Except TableRefusal Nat × TableStore
  | .create source => s.hold (source.make s.tables)
  | .default =>
    s.hold ((PrecedenceTable.ofEntries
      ((s.tableAt ⟨0, false⟩).entries.map PrecedenceTable.given)).mapError .configuration)
  | .copy i => s.hold ((TableSource.table i).make s.tables)
  | .freeze i =>
    match s.refs[i]? with
    | none => (.error .noTable, s)
    | some r => (.ok i, { s with refs := s.refs.set i { r with frozen := true } })
  | .set i operator precedence =>
    match s.refs[i]? with
    | none => (.error .noTable, s)
    | some r =>
      match (s.tableAt r).set operator precedence with
      | .error e => (.error (.configuration e), s)
      | .ok t => (.ok i, s.write r.map t.entryMap)

/-- Calls one after another. -/
def callAll (s : TableStore) (calls : List TableCall) : TableStore :=
  calls.foldl (fun s c => (s.call c).2) s

/-- Each table has a map of its own, and none has that of the standard entries. -/
structure WellFormed (s : TableStore) : Prop where
  standard : s.maps[0]? = some PrecedenceTable.standard.entryMap
  bounds : ∀ r ∈ s.refs, 0 < r.map ∧ r.map < s.maps.length
  distinct : (s.refs.map TableRef.map).Nodup

theorem initial_wellFormed : initial.WellFormed := ⟨rfl, List.forall_mem_nil _, .nil⟩

variable {s : TableStore} {r : TableRef} {i : Nat}

theorem getElem?_tables (s : TableStore) (j : Nat) :
    s.tables[j]? = s.refs[j]?.map s.tableAt :=
  List.getElem?_map ..

theorem hold_tables (h : s.WellFormed) (t : PrecedenceTable) :
    (s.hold (.ok t)).2.WellFormed ∧ (s.hold (.ok t)).2.tables = s.tables ++ [t] := by
  obtain ⟨hstandard, hbounds, hdistinct⟩ := h
  have hpos : 0 < s.maps.length := (List.getElem?_eq_some_iff.1 hstandard).1
  refine ⟨⟨?_, ?_, ?_⟩, ?_⟩
  · exact (List.getElem?_append_left hpos).trans hstandard
  · intro r hr
    simp only [hold, List.length_append, List.length_singleton] at hr ⊢
    rcases List.mem_append.1 hr with hr | hr
    · have := hbounds r hr
      omega
    · obtain rfl := List.mem_singleton.1 hr
      exact ⟨hpos, Nat.lt_succ_self _⟩
  · simp only [hold, List.map_append, List.map_cons, List.map_nil]
    refine List.nodup_append.2 ⟨hdistinct, by simp, ?_⟩
    -- the new map lies behind all others
    intro a ha b hb
    obtain ⟨r, hr, rfl⟩ := List.mem_map.1 ha
    obtain rfl := List.mem_singleton.1 hb
    exact Nat.ne_of_lt (hbounds r hr).2
  · simp only [hold, tables, List.map_append, List.map_cons, List.map_nil]
    congr 1
    · refine List.map_congr_left fun r hr => ?_
      rw [tableAt, tableAt, List.getElem?_append_left (hbounds r hr).2]
    · simp [tableAt]

/-- Different tables that are held have different maps. -/
theorem WellFormed.map_ne (h : s.WellFormed) {j : Nat} {q : TableRef} (hr : s.refs[i]? = some r)
    (hq : s.refs[j]? = some q) (hij : j ≠ i) : q.map ≠ r.map := by
  intro he
  have hlt : i < (s.refs.map TableRef.map).length := by
    rw [List.length_map]
    exact (List.getElem?_eq_some_iff.1 hr).1
  refine hij ((List.getElem?_inj hlt h.distinct).1 ?_).symm
  rw [List.getElem?_map, List.getElem?_map, hr, hq, Option.map_some, Option.map_some, he]

theorem write_tables (h : s.WellFormed) (hr : s.refs[i]? = some r) (m : EntryMap) :
    (s.write r.map m).WellFormed ∧
      (s.write r.map m).tables = s.tables.set i (m.table r.frozen) := by
  obtain ⟨hpos, hlt⟩ := h.bounds r (List.mem_of_getElem? hr)
  refine ⟨⟨?_, ?_, h.distinct⟩, List.ext_getElem? fun j => ?_⟩
  · exact (List.getElem?_set_ne (Nat.ne_of_gt hpos)).trans h.standard
  · intro q hq
    rw [write, List.length_set]
    exact h.bounds q hq
  · have hrefs : (s.write r.map m).refs = s.refs := rfl
    rw [getElem?_tables, List.getElem?_set, getElem?_tables, tables, List.length_map, hrefs]
    by_cases hj : i = j
    · subst hj
      rw [if_pos rfl, if_pos (List.getElem?_eq_some_iff.1 hr).1, hr, Option.map_some, tableAt,
        write, List.getElem?_set_self hlt, Option.getD_some]
    · rw [if_neg hj]
      refine Option.map_congr fun q hq => ?_
      have hne := h.map_ne hr hq (Ne.symm hj)
      rw [tableAt, tableAt, write, List.getElem?_set_ne (Ne.symm hne)]

theorem freeze_tables (h : s.WellFormed) (hr : s.refs[i]? = some r) :
    { s with refs := s.refs.set i { r with frozen := true } }.WellFormed ∧
      { s with refs := s.refs.set i { r with frozen := true } }.tables =
        s.tables.set i (s.tableAt r).freeze := by
  refine ⟨⟨h.standard, ?_, ?_⟩, List.map_set⟩
  · intro q hq
    rcases List.mem_or_eq_of_mem_set hq with hq | rfl
    · exact h.bounds q hq
    · exact h.bounds r (List.mem_of_getElem? hr)
  · have hmaps : (s.refs.set i { r with frozen := true }).map TableRef.map =
        s.refs.map TableRef.map := by
      refine List.ext_getElem? fun j => ?_
      rw [List.getElem?_map, List.getElem?_map, List.getElem?_set]
      split
      · rename_i hj
        subst hj
        rw [if_pos (List.getElem?_eq_some_iff.1 hr).1, hr]
        rfl
      · rfl
    rw [hmaps]
    exact h.distinct

end TableStore

/-! ## Calls -/

/-- What a call does where tables are plain values: no call to one table is a call to another. -/
def TableCall.apply (tables : List PrecedenceTable) :
    TableCall → Except TableRefusal Nat × List PrecedenceTable
  | create source =>
    match source.make tables with
    | .error e => (.error e, tables)
    | .ok t => (.ok tables.length, tables ++ [t])
  | default => (.ok tables.length, tables ++ [.standard])
  | copy i =>
    match tables[i]? with
    | none => (.error .noTable, tables)
    | some t => (.ok tables.length, tables ++ [t.copy])
  | freeze i =>
    match tables[i]? with
    | none => (.error .noTable, tables)
    | some t => (.ok i, tables.set i t.freeze)
  | set i operator precedence =>
    match tables[i]? with
    | none => (.error .noTable, tables)
    | some t =>
      match t.set operator precedence with
      | .error e => (.error (.configuration e), tables)
      | .ok t' => (.ok i, tables.set i t')

/-- The table that a call may change. -/
def TableCall.target? : TableCall → Option Nat
  | freeze i | set i _ _ => some i
  | create _ | default | copy _ => none

/-- All that a call can do: be refused, make a table, freeze one, or set an entry of an open one. -/
inductive TableCall.Does (tables : List PrecedenceTable) (c : TableCall) :
    Except TableRefusal Nat × List PrecedenceTable → Prop where
  | refuses (e : TableRefusal) : Does tables c (.error e, tables)
  | makes (t : PrecedenceTable) : c.target? = none →
    Does tables c (.ok tables.length, tables ++ [t])
  | freezes {i : Nat} {t : PrecedenceTable} : c = .freeze i → tables[i]? = some t →
    Does tables c (.ok i, tables.set i t.freeze)
  | sets {i : Nat} {t : PrecedenceTable} {o : PrecedenceTable.Operator} {n : Int} :
    c = .set i (.text (String.ofList [o.1])) (.integer n) → tables[i]? = some t →
      t.frozen = false → Does tables c (.ok i, tables.set i (t.insert o n))

variable {tables : List PrecedenceTable} {i : Nat} {t : PrecedenceTable}

theorem TableCall.apply_does (tables : List PrecedenceTable) (c : TableCall) :
    c.Does tables (c.apply tables) := by
  cases c with
  | create source =>
    rw [apply]
    cases source.make tables with
    | error e => exact .refuses e
    | ok t => exact .makes t rfl
  | default => exact .makes .standard rfl
  | copy j =>
    rw [apply]
    cases tables[j]? with
    | none => exact .refuses .noTable
    | some t => exact .makes t.copy rfl
  | freeze j =>
    rw [apply]
    cases ht : tables[j]? with
    | none => exact .refuses .noTable
    | some t => exact .freezes rfl ht
  | set j operator precedence =>
    rw [apply]
    cases ht : tables[j]? with
    | none => exact .refuses .noTable
    | some t =>
      dsimp only
      cases hset : t.set operator precedence with
      | error e => exact .refuses (.configuration e)
      | ok t' =>
        obtain ⟨hopen, o, n, rfl, rfl, rfl⟩ := PrecedenceTable.set_eq_ok_iff.1 hset
        exact .sets rfl ht hopen

/-- A call that is refused changes no table, and one that is not changes none but its own. -/
theorem TableCall.apply_keeps (tables : List PrecedenceTable) (c : TableCall) :
    (∀ e, (c.apply tables).1 = .error e → (c.apply tables).2 = tables) ∧
      ∀ i < tables.length, c.target? ≠ some i → (c.apply tables).2[i]? = tables[i]? := by
  have hdoes := c.apply_does tables
  generalize c.apply tables = answer at hdoes
  cases hdoes with
  | refuses e => exact ⟨fun _ _ => rfl, fun _ _ _ => rfl⟩
  | makes t _ => exact ⟨fun e h => (by cases h), fun i hi _ => List.getElem?_append_left hi⟩
  | @freezes j t hc _ =>
    refine ⟨fun e h => (by cases h), fun i _ hne => List.getElem?_set_ne ?_⟩
    rintro rfl
    exact hne (by rw [hc]; rfl)
  | @sets j t o n hc _ _ =>
    refine ⟨fun e h => (by cases h), fun i _ hne => List.getElem?_set_ne ?_⟩
    rintro rfl
    exact hne (by rw [hc]; rfl)

/-- No call changes a frozen table. -/
theorem TableCall.apply_frozen (h : tables[i]? = some t) (hf : t.frozen = true) (c : TableCall) :
    (c.apply tables).2[i]? = some t := by
  obtain ⟨hi, -⟩ := List.getElem?_eq_some_iff.1 h
  have hdoes := c.apply_does tables
  generalize c.apply tables = answer at hdoes
  cases hdoes with
  | refuses e => exact h
  | makes t' _ => rwa [List.getElem?_append_left hi]
  | @freezes j t' _ ht =>
    by_cases hj : j = i
    · subst hj
      obtain rfl := Option.some.inj (ht.symm.trans h)
      have hfreeze : t'.freeze = t' := PrecedenceTable.ext_of rfl hf.symm
      rw [List.getElem?_set_self hi, hfreeze]
    · rwa [List.getElem?_set_ne hj]
  | @sets j t' o n _ ht hopen =>
    by_cases hj : j = i
    · subst hj
      obtain rfl := Option.some.inj (ht.symm.trans h)
      rw [hopen] at hf
      cases hf
    · rwa [List.getElem?_set_ne hj]

namespace TableStore

variable {s : TableStore}

theorem length_tables (s : TableStore) : s.tables.length = s.refs.length := List.length_map ..

theorem hold_apply (h : s.WellFormed) (made : Except TableRefusal PrecedenceTable) :
    (s.hold made).2.WellFormed ∧ ((s.hold made).1, (s.hold made).2.tables) =
      match made with
      | .error e => (.error e, s.tables)
      | .ok t => (.ok s.tables.length, s.tables ++ [t]) := by
  cases made with
  | error e => exact ⟨h, rfl⟩
  | ok t =>
    obtain ⟨hwf, htables⟩ := hold_tables h t
    refine ⟨hwf, ?_⟩
    rw [htables, length_tables]
    rfl

/-- A call does to the tables that are held what it does to plain values. -/
theorem call_apply (h : s.WellFormed) (c : TableCall) :
    (s.call c).2.WellFormed ∧ ((s.call c).1, (s.call c).2.tables) = c.apply s.tables := by
  cases c with
  | create source => exact hold_apply h _
  | default =>
    have hstandard : s.tableAt ⟨0, false⟩ = .standard := by
      rw [tableAt, h.standard]
      rfl
    have hmade := PrecedenceTable.ofEntries_given .standard
    rw [call, hstandard, hmade]
    exact hold_apply h _
  | copy i =>
    rw [call, TableCall.apply, TableSource.make]
    cases s.tables[i]? with
    | none => exact ⟨h, rfl⟩
    | some t =>
      simp only [PrecedenceTable.ofEntries_given]
      exact hold_apply h _
  | freeze i =>
    rw [call, TableCall.apply, getElem?_tables]
    cases hr : s.refs[i]? with
    | none => exact ⟨h, rfl⟩
    | some r =>
      obtain ⟨hwf, htables⟩ := freeze_tables h hr
      exact ⟨hwf, congrArg _ htables⟩
  | set i operator precedence =>
    rw [call, TableCall.apply, getElem?_tables]
    cases hr : s.refs[i]? with
    | none => exact ⟨h, rfl⟩
    | some r =>
      dsimp only [Option.map_some]
      cases hset : (s.tableAt r).set operator precedence with
      | error e => exact ⟨h, rfl⟩
      | ok t =>
        obtain ⟨hwf, htables⟩ := write_tables h hr t.entryMap
        obtain ⟨hopen, o, n, rfl, rfl, rfl⟩ := PrecedenceTable.set_eq_ok_iff.1 hset
        exact ⟨hwf, congrArg _ htables⟩

theorem callAll_wellFormed (h : s.WellFormed) (calls : List TableCall) :
    (s.callAll calls).WellFormed := by
  induction calls generalizing s with
  | nil => exact h
  | cons c calls ih => exact ih (call_apply h c).1

theorem call_tables (h : s.WellFormed) (c : TableCall) :
    (s.call c).1 = (c.apply s.tables).1 ∧ (s.call c).2.tables = (c.apply s.tables).2 := by
  rw [← (call_apply h c).2]
  exact ⟨rfl, rfl⟩

/-- A frozen table stays as it is, whatever is called. -/
theorem callAll_frozen (h : s.WellFormed) {i : Nat} {t : PrecedenceTable}
    (ht : s.tables[i]? = some t) (hf : t.frozen = true) (calls : List TableCall) :
    (s.callAll calls).tables[i]? = some t := by
  induction calls generalizing s with
  | nil => exact ht
  | cons c calls ih =>
    refine ih (call_apply h c).1 ?_
    rw [(call_tables h c).2]
    exact TableCall.apply_frozen ht hf c

/-- What holds of the tables that are held, whatever has been called. -/
structure Kept (s : TableStore) : Prop where
  operators : ∀ t ∈ s.tables, ∀ e ∈ t.entries, PrecedenceTable.IsOperatorCharacter e.1
  /-- What is set is an operator and an integer; a truth is none. -/
  set_ok : ∀ i operator precedence k, (s.call (.set i operator precedence)).1 = .ok k →
    ∃ c n, operator = .text (String.ofList [c]) ∧ PrecedenceTable.IsOperatorCharacter c ∧
      precedence = .integer n
  frozen : ∀ (i : Nat) (t : PrecedenceTable), s.tables[i]? = some t → t.frozen = true →
    ∀ calls, (s.callAll calls).tables[i]? = some t
  refused : ∀ c e, (s.call c).1 = .error e → (s.call c).2.tables = s.tables
  /-- A call to one table changes no other. -/
  others : ∀ c, ∀ i < s.tables.length, c.target? ≠ some i →
    (s.call c).2.tables[i]? = s.tables[i]?
  default : (s.call .default).1 = .ok s.tables.length ∧
    (s.call .default).2.tables = s.tables ++ [.standard]
  /-- A copy is not refused, takes changes and has the same entries in the same order. -/
  copy : ∀ (i : Nat) t, s.tables[i]? = some t → (s.call (.copy i)).1 = .ok s.tables.length ∧
    ∃ t' : PrecedenceTable, (s.call (.copy i)).2.tables = s.tables ++ [t'] ∧
      t'.entries = t.entries ∧ t'.frozen = false

/-- Whatever is called, tables keep to their operators, frozen ones do not change, and no table is
changed through another. -/
theorem callAll_kept (calls : List TableCall) : (initial.callAll calls).Kept := by
  have h := callAll_wellFormed initial_wellFormed calls
  generalize initial.callAll calls = s at h
  constructor
  case operators =>
    intro t _ e he
    exact PrecedenceTable.isUsable_iff.1 (t.entries_usable e he)
  case set_ok =>
    intro i operator precedence k hk
    rw [(call_tables h _).1] at hk
    have hdoes := TableCall.apply_does s.tables (.set i operator precedence)
    generalize TableCall.apply s.tables (.set i operator precedence) = answer at hk hdoes
    cases hdoes with
    | refuses e => cases hk
    | makes t hc => cases hc
    | freezes hc _ => cases hc
    | @sets j t o n hc _ _ =>
      obtain ⟨-, rfl, rfl⟩ := TableCall.set.inj hc
      exact ⟨o.1, n, rfl, PrecedenceTable.isUsable_iff.1 o.2, rfl⟩
  case frozen => exact fun i t ht hf calls => callAll_frozen h ht hf calls
  case refused =>
    intro c e he
    rw [(call_tables h c).1] at he
    rw [(call_tables h c).2]
    exact (c.apply_keeps s.tables).1 e he
  case others =>
    intro c i hi hc
    rw [(call_tables h c).2]
    exact (c.apply_keeps s.tables).2 i hi hc
  case default => exact call_tables h .default
  case copy =>
    intro i t ht
    obtain ⟨hanswer, htables⟩ := call_tables h (.copy i)
    rw [TableCall.apply, ht] at hanswer htables
    exact ⟨hanswer, t.copy, htables, rfl, rfl⟩

/-- A copy takes an entry that its frozen original does not take. -/
example : (initial.callAll [.default, .copy 0, .freeze 0, .set 1 (.text "/") (.integer 40),
    .set 0 (.text "/") (.integer 40)]).tables.map (fun t => t.entries.length) = [4, 5] := by
  decide +kernel

end TableStore

end OperatorGrammar
