import OperatorGrammar.CommandLine.Report
import OperatorGrammar.Proofs.Truncation
import OperatorGrammar.Proofs.Turn.Alike

/-!
Line ends of two characters. A carriage return in front of a line feed takes a column that no token
starts in, ends a comment that ends all the same, and is left out where its line is quoted. So a
text whose lines end with a line feed only has the same tokens at the same places, and a run on it
reports the same. Main statements: `Upcoming.paired_unixText` and
`Session.reported_crossPlatform`.
-/

namespace OperatorGrammar

open Scanner

/-- A text with a line feed in place of each carriage return and the line feed behind it. -/
def unixText : List Char → List Char
  | [] => []
  | '\r' :: '\n' :: rest => '\n' :: unixText rest
  | c :: rest => c :: unixText rest

/-- A line feed stands behind each carriage return of a text. -/
def PairsReturns (text : List Char) : Prop :=
  ∀ i < text.length, text[i]? = some '\r' → text[i + 1]? = some '\n'

instance (text : List Char) : Decidable (PairsReturns text) :=
  inferInstanceAs (Decidable (∀ i < text.length, _))

variable {text rest word : List Char} {c : Char}

theorem unixText_pair (rest : List Char) :
    unixText ('\r' :: '\n' :: rest) = '\n' :: unixText rest := by
  rw [unixText]

/-- A character stays unless it is a carriage return in front of a line feed. -/
theorem unixText_cons (h : c = '\r' → rest.head? ≠ some '\n') :
    unixText (c :: rest) = c :: unixText rest := by
  rw [unixText]
  rintro more hc rfl
  exact h hc rfl

example : unixText "a\r\r\nb\n\r".toList = "a\r\nb\n\r".toList := by decide

theorem unixText_append (h : rest.head? ≠ some '\n') (text : List Char) :
    unixText (text ++ rest) = unixText text ++ unixText rest := by
  fun_induction unixText text with
  | case1 => rfl
  | case2 cs ih => rw [List.cons_append, List.cons_append, unixText_pair, ih, List.cons_append]
  | case3 c cs hpair ih =>
    rw [List.cons_append, unixText_cons, ih, List.cons_append]
    intro hc hhead
    cases cs with
    | nil => exact h hhead
    | cons d cs =>
      obtain rfl : d = '\n' := Option.some.inj hhead
      exact hpair cs hc rfl

theorem unixText_of_not_mem (h : '\r' ∉ word) (rest : List Char) :
    unixText (word ++ rest) = word ++ unixText rest := by
  induction word with
  | nil => rfl
  | cons c cs ih =>
    rw [List.mem_cons, not_or] at h
    rw [List.cons_append, unixText_cons fun hc => absurd hc.symm h.1, ih h.2, List.cons_append]

/-- A text starts as it did, or with the second character of a line end. -/
theorem head?_unixText (text : List Char) :
    (unixText text).head? = text.head? ∨
      text.head? = some '\r' ∧ (unixText text).head? = some '\n' := by
  fun_cases unixText text with
  | case1 => exact .inl rfl
  | case2 => exact .inr ⟨rfl, rfl⟩
  | case3 => exact .inl rfl

theorem PairsReturns.tail (h : PairsReturns (c :: text)) : PairsReturns text :=
  fun i hi => h (i + 1) (Nat.succ_lt_succ hi)

/-- Where all carriage returns are paired, line ends are unified by replacing the pairs. -/
theorem PairsReturns.unifyLineEnds_eq (h : PairsReturns text) :
    Input.unifyLineEnds text = unixText text := by
  fun_induction Input.unifyLineEnds text with
  | case1 => rfl
  | case2 rest ih => rw [unixText_pair, ih h.tail.tail]
  | case3 rest hpair ih =>
    have hhead := h 0 (Nat.succ_pos _) rfl
    rw [List.getElem?_cons_succ, ← List.head?_eq_getElem?] at hhead
    obtain ⟨more, rfl⟩ := List.head?_eq_some_iff.1 hhead
    exact absurd rfl (hpair more)
  | case4 c rest hpair hreturn ih =>
    rw [unixText_cons fun hc => absurd hc hreturn, ih h.tail]

/-! ## Lines -/

theorem lineFeed_mem_unixText : '\n' ∈ unixText text ↔ '\n' ∈ text := by
  fun_induction unixText text with
  | case1 => exact Iff.rfl
  | case2 => simp
  | case3 c cs _ ih => rw [List.mem_cons, List.mem_cons, ih]

theorem count_unixText (text : List Char) : (unixText text).count '\n' = text.count '\n' := by
  fun_induction unixText text with
  | case1 => rfl
  | case2 cs ih => simp [ih]
  | case3 c cs _ ih => rw [List.count_cons, List.count_cons, ih]

/-- In a single line nothing is replaced. -/
theorem unixText_of_line (h : '\n' ∉ text) : unixText text = text := by
  fun_induction unixText text with
  | case1 => rfl
  | case2 => simp at h
  | case3 c cs _ ih => rw [ih fun hcs => h (List.mem_cons_of_mem c hcs)]

theorem lastLine_unixText (text : List Char) : lastLine (unixText text) = lastLine text := by
  have hskip : ∀ (c : Char) {cs : List Char}, '\n' ∈ cs → lastLine (c :: cs) = lastLine cs := by
    intro c cs hcs
    rw [lastLine, lastLine_cons (.inr hcs), lastLine]
  fun_induction unixText text with
  | case1 => rfl
  | case2 cs ih =>
    have hfeed : ∀ more, lastLine ('\n' :: more) = lastLine more := lastLine_append_lineFeed []
    rw [hfeed, ih, hskip '\r' List.mem_cons_self, hfeed]
  | case3 c cs _ ih =>
    by_cases hcs : '\n' ∈ cs
    · rw [hskip c hcs, hskip c (lineFeed_mem_unixText.2 hcs), ih]
    · rw [unixText_of_line hcs]

/-- No place behind a text moves. -/
theorem behind_unixText (file : String) (text : List Char) :
    Location.behind file (unixText text) = .behind file text := by
  simp only [Location.behind, lineBehind, columnBehind_eq, count_unixText, lastLine_unixText]

/-- What is quoted of the character in front of which a word ends. -/
theorem quoted_take_unixText (rest : List Char) :
    quoted (((unixText rest).take 1).filter (· != '\n')) =
      quoted ((rest.take 1).filter (· != '\n')) := by
  fun_cases unixText rest with
  | case1 => rfl
  | case2 => rfl
  | case3 => rfl

/-! ## Words -/

namespace Scanner

theorem layoutOf_unixText (inComment : Bool) (text : List Char) :
    layoutOf inComment (unixText text) = unixText (layoutOf inComment text) := by
  fun_induction unixText text generalizing inComment with
  | case1 => rfl
  | case2 cs ih =>
    have hfeed : ∀ b more, layoutOf b ('\n' :: more) = '\n' :: layoutOf false more := by
      rintro (_ | _) more <;> rfl
    have hpair : layoutOf inComment ('\r' :: '\n' :: cs) = '\r' :: '\n' :: layoutOf false cs := by
      cases inComment <;> exact congrArg ('\r' :: ·) (hfeed _ _)
    rw [hpair, hfeed, unixText_pair, ih]
  | case3 c cs hpair ih =>
    -- the layout behind the character starts as the text does, or is empty
    have hcons : ∀ b, unixText (c :: layoutOf b cs) = c :: unixText (layoutOf b cs) := by
      intro b
      refine unixText_cons fun hc hhead => ?_
      obtain ⟨more, hmore⟩ := List.head?_eq_some_iff.1 hhead
      have hcs := layoutOf_append_drop b cs
      rw [hmore, List.cons_append] at hcs
      exact hpair _ hc hcs.symm
    rw [layoutOf, layoutOf]
    split_ifs
    all_goals first
      | rw [ih, hcons]
      | rfl

/-- What no word goes on with, it does not go on with when line ends have been replaced. -/
theorem ends_unixText {p : Char → Bool} (h : ∀ d ∈ rest.head?, p d = false) (hp : p '\n' = false) :
    ∀ d ∈ (unixText rest).head?, p d = false := by
  rcases head?_unixText rest with hhead | ⟨-, hhead⟩
  · rw [hhead]
    exact h
  · intro d hd
    rw [hhead] at hd
    obtain rfl := Option.some.inj hd
    exact hp

variable {layout before : List Char} {x : Lexeme}

theorem Munches.unix (h : Munches rest word x) : Munches (unixText rest) word x := by
  cases h with
  | word hc hcs hr => exact .word hc hcs (ends_unixText hr (by decide))
  | number hc hcs hr => exact .number hc hcs (ends_unixText hr (by decide))
  | char hl hd hn hb => exact .char hl hd hn hb

/-- A word has no line end, nor a part of one. -/
theorem Munches.unix_append (h : Munches rest word x) (layout more : List Char) :
    unixText (layout ++ (word ++ more)) = unixText layout ++ (word ++ unixText more) := by
  have hreturn : '\r' ∉ word := fun hm => absurd (h.not_isBlank _ hm) (by decide)
  have hfeed : (word ++ more).head? ≠ some '\n' := by
    rw [List.head?_append_of_ne_nil _ h.nonempty]
    intro hhead
    exact absurd (h.not_isBlank _ (List.mem_of_mem_head? hhead)) (by decide)
  rw [unixText_append hfeed, unixText_of_not_mem hreturn]

/-- The same word, behind a text in which line ends have been replaced. -/
def Cut.unix (c : Cut) : Cut := { c with before := unixText c.before }

/-- Replacing line ends leaves the words as they are. What comes before them does not break off
within a line end. -/
theorem cuts_unixText (hb : ∀ more, unixText (before ++ more) = unixText before ++ unixText more) :
    cuts (unixText before) (unixText rest) = (cuts before rest).map Cut.unix := by
  induction before, rest using cuts_induction with
  | layout before rest hall =>
    rw [cuts_of_layout hall, cuts_of_layout (by rw [layoutOf_unixText, hall]), List.map_nil]
  | word before layout text hl hne ih =>
    have hm := munches_of_layoutOf hl hne
    have htext := wordOf_append_drop text
    have hlayout := layoutOf_unixText false (layout ++ text)
    rw [cuts_of_word hl hne, List.map_cons]
    rw [hl] at hlayout
    generalize wordOf text = word at *
    generalize text.drop word.length = more at *
    subst htext
    have hne' : word ++ unixText more ≠ [] := List.append_ne_nil_of_left_ne_nil hm.nonempty _
    have hsplit : ∀ more, unixText (before ++ layout ++ word ++ more) =
        unixText before ++ unixText layout ++ word ++ unixText more := by
      intro more
      simp only [List.append_assoc, hb, hm.unix_append]
    have hall : unixText (before ++ layout ++ word) =
        unixText before ++ unixText layout ++ word := by
      simpa [unixText] using hsplit []
    rw [hm.unix_append] at hlayout ⊢
    rw [cuts_of_munches hlayout hne' hm.unix, Cut.unix, hb, ← hall,
      ih fun more => by rw [hsplit, hall]]

theorem cuts_nil_unixText (text : List Char) :
    cuts [] (unixText text) = (cuts [] text).map Cut.unix := by
  have h : cuts (unixText []) (unixText text) = (cuts [] text).map Cut.unix :=
    cuts_unixText fun _ => rfl
  exact h

/-! ## Tokens -/

variable {cut : Cut}

/-- A word is scanned at the same place, and its line is quoted alike. -/
theorem Cut.placed_unix (file : String) (h : cut ∈ cuts [] text) :
    (cut.scanned file text).Placed id (cut.unix.scanned file (unixText text)) := by
  have hmem : cut.unix ∈ cuts [] (unixText text) := by
    rw [cuts_nil_unixText]
    exact List.mem_map_of_mem h
  obtain ⟨more, hmore⟩ := (mem_cuts cut h).within
  have hm := munches_of_mem_cuts cut h
  rw [List.nil_append] at hmore hm
  rw [← hmore, List.drop_left] at hm
  have hunix := hm.unix_append cut.before more
  rw [← List.append_assoc, ← Cut.upTo, hmore, ← List.append_assoc] at hunix
  constructor
  · show Token.mk (lexemeOf cut.word) (Location.behind file (unixText cut.before)) = _
    rw [behind_unixText]
    rfl
  · rw [cut.sourceLine_scanned file h, Cut.sourceLine_scanned file hmem, Cut.line, Cut.line, hunix,
      ← hmore, List.drop_left, Cut.upTo, Cut.unix, List.drop_left, lastLine_unixText]
    simp only [quoted_append, quoted_take_unixText]

theorem ending_placed_unix (file : String) (text : List Char) :
    (ending file text).Placed id (ending file (unixText text)) := by
  constructor
  · show Token.mk .endOfInput (Location.behind file (unixText text)) = _
    rw [behind_unixText]
    rfl
  · rw [sourceLine_ending, sourceLine_ending, lastLine_unixText]

end Scanner

namespace Upcoming

theorem ofList_spec (file : String) (text : List Char) :
    (ofSource file (.ofList text)).tokens = (cuts [] text).map (·.scanned file text) ∧
      (ofSource file (.ofList text)).last = ending file text := by
  obtain ⟨htokens, hlast⟩ := ofAnswers_spec file (text.map some) false
  rw [show Source.ofAnswers (text.map some) false = .ofList text from rfl,
    Source.text_ofList] at htokens hlast
  exact ⟨htokens, hlast⟩

/-- The tokens are the same, and of their lines as much is known. -/
theorem paired_unixText (file : String) (text : List Char) :
    (ofSource file (.ofList text)).Paired (Scanned.Placed id)
      (ofSource file (.ofList (unixText text))) := by
  obtain ⟨htokens, hlast⟩ := ofList_spec file text
  obtain ⟨htokens', hlast'⟩ := ofList_spec file (unixText text)
  constructor
  · rw [htokens, htokens', cuts_nil_unixText, List.map_map, List.forall₂_map_left_iff,
      List.forall₂_map_right_iff, List.forall₂_same]
    exact fun c hc => c.placed_unix file hc
  · rw [hlast, hlast']
    exact ending_placed_unix file text

end Upcoming

theorem Scanner.tokensToEnd_unixText (file : String) (text : List Char) :
    (start file (.ofList (unixText text))).tokensToEnd.1 =
      (start file (.ofList text)).tokensToEnd.1 := by
  obtain ⟨htokens, hlast⟩ := Upcoming.paired_unixText file text
  have hall := List.rel_append htokens (.cons hlast .nil)
  rw [tokensToEnd_eq, tokensToEnd_eq, ← List.forall₂_eq_eq_eq, List.forall₂_map_left_iff,
    List.forall₂_map_right_iff]
  exact hall.flip.imp fun _ _ ht => ht.token

/-! ## Results -/

/-- What a result reports: a tree with its places, or a diagnostic with its place, its message, its
hint and the line that it quotes. -/
def FormResult.reported (r : FormResult) : FormKind × Except Diagnostic Node :=
  (r.kind, r.outcome.mapError Failure.diagnostic)

theorem FormResult.Alike.reported_eq {r r' : FormResult}
    (h : r.Alike (Scanned.Placed id) id r') : r'.reported = r.reported := by
  obtain ⟨kind, outcome⟩ := r
  obtain ⟨kind', outcome'⟩ := r'
  obtain ⟨rfl, hr⟩ := h
  cases hr with
  | ok n => rw [n.relocate_id]
  | error hfault ht =>
    simp only [reported, Except.mapError, Failure.diagnostic_of_placed hfault ht]
    rfl

namespace Session

/-- What a run reports. -/
def reported (s : Session) : List (FormKind × Except Diagnostic Node) :=
  s.results.map FormResult.reported

theorem ofOptions_unixText (o : Options) (file : String) (text : List Char) :
    (ofOptions o file (.ofList (unixText text))).map reported =
      (ofOptions o file (.ofList text)).map reported := by
  rw [ofOptions, ofOptions]
  cases { o with table := o.table.freeze }.rules with
  | error e => rfl
  | ok R =>
    have h := start_results_alike (R.pairs_placed id) (Upcoming.paired_unixText file text)
      o.maxErrors
    show Except.ok (List.map _ _) = Except.ok (List.map _ _)
    rw [Except.ok.injEq, ← List.forall₂_eq_eq_eq, List.forall₂_map_left_iff,
      List.forall₂_map_right_iff]
    exact h.flip.imp fun _ _ hr => hr.reported_eq

end Session

namespace CommandLine

/-- What is written for a token is told from the token alone. -/
theorem writeToken_eq {t u : Scanned} (ht : t.token = u.token) (h : Host) (s : Settings)
    (w : Transcript) : s.writeToken h w t = s.writeToken h w u := by
  rw [Settings.writeToken, Settings.writeToken, Scanned.record?, Scanned.record?, ht]

theorem listTokens_unixText (h : Host) (s : Settings) (text : List Char) :
    listTokens h s ⟨unixText text, none⟩ = listTokens h s ⟨text, none⟩ := by
  obtain ⟨htokens, hlast⟩ := Upcoming.paired_unixText s.inputName text
  have hall := List.rel_append htokens (.cons hlast .nil)
  simp only [listTokens, Report.mk.injEq, true_and]
  refine List.rel_foldl (P := Eq) ?_ rfl hall.flip
  rintro w - rfl t u hu
  exact writeToken_eq hu.token h s w

end CommandLine

/-- Line ends of two characters do not count: with a line feed for each, a text has the same tokens,
and under any options a run on it reports the same. So the command, which unifies line ends, reports
of a file with paired carriage returns what a run on the text as it stands reports. -/
theorem Session.reported_crossPlatform (file text : String) :
    (Scanner.start file (.ofList (unixText text.toList))).tokensToEnd.1 =
        (Scanner.start file (.ofString text)).tokensToEnd.1 ∧
      (∀ o, (ofOptions o file (.ofList (unixText text.toList))).map reported =
        (ofOptions o file (.ofString text)).map reported) ∧
      ∀ bytes, Text.Utf8.readBlocks .between (Text.Utf8.blocks Input.blockLength bytes) =
          (text.toList, none) → PairsReturns text.toList → ∀ s,
        (∀ h, CommandLine.listTokens h s (.ofBytes bytes) =
          CommandLine.listTokens h s ⟨text.toList, none⟩) ∧
        ∀ o, Options.ofFlags s.entries s.noDefaults s.lenient s.maxDepth = .ok o →
          (CommandLine.session s (.ofBytes bytes)).map reported =
            (ofOptions o s.inputName (.ofString text)).map reported := by
  refine ⟨Scanner.tokensToEnd_unixText file text.toList,
    fun o => ofOptions_unixText o file text.toList, fun bytes hb hp s => ?_⟩
  have hinput : Input.ofBytes bytes = ⟨unixText text.toList, none⟩ := by
    rw [Input.ofBytes, hb, ← hp.unifyLineEnds_eq]
  rw [hinput]
  refine ⟨fun h => CommandLine.listTokens_unixText h s text.toList, fun o ho => ?_⟩
  rw [CommandLine.session, ho]
  exact ofOptions_unixText o s.inputName text.toList

/-- A file of two lines, of which the first ends within a comment and the second with a fault. -/
theorem Session.reported_two_lines :
    let bytes : List UInt8 := [102, 35, 41, 13, 10, 40, 49, 32, 64, 13, 10]
    let text := "f#)\r\n(1 @\r\n"
    let s : CommandLine.Settings := ⟨false, false, [], false, false, 256, false, false, none⟩
    CommandLine.listTokens .standard s (.ofBytes bytes) =
        CommandLine.listTokens .standard s ⟨text.toList, none⟩ ∧
      (CommandLine.session s (.ofBytes bytes)).map reported =
        (ofOptions .standard "<stdin>" (.ofString text)).map reported := by
  intro bytes text s
  obtain ⟨-, -, h⟩ := reported_crossPlatform "<stdin>" text
  obtain ⟨htokens, hforms⟩ := h bytes (by decide +kernel) (by decide +kernel) s
  exact ⟨htokens .standard, hforms .standard rfl⟩

end OperatorGrammar
