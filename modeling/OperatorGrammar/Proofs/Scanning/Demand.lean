import OperatorGrammar.Proofs.Scanning.Joined

/-!
Scanning on demand. A token is handed out when the character behind it has been seen, and the end
of the input is asked for once. What a scanner has handed out and asked for by then is a matter of
the text alone, up to the first answer of nothing. Main statements: `Scanner.Ahead.next`, what one
token takes off the words ahead, `Scanner.start_scan_skipTokens` and `Scanner.start_readsOnDemand`.
-/

namespace OperatorGrammar

namespace Source

/-! ## Requests that are made of a source -/

/-- A source with the same answers that counts every request. One that remembers its end does not
count what it answers by itself. -/
def counting (s : Source) : Source := if s.remembersEnd then ofList s.text else s

theorem readMany_requests {s : Source} (h : s.remembersEnd = false) (he : s.ended = false)
    (n : Nat) : (s.readMany n).2.requests = s.requests + n := by
  induction n generalizing s with
  | zero => rfl
  | succ n ih =>
    have hread : s.read.2.remembersEnd = false ∧ s.read.2.ended = false ∧
        s.read.2.requests = s.requests + 1 := by
      rcases s with ⟨_ | ⟨_ | c, rest⟩, remembersEnd, ended, requests⟩ <;> simp_all [read]
    obtain ⟨hr, hl, hn⟩ := hread
    rw [readMany]
    dsimp only
    rw [ih hr hl, hn]
    omega

theorem readMany_of_exhausted {s : Source} (h : s.ended = true ∨ s.answers = []) (n : Nat) :
    (s.readMany n).1 = List.replicate n none := by
  induction n generalizing s with
  | zero => rfl
  | succ n ih =>
    have hread : s.read.1 = none ∧ (s.read.2.ended = true ∨ s.read.2.answers = []) := by
      unfold read
      split
      · exact ⟨rfl, h⟩
      · have hnil := h.resolve_left ‹_›
        rw [hnil]
        exact ⟨rfl, .inr rfl⟩
    rw [readMany]
    dsimp only
    rw [hread.1, ih hread.2, List.replicate_succ]

/-- A source that remembers its end gives its text and then nothing. -/
theorem readMany_of_remembersEnd {s : Source} (h : s.remembersEnd = true) (he : s.ended = false)
    (n requests : Nat) :
    ((⟨s.text.map some, false, false, requests⟩ : Source).readMany n).1 = (s.readMany n).1 := by
  induction n generalizing s requests with
  | zero => rfl
  | succ n ih =>
    obtain ⟨answers, remembersEnd, ended, made⟩ := s
    subst h he
    rcases answers with _ | ⟨_ | c, answers⟩
    · rw [readMany_of_exhausted (.inr rfl), readMany_of_exhausted (.inr rfl)]
    · -- the first answer of nothing ends it
      rw [readMany_of_exhausted (.inr rfl), readMany, List.replicate_succ]
      exact congrArg (none :: ·) (readMany_of_exhausted (.inl rfl) n).symm
    · exact congrArg (some c :: ·) (ih (s := ⟨answers, true, false, made + 1⟩) rfl rfl _)

theorem counting_readMany (answers : List (Option Char)) (remembersEnd : Bool) (n : Nat) :
    ((ofAnswers answers remembersEnd).counting.readMany n).1 =
        ((ofAnswers answers remembersEnd).readMany n).1 ∧
      ((ofAnswers answers remembersEnd).counting.readMany n).2.requests = n := by
  cases remembersEnd with
  | false => exact ⟨rfl, (readMany_requests rfl rfl n).trans (Nat.zero_add n)⟩
  | true =>
    exact ⟨readMany_of_remembersEnd rfl rfl n 0,
      (readMany_requests (s := ofList _) rfl rfl n).trans (Nat.zero_add n)⟩

theorem exists_counting_eq (answers : List (Option Char)) (remembersEnd : Bool) :
    ∃ answers', (ofAnswers answers remembersEnd).counting = ofAnswers answers' false ∧
      (ofAnswers answers' false).text = (ofAnswers answers remembersEnd).text := by
  cases remembersEnd with
  | false => exact ⟨answers, rfl, rfl⟩
  | true => exact ⟨_, rfl, text_ofList _⟩

end Source

namespace Scanner

variable {file : String} {text before rest : List Char} {cs : List Cut} {s : Scanner}

/-! ## Taking tokens one by one -/

/-- The scanner when it has handed out so many tokens. -/
def skipTokens : Nat → Scanner → Scanner
  | 0, s => s
  | n + 1, s => skipTokens n s.next.2

/-- A scanner in a text, with the words `cs` ahead of it. -/
structure Ahead (file : String) (text : List Char) (cs : List Cut) (s : Scanner) : Prop where
  file : s.file = file
  place : ∃ before rest, before ++ rest = text ∧ s.At before rest ∧ cuts before rest = cs

/-- The next token is the first word ahead, or the end if there is none. -/
theorem Ahead.next (h : Ahead file text cs s) :
    Ahead file text cs.tail s.next.2 ∧
      s.scan = (cs.head?.map (·.scanned file text)).getD (ending file text) := by
  obtain ⟨hfile, before, rest, rfl, hs, rfl⟩ := h
  have hf := (next_at hs).2.2.trans hfile
  by_cases hnil : rest.drop (layoutOf false rest).length = []
  · obtain ⟨hscan, ha⟩ := scan_of_layout hs hnil
    rw [hscan, hfile, cuts, if_pos hnil]
    exact ⟨⟨hf, _, [], List.append_nil _, ha, cuts_nil _⟩, rfl⟩
  · obtain ⟨hscan, ha⟩ := scan_at hs
    rw [hscan, hfile, cuts, if_neg hnil]
    exact ⟨⟨hf, _, _, layoutOf_append_wordOf before rest, ha, rfl⟩, rfl⟩

theorem Ahead.skipTokens (h : Ahead file text cs s) (n : Nat) :
    Ahead file text (cs.drop n) (s.skipTokens n) := by
  induction n generalizing s cs with
  | zero => exact h
  | succ n ih =>
    rw [← List.drop_tail]
    exact ih h.next.1

theorem Ahead.scan_skipTokens (h : Ahead file text cs s) (n : Nat) :
    (s.skipTokens n).scan = (cs[n]?.map (·.scanned file text)).getD (ending file text) := by
  rw [(h.skipTokens n).next.2, List.head?_drop]

/-- The blank that is held back at the start is skipped with the first token. -/
theorem start_scan (file : String) (source : Source) (n : Nat) :
    ((start file source).skipTokens n).scan = ((start file source).read.skipTokens n).scan := by
  cases n with
  | zero => simp only [Scanner.skipTokens, scan, start_next]
  | succ n => rw [Scanner.skipTokens, Scanner.skipTokens, start_next]

/-- Token by token, a source hands out the words of its text, and then the end of the input for
ever. -/
theorem start_scan_skipTokens (file : String) {answers : List (Option Char)} {remembersEnd : Bool}
    (h : (Source.ofAnswers answers remembersEnd).text = text) (n : Nat) :
    ((start file (.ofAnswers answers remembersEnd)).skipTokens n).scan =
      ((cuts [] text)[n]?.map (·.scanned file text)).getD (ending file text) := by
  have hs := start_read_at file answers remembersEnd
  rw [h] at hs
  have ha : Ahead file text (cuts [] text) (start file (.ofAnswers answers remembersEnd)).read :=
    ⟨read_file _, [], text, List.nil_append _, hs, rfl⟩
  rw [start_scan]
  exact ha.scan_skipTokens n

theorem ofString_scan_skipTokens (file text : String) (n : Nat) :
    ((start file (.ofString text)).skipTokens n).scan =
      ((cuts [] text.toList)[n]?.map (·.scanned file text.toList)).getD
        (ending file text.toList) :=
  start_scan_skipTokens file (Source.text_ofString text) n

theorem skipTokens_succ (s : Scanner) (n : Nat) :
    s.skipTokens (n + 1) = (s.skipTokens n).next.2 := by
  induction n generalizing s with
  | zero => rfl
  | succ n ih => exact ih s.next.2

/-! ## Requests -/

/-- A token is handed out when the text has been read up to its end and one request has been made
behind that; so is the end of the input, however often. -/
structure ReadsAsNeeded (file : String) (text : List Char) (cs : List Cut) (source : Source) :
    Prop where
  word : ∀ n c, cs[n]? = some c →
    let taken := ((start file source).skipTokens n).next
    taken.1 = c.token file ∧ taken.2.source.requests = c.upTo.length + 1
  ending : ∀ n, cs.length ≤ n →
    let taken := ((start file source).skipTokens n).next
    taken.1 = ⟨.endOfInput, .behind file text⟩ ∧ taken.2.source.requests = text.length + 1

theorem readsAsNeeded_cuts (file : String) {answers : List (Option Char)} {remembersEnd : Bool}
    (h : (Source.ofAnswers answers remembersEnd).text = text) :
    ReadsAsNeeded file text (cuts [] text) (.ofAnswers answers remembersEnd) := by
  have hscan := start_scan_skipTokens file h
  constructor
  case word =>
    intro n c hc
    have htaken := hscan n
    rw [hc] at htaken
    exact ⟨congrArg Scanned.token htaken, congrArg Scanned.requests htaken⟩
  case ending =>
    intro n hn
    have htaken := hscan n
    rw [List.getElem?_eq_none hn] at htaken
    exact ⟨congrArg Scanned.token htaken, congrArg Scanned.requests htaken⟩

/-- Scanners of sources with the same text are at any time about to hand out the same token and know
the same lines. -/
theorem skipTokens_of_text_eq (file : String) {answers answers' : List (Option Char)}
    {remembersEnd remembersEnd' : Bool}
    (h : (Source.ofAnswers answers' remembersEnd').text =
      (Source.ofAnswers answers remembersEnd).text) (n : Nat) :
    let s := (start file (.ofAnswers answers remembersEnd)).skipTokens n
    let s' := (start file (.ofAnswers answers' remembersEnd')).skipTokens n
    s'.next.1 = s.next.1 ∧ s'.window = s.window := by
  have hscan : ∀ n, ((start file (.ofAnswers answers' remembersEnd')).skipTokens n).scan =
      ((start file (.ofAnswers answers remembersEnd)).skipTokens n).scan :=
    fun n => (start_scan_skipTokens file h n).trans (start_scan_skipTokens file rfl n).symm
  refine ⟨congrArg Scanned.token (hscan n), ?_⟩
  cases n with
  | zero => rfl
  | succ n =>
    rw [skipTokens_succ, skipTokens_succ]
    exact congrArg Scanned.window (hscan n)

/-- A scanner reads no further than it needs to. -/
structure ReadsOnDemand (file : String) (source : Source) : Prop where
  /-- A token takes the requests for the characters up to its end and one more, the end of the input
  takes one behind the text, and none is made after that, not even of a source that would answer it
  by itself. -/
  words : ∃ cs, Lossless source.text cs ∧ ReadsAsNeeded file source.text cs source ∧
    ReadsAsNeeded file source.text cs source.counting
  /-- The answers are the same when every request is counted. -/
  counted : ∀ n, (source.counting.readMany n).1 = (source.readMany n).1 ∧
    (source.counting.readMany n).2.requests = n
  /-- What a source has to give behind its first answer of nothing shows in no token and in no
  line. -/
  behindEnd : ∀ answers remembersEnd, (Source.ofAnswers answers remembersEnd).text = source.text →
    ∀ n,
      let s := (start file source).skipTokens n
      let s' := (start file (.ofAnswers answers remembersEnd)).skipTokens n
      s'.next.1 = s.next.1 ∧ ∀ line, s'.window.text? line = s.window.text? line

theorem start_readsOnDemand (file : String) (answers : List (Option Char)) (remembersEnd : Bool) :
    ReadsOnDemand file (.ofAnswers answers remembersEnd) := by
  obtain ⟨answers₁, hcounting, htext⟩ := Source.exists_counting_eq answers remembersEnd
  constructor
  case words =>
    refine ⟨_, cuts_lossless _, readsAsNeeded_cuts file rfl, ?_⟩
    rw [hcounting]
    exact readsAsNeeded_cuts file htext
  case counted => exact Source.counting_readMany answers remembersEnd
  case behindEnd =>
    intro answers' remembersEnd' h n
    obtain ⟨htoken, hwindow⟩ := skipTokens_of_text_eq file h n
    exact ⟨htoken, fun line => congrArg (·.text? line) hwindow⟩

/-- What comes in behind a first end of the input is not asked for. -/
theorem readsOnDemand_behind_end :
    let s := start "p" (.ofAnswers [some 'a', none, some '+', some 'b'] false)
    let s' := start "p" (.ofAnswers [some 'a', none, some '1'] true)
    (s.skipTokens 3).source.requests = 2 ∧
      (s'.skipTokens 1).next.1 = (s.skipTokens 1).next.1 ∧
      (s'.skipTokens 1).window.text? 1 = (s.skipTokens 1).window.text? 1 := by
  have h := (start_readsOnDemand "p" [some 'a', none, some '+', some 'b'] false).behindEnd
    [some 'a', none, some '1'] true (by decide) 1
  exact ⟨by decide +kernel, h.1, h.2 1⟩

end Scanner

end OperatorGrammar
