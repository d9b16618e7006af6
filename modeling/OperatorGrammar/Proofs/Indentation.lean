import OperatorGrammar.Proofs.Plain

/-!
Indented texts. An outline is a heading with outlines below it. It is written with a line for each
heading, and the line is indented by as much as the heading is deep. What is below a heading ends
where the indentation is back at that of the heading, or in front of it, so no two outlines have the
same lines. Main statements: `Outline.lines_inj` and `indentedLines_inj`.
-/

namespace OperatorGrammar

/-! ## Outlines -/

inductive Outline (α : Type) where
  | entry (heading : α) (below : List (Outline α))

namespace Outline

variable {α : Type} {o p : Outline α} {os : List (Outline α)} {depth : Nat} {r s : List (Nat × α)}

mutual

/-- The headings in the order of the lines, each with its depth. -/
def lines (depth : Nat) : Outline α → List (Nat × α)
  | entry heading below => (depth, heading) :: linesAll (depth + 1) below

def linesAll (depth : Nat) : List (Outline α) → List (Nat × α)
  | [] => []
  | o :: os => o.lines depth ++ linesAll depth os

end

/-- What may follow outlines at a depth: nothing, or a line that is not as deep. -/
def EndsAbove (depth : Nat) (rest : List (Nat × α)) : Prop := ∀ l ∈ rest.head?, l.1 < depth

theorem endsAbove_nil : EndsAbove depth ([] : List (Nat × α)) := nofun

/-- Further outlines at the same depth end those that are deeper. -/
theorem EndsAbove.linesAll (h : EndsAbove depth r) (os : List (Outline α)) :
    EndsAbove (depth + 1) (linesAll depth os ++ r) := by
  intro l hl
  cases os with
  | nil => exact Nat.lt_succ_of_lt (h l hl)
  | cons o os =>
    obtain ⟨heading, below⟩ := o
    obtain rfl := Option.some.inj hl
    exact Nat.lt_succ_self depth

/-- A heading at a depth does not end the outlines there. -/
theorem linesAll_cons_ne (hs : EndsAbove depth s) : linesAll depth (o :: os) ++ r ≠ s := by
  obtain ⟨heading, below⟩ := o
  rintro rfl
  exact Nat.lt_irrefl depth (hs _ rfl)

/-- Outlines are found again in front of whatever ends them. -/
theorem linesAll_append_inj {os ps : List (Outline α)} {depth : Nat} {r s : List (Nat × α)}
    (hr : EndsAbove depth r) (hs : EndsAbove depth s)
    (h : linesAll depth os ++ r = linesAll depth ps ++ s) : os = ps ∧ r = s := by
  match os, ps with
  | [], [] => exact ⟨rfl, h⟩
  | [], p :: ps => exact absurd h.symm (linesAll_cons_ne hr)
  | o :: os, [] => exact absurd h (linesAll_cons_ne hs)
  | entry heading below :: os, entry heading' below' :: ps =>
    simp only [linesAll, lines, List.cons_append, List.append_assoc, List.cons.injEq,
      Prod.mk.injEq, true_and] at h
    obtain ⟨rfl, h⟩ := h
    -- first what is below the heading, and then what is beside it
    obtain ⟨rfl, hbeside⟩ := linesAll_append_inj (hr.linesAll os) (hs.linesAll ps) h
    obtain ⟨rfl, hrest⟩ := linesAll_append_inj hr hs hbeside
    exact ⟨rfl, hrest⟩

/-- The lines tell the outline. -/
theorem lines_inj : o.lines depth = p.lines depth ↔ o = p := by
  refine ⟨?_, fun h => h ▸ rfl⟩
  intro h
  have hall : linesAll depth [o] ++ [] = linesAll depth [p] ++ [] := by
    simpa only [linesAll, List.append_nil] using h
  exact (List.cons.inj (linesAll_append_inj endsAbove_nil endsAbove_nil hall).1).1

end Outline

/-! ## Texts -/

/-- What can be told apart when it is put together by a separator that starts with `c`. -/
structure IsPiece (c : Char) (x : String) : Prop where
  ne_empty : x ≠ ""
  not_mem : c ∉ x.toList

variable {c : Char} {cs : List Char}

/-- A separator may as well start each piece but the first, apart from its first character. -/
theorem intercalate_cons_eq (x : List Char) (xs : List (List Char)) :
    (c :: cs).intercalate (x :: xs) = [c].intercalate (x :: xs.map (cs ++ ·)) := by
  induction xs generalizing x with
  | nil => rfl
  | cons y ys ih =>
    rw [List.map_cons, List.intercalate_cons_cons, List.intercalate_cons_cons, ih]
    cases ys with
    | nil => simp
    | cons z zs => simp [List.intercalate_cons_cons]

variable {sep x y : String} {xs ys : List String}

/-- Splitting finds the pieces again. All but the first still have the rest of the separator. -/
theorem splitOn_intercalate (hsep : sep.toList = c :: cs) (hcs : c ∉ cs)
    (h : ∀ y ∈ x :: xs, IsPiece c y) :
    (sep.intercalate (x :: xs)).toList.splitOn c =
      x.toList :: xs.map fun y => cs ++ y.toList := by
  obtain ⟨hx, hxs⟩ := List.forall_mem_cons.1 h
  rw [String.toList_intercalate, hsep, List.map_cons, intercalate_cons_eq, List.map_map,
    List.splitOn_intercalate c ?_ (List.cons_ne_nil _ _)]
  · rfl
  · refine List.forall_mem_cons.2 ⟨hx.not_mem, List.forall_mem_map.2 ?_⟩
    intro y hy
    simp [hcs, (hxs y hy).not_mem]

/-- Pieces that are put together are not nothing. -/
theorem intercalate_cons_ne_nil (hsep : sep.toList = c :: cs) (hcs : c ∉ cs)
    (h : ∀ y ∈ x :: xs, IsPiece c y) : sep.intercalate (x :: xs) ≠ sep.intercalate [] := by
  intro hnil
  have hsplit := splitOn_intercalate hsep hcs h
  rw [hnil] at hsplit
  have hx : [] = x.toList := (List.cons.inj hsplit).1
  exact (h x List.mem_cons_self).ne_empty (String.toList_eq_nil_iff.1 hx.symm)

/-- No two lists of pieces are put together to the same text. -/
theorem intercalate_inj (hsep : sep.toList = c :: cs) (hcs : c ∉ cs)
    (hxs : ∀ x ∈ xs, IsPiece c x) (hys : ∀ y ∈ ys, IsPiece c y) :
    sep.intercalate xs = sep.intercalate ys ↔ xs = ys := by
  refine ⟨?_, fun h => h ▸ rfl⟩
  intro h
  match xs, ys with
  | [], [] => rfl
  | [], y :: ys => exact absurd h.symm (intercalate_cons_ne_nil hsep hcs hys)
  | x :: xs, [] => exact absurd h (intercalate_cons_ne_nil hsep hcs hxs)
  | x :: xs, y :: ys =>
    have hsplit := splitOn_intercalate hsep hcs hxs
    rw [h, splitOn_intercalate hsep hcs hys] at hsplit
    obtain ⟨hx, hrest⟩ := List.cons.inj hsplit
    have hinj : Function.Injective fun x : String => cs ++ x.toList := fun x y hxy =>
      String.toList_injective (List.append_cancel_left hxy)
    rw [String.toList_injective hx, List.map_injective_iff.2 hinj hrest]

/-- A line with a depth, indented by two blanks for each step down. -/
def indented (l : Nat × String) : String :=
  String.ofList (List.replicate (2 * l.1) ' ') ++ l.2

/-- A plain text that starts a line behind its indentation. -/
structure IsHeading (x : String) : Prop where
  first : ∃ c cs, x.toList = c :: cs ∧ c ≠ ' '
  plain : IsPlain x

theorem IsHeading.isPlain_indented {l : Nat × String} (h : IsHeading l.2) :
    IsPlain (indented l) := by
  refine IsPlain.append ?_ h.plain
  intro c hc
  rw [String.toList_ofList] at hc
  rw [List.eq_of_mem_replicate hc]
  decide

theorem IsHeading.isPiece_indented {l : Nat × String} (h : IsHeading l.2) :
    IsPiece '\n' (indented l) where
  ne_empty := by
    obtain ⟨c, cs, hx, -⟩ := h.first
    intro he
    have hl := congrArg String.toList he
    simp [indented, hx] at hl
  not_mem := h.isPlain_indented.not_mem (by decide)

theorem indented_inj {l m : Nat × String} (hl : IsHeading l.2) (hm : IsHeading m.2)
    (h : indented l = indented m) : l = m := by
  have blank : ∀ n, ∀ c ∈ List.replicate n ' ', (c == ' ') = true := by
    intro n c hc
    rw [List.eq_of_mem_replicate hc]
    rfl
  have ends {x : String} (hx : IsHeading x) : ∀ c ∈ x.toList.head?, (c == ' ') = false := by
    obtain ⟨c, cs, hc, hne⟩ := hx.first
    rw [hc]
    intro d hd
    obtain rfl := Option.some.inj hd
    exact beq_false_of_ne hne
  have hchars := congrArg String.toList h
  rw [indented, indented, String.toList_append, String.toList_append, String.toList_ofList,
    String.toList_ofList] at hchars
  obtain ⟨hblanks, htext⟩ := append_inj_of_ends (blank _) (blank _) (ends hl) (ends hm) hchars
  have hlength := congrArg List.length hblanks
  rw [List.length_replicate, List.length_replicate] at hlength
  exact Prod.ext (by omega) (String.toList_injective htext)

/-- The lines of a text tell their headings and how deep they are. -/
theorem indentedLines_inj {ls ms : List (Nat × String)} (hls : ∀ l ∈ ls, IsHeading l.2)
    (hms : ∀ m ∈ ms, IsHeading m.2) :
    "\n".intercalate (ls.map indented) = "\n".intercalate (ms.map indented) ↔ ls = ms := by
  rw [intercalate_inj (show "\n".toList = ['\n'] from rfl) List.not_mem_nil
    (List.forall_mem_map.2 fun l hl => (hls l hl).isPiece_indented)
    (List.forall_mem_map.2 fun m hm => (hms m hm).isPiece_indented)]
  refine ⟨?_, fun h => h ▸ rfl⟩
  intro h
  induction ls generalizing ms with
  | nil => exact (List.map_eq_nil_iff.1 h.symm).symm
  | cons l ls ih =>
    obtain ⟨m, ms, rfl, hlm, hrest⟩ := List.map_eq_cons_iff.1 h.symm
    obtain ⟨hl, hls⟩ := List.forall_mem_cons.1 hls
    obtain ⟨hm, hms⟩ := List.forall_mem_cons.1 hms
    rw [indented_inj hm hl hlm, ih hls hms hrest.symm]

end OperatorGrammar
