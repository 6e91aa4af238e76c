import TreebankGrammar.Proofs.Text.Words
import TreebankGrammar.Text.Lines

/-!
# Lines of a text

A text that is put together from parts, each of them closed by a line feed, falls apart at the same
places, and a part without line ends is a single line.

Main results:

- Theorem `lines_append_feed`: a line feed ends a line whatever follows it.
- Theorem `lines_line`: a closed line is read back.
- Theorem `filledLines_append`: a line with any of the line ends is read back, up to empty lines.
- Theorem `fallsInto_iff`: a text falls apart into its lines and into no others.
-/

namespace TreebankGrammar
namespace Text

/-- Characters none of which ends a line. -/
def IsLine (cs : List Char) : Prop :=
  '\n' ∉ cs ∧ '\r' ∉ cs

instance (cs : List Char) : Decidable (IsLine cs) :=
  inferInstanceAs (Decidable ('\n' ∉ cs ∧ '\r' ∉ cs))

theorem isLine_cons {c : Char} {cs : List Char} :
    IsLine (c :: cs) ↔ (c ≠ '\n' ∧ c ≠ '\r') ∧ IsLine cs := by
  simp only [IsLine, List.mem_cons, not_or, ne_eq, eq_comm]
  exact and_and_and_comm

theorem isLine_append {cs ds : List Char} : IsLine (cs ++ ds) ↔ IsLine cs ∧ IsLine ds := by
  simp only [IsLine, List.mem_append, not_or]
  exact and_and_and_comm

theorem isLine_toList_append {s t : String} (hs : IsLine s.toList) (ht : IsLine t.toList) :
    IsLine (s ++ t).toList := by
  rw [String.toList_append]
  exact isLine_append.2 ⟨hs, ht⟩

/-- A text without blanks is a line. -/
theorem BlankFree.isLine {cs : List Char} (h : BlankFree cs) : IsLine cs :=
  ⟨fun hmem => absurd (h _ hmem) (by decide), fun hmem => absurd (h _ hmem) (by decide)⟩

/-- Lines with single blanks between them are a line. -/
theorem isLine_intercalate {ws : List (List Char)} (h : ∀ w ∈ ws, IsLine w) :
    IsLine ([' '].intercalate ws) := by
  induction ws with
  | nil => exact ⟨List.not_mem_nil, List.not_mem_nil⟩
  | cons w ws ih =>
    obtain ⟨hw, hws⟩ := List.forall_mem_cons.1 h
    cases ws with
    | nil => rwa [List.intercalate_singleton]
    | cons v vs =>
      rw [List.intercalate_cons_cons, List.append_assoc, isLine_append, List.singleton_append,
        isLine_cons]
      exact ⟨hw, by decide, ih hws⟩

/-! ## Closed lines -/

/-- The same cut with lines after its last one. -/
def LineCut.extend (cut : LineCut) (ls : List (List Char)) : LineCut :=
  { cut with later := cut.later ++ ls }

/-- Lines further to the right have no effect on what a character does. -/
theorem LineCut.push_extend (c : Char) (cut : LineCut) (ls : List (List Char)) :
    push c (cut.extend ls) = (push c cut).extend ls := by
  by_cases hfeed : c = '\n'
  · simp [push, extend, all, hfeed]
  · by_cases hreturn : c = '\r'
    · cases hat : cut.atFeed <;> simp [push, extend, all, hreturn, hat]
    · simp [push, extend, hfeed, hreturn]

theorem foldr_push_extend (cs : List Char) (cut : LineCut) (ls : List (List Char)) :
    cs.foldr LineCut.push (cut.extend ls) = (cs.foldr LineCut.push cut).extend ls := by
  induction cs with
  | nil => rfl
  | cons c cs ih => rw [List.foldr_cons, List.foldr_cons, ih, LineCut.push_extend]

/-- A line feed ends a line whatever follows it. -/
theorem splitLines_append_feed (cs ds : List Char) :
    splitLines (cs ++ '\n' :: ds) = splitLines (cs ++ ['\n']) ++ splitLines ds := by
  have hfeed : LineCut.push '\n' (ds.foldr LineCut.push ⟨none, [], false⟩) =
      (LineCut.push '\n' ⟨none, [], false⟩).extend (splitLines ds) := rfl
  simp only [splitLines, List.foldr_append, List.foldr_cons, List.foldr_nil] at hfeed ⊢
  rw [hfeed, foldr_push_extend]
  simp [LineCut.all, LineCut.extend]

/-- Characters that end no line are put in front of the entered line. -/
theorem foldr_push_line {cs : List Char} (h : IsLine cs) {cut : LineCut} {ds : List Char}
    (hcurrent : cut.current = some ds) :
    (cs.foldr LineCut.push cut).current = some (cs ++ ds) ∧
      (cs.foldr LineCut.push cut).later = cut.later := by
  induction cs with
  | nil => exact ⟨hcurrent, rfl⟩
  | cons c cs ih =>
    obtain ⟨⟨hfeed, hreturn⟩, hcs⟩ := isLine_cons.1 h
    obtain ⟨ihcurrent, ihlater⟩ := ih hcs
    rw [List.foldr_cons, LineCut.push, if_neg hfeed, if_neg hreturn]
    exact ⟨by rw [ihcurrent]; rfl, ihlater⟩

/-- A closed line is read back. -/
theorem splitLines_line {cs : List Char} (h : IsLine cs) : splitLines (cs ++ ['\n']) = [cs] := by
  have hopen : (LineCut.push '\n' ⟨none, [], false⟩).current = some [] := rfl
  obtain ⟨hcurrent, hlater⟩ := foldr_push_line h hopen
  rw [splitLines, List.foldr_append, List.foldr_cons, List.foldr_nil, LineCut.all, hcurrent, hlater]
  simp [LineCut.push, LineCut.all]

theorem toList_append_feed (s : String) : (s ++ "\n").toList = s.toList ++ ['\n'] :=
  String.toList_append

/-- A line feed ends a line whatever follows it. -/
theorem lines_append_feed (s t : String) :
    lines (s ++ "\n" ++ t) = lines (s ++ "\n") ++ lines t := by
  rw [lines, String.toList_append, toList_append_feed, List.append_assoc, List.singleton_append,
    splitLines_append_feed, List.map_append, ← toList_append_feed]
  rfl

/-- A closed line is read back. -/
theorem lines_line {s : String} (h : IsLine s.toList) : lines (s ++ "\n") = [s] := by
  rw [lines, toList_append_feed, splitLines_line h, List.map_singleton, String.ofList_toList]

/-! ## Ends of lines -/

/-- What ends a line where the given characters follow: a line feed, a carriage return or both, or
nothing at all if nothing follows. -/
inductive EndsLine : (lineEnd rest : List Char) → Prop
  | feed (rest : List Char) : EndsLine ['\n'] rest
  | carriage (rest : List Char) : EndsLine ['\r'] rest
  | both (rest : List Char) : EndsLine ['\r', '\n'] rest
  | nothing : EndsLine [] []

/-- The lines of a list of characters that have a character. -/
def filledLines (cs : List Char) : List (List Char) :=
  (splitLines cs).filter fun line => !line.isEmpty

/-- The last line may lack its end. -/
theorem splitLines_open {cs : List Char} (h : IsLine cs) (hne : cs ≠ []) : splitLines cs = [cs] := by
  obtain ⟨init, c, rfl⟩ := (List.eq_nil_or_concat cs).resolve_left hne
  rw [List.concat_eq_append] at h ⊢
  obtain ⟨hinit, hlast⟩ := isLine_append.1 h
  obtain ⟨⟨hfeed, hreturn⟩, -⟩ := isLine_cons.1 hlast
  have hpush : LineCut.push c ⟨none, [], false⟩ = ⟨some [c], [], false⟩ := by
    rw [LineCut.push, if_neg hfeed, if_neg hreturn]
    rfl
  have hopen : (⟨some [c], [], false⟩ : LineCut).current = some [c] := rfl
  obtain ⟨hcurrent, hlater⟩ := foldr_push_line hinit hopen
  rw [splitLines, List.foldr_append, List.foldr_cons, List.foldr_nil, hpush, LineCut.all, hcurrent,
    hlater]
  rfl

/-- A carriage return ends a line if no line feed follows. -/
theorem splitLines_append_carriage {cs : List Char} (h : IsLine cs) {ds : List Char}
    (hds : ds.head? ≠ some '\n') : splitLines (cs ++ '\r' :: ds) = cs :: splitLines ds := by
  have hfeed : (ds.foldr LineCut.push ⟨none, [], false⟩).atFeed = false := by
    cases ds with
    | nil => rfl
    | cons d ds =>
      have hd : d ≠ '\n' := fun heq => hds (by rw [heq, List.head?_cons])
      rw [List.foldr_cons, LineCut.push, if_neg hd]
      split
      · split
        · rfl
        · rfl
      · rfl
  have hpush : LineCut.push '\r' (ds.foldr LineCut.push ⟨none, [], false⟩) =
      ⟨some [], splitLines ds, false⟩ := by
    simp [LineCut.push, hfeed, splitLines]
  have hopen : (⟨some [], splitLines ds, false⟩ : LineCut).current = some [] := rfl
  obtain ⟨hcurrent, hlater⟩ := foldr_push_line h hopen
  rw [splitLines, List.foldr_append, List.foldr_cons, hpush, LineCut.all, hcurrent, hlater]
  simp

/-- A carriage return and a line feed end one line. -/
theorem splitLines_append_both {cs : List Char} (h : IsLine cs) (ds : List Char) :
    splitLines (cs ++ '\r' :: '\n' :: ds) = cs :: splitLines ds := by
  have hpush : LineCut.push '\r' (LineCut.push '\n' (ds.foldr LineCut.push ⟨none, [], false⟩)) =
      ⟨some [], splitLines ds, false⟩ := rfl
  have hopen : (⟨some [], splitLines ds, false⟩ : LineCut).current = some [] := rfl
  obtain ⟨hcurrent, hlater⟩ := foldr_push_line h hopen
  rw [splitLines, List.foldr_append, List.foldr_cons, List.foldr_cons, hpush, LineCut.all, hcurrent,
    hlater]
  simp

/-- A line with any of the line ends is read back.  A carriage return at its end may run together
with a line feed that follows, so that an empty line gets lost. -/
theorem filledLines_append {line : List Char} (h : IsLine line) {lineEnd rest : List Char}
    (hend : EndsLine lineEnd rest) :
    filledLines (line ++ (lineEnd ++ rest)) =
      ([line].filter fun line => !line.isEmpty) ++ filledLines rest := by
  have hcons : ∀ ls : List (List Char), (line :: ls).filter (fun line => !line.isEmpty) =
      ([line].filter fun line => !line.isEmpty) ++ ls.filter fun line => !line.isEmpty := by
    intro ls
    rw [← List.filter_append, List.singleton_append]
  unfold filledLines
  cases hend with
  | feed =>
    rw [List.singleton_append, splitLines_append_feed, splitLines_line h, List.singleton_append,
      hcons]
  | carriage =>
    by_cases hrest : rest.head? = some '\n'
    · obtain ⟨later, rfl⟩ : ∃ later, rest = '\n' :: later := by
        cases rest with
        | nil => cases hrest
        | cons c later => exact ⟨later, by rw [Option.some.inj hrest]⟩
      have hfeed := splitLines_append_feed [] later
      rw [List.nil_append, splitLines_line ⟨List.not_mem_nil, List.not_mem_nil⟩] at hfeed
      rw [List.singleton_append, splitLines_append_both h, hfeed, hcons]
      rfl
    · rw [List.singleton_append, splitLines_append_carriage h hrest, hcons]
  | both => rw [List.cons_append, List.singleton_append, splitLines_append_both h, hcons]
  | nothing =>
    rw [List.append_nil, List.append_nil]
    by_cases hline : line = []
    · rw [hline]
      rfl
    · rw [splitLines_open h hline, splitLines_nil, List.filter_nil, List.append_nil]

/-! ## Falling apart into lines -/

/-- A text falls apart into lines, said by its characters alone: a line ends at a line feed, at a carriage
return, or at a carriage return directly followed by a line feed, which end it together; the last line
may lack its end if it has a character. -/
inductive FallsInto : List Char → List (List Char) → Prop
  | nil : FallsInto [] []
  | last {line : List Char} (hline : IsLine line) (hne : line ≠ []) : FallsInto line [line]
  | feed {line rest : List Char} {ls : List (List Char)} (hline : IsLine line)
      (h : FallsInto rest ls) : FallsInto (line ++ '\n' :: rest) (line :: ls)
  | carriage {line rest : List Char} {ls : List (List Char)} (hline : IsLine line)
      (hrest : rest.head? ≠ some '\n') (h : FallsInto rest ls) :
      FallsInto (line ++ '\r' :: rest) (line :: ls)
  | both {line rest : List Char} {ls : List (List Char)} (hline : IsLine line)
      (h : FallsInto rest ls) : FallsInto (line ++ '\r' :: '\n' :: rest) (line :: ls)

/-- A text falls apart into no other lines than those that are read. -/
theorem FallsInto.eq_splitLines {cs : List Char} {ls : List (List Char)} (h : FallsInto cs ls) :
    ls = splitLines cs := by
  induction h with
  | nil => rfl
  | last hline hne => rw [splitLines_open hline hne]
  | feed hline _ ih =>
    rw [splitLines_append_feed, splitLines_line hline, ih, List.singleton_append]
  | carriage hline hrest _ ih => rw [splitLines_append_carriage hline hrest, ih]
  | both hline _ ih => rw [splitLines_append_both hline, ih]

/-- A character that ends no line is put in front of the first line. -/
theorem FallsInto.exists_cons {cs : List Char} {ls : List (List Char)} (h : FallsInto cs ls) {c : Char}
    (hc : c ≠ '\n' ∧ c ≠ '\r') : ∃ ls', FallsInto (c :: cs) ls' := by
  cases h with
  | nil =>
    exact ⟨_, .last (isLine_cons.2 ⟨hc, List.not_mem_nil, List.not_mem_nil⟩) (List.cons_ne_nil c [])⟩
  | last hline => exact ⟨_, .last (isLine_cons.2 ⟨hc, hline⟩) (List.cons_ne_nil c _)⟩
  | feed hline h => exact ⟨_, .feed (isLine_cons.2 ⟨hc, hline⟩) h⟩
  | carriage hline hrest h => exact ⟨_, .carriage (isLine_cons.2 ⟨hc, hline⟩) hrest h⟩
  | both hline h => exact ⟨_, .both (isLine_cons.2 ⟨hc, hline⟩) h⟩

/-- Every text falls apart into lines. -/
theorem exists_fallsInto (cs : List Char) : ∃ ls, FallsInto cs ls := by
  have hempty : IsLine [] := ⟨List.not_mem_nil, List.not_mem_nil⟩
  -- Two characters may end a line together, so the induction is on the length.
  induction hn : cs.length using Nat.strongRecOn generalizing cs with
  | ind n ih =>
    cases cs with
    | nil => exact ⟨[], .nil⟩
    | cons c rest =>
      rw [List.length_cons] at hn
      obtain ⟨ls, hrest⟩ := ih rest.length (by omega) rest rfl
      by_cases hfeed : c = '\n'
      · rw [hfeed]
        exact ⟨[] :: ls, .feed hempty hrest⟩
      · by_cases hreturn : c = '\r'
        · rw [hreturn]
          by_cases hhead : rest.head? = some '\n'
          · obtain ⟨later, rfl⟩ := List.head?_eq_some_iff.1 hhead
            rw [List.length_cons] at hn
            obtain ⟨ls', hlater⟩ := ih later.length (by omega) later rfl
            exact ⟨[] :: ls', .both hempty hlater⟩
          · exact ⟨[] :: ls, .carriage hempty hhead hrest⟩
        · exact hrest.exists_cons ⟨hfeed, hreturn⟩

/-- A text falls apart into its lines and into no others. -/
theorem fallsInto_iff (s : String) (ls : List (List Char)) :
    FallsInto s.toList ls ↔ ls = (lines s).map String.toList := by
  have hlines : (lines s).map String.toList = splitLines s.toList := by
    rw [lines, List.map_map]
    simp [Function.comp_def]
  rw [hlines]
  constructor
  · exact FallsInto.eq_splitLines
  · rintro rfl
    obtain ⟨ls, h⟩ := exists_fallsInto s.toList
    rw [← h.eq_splitLines]
    exact h

end Text
end TreebankGrammar
