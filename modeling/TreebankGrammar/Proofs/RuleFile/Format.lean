import TreebankGrammar.Proofs.RuleFile.RoundTrip
import TreebankGrammar.Proofs.Treebank.Reading
import TreebankGrammar.Rule.Spec

/-!
# Which texts are rule files

A rule file is loaded exactly if each of its lines is blank, a comment or a line of at least four words,
the first of which is a number and the third the arrow.  The lines in between only count for the
numbers of those after them.  A line that says no rule is reported with its number, for its first fault;
whether a rule is lexical is found out from all lines together, the later ones included.

Main definitions:

- `RuleFile.Entry.IsSaidBy`: a line says an entry.
- `RuleFile.IsRefusedAs`: why a line says none.
- `RuleFile.Entry.IsMade`: the rule that is made from an entry.

Main results:

- Theorem `RuleFile.readEntry_spec`: a line is read as the entry that it says, or refused.
- Theorem `RuleFile.readEntries_spec`: lines are read up to the first one that says no entry.
- Theorem `RuleFile.Entry.isMade_toRule`: the rule of an entry can always be made.
- Theorem `RuleFile.load_iff_format`: which files are loaded, as which rules, and why the others are not.
-/

namespace TreebankGrammar
namespace RuleFile

/-! ## Lines -/

/-- A line says an entry: its first word is the number of the weight, its second one is the left-hand
side, its third one the arrow, and the further ones, at least one, are the right-hand side. -/
def Entry.IsSaidBy (e : Entry) (line : String) : Prop :=
  ∃ number, Text.words line = number :: e.lhs :: Rule.arrow :: e.rhs ∧ e.rhs ≠ [] ∧
    Binary64.read? number = some e.weight

/-- Whether a line has at least four words, the third of which is the arrow. -/
def HasArrow (line : String) : Prop :=
  4 ≤ (Text.words line).length ∧ (Text.words line)[2]? = some Rule.arrow

/-- Why a line with a number says no entry: it lacks a word or the arrow, or else its first word is not
a number. -/
inductive IsRefusedAs (file : String) (number : Nat) (line : String) : LineError → Prop
  | notRule (h : ¬HasArrow line) : IsRefusedAs file number line (.notRule number file line)
  | badWeight {word : String} (h : HasArrow line) (hword : (Text.words line).head? = some word)
      (hweight : Binary64.read? word = none) :
      IsRefusedAs file number line (.badWeight number file word)

/-- A line has the arrow in its place if its words are two words, the arrow and at least one further
word. -/
theorem hasArrow_iff (line : String) :
    HasArrow line ↔ ∃ word lhs first rest,
      Text.words line = word :: lhs :: Rule.arrow :: first :: rest := by
  rw [HasArrow]
  constructor
  · rintro ⟨hlength, harrow⟩
    match hwords : Text.words line with
    | [] => simp [hwords] at hlength
    | [_] => simp [hwords] at hlength
    | [_, _] => simp [hwords] at hlength
    | [_, _, _] => simp [hwords] at hlength
    | word :: lhs :: mark :: first :: rest =>
      rw [hwords] at harrow
      obtain rfl : mark = Rule.arrow := by simpa using harrow
      exact ⟨word, lhs, first, rest, rfl⟩
  · rintro ⟨word, lhs, first, rest, hwords⟩
    simp [hwords]

/-- A line that says an entry has the arrow in its place. -/
theorem Entry.IsSaidBy.hasArrow {e : Entry} {line : String} (h : e.IsSaidBy line) :
    HasArrow line := by
  obtain ⟨number, hwords, hne, -⟩ := h
  obtain ⟨first, rest, hrhs⟩ := List.exists_cons_of_ne_nil hne
  rw [hrhs] at hwords
  exact (hasArrow_iff line).2 ⟨number, e.lhs, first, rest, hwords⟩

/-- A line that is refused says no entry. -/
theorem IsRefusedAs.not_isSaidBy {file line : String} {number : Nat} {cause : LineError}
    (h : IsRefusedAs file number line cause) (e : Entry) : ¬e.IsSaidBy line := by
  intro hsaid
  cases h with
  | notRule hnot => exact hnot hsaid.hasArrow
  | badWeight _ hword hweight =>
    obtain ⟨number', hwords, -, hread⟩ := hsaid
    rw [hwords, List.head?_cons] at hword
    rw [Option.some.inj hword, hweight] at hread
    cases hread

/-- A line is read as the entry that it says, or refused. -/
theorem readEntry_spec (file : String) (number : Nat) (line : String) :
    (∃ e, e.IsSaidBy line ∧ readEntry file number line = .ok e) ∨
      ∃ cause, IsRefusedAs file number line cause ∧ readEntry file number line = .error cause := by
  cases hread : readEntry file number line with
  | ok e => exact .inl ⟨e, readEntry_eq_ok hread, rfl⟩
  | error cause =>
    right
    refine ⟨cause, ?_, rfl⟩
    unfold readEntry at hread
    split at hread
    · rename_i word lhs mark first rest hwords
      split at hread
      · rename_i hmark
        have harrow : HasArrow line := by
          rw [hasArrow_iff, hwords, hmark]
          exact ⟨word, lhs, first, rest, rfl⟩
        split at hread
        · cases hread
        · rename_i hweight
          cases hread
          exact .badWeight harrow (by rw [hwords, List.head?_cons]) hweight
      · rename_i hmark
        cases hread
        refine .notRule fun harrow => hmark ?_
        simpa [hwords] using harrow.2
    · rename_i hshort
      cases hread
      refine .notRule fun harrow => ?_
      obtain ⟨word, lhs, first, rest, hwords⟩ := (hasArrow_iff line).1 harrow
      exact hshort word lhs Rule.arrow first rest hwords

/-! ## All lines -/

/-- Numbered lines say entries, each the one at its place. -/
def SayEntries (lines : List (String × Nat)) (entries : List Entry) : Prop :=
  List.Forall₂ (fun line (e : Entry) => e.IsSaidBy line.1) lines entries

/-- Each of the lines says an entry. -/
theorem SayEntries.exists_isSaidBy {lines : List (String × Nat)} {entries : List Entry}
    (h : SayEntries lines entries) : ∀ line ∈ lines, ∃ e : Entry, e.IsSaidBy line.1 := by
  induction h with
  | nil => simp
  | cons hsaid _ ih => exact List.forall_mem_cons.2 ⟨⟨_, hsaid⟩, ih⟩

/-- Lines are read as the entries that they say, or up to the first one that says none. -/
theorem readEntries_spec (file : String) (first : Nat) (lines : List String) :
    (∃ entries, SayEntries (Treebank.numberedLines first lines) entries ∧
        readEntries file first lines = .ok entries) ∨
      ∃ before line number after entries cause,
        Treebank.numberedLines first lines = before ++ (line, number) :: after ∧
        SayEntries before entries ∧ IsRefusedAs file number line cause ∧
        readEntries file first lines = .error cause := by
  induction lines generalizing first with
  | nil => exact .inl ⟨[], .nil, rfl⟩
  | cons text rest ih =>
    rw [readEntries, Treebank.numberedLines_cons]
    by_cases hskipped : Treebank.isSkipped (Text.strip text) = true
    · rw [if_pos hskipped, if_pos hskipped]
      exact ih (first + 1)
    · rw [if_neg hskipped, if_neg hskipped]
      rcases readEntry_spec file first (Text.strip text) with
        ⟨e, hsaid, hread⟩ | ⟨cause, hrefused, hread⟩
      · rw [hread]
        dsimp only
        rcases ih (first + 1) with
          ⟨entries, hentries, hlater⟩ |
            ⟨before, line, number, after, entries, cause, hcut, hbefore, hrefused, hlater⟩
        · rw [hlater]
          exact .inl ⟨e :: entries, .cons hsaid hentries, rfl⟩
        · rw [hlater, hcut]
          exact .inr ⟨(Text.strip text, first) :: before, line, number, after, e :: entries, cause,
            rfl, .cons hsaid hbefore, hrefused, rfl⟩
      · rw [hread]
        exact .inr ⟨[], _, first, _, [], cause, rfl, .nil, hrefused, rfl⟩

/-! ## Rules -/

/-- Whether a right-hand side is a single symbol that is none of the given left-hand sides. -/
def isLoneWord (lhss rhs : List String) : Bool :=
  decide (rhs.length = 1) && rhs.all (· ∉ lhss)

/-- A rule is made from an entry in a file with the given left-hand sides: its sides and its weight are
those of the entry, it is lexical exactly if it has a single symbol on the right that is no left-hand
side, and a rule can be made from these parts. -/
structure Entry.IsMade (lhss : List String) (e : Entry) (r : Rule) : Prop where
  lhs : r.lhs = e.lhs
  rhs : r.rhs = e.rhs
  weight : r.weight = e.weight
  lexical_iff : r.lexical = true ↔ ∃ symbol, e.rhs = [symbol] ∧ symbol ∉ lhss
  rule? : RuleSpec.rule? ⟨e.lhs, e.rhs, isLoneWord lhss e.rhs, e.weight⟩ = .ok r

/-- A rule can be made from its own parts. -/
theorem rule?_of_rule (r : Rule) : RuleSpec.rule? ⟨r.lhs, r.rhs, r.lexical, r.weight⟩ = .ok r := by
  have hparts : r.lexical = true → r.rhs.length = 1 := r.length_of_lexical
  rw [RuleSpec.rule?, Production.make?, dif_pos hparts]
  rfl

theorem isLoneWord_iff (lhss rhs : List String) :
    isLoneWord lhss rhs = true ↔ ∃ symbol, rhs = [symbol] ∧ symbol ∉ lhss := by
  match rhs with
  | [] => simp [isLoneWord]
  | [symbol] => simp [isLoneWord]
  | _ :: _ :: _ => simp [isLoneWord]

/-- The rule of an entry can always be made. -/
theorem Entry.isMade_toRule (lhss : List String) (e : Entry) : e.IsMade lhss (e.toRule lhss) := by
  have hweight : (e.toRule lhss).weight = e.weight := rfl
  have hflag : isLoneWord lhss e.rhs = (e.toRule lhss).lexical :=
    Bool.eq_iff_iff.2 ((isLoneWord_iff lhss e.rhs).trans (e.lexical_toRule lhss).symm)
  refine ⟨e.lhs_toRule lhss, e.rhs_toRule lhss, hweight, e.lexical_toRule lhss, ?_⟩
  have hmade := rule?_of_rule (e.toRule lhss)
  rwa [e.lhs_toRule, e.rhs_toRule, hweight, ← hflag] at hmade

/-! ## Files -/

/-- The lines of a text end at line feeds, at carriage returns and at both together, and nowhere else.  The text
of a file is loaded as a rule file exactly if each line that is neither blank nor a comment says an
entry.  Then one rule is made from each of these lines, in order.  Otherwise the first line that says
none is refused with its number among all lines. -/
theorem load_iff_format {d : Directory} {file text : String} (hread : d.readText file = .ok text) :
    ∃ lines : List String,
      (∀ ls, Text.FallsInto text.toList ls ↔ ls = lines.map String.toList) ∧
      ((∃ rules, load d file = .ok rules) ↔
        ∀ line ∈ Treebank.numberedLines 1 lines, ∃ e : Entry, e.IsSaidBy line.1) ∧
      ((∃ entries rules, SayEntries (Treebank.numberedLines 1 lines) entries ∧
          load d file = .ok rules ∧
          List.Forall₂ (Entry.IsMade (entries.map Entry.lhs)) entries rules) ∨
        ∃ before line number after entries cause,
          Treebank.numberedLines 1 lines = before ++ (line, number) :: after ∧
          SayEntries before entries ∧ IsRefusedAs file number line cause ∧
          load d file = .error (.line cause)) := by
  refine ⟨Text.lines text, Text.fallsInto_iff text, ?_⟩
  rcases readEntries_spec file 1 (Text.lines text) with
    ⟨entries, hentries, hlines⟩ |
      ⟨before, line, number, after, entries, cause, hcut, hbefore, hrefused, hlines⟩
  · have hload : load d file = .ok (entries.map (Entry.toRule (entries.map Entry.lhs))) := by
      rw [load_of_readText hread, parse, parseLines, hlines]
      rfl
    refine ⟨iff_of_true ⟨_, hload⟩ hentries.exists_isSaidBy, .inl ⟨entries, _, hentries, hload, ?_⟩⟩
    rw [List.forall₂_map_right_iff, List.forall₂_same]
    exact fun e _ => e.isMade_toRule _
  · have hload : load d file = .error (.line cause) := by
      rw [load_of_readText hread, parse, parseLines, hlines]
      rfl
    refine ⟨iff_of_false ?_ ?_, .inr ⟨before, line, number, after, entries, cause, hcut, hbefore,
      hrefused, hload⟩⟩
    · rintro ⟨rules, hrules⟩
      rw [hload] at hrules
      cases hrules
    · intro hall
      obtain ⟨e, hsaid⟩ := hall (line, number) (by simp [hcut])
      exact hrefused.not_isSaidBy e hsaid

/-- A file with lines of all ends, the fifth of which lacks its right-hand side. -/
def shortLineFile : String :=
  "# rules\r\n\r1_0e-1\u3000S -> A\n 1 A\u0085-> w \r 2 B -> \r\n!"

/-- The fifth line is the first one that says no entry. -/
theorem load_shortLineFile :
    let d : Directory := { files := Table.empty.insert "g" shortLineFile.toUTF8 }
    ∃ lines : List String,
      (∀ ls, Text.FallsInto shortLineFile.toList ls ↔ ls = lines.map String.toList) ∧
      (∃ line ∈ Treebank.numberedLines 1 lines, ¬∃ e : Entry, e.IsSaidBy line.1) ∧
      load d "g" = .error (.line (.notRule 5 "g" "2 B ->")) := by
  intro d
  have hread : d.readText "g" = .ok shortLineFile := Directory.readText_of_read rfl
  have hparse : parse "g" shortLineFile = .error (.notRule 5 "g" "2 B ->") := by rfl
  have hload : load d "g" = .error (.line (.notRule 5 "g" "2 B ->")) := by
    rw [load_of_readText hread, hparse]
    rfl
  obtain ⟨lines, hlines, hiff, -⟩ := load_iff_format hread
  refine ⟨lines, hlines, ?_, hload⟩
  by_contra hnone
  obtain ⟨rules, hrules⟩ := hiff.2 fun line hline => by
    by_contra hsaid
    exact hnone ⟨line, hline, hsaid⟩
  rw [hload] at hrules
  cases hrules

end RuleFile
end TreebankGrammar
