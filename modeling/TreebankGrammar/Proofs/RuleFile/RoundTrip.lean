import TreebankGrammar.Proofs.Directory
import TreebankGrammar.Proofs.Number.RoundTrip
import TreebankGrammar.Proofs.Text.Lines
import TreebankGrammar.RuleFile

/-!
# Rule files are read as they were written

Nothing in a rule file is quoted.  A symbol therefore survives if it is a word, whatever its
characters are, because each of the three marks of the format is recognised by its place: a comment
by the first character of a line, which belongs to a weight in the line of a rule, the arrow as
the third word, and the end of a line by a character that is blank.

Main results:

- Theorem `RuleFile.isWritable_of_mem_parse`: what a rule that is read looks like.
- Theorem `RuleFile.parse_render`: the rules of a written file.
- Theorem `RuleFile.loadsAs_iff`: which files can be read back.
- Theorem `RuleFile.load_store`: which lists of rules can be read back.
-/

namespace TreebankGrammar

/-- A rule whose line can be taken apart again: all its symbols are words, and there is one on the
right. -/
structure Rule.IsWritable (r : Rule) : Prop where
  lhs : Text.IsWord r.lhs
  rhs_ne_nil : r.rhs ≠ []
  rhs : ∀ symbol ∈ r.rhs, Text.IsWord symbol

namespace RuleFile

/-- What the line of a rule says. -/
def Entry.ofRule (r : Rule) : Entry :=
  ⟨r.lhs, r.rhs, r.weight⟩

/-! ## Entries and rules -/

/-- A rule is determined by its line and its flag. -/
theorem eq_of_ofRule_eq {r s : Rule} (h : Entry.ofRule r = Entry.ofRule s)
    (hlexical : r.lexical = s.lexical) : r = s := by
  obtain ⟨⟨⟨rhs, lexical, hlength⟩, lhs⟩, weight⟩ := r
  obtain ⟨⟨⟨rhs', lexical', hlength'⟩, lhs'⟩, weight'⟩ := s
  obtain ⟨rfl, rfl, rfl⟩ := Entry.mk.inj h
  cases hlexical
  rfl

/-- A rule read back says what its line says. -/
theorem Entry.ofRule_toRule (lhss : List String) (e : Entry) :
    Entry.ofRule (e.toRule lhss) = e := by
  rcases e with ⟨lhs, rhs, weight⟩
  unfold Entry.toRule
  dsimp only
  split
  · split
    · rfl
    · rfl
  · rfl

@[simp] theorem Entry.lhs_toRule (lhss : List String) (e : Entry) : (e.toRule lhss).lhs = e.lhs := by
  have h : (Entry.ofRule (e.toRule lhss)).lhs = e.lhs := by rw [ofRule_toRule]
  exact h

@[simp] theorem Entry.rhs_toRule (lhss : List String) (e : Entry) : (e.toRule lhss).rhs = e.rhs := by
  have h : (Entry.ofRule (e.toRule lhss)).rhs = e.rhs := by rw [ofRule_toRule]
  exact h

/-- A rule read back is lexical when it has a single symbol on the right that is no left-hand side. -/
theorem Entry.lexical_toRule (lhss : List String) (e : Entry) :
    (e.toRule lhss).lexical = true ↔ ∃ symbol, e.rhs = [symbol] ∧ symbol ∉ lhss := by
  rcases e with ⟨lhs, rhs, weight⟩
  unfold Entry.toRule
  dsimp only
  split
  · rename_i symbol
    split
    · rename_i hmem
      simp [Rule.ofProduction, Production.ofBody, Body.phrasal, hmem]
    · rename_i hmem
      simp [Rule.ofProduction, Production.ofBody, Body.ofWord, hmem]
  · rename_i hrhs
    constructor
    · intro h
      cases h
    · rintro ⟨symbol, rfl, -⟩
      exact absurd rfl (hrhs symbol)

/-! ## What is read -/

/-- The words of a line that holds a rule. -/
theorem readEntry_eq_ok {file text : String} {line : Nat} {e : Entry}
    (h : readEntry file line text = .ok e) :
    ∃ weight, Text.words text = weight :: e.lhs :: Rule.arrow :: e.rhs ∧ e.rhs ≠ [] ∧
      Binary64.read? weight = some e.weight := by
  unfold readEntry at h
  split at h
  · rename_i weight lhs mark first rest hwords
    split at h
    · rename_i hmark
      split at h
      · rename_i w hw
        cases h
        exact ⟨weight, by rw [hwords, hmark], List.cons_ne_nil _ _, hw⟩
      · cases h
    · cases h
  · cases h

/-- The symbols of a line that holds a rule are words. -/
theorem isWord_of_readEntry {file text : String} {line : Nat} {e : Entry}
    (h : readEntry file line text = .ok e) :
    Text.IsWord e.lhs ∧ e.rhs ≠ [] ∧ ∀ symbol ∈ e.rhs, Text.IsWord symbol := by
  obtain ⟨weight, hwords, hne, -⟩ := readEntry_eq_ok h
  have hword : ∀ w ∈ weight :: e.lhs :: Rule.arrow :: e.rhs, Text.IsWord w := fun w hw =>
    Text.isWord_of_mem_words (hwords ▸ hw)
  exact ⟨hword _ (by simp), hne, fun symbol hs => hword _ (by simp [hs])⟩

/-- The symbols of all lines that hold rules are words. -/
theorem isWord_of_mem_readEntries {file : String} {line : Nat} {texts : List String}
    {entries : List Entry} (h : readEntries file line texts = .ok entries) :
    ∀ e ∈ entries, Text.IsWord e.lhs ∧ e.rhs ≠ [] ∧ ∀ symbol ∈ e.rhs, Text.IsWord symbol := by
  induction texts generalizing line entries with
  | nil =>
    cases h
    simp
  | cons text texts ih =>
    rw [readEntries] at h
    split at h
    · exact ih h
    · split at h
      · cases h
      · rename_i e hentry
        split at h
        · cases h
        · rename_i later hlater
          cases h
          exact List.forall_mem_cons.2 ⟨isWord_of_readEntry hentry, ih hlater⟩

/-- One rule is read from each line that is not skipped. -/
theorem length_of_readEntries {file : String} {line : Nat} {texts : List String}
    {entries : List Entry} (h : readEntries file line texts = .ok entries) :
    entries.length = texts.countP fun text => !Treebank.isSkipped (Text.strip text) := by
  induction texts generalizing line entries with
  | nil =>
    cases h
    rfl
  | cons text texts ih =>
    rw [readEntries] at h
    split at h
    · rename_i hskipped
      rw [ih h, List.countP_cons_of_neg (by simp [hskipped])]
    · rename_i hread
      split at h
      · cases h
      · split at h
        · cases h
        · rename_i later hlater
          cases h
          rw [List.length_cons, ih hlater, List.countP_cons_of_pos (by simp [hread])]

/-- A rule that is read can be written. -/
theorem isWritable_of_mem_parse {file text : String} {loaded : List Rule}
    (h : parse file text = .ok loaded) : ∀ r ∈ loaded, r.IsWritable := by
  unfold parse parseLines at h
  split at h
  · cases h
  · rename_i entries hentries
    cases h
    intro r hr
    obtain ⟨e, he, rfl⟩ := List.mem_map.1 hr
    obtain ⟨hlhs, hne, hrhs⟩ := isWord_of_mem_readEntries hentries e he
    have hparts := Entry.ofRule_toRule (entries.map Entry.lhs) e
    rw [← hparts] at hlhs hne hrhs
    exact ⟨hlhs, hne, hrhs⟩

/-! ## What is written -/

/-- The lines of closed texts. -/
theorem lines_join_lineOf (texts : List String) :
    Text.lines (String.join (texts.map lineOf)) = texts.flatMap fun s => Text.lines (lineOf s) := by
  induction texts with
  | nil => rfl
  | cons s texts ih =>
    rw [List.map_cons, String.join_cons, List.flatMap_cons, ← ih]
    exact Text.lines_append_feed s _

/-- The lines of a written file. -/
theorem lines_render (header : List String) {rules : List Rule}
    (hrules : ∀ r ∈ rules, Text.IsLine r.text.toList) :
    Text.lines (render header rules) =
      header.flatMap (fun s => Text.lines (headerLine s)) ++ rules.map Rule.text := by
  have hrender : render header rules =
      String.join ((header.map ("#" ++ ·) ++ rules.map Rule.text).map lineOf) := by
    rw [render, List.map_append, List.map_map, List.map_map]
    rfl
  have hlines : rules.flatMap (fun r => Text.lines (lineOf r.text)) = rules.map Rule.text := by
    rw [List.map_eq_flatMap]
    exact List.flatMap_congr fun r hr => Text.lines_line (hrules r hr)
  rw [hrender, lines_join_lineOf, List.flatMap_append, List.flatMap_map, List.flatMap_map, hlines]
  rfl

/-- A text that stays a comment in a header: each line into which its header line falls is
skipped. -/
def IsRemark (s : String) : Prop :=
  ∀ line ∈ Text.lines (headerLine s), Treebank.isSkipped (Text.strip line) = true

/-- A single line stays a comment. -/
theorem isRemark_of_isLine {s : String} (h : Text.IsLine s.toList) : IsRemark s := by
  have hline : Text.IsLine ("#" ++ s).toList :=
    Text.isLine_toList_append (by decide) h
  have hhead := Text.head?_trim_cons (by decide : Text.isBlank '#' = false) s.toList
  rw [IsRemark, headerLine, lineOf, Text.lines_line hline, List.forall_mem_singleton,
    Treebank.isSkipped, Text.strip, String.toList_ofList, String.toList_append]
  simp [hhead, Treebank.commentMark]

/-- Lines that are skipped change the number of the next line only. -/
theorem readEntries_skipped (file : String) (line : Nat) {skipped : List String}
    (h : ∀ s ∈ skipped, Treebank.isSkipped (Text.strip s) = true) (rest : List String) :
    readEntries file line (skipped ++ rest) = readEntries file (line + skipped.length) rest := by
  induction skipped generalizing line with
  | nil => rfl
  | cons s skipped ih =>
    obtain ⟨hs, hskipped⟩ := List.forall_mem_cons.1 h
    rw [List.cons_append, readEntries, if_pos hs, ih (line + 1) hskipped, List.length_cons]
    congr 1
    omega

/-- The line of a rule with a symbol on the right is made of its words with single blanks. -/
theorem toList_text {r : Rule} (h : r.rhs ≠ []) :
    r.text.toList =
      [' '].intercalate ((r.weight.text :: r.lhs :: Rule.arrow :: r.rhs).map String.toList) := by
  obtain ⟨first, rest, hrhs⟩ := List.exists_cons_of_ne_nil h
  rw [Rule.text, hrhs]
  simp [String.toList_intercalate]

/-- The words in the line of a rule that can be written. -/
theorem isWord_of_mem_line {r : Rule} (h : r.IsWritable) :
    ∀ w ∈ r.weight.text :: r.lhs :: Rule.arrow :: r.rhs, Text.IsWord w := by
  have harrow : Text.IsWord Rule.arrow := by decide
  simp only [List.forall_mem_cons]
  exact ⟨r.weight.isWord_text, h.lhs, harrow, h.rhs⟩

/-- The words of the line of a rule. -/
theorem words_text {r : Rule} (h : r.IsWritable) :
    Text.words r.text = r.weight.text :: r.lhs :: Rule.arrow :: r.rhs := by
  have hsplit : Text.splitWords r.text.toList =
      (r.weight.text :: r.lhs :: Rule.arrow :: r.rhs).map String.toList := by
    rw [toList_text h.rhs_ne_nil]
    refine Text.splitWords_intercalate (by decide) ?_
    intro w hw
    obtain ⟨symbol, hsymbol, rfl⟩ := List.mem_map.1 hw
    exact ⟨(isWord_of_mem_line h symbol hsymbol).toList_ne_nil, (isWord_of_mem_line h symbol hsymbol).2⟩
  rw [Text.words, hsplit, List.map_map]
  simp [Function.comp_def]

/-- The line of a rule that can be written holds a single line. -/
theorem isLine_text {r : Rule} (h : r.IsWritable) : Text.IsLine r.text.toList := by
  rw [toList_text h.rhs_ne_nil]
  refine Text.isLine_intercalate fun w hw => ?_
  obtain ⟨symbol, hsymbol, rfl⟩ := List.mem_map.1 hw
  exact (isWord_of_mem_line h symbol hsymbol).2.isLine

/-- The line of a rule is not skipped: it begins with the text of a number. -/
theorem isSkipped_text (r : Rule) : Treebank.isSkipped (Text.strip r.text) = false := by
  obtain ⟨c, cs, hcs⟩ := List.exists_cons_of_ne_nil r.weight.isWord_text.toList_ne_nil
  have hblank : Text.isBlank c = false := r.weight.isWord_text.2 c (by simp [hcs])
  have hmark : c ≠ '#' := by
    rintro rfl
    exact r.weight.head?_text_ne (by rw [hcs]; rfl)
  have hhead : (Text.trim r.text.toList).head? = some c := by
    simp only [Rule.text, String.toList_append, hcs, List.cons_append]
    exact Text.head?_trim_cons hblank _
  obtain ⟨ds, hds⟩ := List.head?_eq_some_iff.1 hhead
  rw [Treebank.isSkipped, Text.strip, hds]
  simp [Treebank.commentMark, hmark]

/-- The line of a rule that can be written is read as the entry of the rule. -/
theorem readEntry_text {r : Rule} (h : r.IsWritable) (file : String) (line : Nat) :
    readEntry file line (Text.strip r.text) = .ok (.ofRule r) := by
  obtain ⟨first, rest, hrhs⟩ := List.exists_cons_of_ne_nil h.rhs_ne_nil
  rw [readEntry, Text.words_strip, words_text h, hrhs]
  simp [Binary64.read?_text, Entry.ofRule, hrhs]

/-- The lines of rules that can be written are read as the entries of the rules. -/
theorem readEntries_text {rules : List Rule} (h : ∀ r ∈ rules, r.IsWritable) (file : String)
    (line : Nat) : readEntries file line (rules.map Rule.text) = .ok (rules.map .ofRule) := by
  induction rules generalizing line with
  | nil => rfl
  | cons r rules ih =>
    obtain ⟨hr, hrules⟩ := List.forall_mem_cons.1 h
    rw [List.map_cons, readEntries, isSkipped_text, readEntry_text hr]
    simp [ih hrules]

/-- The rules of a written file. -/
theorem parse_render {header : List String} {rules : List Rule}
    (hheader : ∀ line ∈ header, IsRemark line) (hrules : ∀ r ∈ rules, r.IsWritable)
    (file : String) :
    parse file (render header rules) =
      .ok (rules.map fun r => (Entry.ofRule r).toRule (rules.map (·.lhs))) := by
  have hskipped : ∀ s ∈ header.flatMap fun s => Text.lines (headerLine s),
      Treebank.isSkipped (Text.strip s) = true := by
    intro s hs
    obtain ⟨line, hline, hmem⟩ := List.mem_flatMap.1 hs
    exact hheader line hline s hmem
  rw [parse, lines_render header fun r hr => isLine_text (hrules r hr), parseLines,
    readEntries_skipped file 1 hskipped, readEntries_text hrules]
  simp [Function.comp_def, Entry.ofRule]

/-- A header from which something other than a comment is read adds to the number of rules. -/
theorem isRemark_of_parse_render {header : List String} {rules loaded : List Rule} {file : String}
    (h : parse file (render header rules) = .ok loaded) (hrules : ∀ r ∈ rules, r.IsWritable)
    (hlength : loaded.length = rules.length) : ∀ line ∈ header, IsRemark line := by
  unfold parse parseLines at h
  split at h
  · cases h
  · rename_i entries hentries
    cases h
    have hcount := length_of_readEntries hentries
    have hread : rules.countP (fun r => !Treebank.isSkipped (Text.strip r.text)) = rules.length :=
      List.countP_eq_length.2 fun r _ => by simp [isSkipped_text]
    rw [List.length_map] at hlength
    rw [lines_render header fun r hr => isLine_text (hrules r hr), List.countP_append,
      List.countP_map, Function.comp_def, hread, hlength, Nat.right_eq_add,
      List.countP_eq_zero] at hcount
    intro line hline s hs
    have hskipped := hcount s (List.mem_flatMap.2 ⟨line, hline, hs⟩)
    simpa using hskipped

/-! ## Files -/

/-- A file is loaded as its text is parsed. -/
theorem load_of_readText {d : Directory} {file text : String} (h : d.readText file = .ok text) :
    load d file = (parse file text).mapError .line := by
  rw [load, Directory.readLines_of_readText h, parse]
  dsimp only
  cases parseLines file (Text.lines text) <;> rfl

/-- What can be written of a rule is seen from its line. -/
theorem isWritable_congr {r s : Rule} (h : Entry.ofRule r = Entry.ofRule s) (hr : r.IsWritable) :
    s.IsWritable := by
  obtain ⟨hlhs, hrhs, -⟩ := Entry.mk.inj h
  exact ⟨hlhs ▸ hr.lhs, hrhs ▸ hr.rhs_ne_nil, hrhs ▸ hr.rhs⟩

/-- Rules that can be written are loaded from a file that holds their text. -/
theorem load_of_isWritable {d : Directory} {file : String} {header : List String}
    {rules : List Rule} (hheader : ∀ line ∈ header, IsRemark line)
    (hread : d.readText file = .ok (render header rules)) (hrules : ∀ r ∈ rules, r.IsWritable) :
    load d file = .ok (rules.map fun r => (Entry.ofRule r).toRule (rules.map (·.lhs))) := by
  rw [load_of_readText hread, parse_render hheader hrules]
  rfl

/-- Rules are loaded only from a file with a text. -/
theorem exists_parse_of_load {d : Directory} {file : String} {loaded : List Rule}
    (h : load d file = .ok loaded) :
    ∃ text, d.readText file = .ok text ∧ parse file text = .ok loaded := by
  unfold load at h
  split at h
  · cases h
  · rename_i stream hlines
    split at h
    · cases h
    · rename_i rules hparse
      cases hbroken : stream.broken with
      | true =>
        rw [hbroken] at h
        cases h
      | false =>
        rw [hbroken] at h
        cases h
        obtain ⟨text, hread, rfl⟩ := Directory.exists_readText_of_readLines hlines hbroken
        exact ⟨text, hread, hparse⟩

/-- Rules are loaded only from a text that can be parsed. -/
theorem parse_of_load {d : Directory} {file text : String} {loaded : List Rule}
    (hread : d.readText file = .ok text) (h : load d file = .ok loaded) :
    parse file text = .ok loaded := by
  rw [load_of_readText hread] at h
  cases hparse : parse file text with
  | error e =>
    rw [hparse] at h
    cases h
  | ok rules =>
    rw [hparse] at h
    exact congrArg Except.ok (Except.ok.inj h)

/-- A rule file is loaded with the sides and the weights of a list of rules. -/
def LoadsAs (d : Directory) (file : String) (rules : List Rule) : Prop :=
  ∃ loaded, load d file = .ok loaded ∧ loaded.map Entry.ofRule = rules.map Entry.ofRule

/-- A bound on the numbers of symbols on the right carries over to rules with the same sides. -/
theorem length_rhs_le_of_map_eq {rules rules' : List Rule} {n : Nat}
    (h : rules'.map Entry.ofRule = rules.map Entry.ofRule) (hrules : ∀ r ∈ rules, r.rhs.length ≤ n) :
    ∀ r ∈ rules', r.rhs.length ≤ n := by
  intro r hr
  have hmem : Entry.ofRule r ∈ rules.map Entry.ofRule := h ▸ List.mem_map_of_mem hr
  obtain ⟨s, hs, heq⟩ := List.mem_map.1 hmem
  have hrhs : s.rhs = r.rhs := congrArg Entry.rhs heq
  rw [← hrhs]
  exact hrules s hs

/-- A bound on the numbers of symbols on the right holds for the rules that are loaded. -/
theorem LoadsAs.length_rhs_le {d : Directory} {file : String} {rules loaded : List Rule} {n : Nat}
    (h : LoadsAs d file rules) (hrules : ∀ r ∈ rules, r.rhs.length ≤ n)
    (hload : load d file = .ok loaded) : ∀ r ∈ loaded, r.rhs.length ≤ n := by
  obtain ⟨loaded', hload', hsame⟩ := h
  obtain rfl := Except.ok.inj (hload'.symm.trans hload)
  exact length_rhs_le_of_map_eq hsame hrules

/-- The text of a list of rules is loaded with their sides and weights exactly if all of them can be
written and the header stays a comment. -/
theorem loadsAs_iff {d : Directory} {file : String} {header : List String} {rules : List Rule}
    (hread : d.readText file = .ok (render header rules)) :
    LoadsAs d file rules ↔ (∀ line ∈ header, IsRemark line) ∧ ∀ r ∈ rules, r.IsWritable := by
  constructor
  · rintro ⟨loaded, hloaded, hsame⟩
    have hparse := parse_of_load hread hloaded
    have hrules : ∀ r ∈ rules, r.IsWritable := by
      intro r hr
      have hmem : Entry.ofRule r ∈ loaded.map Entry.ofRule := hsame ▸ List.mem_map_of_mem hr
      obtain ⟨s, hs, heq⟩ := List.mem_map.1 hmem
      exact isWritable_congr heq (isWritable_of_mem_parse hparse s hs)
    have hlength : loaded.length = rules.length := by
      simpa using congrArg List.length hsame
    exact ⟨isRemark_of_parse_render hparse hrules hlength, hrules⟩
  · rintro ⟨hheader, hrules⟩
    refine ⟨_, load_of_isWritable hheader hread hrules, ?_⟩
    simp [Function.comp_def, Entry.ofRule_toRule]

/-- A stored list of rules is loaded with the same sides and weights exactly if all symbols are
words and no right-hand side is empty; a loaded rule is then lexical exactly if it has a single
symbol on the right that is the left-hand side of no rule of the list. -/
theorem load_store {d d' : Directory} {file : String} {header : List String} {rules : List Rule}
    (hheader : ∀ line ∈ header, Text.IsLine line.toList)
    (hstore : store d file header rules = .ok d') :
    ((∃ loaded, load d' file = .ok loaded ∧ loaded.map Entry.ofRule = rules.map Entry.ofRule) ↔
        ∀ r ∈ rules, r.IsWritable) ∧
      ∀ loaded, load d' file = .ok loaded → loaded.map Entry.ofRule = rules.map Entry.ofRule →
        ∀ r ∈ loaded, r.lexical = true ↔ ∃ symbol, r.rhs = [symbol] ∧ ∀ s ∈ rules, s.lhs ≠ symbol := by
  have hread := Directory.readText_write hstore
  have hremarks : ∀ line ∈ header, IsRemark line := fun line hline =>
    isRemark_of_isLine (hheader line hline)
  refine ⟨(loadsAs_iff hread).trans (and_iff_right hremarks), fun loaded hloaded hsame r hr => ?_⟩
  have hrules := ((loadsAs_iff hread).1 ⟨loaded, hloaded, hsame⟩).2
  have hload := load_of_isWritable hremarks hread hrules
  rw [hloaded, Except.ok.injEq] at hload
  rw [hload] at hr
  obtain ⟨s, -, rfl⟩ := List.mem_map.1 hr
  have hrhs := congrArg Entry.rhs (Entry.ofRule_toRule (rules.map (·.lhs)) (.ofRule s))
  change (Entry.toRule _ _).rhs = _ at hrhs
  rw [Entry.lexical_toRule, hrhs]
  simp [eq_comm]

/-- Two rules whose symbols are the marks of the format. -/
def markRules : List Rule :=
  [.ofProduction (.phrasal "->" ["#", "->"]) .nan, .ofProduction (.ofBody "#" (.ofWord "#w")) .one]

/-- The marks of the format survive as symbols, below a header with the same marks. -/
theorem load_store_marks :
    ∃ d' loaded, store {} "g" ["", "# 1 -> 2"] markRules = .ok d' ∧ load d' "g" = .ok loaded ∧
      loaded.map Entry.ofRule = markRules.map Entry.ofRule := by
  have hheader : ∀ line ∈ ["", "# 1 -> 2"], Text.IsLine line.toList := by decide
  have hname : Directory.IsFileName "g" := ⟨"g", by decide +kernel, by decide⟩
  obtain ⟨d', hstore⟩ : ∃ d', store {} "g" ["", "# 1 -> 2"] markRules = .ok d' :=
    Directory.exists_write_iff.2 hname
  have hwords : ∀ symbol ∈ ["->", "#", "#w"], Text.IsWord symbol := by decide
  have hrules : ∀ r ∈ markRules, r.IsWritable := by
    simp only [markRules, List.forall_mem_cons]
    refine ⟨⟨hwords _ (by decide), List.cons_ne_nil _ _, ?_⟩,
      ⟨hwords _ (by decide), List.cons_ne_nil _ _, ?_⟩, by simp⟩
    · intro symbol hsymbol
      exact hwords symbol ((by decide : ["#", "->"] ⊆ ["->", "#", "#w"]) hsymbol)
    · intro symbol hsymbol
      exact hwords symbol ((by decide : ["#w"] ⊆ ["->", "#", "#w"]) hsymbol)
  obtain ⟨loaded, hloaded, hsame⟩ := (load_store hheader hstore).1.2 hrules
  exact ⟨d', loaded, hstore, hloaded, hsame⟩

end RuleFile
end TreebankGrammar
