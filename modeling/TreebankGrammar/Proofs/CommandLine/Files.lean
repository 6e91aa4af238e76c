import TreebankGrammar.CommandLine.Conversion
import TreebankGrammar.Proofs.Binarization.Expansion
import TreebankGrammar.Proofs.Directory
import TreebankGrammar.Proofs.Grammar.Treebanks

/-!
# Files of the command line

A run gets past its treebank or stops; after that nothing can go wrong but the names of the files that
it is to write.  Since files are written one after the other, a file holds the rules of the last
export that leads to it.

Main results:

- Theorem `writeAll_result_eq_ok_iff`: when all rule files are written.
- Theorem `readText_writeAll`: the text of a rule file at the end of a run.
- Theorem `convert_result_eq_ok_iff`: when a run succeeds.
- Theorem `exists_writeAll_of_convert`: what a run that succeeds has done.
-/

namespace TreebankGrammar
namespace CommandLine

/-! ## Writing -/

/-- A file that no export leads to is read as before. -/
theorem readText_writeAll_of_ne (g : Grammar) (stem : String) {d : Directory} {name text : String}
    (hread : d.readText name = .ok text) {es : List Export}
    (hne : ∀ e ∈ es, Place.find name ≠ Place.find e.file) :
    (writeAll g stem d es).directory.readText name = .ok text := by
  induction es generalizing d with
  | nil => exact hread
  | cons e rest ih =>
    obtain ⟨hfirst, hrest⟩ := List.forall_mem_cons.1 hne
    rw [writeAll]
    dsimp only
    split
    · exact hread
    · split
      · exact hread
      · rename_i hstore
        exact ih (Directory.readText_write_of_ne hstore hfirst hread) hrest

@[simp]
theorem Export.rules_binarized (file : String) (remarks : List String) (strategy : Strategy)
    (g : Grammar) (stem : String) :
    ((⟨file, remarks, some strategy⟩ : Export).rules g stem).2 = (g.binarize strategy stem).result :=
  rfl

/-- The rules of an export exist: binarization finds new names whatever the stem is. -/
theorem Export.exists_rules (e : Export) (g : Grammar) (stem : String) :
    ∃ rules, (e.rules g stem).2 = .ok rules := by
  rcases e with ⟨file, remarks, strategy⟩
  cases strategy with
  | none => exact ⟨g.rules, rfl⟩
  | some strategy =>
    obtain ⟨out, -, hresult, -⟩ := g.exists_explains strategy stem
    exact ⟨out, hresult⟩

/-- One rule file has been written. -/
theorem writeAll_cons {g : Grammar} {stem : String} {d d' : Directory} {e : Export}
    {rules : List Rule} (hrules : (e.rules g stem).2 = .ok rules)
    (hstore : RuleFile.store d e.file e.remarks rules = .ok d') (rest : List Export) :
    writeAll g stem d (e :: rest) = (writeAll g stem d' rest).after (e.rules g stem).1 := by
  simp [writeAll, hrules, hstore]

/-- What it takes to write all rule files. -/
theorem exists_store_of_writeAll_cons {g : Grammar} {stem : String} {d : Directory} {e : Export}
    {rest : List Export} (hok : (writeAll g stem d (e :: rest)).result = .ok ()) :
    ∃ rules d', (e.rules g stem).2 = .ok rules ∧ RuleFile.store d e.file e.remarks rules = .ok d' := by
  obtain ⟨rules, hrules⟩ := e.exists_rules g stem
  cases hstore : RuleFile.store d e.file e.remarks rules with
  | error cause => simp [writeAll, hrules, hstore, Report.failed] at hok
  | ok d' => exact ⟨rules, d', hrules, hstore⟩

/-- All rule files are written exactly if each name is that of a file. -/
theorem writeAll_result_eq_ok_iff {g : Grammar} {stem : String} {d : Directory} {es : List Export} :
    (writeAll g stem d es).result = .ok () ↔ ∀ e ∈ es, Directory.IsFileName e.file := by
  induction es generalizing d with
  | nil => simp [writeAll]
  | cons e rest ih =>
    rw [List.forall_mem_cons]
    constructor
    · intro hok
      obtain ⟨rules, d', hrules, hstore⟩ := exists_store_of_writeAll_cons hok
      rw [writeAll_cons hrules hstore] at hok
      exact ⟨Directory.exists_write_iff.1 ⟨d', hstore⟩, ih.1 hok⟩
    · rintro ⟨hname, hrest⟩
      obtain ⟨rules, hrules⟩ := e.exists_rules g stem
      obtain ⟨d', hstore⟩ := Directory.exists_write_iff.2 hname
      rw [writeAll_cons hrules hstore]
      exact ih.2 hrest

/-- When all rule files have been written, a file holds the rules of the last export that leads to
it. -/
theorem readText_writeAll {g : Grammar} {stem : String} {d : Directory} {before after : List Export}
    {e : Export} (hok : (writeAll g stem d (before ++ e :: after)).result = .ok ())
    (hlast : ∀ e' ∈ after, Place.find e.file ≠ Place.find e'.file) :
    ∃ rules, (e.rules g stem).2 = .ok rules ∧
      (writeAll g stem d (before ++ e :: after)).directory.readText e.file =
        .ok (RuleFile.render e.remarks rules) := by
  induction before generalizing d with
  | nil =>
    obtain ⟨rules, d', hrules, hstore⟩ := exists_store_of_writeAll_cons hok
    refine ⟨rules, hrules, ?_⟩
    rw [List.nil_append, writeAll_cons hrules hstore]
    exact readText_writeAll_of_ne g stem (Directory.readText_write hstore) hlast
  | cons first before ih =>
    obtain ⟨rules, d', hrules, hstore⟩ := exists_store_of_writeAll_cons hok
    rw [List.cons_append, writeAll_cons hrules hstore] at hok ⊢
    exact ih hok

/-- When the names of all rule files lead to different places, each of them holds its own rules. -/
theorem readText_writeAll_of_nodup {g : Grammar} {stem : String} {d : Directory} {es : List Export}
    (hok : (writeAll g stem d es).result = .ok ())
    (hplaces : (es.map fun e => Place.find e.file).Nodup) {e : Export} (he : e ∈ es) :
    ∃ rules, (e.rules g stem).2 = .ok rules ∧
      (writeAll g stem d es).directory.readText e.file = .ok (RuleFile.render e.remarks rules) := by
  obtain ⟨before, after, rfl⟩ := List.append_of_mem he
  refine readText_writeAll hok fun e' he' heq => ?_
  rw [List.map_append, List.map_cons, List.nodup_append, List.nodup_cons] at hplaces
  exact hplaces.2.1.1 (List.mem_map.2 ⟨e', he', heq.symm⟩)

/-- When all rule files have been written, a file that one of the exports leads to holds the text of such
an export. -/
theorem exists_readText_writeAll {g : Grammar} {stem : String} {d : Directory} {es : List Export}
    {file : String} (hok : (writeAll g stem d es).result = .ok ())
    (hfile : ∃ e ∈ es, Place.find e.file = Place.find file) :
    ∃ e ∈ es, Place.find e.file = Place.find file ∧ ∃ rules, (e.rules g stem).2 = .ok rules ∧
      (writeAll g stem d es).directory.readText file = .ok (RuleFile.render e.remarks rules) := by
  induction es generalizing d with
  | nil => simp at hfile
  | cons first rest ih =>
    obtain ⟨rules, d', hrules, hstore⟩ := exists_store_of_writeAll_cons hok
    rw [writeAll_cons hrules hstore] at hok ⊢
    by_cases hlater : ∃ e ∈ rest, Place.find e.file = Place.find file
    · obtain ⟨e, he, htext⟩ := ih hok hlater
      exact ⟨e, List.mem_cons_of_mem _ he, htext⟩
    · -- nothing is written over the text of the first export
      have hplace : Place.find first.file = Place.find file := by
        rw [List.exists_mem_cons_iff] at hfile
        exact hfile.resolve_right hlater
      have hkept := readText_writeAll_of_ne g stem
        (Directory.readText_congr hplace (Directory.readText_write hstore))
        fun e he heq => hlater ⟨e, he, heq.symm⟩
      exact ⟨first, List.mem_cons_self, hplace, rules, hrules, hkept⟩

/-- No entry is changed that none of the exports leads to, whether all rule files can be written or
not. -/
theorem get?_files_writeAll_of_ne (g : Grammar) (stem : String) {d : Directory} {part : String}
    {es : List Export} (hne : ∀ e ∈ es, Place.find e.file ≠ .ok (.entry true part .nothing)) :
    (writeAll g stem d es).directory.files.get? part = d.files.get? part := by
  induction es generalizing d with
  | nil => rfl
  | cons e rest ih =>
    obtain ⟨hfirst, hrest⟩ := List.forall_mem_cons.1 hne
    obtain ⟨rules, hrules⟩ := e.exists_rules g stem
    cases hstore : RuleFile.store d e.file e.remarks rules with
    | error cause => simp [writeAll, hrules, hstore, Report.failed]
    | ok d' =>
      rw [writeAll_cons hrules hstore]
      exact (ih hrest).trans (Directory.get?_files_write_of_ne hstore hfirst)

/-- Writing stops at the first name that is not that of a file, and leaves what the exports before it
leave. -/
theorem writeAll_append_of_refused (g : Grammar) (stem : String) {d : Directory}
    {before after : List Export} {e : Export}
    (hbefore : ∀ e' ∈ before, Directory.IsFileName e'.file) (he : ¬ Directory.IsFileName e.file) :
    (∃ cause, (writeAll g stem d (before ++ e :: after)).result =
        .error (.operation (.file cause))) ∧
      (writeAll g stem d (before ++ e :: after)).directory =
        (writeAll g stem d before).directory := by
  induction before generalizing d with
  | nil =>
    obtain ⟨rules, hrules⟩ := e.exists_rules g stem
    cases hstore : RuleFile.store d e.file e.remarks rules with
    | ok d' => exact absurd (Directory.exists_write_iff.1 ⟨d', hstore⟩) he
    | error cause => simp [writeAll, hrules, hstore, Report.failed]
  | cons first before ih =>
    obtain ⟨hfirst, hbefore⟩ := List.forall_mem_cons.1 hbefore
    obtain ⟨rules, hrules⟩ := first.exists_rules g stem
    obtain ⟨d', hstore⟩ := Directory.exists_write_iff.2 hfirst
    rw [List.cons_append, writeAll_cons hrules hstore, writeAll_cons hrules hstore]
    exact ih hbefore

/-- The names of the rule files that a run is asked for. -/
def fileNames (o : Options) : List String :=
  o.output.toList ++ [o.binary, o.shared].filter (· ≠ "")

theorem map_file_exports (o : Options) {output : String} (h : o.output = some output) :
    (exports o output).map Export.file = fileNames o := by
  have hpart : ∀ strategy file, (binarizedExport o strategy file).map Export.file =
      [file].filter (· ≠ "") := by
    intro strategy file
    unfold binarizedExport
    by_cases hfile : file = ""
    · simp [hfile]
    · simp [hfile]
  rw [fileNames, h, exports, List.map_cons, List.map_append, hpart, hpart, ← List.filter_append]
  rfl

/-! ## Runs -/

theorem Report.after_after (first later : List Notice) (report : Report) :
    (report.after later).after first = report.after (first ++ later) := by
  simp [Report.after]

/-- The estimated grammar of a run. -/
def estimatedGrammar (o : Options) (d : Directory) : Grammar :=
  (Grammar.empty.countTreebank d o.input o.limits).grammar.estimate.grammar

/-- In the estimated grammar of a run all symbols are words, and no right-hand side is empty. -/
theorem words_estimatedGrammar (o : Options) (d : Directory) :
    (∀ s ∈ (estimatedGrammar o d).symbols, Text.IsWord s) ∧
      ∀ r ∈ (estimatedGrammar o d).rules, r.rhs ≠ [] :=
  Grammar.words_of_treebank d o.input o.limits

/-- A run gets past its treebank: no limit that it needs is missing, and it can count the treebank or
takes it to be empty because it cannot be read. -/
structure PassesTreebank (o : Options) (d : Directory) : Prop where
  limits : missingLimit o d = none
  counted : ∀ cause, (Grammar.empty.countTreebank d o.input o.limits).result = .error cause →
    ∃ missing, cause = .corpus missing

/-- No limit is missing if both have values. -/
theorem missingLimit_eq_none {o : Options} (hlength : o.length.isSome) (htrees : o.trees.isSome)
    (d : Directory) : missingLimit o d = none := by
  rw [missingLimit, Option.isNone_eq_false_iff.2 hlength, Option.isNone_eq_false_iff.2 htrees]
  split <;> rfl

/-- A run that gets past its treebank goes on with what it has counted. -/
theorem PassesTreebank.convert_eq {o : Options} {d : Directory} (h : PassesTreebank o d) :
    ∃ notices, convert o d =
      (finish o d (Grammar.empty.countTreebank d o.input o.limits).grammar).after notices := by
  rw [convert, h.limits]
  unfold countAndFinish
  dsimp only
  split
  · exact ⟨_, rfl⟩
  · exact ⟨_, rfl⟩
  · rename_i cause hother hcause
    obtain ⟨missing, rfl⟩ := h.counted cause hcause
    exact absurd rfl (hother missing)

/-- A run gets past its treebank, or it fails and leaves the directory as it is. -/
theorem passesTreebank_or_failed (o : Options) (d : Directory) :
    PassesTreebank o d ∨ ∃ notices cause, convert o d = .failed d notices cause := by
  unfold convert
  split
  · exact .inr ⟨_, _, rfl⟩
  · rename_i hlimits
    unfold countAndFinish
    dsimp only
    split
    · rename_i hcounted
      refine .inl ⟨hlimits, fun cause hcause => ?_⟩
      rw [hcounted] at hcause
      cases hcause
    · rename_i missing hcounted
      refine .inl ⟨hlimits, fun cause hcause => ?_⟩
      rw [hcounted] at hcause
      exact ⟨missing, (Except.error.inj hcause).symm⟩
    · exact .inr ⟨_, _, rfl⟩

/-- A run that succeeds gets past its treebank. -/
theorem passesTreebank_of_convert {o : Options} {d : Directory}
    (hok : (convert o d).result = .ok ()) : PassesTreebank o d := by
  refine (passesTreebank_or_failed o d).resolve_right ?_
  rintro ⟨notices, cause, hfailed⟩
  rw [hfailed] at hok
  cases hok

/-- The weights of a counted grammar can be estimated, so that its rule files are written if there is
an output. -/
theorem finish_eq {o : Options} {d : Directory} {g : Grammar} (hg : g.Consistent) {output : String}
    (houtput : o.output = some output) :
    finish o d g =
      (writeAll g.estimate.grammar o.stem d (exports o output)).after g.estimate.notices := by
  simp [finish, hg.estimate_result, houtput]

/-- Without an output no rule file is written. -/
theorem exists_output_of_finish {o : Options} {d : Directory} {g : Grammar}
    (hok : (finish o d g).result = .ok ()) : ∃ output, o.output = some output := by
  unfold finish at hok
  dsimp only at hok
  split at hok
  · cases hok
  · cases hok
  · rename_i output hresult houtput
    exact ⟨output, houtput⟩

/-- A run that gets past its treebank writes the files of an output. -/
theorem PassesTreebank.exists_writeAll {o : Options} {d : Directory} (h : PassesTreebank o d)
    {output : String} (houtput : o.output = some output) :
    ∃ notices, convert o d =
      (writeAll (estimatedGrammar o d) o.stem d (exports o output)).after notices := by
  obtain ⟨notices, hconvert⟩ := h.convert_eq
  have hcounted := Grammar.isPass_empty.isLogged.countTreebank d o.input o.limits
  rw [hconvert, finish_eq hcounted.consistent houtput, Report.after_after]
  exact ⟨_, rfl⟩

/-- A run succeeds exactly if it gets past its treebank, has an output and is given names of files
only. -/
theorem convert_result_eq_ok_iff {o : Options} {d : Directory} :
    (convert o d).result = .ok () ↔
      PassesTreebank o d ∧ o.output ≠ none ∧ ∀ name ∈ fileNames o, Directory.IsFileName name := by
  have hfiles : ∀ output, o.output = some output →
      ((writeAll (estimatedGrammar o d) o.stem d (exports o output)).result = .ok () ↔
        ∀ name ∈ fileNames o, Directory.IsFileName name) := by
    intro output houtput
    rw [writeAll_result_eq_ok_iff, ← map_file_exports o houtput, List.forall_mem_map]
  constructor
  · intro hok
    have hpasses := passesTreebank_of_convert hok
    obtain ⟨_, hconvert⟩ := hpasses.convert_eq
    obtain ⟨output, houtput⟩ : ∃ output, o.output = some output := by
      rw [hconvert] at hok
      exact exists_output_of_finish hok
    obtain ⟨_, hwritten⟩ := hpasses.exists_writeAll houtput
    rw [hwritten] at hok
    exact ⟨hpasses, by simp [houtput], (hfiles output houtput).1 hok⟩
  · rintro ⟨hpasses, hne, hnames⟩
    obtain ⟨output, houtput⟩ := Option.ne_none_iff_exists'.1 hne
    obtain ⟨_, hwritten⟩ := hpasses.exists_writeAll houtput
    rw [hwritten]
    exact (hfiles output houtput).2 hnames

/-- A run that succeeds has an output and has written its rule files. -/
theorem exists_writeAll_of_convert {o : Options} {d : Directory}
    (hok : (convert o d).result = .ok ()) :
    ∃ output, o.output = some output ∧
      (writeAll (estimatedGrammar o d) o.stem d (exports o output)).result = .ok () ∧
      (convert o d).directory =
        (writeAll (estimatedGrammar o d) o.stem d (exports o output)).directory := by
  obtain ⟨hpasses, hne, -⟩ := convert_result_eq_ok_iff.1 hok
  obtain ⟨output, houtput⟩ := Option.ne_none_iff_exists'.1 hne
  obtain ⟨_, hwritten⟩ := hpasses.exists_writeAll houtput
  rw [hwritten] at hok ⊢
  exact ⟨output, houtput, hok, rfl⟩

end CommandLine
end TreebankGrammar
