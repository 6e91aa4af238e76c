import TreebankGrammar.Proofs.Binarization.WrittenNames
import TreebankGrammar.Proofs.CommandLine.Files

/-!
# Reading back the files of a run

Two texts from the command line go into the rule files as they are: the name of the treebank, which
stands in each header, and the stem, with which the names of new nonterminals begin.  A line end in
the name can put a line below the header that is no comment, and a blank in the stem breaks each name
into several words.  Everything else in the files comes from a treebank that has been read, and can be
read back.

A name that leads out of the directory, or into another one, is that of no file here, so that runs with
such a name for a rule file do not succeed here and nothing is said about them.

Main results:

- Theorem `run_loadsAs`: which files of a run can be read back.
- Theorem `run_not_loadsAs`: runs that succeed and leave a file that cannot be read back.
-/

namespace TreebankGrammar
namespace CommandLine

/-! ## Headers and binarized rules -/

/-- The files of binarized rules that a run may be asked for. -/
def binarizedFiles (o : Options) : List (Strategy × String) :=
  [(.naive, o.binary), (.shared, o.shared)]

/-- The export of binarized rules with a file name. -/
theorem mem_exports_of_binarizedFiles {o : Options} {strategy : Strategy} {file : String}
    (hfile : (strategy, file) ∈ binarizedFiles o) (hne : file ≠ "") (output : String) :
    ⟨file, [sourceRemark o, strategyRemark strategy], some strategy⟩ ∈ exports o output := by
  have hwanted : ⟨file, [sourceRemark o, strategyRemark strategy], some strategy⟩ ∈
      binarizedExport o strategy file := by
    simp [binarizedExport, hne]
  have hcases : (strategy = .naive ∧ file = o.binary) ∨ strategy = .shared ∧ file = o.shared := by
    simpa [binarizedFiles] using hfile
  rw [exports, List.mem_cons, List.mem_append]
  obtain ⟨rfl, rfl⟩ | ⟨rfl, rfl⟩ := hcases
  · exact .inr (.inl hwanted)
  · exact .inr (.inr hwanted)

/-- The name of the treebank decides whether a header stays a comment. -/
theorem isRemark_remarks_iff (o : Options) (strategy : Strategy) :
    (∀ line ∈ [sourceRemark o, strategyRemark strategy], RuleFile.IsRemark line) ↔
      RuleFile.IsRemark (sourceRemark o) := by
  have hstrategy : RuleFile.IsRemark (strategyRemark strategy) := by
    refine RuleFile.isRemark_of_isLine ?_
    cases strategy <;> decide +kernel
  rw [List.forall_mem_cons, List.forall_mem_singleton, and_iff_left hstrategy]

/-- The header stays a comment if the name of the treebank is a single line. -/
theorem isRemark_sourceRemark {o : Options} (h : Text.IsLine o.input.toList) :
    RuleFile.IsRemark (sourceRemark o) := by
  have hconstant : Text.IsLine " PCFG estimated from ".toList := by decide +kernel
  exact RuleFile.isRemark_of_isLine (Text.isLine_toList_append hconstant h)

/-! ## A treebank with a long rule -/

/-- A directory with a treebank of one tree, whose root has three children. -/
def threeChildren : Directory :=
  { files := Table.empty.insert "c" "(S (A a) (B b) (C c))\n".toUTF8 }

/-- Arguments that are understood start a run. -/
theorem run_eq {args : List String} {o : Options} (h : Options.parse args = .ok o) (d : Directory) :
    run args d = .ok (o, convert o d) := by
  rw [run, h]

/-- Without other limits, a run gets past the treebank of one tree. -/
theorem passesTreebank_threeChildren {o : Options} (hinput : o.input = "c")
    (hlength : o.length = some 0) (htrees : o.trees = some (-1)) :
    PassesTreebank o threeChildren where
  limits := missingLimit_eq_none (by simp [hlength]) (by simp [htrees]) threeChildren
  counted := by
    have hcounted : (Grammar.empty.countTreebank threeChildren "c" {}).result = .ok 1 := by
      decide +kernel
    have hlimits : o.limits = {} := by
      rw [Options.limits, hlength, htrees]
      rfl
    intro cause hcause
    rw [hinput, hlimits, hcounted] at hcause
    cases hcause

/-- Some names of files of a directory. -/
theorem isFileName_of_mem : ∀ name ∈ ["o", "b", "s", "./o"], Directory.IsFileName name := by
  simp only [List.forall_mem_cons]
  refine ⟨⟨"o", ?_⟩, ⟨"b", ?_⟩, ⟨"s", ?_⟩, ⟨"o", ?_⟩, by simp⟩ <;> decide +kernel

/-- A run with settings that differ from the usual ones in names only succeeds. -/
theorem convert_threeChildren {o : Options} (hinput : o.input = "c") (hlength : o.length = some 0)
    (htrees : o.trees = some (-1)) (houtput : o.output ≠ none)
    (hnames : fileNames o ⊆ ["o", "b", "s", "./o"]) : (convert o threeChildren).result = .ok () :=
  convert_result_eq_ok_iff.2 ⟨passesTreebank_threeChildren hinput hlength htrees, houtput,
    fun name hname => isFileName_of_mem name (hnames hname)⟩

/-! ## Reading back -/

/-- Only a run whose arguments are understood leaves a report. -/
theorem convert_of_run {args : List String} {d : Directory} {o : Options} {report : Report}
    (h : run args d = .ok (o, report)) : convert o d = report := by
  unfold run at h
  split at h
  · cases h
  · cases h
    rfl

/-- A run that succeeds, with file names that lead to different places, leaves the rules of the
estimated grammar in its output and the binarized rules, all of them with at most two symbols on the
right, in each file that it is asked for.  The output is loaded with these rules exactly if the
header with the name of the treebank stays a comment, which it does if the name is a single line, and
a file of binarized rules exactly if, besides, the stem has no blank or no rule of the grammar has
more than two symbols on the right. -/
theorem run_loadsAs {args : List String} {d : Directory} {o : Options} {report : Report}
    (hrun : run args d = .ok (o, report)) (hok : report.result = .ok ())
    (hplaces : ((fileNames o).map Place.find).Nodup) :
    ∃ output, o.output = some output ∧
      (Text.IsLine o.input.toList → RuleFile.IsRemark (sourceRemark o)) ∧
      (RuleFile.LoadsAs report.directory output (estimatedGrammar o d).rules ↔
        RuleFile.IsRemark (sourceRemark o)) ∧
      ∀ strategy file, (strategy, file) ∈ binarizedFiles o → file ≠ "" →
        ∃ rules, ((estimatedGrammar o d).binarize strategy o.stem).result = .ok rules ∧
          (RuleFile.LoadsAs report.directory file rules ↔
            RuleFile.IsRemark (sourceRemark o) ∧
              (Text.BlankFree o.stem.toList ∨
                ∀ r ∈ (estimatedGrammar o d).rules, r.rhs.length ≤ 2)) ∧
          (RuleFile.LoadsAs report.directory file rules →
            ∀ loaded, RuleFile.load report.directory file = .ok loaded →
              ∀ r ∈ loaded, r.rhs.length ≤ 2) := by
  obtain rfl := convert_of_run hrun
  obtain ⟨output, houtput, hwritten, hdirectory⟩ := exists_writeAll_of_convert hok
  rw [← map_file_exports o houtput, List.map_map] at hplaces
  have hfiles : ∀ e ∈ exports o output, ∃ rules,
      (e.rules (estimatedGrammar o d) o.stem).2 = .ok rules ∧
        (convert o d).directory.readText e.file = .ok (RuleFile.render e.remarks rules) := by
    rw [hdirectory]
    exact fun e he => readText_writeAll_of_nodup hwritten hplaces he
  obtain ⟨hsymbols, hrhs⟩ := words_estimatedGrammar o d
  refine ⟨output, houtput, isRemark_sourceRemark, ?_, fun strategy file hfile hne => ?_⟩
  · obtain ⟨rules, hrules, hread⟩ := hfiles _ List.mem_cons_self
    obtain rfl := Except.ok.inj hrules
    rw [RuleFile.loadsAs_iff hread, List.forall_mem_singleton]
    exact and_iff_left (Grammar.isWritable_of_mem_rules hsymbols hrhs)
  · obtain ⟨rules, hrules, hread⟩ := hfiles _ (mem_exports_of_binarizedFiles hfile hne output)
    rw [Export.rules_binarized] at hrules
    obtain ⟨rules', hresult, hlength, hwritable⟩ :=
      Grammar.isWritable_binarize_iff hsymbols hrhs strategy o.stem
    obtain rfl := Except.ok.inj (hrules.symm.trans hresult)
    refine ⟨rules, hresult, ?_, fun hloads loaded hload => ?_⟩
    · exact (RuleFile.loadsAs_iff hread).trans
        (and_congr (isRemark_remarks_iff o strategy) hwritable)
    · exact hloads.length_rhs_le hlength hload

/-- All three files of a run can be read back. -/
theorem run_loadsAs_threeChildren :
    ∃ o report, run ["c", "o", "--binary", "b", "--shared", "s"] threeChildren = .ok (o, report) ∧
      RuleFile.LoadsAs report.directory "o" (estimatedGrammar o threeChildren).rules ∧
      ∀ strategy file, (strategy, file) ∈ [(Strategy.naive, "b"), (.shared, "s")] →
        ∃ rules, ((estimatedGrammar o threeChildren).binarize strategy "X").result = .ok rules ∧
          RuleFile.LoadsAs report.directory file rules ∧
          ∀ loaded, RuleFile.load report.directory file = .ok loaded →
            ∀ r ∈ loaded, r.rhs.length ≤ 2 := by
  let o : Options := { input := "c", output := some "o", binary := "b", shared := "s" }
  have hrun : run ["c", "o", "--binary", "b", "--shared", "s"] threeChildren =
      .ok (o, convert o threeChildren) := run_eq (by decide +kernel) _
  have hok := convert_threeChildren (o := o) rfl rfl rfl (by simp [o]) (by decide +kernel)
  have hplaces : ((fileNames o).map Place.find).Nodup := by decide +kernel
  have hinput : Text.IsLine o.input.toList := by decide +kernel
  have hstem : Text.BlankFree o.stem.toList := by decide +kernel
  obtain ⟨output, houtput, hline, hloads, hbinarized⟩ := run_loadsAs hrun hok hplaces
  have hremark := hline hinput
  obtain rfl := Option.some.inj houtput
  refine ⟨o, _, hrun, hloads.2 hremark, fun strategy file hfile => ?_⟩
  have hne : file ≠ "" := by
    rintro rfl
    revert hfile
    cases strategy <;> decide
  obtain ⟨rules, hrules, hiff, hlength⟩ := hbinarized strategy file hfile hne
  have hloaded := hiff.2 ⟨hremark, .inl hstem⟩
  exact ⟨rules, hrules, hloaded, hlength hloaded⟩

/-! ## Files that cannot be read back -/

/-- The options of a run whose stem has a blank. -/
def blankStem : Options :=
  { input := "c", output := some "o", binary := "b", stem := "a b" }

/-- The options of a run whose treebank, which is missing, has a name with a line end in it. -/
def brokenName : Options :=
  { input := "c\nd", output := some "o" }

/-- The options of a run whose two files are one and the same. -/
def sameFile : Options :=
  { input := "c", output := some "o", binary := "./o" }

/-- When no other file is written after it, the file of binarized rules holds these rules. -/
theorem readText_binary {o : Options} {d : Directory} (hok : (convert o d).result = .ok ())
    (hbinary : o.binary ≠ "") (hshared : o.shared = "") :
    ∃ rules, ((estimatedGrammar o d).binarize .naive o.stem).result = .ok rules ∧
      (convert o d).directory.readText o.binary =
        .ok (RuleFile.render [sourceRemark o, strategyRemark .naive] rules) := by
  obtain ⟨output, -, hwritten, hdirectory⟩ := exists_writeAll_of_convert hok
  have hexports : exports o output = [⟨output, [sourceRemark o], none⟩] ++
      [⟨o.binary, [sourceRemark o, strategyRemark .naive], some .naive⟩] := by
    simp [exports, binarizedExport, hbinary, hshared]
  rw [hdirectory, hexports]
  rw [hexports] at hwritten
  obtain ⟨rules, hrules, hread⟩ := readText_writeAll hwritten (by simp)
  rw [Export.rules_binarized] at hrules
  exact ⟨rules, hrules, hread⟩

/-- The new nonterminal for the long rule is no word if the stem has a blank. -/
theorem not_loadsAs_blankStem :
    (convert blankStem threeChildren).result = .ok () ∧
      ∃ rules, ((estimatedGrammar blankStem threeChildren).binarize .naive "a b").result = .ok rules ∧
        ¬ RuleFile.LoadsAs (convert blankStem threeChildren).directory "b" rules := by
  have hok : (convert blankStem threeChildren).result = .ok () :=
    convert_threeChildren rfl rfl rfl (by simp [blankStem]) (by decide +kernel)
  have hblank : ¬ Text.BlankFree blankStem.stem.toList := by decide +kernel
  have hlong : ¬ ∀ r ∈ (estimatedGrammar blankStem threeChildren).rules, r.rhs.length ≤ 2 := by
    decide +kernel
  obtain ⟨rules, hrules, hread⟩ := readText_binary hok (by decide) rfl
  obtain ⟨hsymbols, hrhs⟩ := words_estimatedGrammar blankStem threeChildren
  obtain ⟨rules', hresult, -, hwritable⟩ :=
    Grammar.isWritable_binarize_iff hsymbols hrhs .naive blankStem.stem
  obtain rfl := Except.ok.inj (hrules.symm.trans hresult)
  refine ⟨hok, rules, hrules, fun hloads => ?_⟩
  exact (hwritable.1 ((RuleFile.loadsAs_iff hread).1 hloads).2).elim hblank hlong

/-- The second line of the name stands below the header. -/
theorem not_loadsAs_brokenName :
    (convert brokenName threeChildren).result = .ok () ∧
      ¬ RuleFile.LoadsAs (convert brokenName threeChildren).directory "o"
        (estimatedGrammar brokenName threeChildren).rules := by
  have hok : (convert brokenName threeChildren).result = .ok () := by decide +kernel
  have herror : (RuleFile.load (convert brokenName threeChildren).directory "o").isOk = false := by
    decide +kernel
  refine ⟨hok, ?_⟩
  rintro ⟨loaded, hloaded, -⟩
  rw [hloaded] at herror
  cases herror

/-- The binarized rules are written over the rules of the grammar. -/
theorem not_loadsAs_sameFile :
    (convert sameFile threeChildren).result = .ok () ∧
      ¬ RuleFile.LoadsAs (convert sameFile threeChildren).directory "o"
        (estimatedGrammar sameFile threeChildren).rules := by
  have hok : (convert sameFile threeChildren).result = .ok () :=
    convert_threeChildren rfl rfl rfl (by simp [sameFile]) (by decide +kernel)
  have hlong : ¬ ∀ r ∈ (estimatedGrammar sameFile threeChildren).rules, r.rhs.length ≤ 2 := by
    decide +kernel
  obtain ⟨rules, hrules, hread⟩ := readText_binary hok (by decide) rfl
  obtain ⟨hsymbols, hrhs⟩ := words_estimatedGrammar sameFile threeChildren
  obtain ⟨rules', hresult, hlength, hwritable⟩ :=
    Grammar.isWritable_binarize_iff hsymbols hrhs .naive sameFile.stem
  obtain rfl := Except.ok.inj (hrules.symm.trans hresult)
  -- the name of the output leads to the same file, from which short rules are loaded
  have hplace : Place.find sameFile.binary = Place.find "o" := by decide +kernel
  have hremark : RuleFile.IsRemark (sourceRemark sameFile) :=
    isRemark_sourceRemark (by decide +kernel)
  have hstem : Text.BlankFree sameFile.stem.toList := by decide +kernel
  have hloads : RuleFile.LoadsAs (convert sameFile threeChildren).directory "o" rules :=
    (RuleFile.loadsAs_iff (Directory.readText_congr hplace hread)).2
      ⟨(isRemark_remarks_iff sameFile .naive).2 hremark, hwritable.2 (.inl hstem)⟩
  refine ⟨hok, ?_⟩
  rintro ⟨loaded, hloaded, hsame⟩
  exact hlong (RuleFile.length_rhs_le_of_map_eq hsame.symm (hloads.length_rhs_le hlength hloaded))

/-- Runs that succeed and leave a file that is not loaded as the rules that were to be written to it:
with a blank in the stem, with a line end in the name of the treebank, and with two names of one
file. -/
theorem run_not_loadsAs :
    (∃ report rules, run ["c", "o", "--binary", "b", "--prefix", "a b"] threeChildren =
        .ok (blankStem, report) ∧ report.result = .ok () ∧
      ((estimatedGrammar blankStem threeChildren).binarize .naive "a b").result = .ok rules ∧
      ¬ RuleFile.LoadsAs report.directory "b" rules) ∧
    (∃ report, run ["c\nd", "o"] threeChildren = .ok (brokenName, report) ∧ report.result = .ok () ∧
      ¬ RuleFile.LoadsAs report.directory "o" (estimatedGrammar brokenName threeChildren).rules) ∧
    ∃ report, run ["c", "o", "--binary", "./o"] threeChildren = .ok (sameFile, report) ∧
      report.result = .ok () ∧
      ¬ RuleFile.LoadsAs report.directory "o" (estimatedGrammar sameFile threeChildren).rules := by
  obtain ⟨hok, rules, hrules, hloads⟩ := not_loadsAs_blankStem
  refine ⟨⟨convert blankStem threeChildren, rules, ?_, hok, hrules, hloads⟩,
    ⟨convert brokenName threeChildren, ?_, not_loadsAs_brokenName⟩,
    ⟨convert sameFile threeChildren, ?_, not_loadsAs_sameFile⟩⟩
  · exact run_eq (by decide +kernel) threeChildren
  · exact run_eq (by decide +kernel) threeChildren
  · exact run_eq (by decide +kernel) threeChildren

end CommandLine
end TreebankGrammar
