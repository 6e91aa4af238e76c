import TreebankGrammar.Proofs.CommandLine.Reloading
import TreebankGrammar.Proofs.Grammar.AllOrNothing
import TreebankGrammar.Proofs.Treebank.Numbering

/-!
# What a run does to files

A run reads the wanted trees of its treebank before it opens any file for writing, so that a treebank
with a bad line costs no file, not even when a rule file has the name of the treebank.  After that, only
names can stop it: the rule files are written one after the other up to the first that cannot be
opened.  A treebank that is missing counts as an empty one, and the files that are written for it hold
no rules.  So does one with bytes that cannot be decoded, if they are met: bytes behind the wanted trees
do no harm, and a bad line before such bytes is reported as one.

A name that leads out of the directory, or into another one, is that of no file here: what a run would
write there is not said.

Main definitions:

- `HasBadLine`: a considered line of a treebank holds no tree.
- `IsMissing`: no trees can be taken from a treebank.
- `LeadsApart`: no two rule files of a run are one and the same.
- `StopsAt`: a run has stopped at a rule file that cannot be opened.

Main results:

- Theorem `passesTreebank_iff`: which treebanks a run gets past.
- Theorem `get?_files_convert_of_ne`: a run changes no file that it is not asked for.
- Theorem `convert_of_hasBadLine`: a treebank with a bad line.
- Theorem `convert_of_isMissing`: a treebank that is missing.
- Theorem `PassesTreebank.stopsAt`: a rule file that cannot be opened.
- Theorem `run_effect_on_files`: what a run does to the files of its directory.
- Theorem `run_effect_exceptions`: runs that do not meet one of its conditions.
-/

namespace TreebankGrammar
namespace CommandLine

variable {o : Options} {d : Directory} {stream : Text.LineStream} {lines : List String}
  {output : String}

/-! ## Getting past a treebank -/

/-- A considered line of a treebank holds no tree. -/
def HasBadLine (o : Options) (lines : List String) : Prop :=
  ∃ line ∈ Treebank.considered (o.trees.getD (-1)) lines, ∃ cause, Tree.read line.1 = .error cause

/-- A treebank has a bad line exactly if reading it breaks off. -/
theorem hasBadLine_iff :
    HasBadLine o lines ↔ ∃ e, (Treebank.read o.limits lines).failure = some e :=
  (Treebank.exists_failure_read_iff (o.length.getD 0) (o.trees.getD (-1))).symm

/-- A treebank that can be opened is refused for what is met in it. -/
theorem refusal_of_readLines (hread : d.readLines o.input = .ok stream) :
    Grammar.empty.refusal? d o.input o.limits =
      Grammar.corpusFailure? o.input o.limits stream := by
  have hlines := Grammar.corpusLines_eq_ok_iff.2 hread
  simp [Grammar.refusal?, hlines, Grammar.empty]

/-- A treebank that cannot be opened is refused as missing, unless its name has the null character. -/
theorem exists_refusal_of_unopened {cause : FileError} (hread : d.readLines o.input = .error cause)
    (hcause : cause ≠ .nullCharacter) :
    ∃ missing, Grammar.corpusLines d o.input = .error (.corpus missing) ∧
      Grammar.empty.refusal? d o.input o.limits = some (.corpus missing) := by
  have hlines : ∃ missing, Grammar.corpusLines d o.input = .error (.corpus missing) := by
    rw [Grammar.corpusLines, hread]
    cases cause with
    | nullCharacter => exact absurd rfl hcause
    | _ => exact ⟨_, rfl⟩
  obtain ⟨missing, hlines⟩ := hlines
  exact ⟨missing, hlines, by simp [Grammar.refusal?, hlines, Grammar.empty]⟩

/-- A run does not get past a treebank that is refused for anything but that it is missing. -/
theorem PassesTreebank.exists_missing (h : PassesTreebank o d) {e : Grammar.Error}
    (hrefusal : Grammar.empty.refusal? d o.input o.limits = some e) :
    ∃ missing, e = .corpus missing :=
  h.counted e (Grammar.countTreebank_of_refusal hrefusal).1

/-- A treebank without a bad line is refused only as missing. -/
theorem exists_missing_of_corpusFailure (hgood : ¬ HasBadLine o stream.lines) {e : Grammar.Error}
    (hfailure : Grammar.corpusFailure? o.input o.limits stream = some e) :
    ∃ missing, e = .corpus missing := by
  have hread : (Treebank.read o.limits stream.lines).failure = none :=
    Option.eq_none_iff_forall_ne_some.2 fun e he => hgood (hasBadLine_iff.2 ⟨e, he⟩)
  rw [Grammar.corpusFailure?, hread] at hfailure
  dsimp only at hfailure
  split at hfailure
  · exact ⟨_, (Option.some.inj hfailure).symm⟩
  · cases hfailure

/-- A run gets past its treebank exactly if no limit is missing that it needs, and the treebank either
cannot be opened, though its name has no null character, or has no bad line. -/
theorem passesTreebank_iff :
    PassesTreebank o d ↔ missingLimit o d = none ∧
      ((∃ cause, d.readLines o.input = .error cause ∧ cause ≠ .nullCharacter) ∨
        ∃ stream, d.readLines o.input = .ok stream ∧ ¬ HasBadLine o stream.lines) := by
  constructor
  · intro h
    refine ⟨h.limits, ?_⟩
    cases hread : d.readLines o.input with
    | error cause =>
      refine .inl ⟨cause, rfl, ?_⟩
      rintro rfl
      have hrefusal : Grammar.empty.refusal? d o.input o.limits = some .nullCharacter := by
        simp [Grammar.refusal?, Grammar.corpusLines, hread, Grammar.empty]
      obtain ⟨missing, hmissing⟩ := h.exists_missing hrefusal
      cases hmissing
    | ok stream =>
      refine .inr ⟨stream, rfl, fun hbad => ?_⟩
      obtain ⟨e, hfailure⟩ := hasBadLine_iff.1 hbad
      have hrefusal := refusal_of_readLines hread
      rw [Grammar.corpusFailure?, hfailure] at hrefusal
      obtain ⟨missing, hmissing⟩ := h.exists_missing hrefusal
      cases hmissing
  · rintro ⟨hlimits, ⟨cause, hread, hcause⟩ | ⟨stream, hread, hgood⟩⟩
    · obtain ⟨missing, -, hrefusal⟩ := exists_refusal_of_unopened hread hcause
      refine ⟨hlimits, fun e he => ⟨missing, ?_⟩⟩
      rw [(Grammar.countTreebank_of_refusal hrefusal).1] at he
      exact (Except.error.inj he).symm
    · refine ⟨hlimits, fun e he => ?_⟩
      have hrefusal := refusal_of_readLines hread
      cases hfailure : Grammar.corpusFailure? o.input o.limits stream with
      | none =>
        obtain ⟨_, trees, hwhole⟩ := Grammar.countsWhole_of_accepted (hrefusal.trans hfailure)
        rw [hwhole.result] at he
        cases he
      | some cause =>
        rw [(Grammar.countTreebank_of_refusal (hrefusal.trans hfailure)).1] at he
        rw [← Except.error.inj he]
        exact exists_missing_of_corpusFailure hgood hfailure

/-! ## Files that a run is not asked for -/

/-- A run without an output that gets past its treebank writes nothing. -/
theorem PassesTreebank.convert_of_no_output (h : PassesTreebank o d) (houtput : o.output = none) :
    (convert o d).directory = d ∧ (convert o d).result = .error (.missing .output) := by
  obtain ⟨notices, hconvert⟩ := h.convert_eq
  have hcounted := Grammar.isPass_empty.isLogged.countTreebank d o.input o.limits
  rw [hconvert]
  simp [finish, hcounted.consistent.estimate_result, houtput, Report.after, Report.failed]

/-- A run changes no file that it is not asked for, however it ends. -/
theorem get?_files_convert_of_ne {part : String}
    (hne : ∀ file ∈ fileNames o, Place.find file ≠ .ok (.entry true part .nothing)) :
    (convert o d).directory.files.get? part = d.files.get? part := by
  rcases passesTreebank_or_failed o d with hpasses | ⟨notices, cause, hfailed⟩
  · cases houtput : o.output with
    | none => rw [(hpasses.convert_of_no_output houtput).1]
    | some output =>
      obtain ⟨notices, hconvert⟩ := hpasses.exists_writeAll houtput
      rw [← map_file_exports o houtput, List.forall_mem_map] at hne
      rw [hconvert]
      exact get?_files_writeAll_of_ne _ _ hne
  · rw [hfailed]
    rfl

/-! ## Treebanks with a bad line -/

/-- A treebank with a bad line stops a run before any file is opened.  The bad line is what is reported
if both limits have values. -/
theorem convert_of_hasBadLine (hread : d.readLines o.input = .ok stream)
    (hbad : HasBadLine o stream.lines) :
    (convert o d).directory = d ∧ ∃ cause, (convert o d).result = .error cause ∧
      (o.length.isSome → o.trees.isSome → ∃ e, cause = .operation (.grammar (.line e))) := by
  obtain ⟨e, hfailure⟩ := hasBadLine_iff.1 hbad
  have hrefusal := refusal_of_readLines hread
  rw [Grammar.corpusFailure?, hfailure] at hrefusal
  have hcounted := (Grammar.countTreebank_of_refusal hrefusal).1
  cases hlimits : missingLimit o d with
  | some cause =>
    rw [convert, hlimits]
    refine ⟨rfl, _, rfl, fun hlength htrees => ?_⟩
    rw [missingLimit_eq_none hlength htrees] at hlimits
    cases hlimits
  | none =>
    rw [convert, hlimits]
    simp only [countAndFinish, hcounted]
    exact ⟨rfl, _, rfl, fun _ _ => ⟨e, rfl⟩⟩

/-! ## Missing treebanks -/

/-- No trees can be taken from a treebank: its name leads to no file, or a line of it is asked for that
cannot be decoded, while no limit is missing. -/
inductive IsMissing (o : Options) (d : Directory) : Prop where
  | unopened {cause : FileError} (hread : d.readLines o.input = .error cause)
      (hname : '\x00' ∉ o.input.toList)
  | undecodable {stream : Text.LineStream} (hread : d.readLines o.input = .ok stream)
      (hbroken : stream.broken = true)
      (hasks : Treebank.asksBeyond o.limits stream.lines = true)
      (hlength : o.length.isSome) (htrees : o.trees.isSome)

/-- A run gets past a missing treebank, with a grammar without rules. -/
theorem IsMissing.passesTreebank (h : IsMissing o d) :
    PassesTreebank o d ∧ (estimatedGrammar o d).rules = [] := by
  have hempty : ∀ {e}, Grammar.empty.refusal? d o.input o.limits = some e →
      (estimatedGrammar o d).rules = [] := by
    intro e hrefusal
    rw [estimatedGrammar, (Grammar.countTreebank_of_refusal hrefusal).2]
    rfl
  cases h with
  | @unopened cause hread hname =>
    have hcause : cause ≠ .nullCharacter := by
      rintro rfl
      exact hname (Directory.nullCharacter_mem_of_readLines hread)
    obtain ⟨missing, hlines, hrefusal⟩ := exists_refusal_of_unopened hread hcause
    have hlimits : missingLimit o d = none := by rw [missingLimit, hlines]
    exact ⟨passesTreebank_iff.2 ⟨hlimits, .inl ⟨cause, hread, hcause⟩⟩, hempty hrefusal⟩
  | @undecodable stream hread hbroken hasks hlength htrees =>
    have hfailure := Treebank.failure_read_of_asksBeyond hasks
    have hgood : ¬ HasBadLine o stream.lines := by
      rw [hasBadLine_iff, hfailure]
      simp
    have hrefusal := refusal_of_readLines hread
    rw [Grammar.corpusFailure?, hfailure, hbroken, hasks] at hrefusal
    exact ⟨passesTreebank_iff.2 ⟨missingLimit_eq_none hlength htrees d, .inr ⟨stream, hread, hgood⟩⟩,
      hempty hrefusal⟩

/-- Without rules there is nothing to binarize. -/
theorem Export.rules_of_eq_nil {g : Grammar} (hg : g.rules = []) (e : Export) (stem : String) :
    (e.rules g stem).2 = .ok [] := by
  rcases e with ⟨file, remarks, strategy⟩
  cases strategy with
  | none => simp [Export.rules, hg]
  | some strategy =>
    have hpass : (Pass.start strategy stem g.symbols).binarizeRules g.rules =
        (Pass.start strategy stem g.symbols, .ok []) := by
      rw [hg, Pass.binarizeRules]
    exact (Grammar.binarize_of_binarizeRules hpass).2

/-- The headers of all rule files stay comments if the name of the treebank is a single line. -/
theorem isRemark_of_mem_exports (hinput : Text.IsLine o.input.toList) {e : Export}
    (he : e ∈ exports o output) : ∀ line ∈ e.remarks, RuleFile.IsRemark line := by
  have hsource := isRemark_sourceRemark hinput
  have hpart : ∀ strategy file, ∀ e ∈ binarizedExport o strategy file,
      ∀ line ∈ e.remarks, RuleFile.IsRemark line := by
    intro strategy file e he
    unfold binarizedExport at he
    split at he
    · cases he
    · rw [List.mem_singleton.1 he]
      exact (isRemark_remarks_iff o strategy).2 hsource
  rw [exports, List.mem_cons, List.mem_append] at he
  rcases he with rfl | he | he
  · exact List.forall_mem_singleton.2 hsource
  · exact hpart _ _ e he
  · exact hpart _ _ e he

/-- A run whose treebank is missing succeeds if all its files can be opened.  Each of them, also one that
several names lead to, then holds a header alone, and is loaded with no rules if the name of the treebank
is a single line. -/
theorem convert_of_isMissing (h : IsMissing o d) (houtput : o.output = some output)
    (hopened : ∀ file ∈ fileNames o, Directory.IsFileName file) :
    (convert o d).result = .ok () ∧ ∀ file ∈ fileNames o,
      (∃ e ∈ exports o output, Place.find e.file = Place.find file ∧
        (convert o d).directory.readText file = .ok (RuleFile.render e.remarks [])) ∧
      (Text.IsLine o.input.toList → RuleFile.load (convert o d).directory file = .ok []) := by
  obtain ⟨hpasses, hrules⟩ := h.passesTreebank
  have hok : (convert o d).result = .ok () :=
    convert_result_eq_ok_iff.2 ⟨hpasses, by simp [houtput], hopened⟩
  obtain ⟨_, hconvert⟩ := hpasses.exists_writeAll houtput
  refine ⟨hok, fun file hfile => ?_⟩
  rw [hconvert] at hok ⊢
  rw [← map_file_exports o houtput] at hfile
  obtain ⟨e', he', rfl⟩ := List.mem_map.1 hfile
  obtain ⟨e, he, hplace, rules, hexport, htext⟩ := exists_readText_writeAll hok ⟨e', he', rfl⟩
  rw [e.rules_of_eq_nil hrules] at hexport
  obtain rfl := Except.ok.inj hexport
  refine ⟨⟨e, he, hplace, htext⟩, fun hinput => ?_⟩
  exact RuleFile.load_of_isWritable (isRemark_of_mem_exports hinput he) htext (by simp)

/-! ## Rule files that cannot be opened -/

/-- No two names of rule files of a run lead to the same file. -/
def LeadsApart (o : Options) : Prop :=
  (fileNames o).Pairwise fun name other =>
    Directory.IsFileName name → Place.find name ≠ Place.find other

/-- Names that lead to different places lead apart; those of no file may lead to the same place. -/
theorem leadsApart_of_nodup (h : ((fileNames o).map Place.find).Nodup) : LeadsApart o := by
  rw [List.Nodup, List.pairwise_map] at h
  refine h.imp ?_
  intro name other hne _
  exact hne

/-- The file of an export holds its whole text, with all rules that are to be written to it. -/
def Export.IsComplete (e : Export) (g : Grammar) (stem : String) (d : Directory) : Prop :=
  ∃ rules, (e.rules g stem).2 = .ok rules ∧
    d.readText e.file = .ok (RuleFile.render e.remarks rules)

/-- A run has stopped at a rule file that cannot be opened.  If all files are different, those before it
are complete, and those after it are as they were. -/
structure StopsAt (o : Options) (d : Directory) (report : Report) (before : List Export) (e : Export)
    (after : List Export) : Prop where
  opened : ∀ e' ∈ before, Directory.IsFileName e'.file
  refused : ¬ Directory.IsFileName e.file
  result : ∃ cause, report.result = .error (.operation (.file cause))
  complete : LeadsApart o →
    ∀ e' ∈ before, e'.IsComplete (estimatedGrammar o d) o.stem report.directory
  untouched : LeadsApart o → ∀ e' ∈ after, ∀ part,
    Place.find e'.file = .ok (.entry true part .nothing) →
      report.directory.files.get? part = d.files.get? part

/-- Names that lead apart are those of different files, and the files after the first one that cannot be
opened are none of those before it. -/
theorem LeadsApart.split (h : LeadsApart o) {before after : List Export} {e : Export}
    (hexports : exports o output = before ++ e :: after) (houtput : o.output = some output)
    (hopened : ∀ e' ∈ before, Directory.IsFileName e'.file) :
    (before.map fun e' => Place.find e'.file).Nodup ∧
      ∀ e₁ ∈ before, ∀ e₂ ∈ after, Place.find e₁.file ≠ Place.find e₂.file := by
  rw [LeadsApart, ← map_file_exports o houtput, hexports, List.pairwise_map,
    List.pairwise_append] at h
  obtain ⟨hbefore, -, hacross⟩ := h
  constructor
  · rw [List.Nodup, List.pairwise_map]
    exact hbefore.imp_of_mem fun he₁ _ hne => hne (hopened _ he₁)
  · exact fun e₁ he₁ e₂ he₂ => hacross e₁ he₁ e₂ (List.mem_cons_of_mem _ he₂) (hopened e₁ he₁)

/-- Among rule files some of which cannot be opened there is a first one that cannot. -/
theorem exists_first_refused {es : List Export}
    (h : ∃ e ∈ es, ¬ Directory.IsFileName e.file) :
    ∃ before e after, es = before ++ e :: after ∧
      (∀ e' ∈ before, Directory.IsFileName e'.file) ∧ ¬ Directory.IsFileName e.file := by
  classical
  obtain ⟨e, hfirst⟩ : ∃ e, es.find? (fun e => ¬ Directory.IsFileName e.file) = some e := by
    rw [← Option.isSome_iff_exists, List.find?_isSome]
    simpa using h
  obtain ⟨he, before, after, rfl, hbefore⟩ := List.find?_eq_some_iff_append.1 hfirst
  exact ⟨before, e, after, rfl, by simpa using hbefore, by simpa using he⟩

/-- A run that gets past its treebank stops at the first of its rule files that cannot be opened. -/
theorem PassesTreebank.stopsAt (h : PassesTreebank o d) (houtput : o.output = some output)
    {before after : List Export} {e : Export} (hexports : exports o output = before ++ e :: after)
    (hopened : ∀ e' ∈ before, Directory.IsFileName e'.file)
    (hrefused : ¬ Directory.IsFileName e.file) : StopsAt o d (convert o d) before e after := by
  obtain ⟨notices, hconvert⟩ := h.exists_writeAll houtput
  rw [hexports] at hconvert
  obtain ⟨hresult, hstopped⟩ :=
    writeAll_append_of_refused (estimatedGrammar o d) o.stem hopened hrefused
  -- what is left is what the exports before the one that fails have written
  have hdirectory : (convert o d).directory =
      (writeAll (estimatedGrammar o d) o.stem d before).directory := by
    rw [hconvert]
    exact hstopped
  refine ⟨hopened, hrefused, ?_, fun hapart e' he' => ?_, fun hapart e' he' part hpart => ?_⟩
  · rw [hconvert]
    exact hresult
  · obtain ⟨hnodup, -⟩ := hapart.split hexports houtput hopened
    rw [hdirectory]
    exact readText_writeAll_of_nodup (writeAll_result_eq_ok_iff.2 hopened) hnodup he'
  · obtain ⟨-, hne⟩ := hapart.split hexports houtput hopened
    rw [hdirectory]
    exact get?_files_writeAll_of_ne _ _ fun e₁ he₁ heq => hne e₁ he₁ e' he' (heq.trans hpart.symm)

/-! ## Runs -/

/-- What a run does to the files of its directory, whatever they are.  It changes no file that it is not
asked for.  A bad line among those that its treebank gives stops it before any file is opened, and is
what is reported if both limits have values.  For a missing treebank, all files are written if they
can be opened; each of them holds a header alone and is loaded with no rules if the name of the treebank
is a single line.  Otherwise a run stops at the first file that cannot be opened; without an output
that is before any file. -/
theorem run_effect_on_files {args : List String} {report : Report}
    (hrun : run args d = .ok (o, report)) :
    (∀ part, report.directory.files.get? part ≠ d.files.get? part →
      ∃ file ∈ fileNames o, Place.find file = .ok (.entry true part .nothing)) ∧
    (∀ stream, d.readLines o.input = .ok stream → HasBadLine o stream.lines →
      report.directory = d ∧ ∃ cause, report.result = .error cause ∧
        (o.length.isSome → o.trees.isSome → ∃ e, cause = .operation (.grammar (.line e)))) ∧
    (∀ output, IsMissing o d → o.output = some output →
      (∀ file ∈ fileNames o, Directory.IsFileName file) →
        report.result = .ok () ∧ ∀ file ∈ fileNames o,
          (∃ e ∈ exports o output, Place.find e.file = Place.find file ∧
            report.directory.readText file = .ok (RuleFile.render e.remarks [])) ∧
          (Text.IsLine o.input.toList → RuleFile.load report.directory file = .ok [])) ∧
    (∀ output, PassesTreebank o d → o.output = some output →
      (∃ file ∈ fileNames o, ¬ Directory.IsFileName file) →
        ∃ before e after, exports o output = before ++ e :: after ∧
          StopsAt o d report before e after) ∧
    (PassesTreebank o d → o.output = none →
      report.directory = d ∧ report.result = .error (.missing .output)) := by
  obtain rfl := convert_of_run hrun
  refine ⟨fun part hchanged => ?_, fun stream hread hbad => convert_of_hasBadLine hread hbad,
    fun output hmissing houtput hopened => convert_of_isMissing hmissing houtput hopened,
    fun output hpasses houtput hrefused => ?_,
    fun hpasses houtput => hpasses.convert_of_no_output houtput⟩
  · by_contra hnone
    exact hchanged (get?_files_convert_of_ne fun file hfile hfind => hnone ⟨file, hfile, hfind⟩)
  · rw [← map_file_exports o houtput] at hrefused
    obtain ⟨before, e, after, hexports, hopened, hfirst⟩ :=
      exists_first_refused (by simpa using hrefused)
    exact ⟨before, e, after, hexports, hpasses.stopsAt houtput hexports hopened hfirst⟩

/-! ## Some runs -/

/-- A directory with a treebank whose second line holds no tree. -/
def secondLineBad : Directory :=
  { files := Table.empty.insert "c" "(S a)\n(\n".toUTF8 }

theorem readLines_secondLineBad : secondLineBad.readLines "c" = .ok ⟨["(S a)", "("], false⟩ := by
  decide +kernel

/-- The second line is considered if the numbers of words and trees are not bounded. -/
theorem hasBadLine_secondLineBad (hlength : o.length.getD 0 = 0) (htrees : o.trees.getD (-1) = -1) :
    HasBadLine o ["(S a)", "("] := by
  refine hasBadLine_iff.2 ⟨⟨2, .unbalanced⟩, ?_⟩
  rw [Options.limits, hlength, htrees]
  decide +kernel

/-- A name that goes on after the name of an entry is not one of a file. -/
theorem not_isFileName_of_parts {name part : String}
    (h : Place.find name = .ok (.entry true part .parts)) : ¬ Directory.IsFileName name := by
  rintro ⟨other, hfind, -⟩
  rw [h] at hfind
  cases hfind

/-- A treebank with a bad line is not overwritten by a run that has it as its output too.  For a missing
treebank all rule files are without rules, also when two of them are one and the same.  A rule file in a
directory that is missing stops a run between the files before it and those after it, and the treebank
stays as it was. -/
theorem run_effect_threeRuns :
    (∃ o report, run ["c", "c"] secondLineBad = .ok (o, report) ∧
      report.directory = secondLineBad ∧
      ∃ e, report.result = .error (.operation (.grammar (.line e)))) ∧
    (∃ o report, run ["c", "o", "--binary", "./o", "--shared", "s"] {} = .ok (o, report) ∧
      report.result = .ok () ∧
      ∀ file ∈ ["o", "./o", "s"], RuleFile.load report.directory file = .ok []) ∧
    ∃ o report, run ["c", "o", "--binary", "x/b", "--shared", "s"] threeChildren = .ok (o, report) ∧
      report.directory.files.get? "c" = threeChildren.files.get? "c" ∧ LeadsApart o ∧
      ∃ before e after, exports o "o" = before ++ e :: after ∧
        StopsAt o threeChildren report before e after := by
  refine ⟨?_, ?_, ?_⟩
  · let o : Options := { input := "c", output := some "c" }
    have hrun : run ["c", "c"] secondLineBad = .ok (o, convert o secondLineBad) :=
      run_eq (by decide +kernel) _
    obtain ⟨-, hbad, -⟩ := run_effect_on_files hrun
    obtain ⟨hkept, cause, hresult, hline⟩ :=
      hbad _ readLines_secondLineBad (hasBadLine_secondLineBad rfl rfl)
    obtain ⟨e, rfl⟩ := hline rfl rfl
    exact ⟨o, _, hrun, hkept, e, hresult⟩
  · let o : Options := { input := "c", output := some "o", binary := "./o", shared := "s" }
    have hrun : run ["c", "o", "--binary", "./o", "--shared", "s"] {} = .ok (o, convert o {}) :=
      run_eq (by decide +kernel) _
    have hread : ({} : Directory).readLines o.input = .error (.notFound "c") := by
      decide +kernel
    have hopened : ∀ file ∈ fileNames o, Directory.IsFileName file := by
      have hnames : fileNames o ⊆ ["o", "b", "s", "./o"] := by decide +kernel
      exact fun file hfile => isFileName_of_mem file (hnames hfile)
    obtain ⟨-, -, hmissing, -⟩ := run_effect_on_files hrun
    obtain ⟨hok, hfiles⟩ := hmissing "o" (.unopened hread (by decide)) rfl hopened
    have hnames : ["o", "./o", "s"] ⊆ fileNames o := by decide +kernel
    exact ⟨o, _, hrun, hok, fun file hfile => (hfiles file (hnames hfile)).2 (by decide +kernel)⟩
  · let o : Options := { input := "c", output := some "o", binary := "x/b", shared := "s" }
    have hrun : run ["c", "o", "--binary", "x/b", "--shared", "s"] threeChildren =
        .ok (o, convert o threeChildren) := run_eq (by decide +kernel) _
    have hapart : LeadsApart o := leadsApart_of_nodup (by decide +kernel)
    have hfind : Place.find "x/b" = .ok (.entry true "x" .parts) := by decide +kernel
    have hasked : ¬ ∃ file ∈ fileNames o, Place.find file = .ok (.entry true "c" .nothing) := by
      decide +kernel
    obtain ⟨hframe, -, -, hstops, -⟩ := run_effect_on_files hrun
    refine ⟨o, _, hrun, ?_, hapart, hstops "o" (passesTreebank_threeChildren rfl rfl rfl) rfl
      ⟨"x/b", by decide +kernel, not_isFileName_of_parts hfind⟩⟩
    by_contra hchanged
    exact hasked (hframe "c" hchanged)

/-! ## Runs beyond the conditions -/

/-- The options of a run with two names of one file, and a third file that cannot be opened. -/
def coveredOutput : Options :=
  { input := "c", output := some "o", binary := "./o", shared := "x/s" }

/-- A directory with a treebank that ends in half a character. -/
def cutBehind (text : String) : Directory :=
  { files := Table.empty.insert "c" (text.toUTF8 ++ ⟨#[0xC3]⟩) }

/-- Runs for which one of the conditions is not met.  When two different names lead to one file, the
first output is not complete where the run stops.  When a limit has no value, it is the limit that stops
a run and not the bad line.  When the name of the treebank has the null character, the run stops instead
of writing files for a missing treebank.  When a treebank has bytes that are no UTF-8 behind the wanted
trees, the rules of these trees are written; when it has a bad line in front of such bytes, nothing is
written. -/
theorem run_effect_exceptions :
    (∃ report, run ["c", "o", "--binary", "./o", "--shared", "x/s"] {} =
        .ok (coveredOutput, report) ∧ (fileNames coveredOutput).Nodup ∧
      (∃ cause, report.result = .error (.operation (.file cause))) ∧
      ¬ (⟨"o", [sourceRemark coveredOutput], none⟩ : Export).IsComplete
        (estimatedGrammar coveredOutput {}) coveredOutput.stem report.directory) ∧
    (∃ o report, run ["c", "o", "--length=--"] secondLineBad = .ok (o, report) ∧
      HasBadLine o ["(S a)", "("] ∧ report.result = .error (.missing .length)) ∧
    (∃ o report, run ["c", "o", "--n=--"] secondLineBad = .ok (o, report) ∧
      HasBadLine o ["(S a)", "("] ∧ report.result = .error (.missing .trees)) ∧
    (∃ o report, run ["a\x00b", "o"] {} = .ok (o, report) ∧
      o.output = some "o" ∧ (∀ file ∈ fileNames o, Directory.IsFileName file) ∧
      report.result = .error (.operation (.grammar .nullCharacter)) ∧
      ∀ text, report.directory.readText "o" ≠ .ok text) ∧
    (∃ o report, run ["c", "o", "--n", "1"] (cutBehind "(S a)\n\n") = .ok (o, report) ∧
      (cutBehind "(S a)\n\n").readText "c" = .error .undecodable ∧ report.result = .ok () ∧
      report.directory.readText "o" = .ok "# PCFG estimated from c\n1.0 S -> a\n") ∧
    ∃ o report, run ["c", "o"] (cutBehind "(\n") = .ok (o, report) ∧
      (cutBehind "(\n").readText "c" = .error .undecodable ∧
      report.result = .error (.operation (.grammar (.line ⟨1, .unbalanced⟩))) ∧
      ∀ text, report.directory.readText "o" ≠ .ok text := by
  refine ⟨?_, ?_, ?_, ?_, ?_, ?_⟩
  · refine ⟨convert coveredOutput {}, run_eq (by decide +kernel) _, by decide +kernel,
      ⟨.notFound "x/s", by decide +kernel⟩, ?_⟩
    rintro ⟨rules, hrules, hread⟩
    obtain rfl := Except.ok.inj hrules
    have hcovered : (convert coveredOutput {}).directory.readText "o" =
        .ok "# PCFG estimated from c\n# binarized\n" := by decide +kernel
    rw [hcovered] at hread
    revert hread
    decide +kernel
  · let o : Options := { input := "c", output := some "o", length := none }
    refine ⟨o, convert o secondLineBad, run_eq (by decide +kernel) _,
      hasBadLine_secondLineBad rfl rfl, ?_⟩
    decide +kernel
  · let o : Options := { input := "c", output := some "o", trees := none }
    refine ⟨o, convert o secondLineBad, run_eq (by decide +kernel) _,
      hasBadLine_secondLineBad rfl rfl, ?_⟩
    decide +kernel
  · let o : Options := { input := "a\x00b", output := some "o" }
    have hopened : ∀ file ∈ fileNames o, Directory.IsFileName file := by
      have hnames : fileNames o ⊆ ["o", "b", "s", "./o"] := by decide +kernel
      exact fun file hfile => isFileName_of_mem file (hnames hfile)
    have hmissing : (convert o {}).directory.readText "o" = .error (.file (.notFound "o")) := by
      decide +kernel
    refine ⟨o, convert o {}, run_eq (by decide +kernel) _, rfl, hopened, by decide +kernel, ?_⟩
    intro text htext
    rw [hmissing] at htext
    cases htext
  · let o : Options := { input := "c", output := some "o", trees := some 1 }
    exact ⟨o, convert o _, run_eq (by decide +kernel) _, by decide +kernel, by decide +kernel,
      by decide +kernel⟩
  · let o : Options := { input := "c", output := some "o" }
    have hmissing : (convert o (cutBehind "(\n")).directory.readText "o" =
        .error (.file (.notFound "o")) := by decide +kernel
    refine ⟨o, convert o _, run_eq (by decide +kernel) _, by decide +kernel, by decide +kernel, ?_⟩
    intro text htext
    rw [hmissing] at htext
    cases htext

end CommandLine
end TreebankGrammar
