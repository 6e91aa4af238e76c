import TreebankGrammar.Proofs.RuleFile.RoundTrip

/-!
# Loaded rules are stored as they are

A rule file may have comments and blank lines, and numbers and blanks may be written in many ways.
None of this is left in the rules that are loaded: all of them can be written, and their flags are
those that a reader finds again.  A list of rules is loaded from some file exactly if it has these two
properties, and then storing it and loading it again changes nothing.

Main definitions:

- `RuleFile.IsLoaded`: all rules of a list can be written, and have the flags that are read.

Main results:

- Theorem `RuleFile.isLoaded_iff`: these lists are the ones that are loaded from files.
- Theorem `RuleFile.IsLoaded.parse_render`: such a list is read as it was written.
- Theorem `RuleFile.store_load`: what has been loaded is stored and loaded again without a change.
-/

namespace TreebankGrammar
namespace RuleFile

/-- All rules of a list can be written, and a rule is lexical exactly if it has a single symbol on the
right that is the left-hand side of no rule of the list. -/
structure IsLoaded (rules : List Rule) : Prop where
  isWritable : ∀ r ∈ rules, r.IsWritable
  lexical_iff : ∀ r ∈ rules,
    r.lexical = true ↔ ∃ symbol, r.rhs = [symbol] ∧ symbol ∉ rules.map (·.lhs)

/-! ## From texts to rules -/

/-- The left-hand sides of the rules of entries. -/
theorem map_lhs_toRule (lhss : List String) (entries : List Entry) :
    (entries.map (Entry.toRule lhss)).map (·.lhs) = entries.map Entry.lhs := by
  rw [List.map_map]
  exact List.map_congr_left fun e _ => e.lhs_toRule lhss

/-- The rules of a text can be written and have the flags that are read. -/
theorem isLoaded_of_parse {file text : String} {rules : List Rule}
    (h : parse file text = .ok rules) : IsLoaded rules where
  isWritable := isWritable_of_mem_parse h
  lexical_iff r hr := by
    unfold parse parseLines at h
    split at h
    · cases h
    · rename_i entries _
      cases h
      rw [map_lhs_toRule]
      obtain ⟨e, -, rfl⟩ := List.mem_map.1 hr
      rw [Entry.lexical_toRule, Entry.rhs_toRule]

/-! ## From rules to texts -/

namespace IsLoaded

variable {rules : List Rule}

/-- The rule of an entry is the rule whose entry it is. -/
theorem toRule_ofRule (h : IsLoaded rules) {r : Rule} (hr : r ∈ rules) :
    (Entry.ofRule r).toRule (rules.map (·.lhs)) = r := by
  refine eq_of_ofRule_eq (Entry.ofRule_toRule _ _) (Bool.eq_iff_iff.2 ?_)
  rw [Entry.lexical_toRule, h.lexical_iff r hr]
  rfl

/-- Such a list is read as it was written. -/
theorem parse_render (h : IsLoaded rules) {header : List String}
    (hheader : ∀ line ∈ header, IsRemark line) (file : String) :
    parse file (render header rules) = .ok rules := by
  have hsame : rules.map (fun r => (Entry.ofRule r).toRule (rules.map (·.lhs))) = rules.map id :=
    List.map_congr_left fun r hr => h.toRule_ofRule hr
  rw [RuleFile.parse_render hheader h.isWritable, hsame, List.map_id]

/-- Such a list is loaded from every file that holds its text. -/
theorem load (h : IsLoaded rules) {header : List String}
    (hheader : ∀ line ∈ header, IsRemark line) {d : Directory} {file : String}
    (hread : d.readText file = .ok (render header rules)) : load d file = .ok rules := by
  rw [load_of_readText hread, h.parse_render hheader]
  rfl

end IsLoaded

/-- Lists of rules that can be written and have the flags that are read are the ones that are loaded
from files. -/
theorem isLoaded_iff {rules : List Rule} (file : String) :
    IsLoaded rules ↔ ∃ text, parse file text = .ok rules := by
  constructor
  · exact fun h => ⟨render [] rules, h.parse_render (by simp) file⟩
  · rintro ⟨text, h⟩
    exact isLoaded_of_parse h

/-! ## Files -/

/-- Only texts that can be parsed are loaded. -/
theorem isLoaded_of_load {d : Directory} {file : String} {rules : List Rule}
    (h : load d file = .ok rules) : IsLoaded rules := by
  obtain ⟨text, -, hparse⟩ := exists_parse_of_load h
  exact isLoaded_of_parse hparse

/-- Rules that have been loaded from any file can be stored under any header and are loaded again as
the same list, sides, flags, weights and order included.  Storing this list again, wherever it
is, writes the same text. -/
theorem store_load {d : Directory} {file : String} {rules : List Rule}
    (hload : load d file = .ok rules) {header : List String}
    (hheader : ∀ line ∈ header, Text.IsLine line.toList) {name : String}
    (hname : Directory.IsFileName name) (d₀ : Directory) :
    ∃ d₁ reloaded text, store d₀ name header rules = .ok d₁ ∧ load d₁ name = .ok reloaded ∧
      reloaded = rules ∧ d₁.readText name = .ok text ∧
      ∀ other, Directory.IsFileName other → ∀ d₂, ∃ d₃,
        store d₂ other header reloaded = .ok d₃ ∧ d₃.readText other = .ok text := by
  have hstore : ∀ name, Directory.IsFileName name → ∀ d₀, ∃ d₁,
      store d₀ name header rules = .ok d₁ ∧ d₁.readText name = .ok (render header rules) := by
    intro name hname d₀
    obtain ⟨d₁, hwrite⟩ := Directory.exists_write_iff.2 hname
    exact ⟨d₁, hwrite, Directory.readText_write hwrite⟩
  have hremarks : ∀ line ∈ header, IsRemark line := fun line hline =>
    isRemark_of_isLine (hheader line hline)
  obtain ⟨d₁, hwrite, hread⟩ := hstore name hname d₀
  have hreload := (isLoaded_of_load hload).load hremarks hread
  exact ⟨d₁, rules, _, hwrite, hreload, rfl, hread, hstore⟩

/-- A rule file with line ends, blanks and numbers of several kinds, in which the marks of the format
stand for symbols. -/
def untidyFile : String :=
  "# rules\r\n\u3000+1_0e-1\tS ->\u00A0A\u2003B\r\r nan\u0085A -> ->\n-0 -> -> #x \r\n#\n1e400 #x -> w"

/-- The rules that it holds. -/
def untidyRules : List Rule :=
  [.ofProduction (.phrasal "S" ["A", "B"]) .one, .ofProduction (.phrasal "A" ["->"]) .nan,
    .ofProduction (.phrasal "->" ["#x"]) Binary64.zero.neg,
    .ofProduction (.ofBody "#x" (.ofWord "w")) (.infinite false)]

/-- These rules are loaded from the file, stored under a header and loaded again. -/
theorem store_load_untidyFile :
    let d : Directory := { files := Table.empty.insert "g" untidyFile.toUTF8 }
    ∃ d₁, load d "g" = .ok untidyRules ∧ store d "g" ["", "# \u0085"] untidyRules = .ok d₁ ∧
      load d₁ "g" = .ok untidyRules := by
  intro d
  have hparse : parse "g" untidyFile = .ok untidyRules := by
    have hread : (parse "g" untidyFile).toOption = some untidyRules := by decide +kernel
    cases hresult : parse "g" untidyFile with
    | error e =>
      rw [hresult] at hread
      cases hread
    | ok rules =>
      rw [hresult] at hread
      exact congrArg Except.ok (Option.some.inj hread)
  have hload : load d "g" = .ok untidyRules := by
    rw [load_of_readText (Directory.readText_of_read rfl), hparse]
    rfl
  have hheader : ∀ line ∈ ["", "# \u0085"], Text.IsLine line.toList := by decide
  have hname : Directory.IsFileName "g" := ⟨"g", by decide +kernel, by decide⟩
  obtain ⟨d₁, reloaded, -, hstore, hreload, hsame, -⟩ := store_load hload hheader hname d
  rw [hsame] at hreload
  exact ⟨d₁, hload, hstore, hreload⟩

end RuleFile
end TreebankGrammar
