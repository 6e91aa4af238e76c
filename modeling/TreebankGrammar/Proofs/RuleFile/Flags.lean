import TreebankGrammar.Proofs.Binarization.WrittenNames
import TreebankGrammar.Proofs.Grammar.Growth

/-!
# Lexical rules in rule files

A rule file does not say which rules are lexical.  A rule with a single symbol is read as lexical unless
the symbol is the left-hand side of a rule in the file.  Of the rules of a grammar that has grown from
trees, the lexical ones stay so, except for those whose word is a nonterminal; no other rule becomes
lexical.  Binarization changes nothing about this: it keeps the rules with a single symbol and the
nonterminals, and no new nonterminal is a word.

Main definitions:

- `Grammar.StaysLexical`: a rule is lexical and its word is no nonterminal.
- `Grammar.HasUnaryRules`: a list of rules agrees with a grammar as far as flags are concerned.

Main results:

- Theorem `Grammar.hasUnaryRules_binarize`: binarized rules agree with the grammar.
- Theorem `Grammar.HasUnaryRules.load`: what is loaded from a file with such rules.
- Theorem `Grammar.Grown.flags_survive`: which rules of a treebank grammar come back as lexical ones.
-/

namespace TreebankGrammar

/-- Whether a rule has a single symbol on the right. -/
def Rule.isUnary (r : Rule) : Bool :=
  r.rhs.length == 1

theorem Rule.isUnary_iff (r : Rule) : r.isUnary = true ↔ ∃ s, r.rhs = [s] := by
  rw [isUnary, beq_iff_eq, List.length_eq_one_iff]

/-! ## Binarized rules -/

namespace Pass

/-- A pass keeps the rules with a single symbol, and makes no others. -/
theorem Stage.filter_isUnary {strategy : Strategy} {stem : String} {symbols : List String}
    {source out : List Rule} {p : Pass} {position : Position}
    (stage : Stage strategy stem symbols source p out position) :
    out.filter Rule.isUnary = source.filter Rule.isUnary := by
  have hpair : ∀ {r : Rule} {left right : String}, r.rhs = [left, right] → r.isUnary = false := by
    intro r left right hrhs
    rw [Rule.isUnary, hrhs]
    rfl
  induction stage with
  | start => rfl
  | copy _ _ _ _ ih => rw [List.filter_append, List.filter_append, ih]
  | enter _ _ ih => exact ih
  | fold _ _ step ih =>
    cases step with
    | found _ _ => rw [List.append_nil, ih]
    | made _ _ _ _ =>
      rw [List.filter_append, ih, List.filter_singleton, hpair (rhs_defining _ _ _)]
      exact List.append_nil _
  | @close _ _ _ r _ left last stage ih =>
    have hlong : r.isUnary = false := by
      have hlength := stage.isCut.maxRhs_lt
      rw [Rule.isUnary, beq_eq_false_iff_ne]
      unfold maxRhs at hlength
      omega
    rw [List.filter_append, List.filter_append, ih, List.filter_singleton, List.filter_singleton,
      hpair (rhs_closing r left last), hlong]
    rfl

/-- The rules written for symbols of the grammar have the left-hand sides of the rules read. -/
theorem Explains.map_lhs {symbols : List String} {source out : List Rule} {p : Pass}
    {expand : String → List String} (h : Explains symbols source p out expand) :
    (out.filter fun r => r.lhs ∈ symbols).map (·.lhs) = source.map (·.lhs) := by
  have hparts := congrArg (List.map Prod.fst) h.kept
  rw [List.map_map, List.map_map] at hparts
  exact hparts

end Pass

namespace Grammar

/-! ## Rules with a single symbol -/

/-- A list of rules has the rules of a grammar with a single symbol on the right, and among the symbols of
the grammar its left-hand sides are the nonterminals. -/
structure HasUnaryRules (g : Grammar) (rules : List Rule) : Prop where
  unary : rules.filter Rule.isUnary = g.rules.filter Rule.isUnary
  lhs : ∀ s ∈ g.symbols, s ∈ rules.map (·.lhs) ↔ s ∈ g.nonterminals

/-- The rules of a grammar with a log are such a list. -/
theorem hasUnaryRules_rules {g : Grammar} {log : List Production} (h : g.IsLogged log) :
    g.HasUnaryRules g.rules where
  unary := rfl
  lhs s _ := by
    rw [List.mem_map, h.mem_nonterminals_iff]
    constructor
    · rintro ⟨r, hr, rfl⟩
      exact ⟨r.toProduction, (h.exists_rule_iff _).1 ⟨r, hr, rfl⟩, rfl⟩
    · rintro ⟨p, hp, rfl⟩
      obtain ⟨r, hr, rfl⟩ := (h.exists_rule_iff p).2 hp
      exact ⟨r, hr, rfl⟩

/-- Binarization keeps the rules with a single symbol, and makes no rule for a word. -/
theorem hasUnaryRules_binarize {g : Grammar} (h : g.HasUnaryRules g.rules) (strategy : Strategy)
    (stem : String) :
    ∃ out, (g.binarize strategy stem).result = .ok out ∧ g.HasUnaryRules out := by
  obtain ⟨out, hresult, stage⟩ := g.exists_stage strategy stem
  obtain ⟨expand, hexplains⟩ := stage.exists_explainsAt
  refine ⟨out, hresult, stage.filter_isUnary, fun s hs => ?_⟩
  rw [← h.lhs s hs, ← hexplains.map_lhs]
  simp only [List.mem_map, List.mem_filter, decide_eq_true_eq]
  constructor
  · rintro ⟨r, hr, rfl⟩
    exact ⟨r, ⟨hr, hs⟩, rfl⟩
  · rintro ⟨r, ⟨hr, -⟩, rfl⟩
    exact ⟨r, hr, rfl⟩

/-! ## Flags -/

/-- A rule is lexical, and its word is no nonterminal of a grammar. -/
def StaysLexical (g : Grammar) (r : Rule) : Prop :=
  r.lexical = true ∧ ∀ word ∈ r.rhs, word ∉ g.nonterminals

instance (g : Grammar) : DecidablePred g.StaysLexical := fun r =>
  inferInstanceAs (Decidable (r.lexical = true ∧ ∀ word ∈ r.rhs, word ∉ g.nonterminals))

/-- A rule that rewrites its nonterminal as a single symbol other than a word leads to a nonterminal. -/
def ChainsEnd (g : Grammar) : Prop :=
  ∀ r ∈ g.rules, ∀ s, r.toProduction.IsChain s → s ∈ g.nonterminals

/-- In a grammar that has grown from trees such rules lead to nonterminals. -/
theorem Grown.chainsEnd {g : Grammar} {ts : List Tree} (h : g.Grown ts) : g.ChainsEnd := by
  have hlog : Production.ChainsEnd (ts.flatMap Tree.productions) :=
    Production.chainsEnd_flatMap fun t _ => t.chainsEnd_productions
  intro r hr s hchain
  rw [h.isLogged.mem_nonterminals_iff]
  exact hlog _ ((h.isLogged.exists_rule_iff _).1 ⟨r, hr, rfl⟩) s hchain

namespace HasUnaryRules

variable {g : Grammar} {rules : List Rule}

/-- The rules with a single symbol on the right are rules of the grammar. -/
theorem mem_rules (h : g.HasUnaryRules rules) {r : Rule} (hr : r ∈ rules) {s : String}
    (hrhs : r.rhs = [s]) : r ∈ g.rules := by
  have hmem : r ∈ rules.filter Rule.isUnary := List.mem_filter.2 ⟨hr, r.isUnary_iff.2 ⟨s, hrhs⟩⟩
  rw [h.unary] at hmem
  exact List.mem_of_mem_filter hmem

/-- A rule that is read back is lexical exactly if it was and its word is no nonterminal. -/
theorem lexical_toRule_iff (h : g.HasUnaryRules rules) (hchains : g.ChainsEnd) {r : Rule}
    (hr : r ∈ rules) :
    ((RuleFile.Entry.ofRule r).toRule (rules.map (·.lhs))).lexical = true ↔ g.StaysLexical r := by
  have hlhs : ∀ s, r.rhs = [s] → (s ∈ rules.map (·.lhs) ↔ s ∈ g.nonterminals) := by
    intro s hrhs
    exact h.lhs s (rhs_mem_symbols (h.mem_rules hr hrhs) (by rw [hrhs]; exact List.mem_cons_self))
  rw [RuleFile.Entry.lexical_toRule]
  constructor
  · rintro ⟨s, hrhs, hs⟩
    change r.rhs = [s] at hrhs
    rw [hlhs s hrhs] at hs
    constructor
    · -- A rule that is not lexical leads to a nonterminal.
      by_contra hnot
      exact hs (hchains r (h.mem_rules hr hrhs) s ⟨by simpa using hnot, hrhs⟩)
    · rw [hrhs, List.forall_mem_singleton]
      exact hs
  · rintro ⟨hlexical, hwords⟩
    obtain ⟨s, hrhs⟩ := List.length_eq_one_iff.1 (r.length_of_lexical hlexical)
    rw [hrhs, List.forall_mem_singleton] at hwords
    exact ⟨s, hrhs, fun hs => hwords ((hlhs s hrhs).1 hs)⟩

/-- The rules that stay lexical are those of the grammar. -/
theorem filter_staysLexical (h : g.HasUnaryRules rules) :
    rules.filter (g.StaysLexical ·) = g.rules.filter (g.StaysLexical ·) := by
  have hunary : ∀ rs : List Rule,
      (rs.filter Rule.isUnary).filter (g.StaysLexical ·) = rs.filter (g.StaysLexical ·) := by
    intro rs
    rw [List.filter_filter]
    refine List.filter_congr fun r _ => ?_
    rw [Bool.and_eq_left_iff_imp, decide_eq_true_eq]
    rintro ⟨hlexical, -⟩
    rw [Rule.isUnary, r.length_of_lexical hlexical]
    rfl
  rw [← hunary rules, h.unary, hunary]

/-- What is loaded from a file with such rules: the same sides and weights, and the lexical rules of the
grammar without those whose words are nonterminals. -/
theorem load (h : g.HasUnaryRules rules) (hchains : g.ChainsEnd)
    (hwritable : ∀ r ∈ rules, r.IsWritable) {file : String} (hfile : Directory.IsFileName file)
    (d : Directory) :
    ∃ d' loaded, RuleFile.store d file [] rules = .ok d' ∧ RuleFile.load d' file = .ok loaded ∧
      List.Forall₂ (fun stored loaded =>
        RuleFile.Entry.ofRule loaded = RuleFile.Entry.ofRule stored ∧
          (loaded.lexical = true ↔ g.StaysLexical stored)) rules loaded ∧
      loaded.filter (·.lexical) = g.rules.filter (g.StaysLexical ·) := by
  obtain ⟨d', hstore⟩ : ∃ d', RuleFile.store d file [] rules = .ok d' :=
    Directory.exists_write_iff.2 hfile
  let reload : Rule → Rule := fun r => (RuleFile.Entry.ofRule r).toRule (rules.map (·.lhs))
  have hload : RuleFile.load d' file = .ok (rules.map reload) :=
    RuleFile.load_of_isWritable (by simp) (Directory.readText_write hstore) hwritable
  have hentry : ∀ r, RuleFile.Entry.ofRule (reload r) = RuleFile.Entry.ofRule r := fun r =>
    RuleFile.Entry.ofRule_toRule _ _
  have hlexical : ∀ r ∈ rules, (reload r).lexical = true ↔ g.StaysLexical r := fun r hr =>
    h.lexical_toRule_iff hchains hr
  refine ⟨d', rules.map reload, hstore, hload, ?_, ?_⟩
  · rw [List.forall₂_map_right_iff, List.forall₂_same]
    exact fun r hr => ⟨hentry r, hlexical r hr⟩
  · have hsame : ∀ r ∈ rules.filter (g.StaysLexical ·), reload r = r := by
      intro r hr
      obtain ⟨hr, hstays⟩ := List.mem_filter.1 hr
      have hstays : g.StaysLexical r := of_decide_eq_true hstays
      exact RuleFile.eq_of_ofRule_eq (hentry r)
        (((hlexical r hr).2 hstays).trans hstays.1.symm)
    calc (rules.map reload).filter (·.lexical)
        = (rules.filter fun r => (reload r).lexical).map reload := List.filter_map
      _ = (rules.filter (g.StaysLexical ·)).map reload := by
          rw [List.filter_congr fun r hr => Bool.eq_iff_iff.2
            ((hlexical r hr).trans (decide_eq_true_iff).symm)]
      _ = rules.filter (g.StaysLexical ·) := by rw [List.map_congr_left hsame, List.map_id']
      _ = g.rules.filter (g.StaysLexical ·) := h.filter_staysLexical

end HasUnaryRules

/-! ## Treebank grammars -/

/-- In a grammar that has grown from trees whose labels are words all symbols are words, and no
right-hand side is empty. -/
theorem Grown.words {g : Grammar} {ts : List Tree} (h : g.Grown ts)
    (hwords : ∀ t ∈ ts, ∀ l ∈ t.labels, Text.IsWord l) :
    (∀ s ∈ g.symbols, Text.IsWord s) ∧ ∀ r ∈ g.rules, r.rhs ≠ [] := by
  have hlog : ∀ p ∈ ts.flatMap Tree.productions, p.All Text.IsWord := by
    intro p hp
    obtain ⟨t, ht, hp⟩ := List.mem_flatMap.1 hp
    exact t.all_of_mem_productions (hwords t ht) (fun l hl => (hwords t ht l hl).1) p hp
  constructor
  · intro s hs
    obtain ⟨p, hp, hs⟩ := (h.isLogged.mem_symbols_iff s).1 hs
    obtain ⟨hlhs, hrhs⟩ := hlog p hp
    rcases List.mem_cons.1 hs with rfl | hs
    · exact hlhs
    · exact hrhs s hs
  · exact fun r hr => h.isLogged.rhs_ne_nil _ ((h.isLogged.exists_rule_iff _).1 ⟨r, hr, rfl⟩)

/-- The rules of a treebank grammar, estimated or not, and its binarized rules come back from a rule file
with the same sides and weights.  A rule that comes back is lexical exactly if it was lexical and its
word is no nonterminal of the grammar, and these are the same rules with and without binarization. -/
theorem Grown.flags_survive {g : Grammar} {ts : List Tree} (h : g.Grown ts)
    (hwords : ∀ t ∈ ts, ∀ l ∈ t.labels, Text.IsWord l) {stem : String}
    (hstem : Text.BlankFree stem.toList) {file : String} (hfile : Directory.IsFileName file)
    (d : Directory) :
    ∃ naive shared, (g.binarize .naive stem).result = .ok naive ∧
      (g.binarize .shared stem).result = .ok shared ∧
      ∀ rules ∈ [g.rules, naive, shared], ∃ d' loaded,
        RuleFile.store d file [] rules = .ok d' ∧ RuleFile.load d' file = .ok loaded ∧
        List.Forall₂ (fun stored loaded =>
          RuleFile.Entry.ofRule loaded = RuleFile.Entry.ofRule stored ∧
            (loaded.lexical = true ↔ g.StaysLexical stored)) rules loaded ∧
        loaded.filter (·.lexical) = g.rules.filter (g.StaysLexical ·) := by
  obtain ⟨hsymbols, hrhs⟩ := h.words hwords
  have hunary := hasUnaryRules_rules h.isLogged
  have hbinarized : ∀ strategy, ∃ rules, (g.binarize strategy stem).result = .ok rules ∧
      g.HasUnaryRules rules ∧ ∀ r ∈ rules, r.IsWritable := by
    intro strategy
    obtain ⟨rules, hresult, hrules⟩ := hasUnaryRules_binarize hunary strategy stem
    obtain ⟨rules', hresult', -, hwritable⟩ := isWritable_binarize_iff hsymbols hrhs strategy stem
    obtain rfl := Except.ok.inj (hresult.symm.trans hresult')
    exact ⟨rules, hresult, hrules, hwritable.2 (Or.inl hstem)⟩
  obtain ⟨naive, hnaive, hnaiveRules, hnaiveWritable⟩ := hbinarized .naive
  obtain ⟨shared, hshared, hsharedRules, hsharedWritable⟩ := hbinarized .shared
  refine ⟨naive, shared, hnaive, hshared, ?_⟩
  simp only [List.forall_mem_cons]
  refine ⟨?_, ?_, ?_, by simp⟩
  · exact hunary.load h.chainsEnd (isWritable_of_mem_rules hsymbols hrhs) hfile d
  · exact hnaiveRules.load h.chainsEnd hnaiveWritable hfile d
  · exact hsharedRules.load h.chainsEnd hsharedWritable hfile d

/-- A tree with a word that is a nonterminal, a chain of nodes with one child, and a node with three
children. -/
def clashingTree : Tree :=
  .node "S" [.node "A" [.node "S" []], .node "B" [.node "A" [.node "a" []]], .node "C" [.node "c" []]]

/-- The estimated grammar of this tree. -/
def clashing : Grammar :=
  (empty.addAll clashingTree.productions).estimate.grammar

/-- The rule for the word that is a nonterminal does not come back as a lexical one from the file of
the binarized rules, and the chain does not become lexical. -/
theorem clashing_flags_survive :
    ∃ naive d' loaded, (clashing.binarize .naive "S").result = .ok naive ∧
      RuleFile.store {} "rules" [] naive = .ok d' ∧ RuleFile.load d' "rules" = .ok loaded ∧
      (loaded.filter (·.lexical)).map (fun r => (r.lhs, r.rhs)) = [("A", ["a"]), ("C", ["c"])] := by
  have hwords : ∀ l ∈ clashingTree.labels, Text.IsWord l := by decide
  have hgrown : clashing.Grown [clashingTree] :=
    (Grown.empty.addTree rfl fun l hl => (hwords l hl).1).estimate
  have hfile : Directory.IsFileName "rules" := ⟨"rules", by decide +kernel, by decide⟩
  have hstem : Text.BlankFree "S".toList := by decide
  obtain ⟨naive, shared, hnaive, -, hrules⟩ :=
    hgrown.flags_survive (by simpa using hwords) hstem hfile {}
  obtain ⟨d', loaded, hstore, hload, -, hlexical⟩ :=
    hrules naive (List.mem_cons_of_mem _ List.mem_cons_self)
  refine ⟨naive, d', loaded, hnaive, hstore, hload, ?_⟩
  rw [hlexical]
  simp only [StaysLexical, mem_nonterminals_iff]
  decide +kernel

end Grammar
end TreebankGrammar
