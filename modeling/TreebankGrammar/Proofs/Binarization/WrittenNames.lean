import TreebankGrammar.Proofs.Binarization.Expansion
import TreebankGrammar.Proofs.Binarization.Moves
import TreebankGrammar.Proofs.RuleFile.RoundTrip

/-!
# Binarized rules in rule files

The names of new nonterminals are the stem of the pass with a number, so that they are words unless the
stem has a blank.  Binarized rules can therefore be written to a rule file if the stem has no blank,
or if no rule needs a new nonterminal.

Main results:

- Theorem `Pass.NamedAfter.move`: new nonterminals are named after the stem.
- Theorem `Grammar.isWritable_binarize_iff`: when binarized rules can be written.
-/

namespace TreebankGrammar

/-! ## Names of new nonterminals -/

/-- A numbered symbol is a word if its stem has no blank. -/
theorem Supply.isWord_numbered_iff (stem : String) (n : Nat) :
    Text.IsWord (numbered stem n) ↔ Text.BlankFree stem.toList := by
  have hlist : (numbered stem n).toList = stem.toList ++ Nat.toDigits 10 n := by
    rw [numbered, String.toList_append]
    exact congrArg _ Nat.toList_repr
  have hdigits : Text.BlankFree (Nat.toDigits 10 n) := fun c hc =>
    (Number.IsTextChar.not_special (.inl (Number.allDigits_toDigits n c hc))).1
  rw [Text.IsWord, hlist, Text.blankFree_append]
  constructor
  · exact fun h => h.2.1
  · intro h
    refine ⟨fun hnil => ?_, h, hdigits⟩
    rw [← String.toList_eq_nil_iff, hlist, List.append_eq_nil_iff] at hnil
    exact List.ne_nil_of_length_pos Nat.length_toDigits_pos hnil.2

namespace Pass

/-- The names of a pass come from a supply with the given stem, and so do those that it has given. -/
structure NamedAfter (stem : String) (p : Pass) : Prop where
  naming : ∃ supply, p.naming = .fresh supply ∧ supply.stem = stem
  synthetic : ∀ X ∈ p.synthetic, ∃ n, X = Supply.numbered stem n

theorem namedAfter_start (strategy : Strategy) (stem : String) (symbols : List String) :
    (start strategy stem symbols).NamedAfter stem where
  naming := ⟨_, rfl, rfl⟩
  synthetic := by simp [start]

theorem NamedAfter.mint {stem : String} {p : Pass} (h : p.NamedAfter stem) :
    p.mint.1.NamedAfter stem := by
  obtain ⟨supply, hnaming, rfl⟩ := h.naming
  rw [Pass.mint, hnaming]
  dsimp only [Naming.next]
  split
  · exact ⟨⟨_, rfl, rfl⟩, h.synthetic⟩
  · refine ⟨⟨_, rfl, rfl⟩, fun X hX => ?_⟩
    rcases List.mem_append.1 hX with hX | hX
    · exact h.synthetic X hX
    · exact ⟨_, List.mem_singleton.1 hX⟩

/-- The moves of a pass leave it with names after its stem. -/
theorem NamedAfter.move {stem : String} {p p' : Pass} (hmove : Move p p')
    (h : p.NamedAfter stem) : p'.NamedAfter stem := by
  cases hmove with
  | mint => exact h.mint
  | learn _ _ => exact ⟨h.mint.naming, h.mint.synthetic⟩

/-! ## Passes that make no nonterminal -/

/-- Rules without long right-hand sides are kept as they are. -/
theorem binarizeRules_of_short (p : Pass) {rules : List Rule}
    (h : ∀ r ∈ rules, r.rhs.length ≤ maxRhs) : p.binarizeRules rules = (p, .ok rules) := by
  induction rules with
  | nil => rfl
  | cons r rest ih =>
    obtain ⟨hr, hrest⟩ := List.forall_mem_cons.1 h
    rw [binarizeRules, if_pos hr]
    simp [ih hrest]

/-- A pass that has read a long rule has made a nonterminal. -/
theorem Explains.synthetic_ne_nil {symbols : List String} {source out : List Rule} {p : Pass}
    {expand : String → List String} (h : Explains symbols source p out expand) {r : Rule}
    (hr : r ∈ source) (hlong : maxRhs < r.rhs.length) : p.synthetic ≠ [] := by
  intro hnil
  have hparts : r.parts ∈ (out.filter fun r => r.lhs ∈ symbols).map (Rule.expanded expand) := by
    rw [h.kept]
    exact List.mem_map_of_mem hr
  obtain ⟨k, hk, heq⟩ := List.mem_map.1 hparts
  have hrhs : k.rhs.flatMap expand = r.rhs := congrArg (fun parts => parts.2.1) heq
  rw [h.flatMap_expand_of_forall_not_mem (by simp [hnil])] at hrhs
  have hshort := h.length_rhs_le k (List.mem_filter.1 hk).1
  rw [hrhs] at hshort
  omega

end Pass

/-! ## Binarized rules -/

namespace Grammar

variable {g : Grammar}

/-- The rules of a grammar can be written if its symbols are words and no right-hand side is empty. -/
theorem isWritable_of_mem_rules (hsymbols : ∀ s ∈ g.symbols, Text.IsWord s)
    (hrhs : ∀ r ∈ g.rules, r.rhs ≠ []) : ∀ r ∈ g.rules, r.IsWritable := fun r hr =>
  ⟨hsymbols _ (lhs_mem_symbols hr), hrhs r hr, fun _ hs => hsymbols _ (rhs_mem_symbols hr hs)⟩

/-- The rules written by a pass can be written to a file if all symbols known to it are words. -/
theorem isWritable_of_explains {p : Pass} {out : List Rule} {expand : String → List String}
    (h : Pass.Explains g.symbols g.rules p out expand) (hrhs : ∀ r ∈ g.rules, r.rhs ≠ [])
    (hwords : ∀ s, p.Knows g.symbols s → Text.IsWord s) : ∀ r ∈ out, r.IsWritable := by
  intro k hk
  refine ⟨hwords _ (h.lhs_known hk), fun hnil => ?_, fun s hs => hwords s (h.rhs_known k hk s hs)⟩
  by_cases hlhs : k.lhs ∈ g.symbols
  · have hparts : k.expanded expand ∈ g.rules.map Rule.parts := by
      rw [← h.kept]
      exact List.mem_map_of_mem (List.mem_filter.2 ⟨hk, by simpa using hlhs⟩)
    obtain ⟨r, hr, heq⟩ := List.mem_map.1 hparts
    have hexpand : r.rhs = k.rhs.flatMap expand := congrArg (fun parts => parts.2.1) heq
    rw [hnil] at hexpand
    exact hrhs r hr hexpand
  · have hlength := h.length_rhs hk ((h.lhs_mem_synthetic_iff hk).2 hlhs)
    rw [hnil] at hlength
    cases hlength

/-- Binarization of a grammar whose symbols are words makes rules that can be written exactly if the
stem of the new nonterminals has no blank or no rule is too long.  All rules that it makes have at
most two symbols on the right. -/
theorem isWritable_binarize_iff (hsymbols : ∀ s ∈ g.symbols, Text.IsWord s)
    (hrhs : ∀ r ∈ g.rules, r.rhs ≠ []) (strategy : Strategy) (stem : String) :
    ∃ rules, (g.binarize strategy stem).result = .ok rules ∧
      (∀ r ∈ rules, r.rhs.length ≤ Pass.maxRhs) ∧
      ((∀ r ∈ rules, r.IsWritable) ↔
        Text.BlankFree stem.toList ∨ ∀ r ∈ g.rules, r.rhs.length ≤ Pass.maxRhs) := by
  obtain ⟨out, expand, hresult, h⟩ := g.exists_explains strategy stem
  have hnamed : (g.binarize strategy stem).pass.NamedAfter stem := by
    have hrun := (Pass.start strategy stem g.symbols).runs_binarizeRules g.rules
    exact Pass.keeps_of_moves Pass.NamedAfter.move hrun.moves (Pass.namedAfter_start _ _ _)
  refine ⟨out, hresult, h.length_rhs_le, fun hwritable => ?_, ?_⟩
  · by_contra hneither
    rw [not_or] at hneither
    obtain ⟨hblank, hlong⟩ := hneither
    simp only [not_forall, not_le] at hlong
    obtain ⟨r, hr, hlong⟩ := hlong
    obtain ⟨X, hX⟩ := List.exists_mem_of_ne_nil _ (h.synthetic_ne_nil hr hlong)
    obtain ⟨d, hd, rfl⟩ := h.exists_rule hX
    obtain ⟨n, hn⟩ := hnamed.synthetic _ hX
    have hword := (hwritable d hd).lhs
    rw [hn] at hword
    exact hblank ((Supply.isWord_numbered_iff stem n).1 hword)
  · rintro (hfree | hshort)
    · refine isWritable_of_explains h hrhs ?_
      rintro s (hs | hs)
      · exact hsymbols s hs
      · obtain ⟨n, rfl⟩ := hnamed.synthetic s hs
        exact (Supply.isWord_numbered_iff stem n).2 hfree
    · have hkept := (binarize_of_binarizeRules
        ((Pass.start strategy stem g.symbols).binarizeRules_of_short hshort)).2
      rw [hresult] at hkept
      obtain rfl := Except.ok.inj hkept
      exact isWritable_of_mem_rules hsymbols hrhs

end Grammar
end TreebankGrammar
