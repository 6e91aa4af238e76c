import Mathlib.Data.List.Dedup
import Mathlib.Data.List.Infix
import Mathlib.Data.Set.Card
import TreebankGrammar.Proofs.Binarization.BinaryForm

/-!
# Sharing of prefixes

The memory of pairs works as a tree of prefixes: a shared pass makes one new nonterminal for each
sequence that is folded somewhere, that is, for each prefix of a long right-hand side that has at least
two symbols and leaves at least one.  A naive pass makes one each time that such a prefix is folded.

Main definitions:

- `Rule.foldedPrefixes`: the prefixes that are folded when a rule is split.

Main results:

- Theorem `Stage.length_synthetic`: how many nonterminals a naive pass makes.
- Theorem `Explains.expand_injOn`: different nonterminals of a shared pass stand for different
  sequences.
- Theorem `ExplainsAt.mem_map_expand_iff`: new nonterminals stand for the prefixes that are folded.
- Theorem `Grammar.length_synthetic_binarize`: how many nonterminals both strategies make.
-/

namespace TreebankGrammar

/-! ## Folded prefixes -/

/-- The prefixes that are folded when a rule is split, from the shortest to the longest. -/
def Rule.foldedPrefixes (r : Rule) : List (List String) :=
  (List.range' 2 (r.rhs.length - 2)).map fun n => r.rhs.take n

namespace Rule

@[simp]
theorem length_foldedPrefixes (r : Rule) : r.foldedPrefixes.length = r.rhs.length - 2 := by
  simp [foldedPrefixes]

/-- A folded prefix has at least two symbols and leaves at least one. -/
theorem mem_foldedPrefixes_iff {r : Rule} {xs : List String} :
    xs ∈ r.foldedPrefixes ↔ xs <+: r.rhs ∧ 2 ≤ xs.length ∧ xs.length < r.rhs.length := by
  rw [foldedPrefixes, List.mem_map]
  constructor
  · rintro ⟨n, hn, rfl⟩
    rw [List.mem_range'_1] at hn
    rw [List.length_take]
    exact ⟨List.take_prefix n r.rhs, by omega, by omega⟩
  · rintro ⟨hbegins, htwo, hlt⟩
    refine ⟨xs.length, ?_, (List.prefix_iff_eq_take.1 hbegins).symm⟩
    rw [List.mem_range'_1]
    omega

/-- The folded prefixes of a rule differ in their lengths. -/
theorem nodup_foldedPrefixes (r : Rule) : r.foldedPrefixes.Nodup := by
  apply List.Nodup.map_on _ List.nodup_range'
  intro m hm n hn heq
  rw [List.mem_range'_1] at hm hn
  have hlength := congrArg List.length heq
  rw [List.length_take, List.length_take] at hlength
  omega

/-- Two rules have a folded prefix in common exactly if both are long and begin with the same two
symbols. -/
theorem disjoint_foldedPrefixes_iff {r r' : Rule} :
    List.Disjoint r.foldedPrefixes r'.foldedPrefixes ↔
      ¬(3 ≤ r.rhs.length ∧ 3 ≤ r'.rhs.length ∧ r.rhs.take 2 = r'.rhs.take 2) := by
  constructor
  · rintro hdisjoint ⟨hr, hr', htake⟩
    refine hdisjoint (a := r.rhs.take 2) ?_ ?_
    · rw [mem_foldedPrefixes_iff, List.length_take]
      exact ⟨List.take_prefix 2 r.rhs, by omega, by omega⟩
    · rw [mem_foldedPrefixes_iff, htake, List.length_take]
      exact ⟨List.take_prefix 2 r'.rhs, by omega, by omega⟩
  · intro hnot xs hxs hxs'
    rw [mem_foldedPrefixes_iff] at hxs hxs'
    rcases hxs with ⟨⟨rest, hrest⟩, htwo, hlt⟩
    rcases hxs' with ⟨⟨rest', hrest'⟩, -, hlt'⟩
    refine hnot ⟨by omega, by omega, ?_⟩
    rw [← hrest, ← hrest', List.take_append_of_le_length htwo, List.take_append_of_le_length htwo]

end Rule

namespace Pass

variable {strategy : Strategy} {stem : String} {symbols : List String} {source out : List Rule}
  {p : Pass} {position : Position} {expand : String → List String}

/-! ## Naive passes -/

/-- How many symbols have been folded into others inside the rule where a pass stands. -/
def Position.folds : Position → Nat
  | .between => 0
  | .inside _ folded _ _ => folded.length - 1

/-- A naive pass has made one nonterminal for each fold. -/
theorem Stage.length_synthetic (stage : Stage .naive stem symbols source p out position) :
    p.synthetic.length = (source.flatMap Rule.foldedPrefixes).length + position.folds := by
  induction stage with
  | start => rfl
  | @copy _ _ _ r _ _ _ hshort ih =>
    have hnone : r.rhs.length - 2 = 0 := Nat.sub_eq_zero_of_le hshort
    rw [ih, List.flatMap_append, List.length_append, List.flatMap_singleton,
      Rule.length_foldedPrefixes, hnone]
    rfl
  | enter _ _ ih => exact ih
  | @fold _ _ _ _ _ _ folded _ _ right _ stage _ step ih =>
    have hpos : 0 < folded.length := List.length_pos_of_ne_nil stage.isCut.folded_ne_nil
    cases step with
    | found hshared _ =>
      rw [stage.strategy_eq] at hshared
      cases hshared
    | made hadds _ _ _ =>
      rw [hadds.synthetic_eq, List.length_append, ih]
      simp only [Position.folds, List.length_append, List.length_singleton]
      omega
  | @close _ _ _ r folded _ last stage ih =>
    have hlength : r.rhs.length = folded.length + 1 := by
      rw [stage.isCut.rhs_eq, List.length_append, List.length_singleton]
    rw [ih, List.flatMap_append, List.length_append, List.flatMap_singleton,
      Rule.length_foldedPrefixes, hlength]
    simp only [Position.folds]
    omega

/-! ## What nonterminals stand for -/

namespace Explains

/-- A new nonterminal stands for at least two symbols. -/
theorem two_le_length_expand (h : Explains symbols source p out expand) {X : String}
    (hX : X ∈ p.synthetic) : 2 ≤ (expand X).length := by
  rcases h.exists_rule hX with ⟨d, hd, rfl⟩
  rcases h.definition hd hX with ⟨left, right, -, -, hexpand⟩
  have hleft : 0 < (expand left).length := List.length_pos_of_ne_nil (h.expand_ne_nil left)
  rw [hexpand, List.length_append, List.length_singleton]
  omega

/-- A symbol that stands for at least two symbols is a new nonterminal. -/
theorem mem_synthetic_of_two_le (h : Explains symbols source p out expand) {s : String}
    (hs : 2 ≤ (expand s).length) : s ∈ p.synthetic := by
  by_contra hnot
  rw [h.expand_of_not_mem s hnot] at hs
  simp at hs

/-- In a shared pass different nonterminals stand for different sequences: each has a pair, and a
pair has one nonterminal. -/
theorem expand_injOn (h : Explains symbols source p out expand) (hshared : p.strategy = .shared) :
    Set.InjOn expand {X | X ∈ p.synthetic} := by
  intro X hX Y hY heq
  induction hn : (expand X).length using Nat.strong_induction_on generalizing X Y with
  | _ n ih =>
    rcases h.exists_rule hX with ⟨d, hd, rfl⟩
    rcases h.exists_rule hY with ⟨d', hd', rfl⟩
    rcases h.definition hd hX with ⟨left, right, hdef, -, hexpand⟩
    rcases h.definition hd' hY with ⟨left', right', hdef', -, hexpand'⟩
    rw [hexpand, hexpand'] at heq
    -- The last symbols agree, and what stands before them is folded on both sides or on neither.
    rcases List.append_inj' heq rfl with ⟨hleft, hright⟩
    obtain rfl : right = right' := by simpa using hright
    have hsame : left = left' := by
      by_cases hmem : left ∈ p.synthetic
      · have hmem' : left' ∈ p.synthetic :=
          h.mem_synthetic_of_two_le (hleft ▸ h.two_le_length_expand hmem)
        refine ih _ ?_ hmem hmem' hleft rfl
        rw [← hn, hexpand, List.length_append, List.length_singleton]
        exact Nat.lt_succ_self _
      · have hmem' : left' ∉ p.synthetic := fun hmem' =>
          hmem (h.mem_synthetic_of_two_le (hleft ▸ h.two_le_length_expand hmem'))
        rw [h.expand_of_not_mem left hmem, h.expand_of_not_mem left' hmem'] at hleft
        simpa using hleft
    have hmemo := h.memo_complete hshared left right d.lhs hX (hdef ▸ hd)
    have hmemo' := h.memo_complete hshared left' right d'.lhs hY (hdef' ▸ hd')
    rw [hsame, hmemo'] at hmemo
    exact (Option.some.inj hmemo).symm

/-- Every prefix of two or more symbols of what a new nonterminal stands for has a nonterminal. -/
theorem exists_expand_eq_of_begins (h : Explains symbols source p out expand) {X : String}
    {xs : List String} (hX : X ∈ p.synthetic) (hbegins : xs <+: expand X) (htwo : 2 ≤ xs.length) :
    ∃ Y ∈ p.synthetic, expand Y = xs := by
  induction hn : (expand X).length using Nat.strong_induction_on generalizing X with
  | _ n ih =>
    rcases h.exists_rule hX with ⟨d, hd, rfl⟩
    rcases h.definition hd hX with ⟨left, right, -, -, hexpand⟩
    rw [hexpand] at hbegins
    rcases List.prefix_concat_iff.1 hbegins with heq | hbegins
    · exact ⟨d.lhs, hX, by rw [hexpand, heq]⟩
    · have hleft : left ∈ p.synthetic :=
        h.mem_synthetic_of_two_le (Nat.le_trans htwo hbegins.length_le)
      refine ih _ ?_ hleft hbegins rfl
      rw [← hn, hexpand, List.length_append, List.length_singleton]
      exact Nat.lt_succ_self _

end Explains

/-- After all rules have been read, the new nonterminals stand for the folded prefixes. -/
theorem ExplainsAt.mem_map_expand_iff (h : ExplainsAt symbols source p out .between expand)
    {xs : List String} :
    xs ∈ p.synthetic.map expand ↔ xs ∈ source.flatMap Rule.foldedPrefixes := by
  rw [List.mem_map, List.mem_flatMap]
  constructor
  · rintro ⟨X, hX, rfl⟩
    rcases h.prefixes X hX with ⟨r, hr, hbegins, hlt⟩
    exact ⟨r, hr, Rule.mem_foldedPrefixes_iff.2 ⟨hbegins, h.two_le_length_expand hX, hlt⟩⟩
  · rintro ⟨r, hr, hxs⟩
    rcases Rule.mem_foldedPrefixes_iff.1 hxs with ⟨hbegins, htwo, hlt⟩
    have hlong : maxRhs < r.rhs.length := Nat.lt_of_le_of_lt htwo hlt
    rcases h.initial r hr hlong with ⟨X, hX, hexpand⟩
    refine h.exists_expand_eq_of_begins hX ?_ htwo
    rw [hexpand]
    exact List.prefix_of_prefix_length_le hbegins (List.dropLast_prefix r.rhs)
      (by rw [List.length_dropLast]; omega)

/-- A shared pass has made one nonterminal for each folded prefix. -/
theorem Stage.perm_map_expand (stage : Stage .shared stem symbols source p out .between) :
    ∃ expand, (p.synthetic.map expand).Perm (source.flatMap Rule.foldedPrefixes).dedup := by
  rcases stage.exists_explainsAt with ⟨expand, h⟩
  refine ⟨expand, (List.perm_ext_iff_of_nodup ?_ (List.nodup_dedup _)).2 fun xs => ?_⟩
  · exact h.regular.nodup_synthetic.map_on (h.expand_injOn stage.strategy_eq)
  · rw [List.mem_dedup]
    exact h.mem_map_expand_iff

end Pass

/-! ## Numbers of nonterminals -/

namespace Grammar

/-- The prefixes that are folded when the rules of a grammar are split. -/
def foldedPrefixes (g : Grammar) : List (List String) :=
  g.rules.flatMap Rule.foldedPrefixes

/-- There are as many folded prefixes as folds. -/
theorem length_foldedPrefixes (g : Grammar) :
    g.foldedPrefixes.length =
      ((g.rules.filter fun r => 3 ≤ r.rhs.length).map fun r => r.rhs.length - 2).sum := by
  rw [foldedPrefixes]
  induction g.rules with
  | nil => rfl
  | cons r rest ih =>
    rw [List.flatMap_cons, List.length_append, ih, Rule.length_foldedPrefixes, List.filter_cons]
    split
    · rfl
    · rename_i hshort
      have hnone : r.rhs.length - 2 = 0 := by
        simp only [decide_eq_true_eq] at hshort
        omega
      rw [hnone, Nat.zero_add]

/-- A prefix is folded twice exactly if two productions are long and begin with the same two symbols.
-/
theorem nodup_foldedPrefixes_iff (g : Grammar) :
    g.foldedPrefixes.Nodup ↔
      ¬∃ r ∈ g.rules, ∃ r' ∈ g.rules, r.toProduction ≠ r'.toProduction ∧ 3 ≤ r.rhs.length ∧
        3 ≤ r'.rhs.length ∧ r.rhs.take 2 = r'.rhs.take 2 := by
  have hrules : g.rules.Nodup := List.Nodup.of_map _ g.nodup_productions
  rw [foldedPrefixes, List.nodup_flatMap]
  constructor
  · rintro ⟨-, hpairwise⟩ ⟨r, hr, r', hr', hne, hsame⟩
    have hsymm : Std.Symm (Function.onFun List.Disjoint Rule.foldedPrefixes) :=
      ⟨fun _ _ hdisjoint => List.Disjoint.symm hdisjoint⟩
    have hdisjoint := hpairwise.forall hr hr' fun heq => hne (heq ▸ rfl)
    exact Rule.disjoint_foldedPrefixes_iff.1 hdisjoint hsame
  · intro hnone
    refine ⟨fun r _ => r.nodup_foldedPrefixes, hrules.pairwise_of_forall_ne ?_⟩
    intro r hr r' hr' hne
    refine Rule.disjoint_foldedPrefixes_iff.2 fun hsame => hnone ⟨r, hr, r', hr', ?_, hsame⟩
    exact fun heq => hne (List.inj_on_of_nodup_map g.nodup_productions hr hr' heq)

/-- The folded prefixes are the sequences of at least two symbols with which long right-hand sides begin
and do not end. -/
theorem setOf_prefix_eq (g : Grammar) :
    {xs | ∃ r ∈ g.rules, 3 ≤ r.rhs.length ∧ xs <+: r.rhs ∧ 2 ≤ xs.length ∧
      xs.length ≤ r.rhs.length - 1} = (g.foldedPrefixes.toFinset : Set (List String)) := by
  ext xs
  simp only [Set.mem_ofPred_eq, List.coe_toFinset, foldedPrefixes, List.mem_flatMap,
    Rule.mem_foldedPrefixes_iff]
  constructor
  · rintro ⟨r, hr, hthree, hbegins, htwo, hle⟩
    exact ⟨r, hr, hbegins, htwo, by omega⟩
  · rintro ⟨r, hr, hbegins, htwo, hlt⟩
    exact ⟨r, hr, by omega, hbegins, htwo, by omega⟩

/-- The naive strategy makes a nonterminal for each symbol of a long right-hand side but two, and the
shared one for each sequence of at least two symbols with which a long right-hand side begins and does
not end.  The shared strategy never makes more, and it makes fewer exactly if two productions
with at least three symbols on the right begin with the same two. -/
theorem length_synthetic_binarize (g : Grammar) (stem : String) :
    (∀ strategy, ∃ out, (g.binarize strategy stem).result = .ok out) ∧
    (g.binarize .naive stem).pass.synthetic.length =
      ((g.rules.filter fun r => 3 ≤ r.rhs.length).map fun r => r.rhs.length - 2).sum ∧
    (g.binarize .shared stem).pass.synthetic.length =
      {xs | ∃ r ∈ g.rules, 3 ≤ r.rhs.length ∧ xs <+: r.rhs ∧ 2 ≤ xs.length ∧
        xs.length ≤ r.rhs.length - 1}.ncard ∧
    (g.binarize .shared stem).pass.synthetic.length ≤
      (g.binarize .naive stem).pass.synthetic.length ∧
    ((g.binarize .shared stem).pass.synthetic.length <
        (g.binarize .naive stem).pass.synthetic.length ↔
      ∃ r ∈ g.rules, ∃ r' ∈ g.rules, r.toProduction ≠ r'.toProduction ∧ 3 ≤ r.rhs.length ∧
        3 ≤ r'.rhs.length ∧ r.rhs.take 2 = r'.rhs.take 2) := by
  rcases g.exists_stage .naive stem with ⟨_, -, naive⟩
  rcases g.exists_stage .shared stem with ⟨_, -, shared⟩
  have hnaive : (g.binarize .naive stem).pass.synthetic.length = g.foldedPrefixes.length :=
    naive.length_synthetic
  have hshared : (g.binarize .shared stem).pass.synthetic.length =
      g.foldedPrefixes.dedup.length := by
    rcases shared.perm_map_expand with ⟨expand, hperm⟩
    rw [foldedPrefixes, ← hperm.length_eq, List.length_map]
  have hsub := List.dedup_sublist g.foldedPrefixes
  refine ⟨?_, ?_, ?_, ?_, ?_⟩
  · intro strategy
    rcases g.exists_stage strategy stem with ⟨out, hresult, -⟩
    exact ⟨out, hresult⟩
  · rw [hnaive, length_foldedPrefixes]
  · rw [setOf_prefix_eq, Set.ncard_coe_finset, List.card_toFinset, hshared]
  · rw [hnaive, hshared]
    exact hsub.length_le
  · rw [hnaive, hshared, ← not_iff_not, not_lt, ← nodup_foldedPrefixes_iff]
    constructor
    · exact fun hle => List.dedup_eq_self.1 (hsub.eq_of_length_le hle)
    · exact fun hnodup => Nat.le_of_eq (congrArg List.length hnodup.dedup.symm)

end Grammar
end TreebankGrammar
