import Mathlib.Logic.Function.Basic
import TreebankGrammar.Grammar.Estimation
import TreebankGrammar.Proofs.Binarization.Records
import TreebankGrammar.Proofs.Binarization.Stages

/-!
# What new nonterminals stand for

Each new nonterminal of a pass stands for a sequence of symbols of the grammar.  The invariant of a
pass relates the rules written so far to the rules read so far: the rules of new nonterminals
define these sequences, and the other rules become the rules read when every symbol on the right
is replaced by the sequence that it stands for.

Main results:

- Theorem `Explains.foldStep`: a fold keeps the invariant, and its nonterminal stands for what the
  left symbol stands for, followed by the right symbol.
- Theorem `Stage.exists_explainsAt`: the invariant holds at every stage of a pass.
- Theorem `Grammar.exists_explains`: binarizing a grammar succeeds, and the new nonterminals of
  its rules stand for sequences of symbols of the grammar that turn these rules into the rules of
  the grammar.
-/

namespace TreebankGrammar

/-! ## Parts of rules -/

/-- The parts of a rule: both sides, the flag and the weight. -/
def Rule.parts (r : Rule) : String × List String × Bool × Weight :=
  (r.lhs, r.rhs, r.lexical, r.weight)

/-- A rule is determined by its parts. -/
theorem Rule.parts_injective : Function.Injective Rule.parts := by
  rintro ⟨⟨⟨rhs, lexical, h⟩, lhs⟩, weight⟩ ⟨⟨⟨rhs', lexical', h'⟩, lhs'⟩, weight'⟩ heq
  simp only [Rule.parts, Prod.mk.injEq] at heq
  rcases heq with ⟨rfl, rfl, rfl, rfl⟩
  rfl

/-- The parts of a rule whose symbols on the right are replaced by what they stand for. -/
def Rule.expanded (expand : String → List String) (r : Rule) :
    String × List String × Bool × Weight :=
  (r.lhs, r.rhs.flatMap expand, r.lexical, r.weight)

/-- Only the symbols on the right matter for what a rule becomes. -/
theorem Rule.expanded_congr {expand expand' : String → List String} {r : Rule}
    (h : ∀ s ∈ r.rhs, expand' s = expand s) : r.expanded expand' = r.expanded expand := by
  have hrhs : r.rhs.flatMap expand' = r.rhs.flatMap expand := by
    rw [List.flatMap_def, List.flatMap_def, List.map_congr_left h]
  simp [Rule.expanded, hrhs]

namespace Pass

/-! ## The invariant -/

/-- The invariant of a pass that has read the rules `source` and written the rules `out`, when
`expand` tells what each symbol stands for. -/
structure Explains (symbols : List String) (source : List Rule) (p : Pass) (out : List Rule)
    (expand : String → List String) : Prop extends Records symbols p out where
  expand_of_not_mem : ∀ s, s ∉ p.synthetic → expand s = [s]
  expand_defining : ∀ left right X, X ∈ p.synthetic → defining X left right ∈ out →
    expand X = expand left ++ [right]
  kept : (out.filter fun r => r.lhs ∈ symbols).map (Rule.expanded expand) =
    source.map Rule.parts

/-- A later state of a pass: the symbols known before are still known and stand for the same. -/
structure Extends (symbols : List String) (p : Pass) (expand : String → List String) (p' : Pass)
    (expand' : String → List String) : Prop where
  known : ∀ s, p.Knows symbols s → p'.Knows symbols s
  expand_eq : ∀ s, p.Knows symbols s → expand' s = expand s

variable {symbols : List String} {source out : List Rule} {p p' : Pass}
  {expand expand' : String → List String}

theorem Extends.refl : Extends symbols p expand p expand :=
  ⟨fun _ h => h, fun _ _ => rfl⟩

/-- At the start of a pass all symbols stand for themselves. -/
theorem explains_start (strategy : Strategy) (stem : String) (symbols : List String) :
    Explains symbols [] (start strategy stem symbols) [] fun s => [s] where
  toRecords := records_start strategy stem symbols
  expand_of_not_mem _ _ := rfl
  expand_defining := by simp
  kept := rfl

namespace Adds

variable {X : String}

/-- What known symbols stand for does not change with a new nonterminal. -/
theorem update_eq {s : String} (h : p.Adds symbols X p') (hs : p.Knows symbols s)
    (xs : List String) : Function.update expand X xs s = expand s :=
  Function.update_of_ne (h.ne_of_knows hs) xs expand

theorem extends_update (h : p.Adds symbols X p') (xs : List String) :
    Extends symbols p expand p' (Function.update expand X xs) where
  known _ hs := h.knows hs
  expand_eq _ hs := h.update_eq hs xs

end Adds

namespace Explains

/-- A symbol of the grammar stands for itself. -/
theorem expand_of_mem_symbols (h : Explains symbols source p out expand) {s : String}
    (hs : s ∈ symbols) : expand s = [s] :=
  h.expand_of_not_mem s fun hmem => h.regular.not_mem_symbols s hmem hs

/-- A sequence without new nonterminals stands for itself. -/
theorem flatMap_expand_of_forall_not_mem (h : Explains symbols source p out expand)
    {xs : List String} (hxs : ∀ s ∈ xs, s ∉ p.synthetic) : xs.flatMap expand = xs := by
  induction xs with
  | nil => rfl
  | cons s rest ih =>
    have hs : expand s = [s] := h.expand_of_not_mem s (hxs s (by simp))
    have hrest : rest.flatMap expand = rest := ih fun t ht => hxs t (by simp [ht])
    simp [hs, hrest]

/-- A sequence of symbols of the grammar stands for itself. -/
theorem flatMap_expand_of_forall_mem (h : Explains symbols source p out expand)
    {xs : List String} (hxs : ∀ s ∈ xs, s ∈ symbols) : xs.flatMap expand = xs := by
  apply h.flatMap_expand_of_forall_not_mem
  intro s hs hsynthetic
  exact h.regular.not_mem_symbols s hsynthetic (hxs s hs)

/-- The rule of a new nonterminal, and what the nonterminal stands for. -/
theorem definition (h : Explains symbols source p out expand) {d : Rule} (hd : d ∈ out)
    (hlhs : d.lhs ∈ p.synthetic) : ∃ left right,
      d = defining d.lhs left right ∧ right ∈ symbols ∧ expand d.lhs = expand left ++ [right] := by
  rcases h.defines d hd (h.regular.not_mem_symbols _ hlhs) with ⟨left, right, heq, hright⟩
  exact ⟨left, right, heq, hright, h.expand_defining left right d.lhs hlhs (heq ▸ hd)⟩

/-! ## Writing rules -/

/-- A new nonterminal with its rule keeps the invariant. -/
theorem define (h : Explains symbols source p out expand) {X left right : String}
    (hadds : p.Adds symbols X p') (hleft : p.Knows symbols left)
    (hrecords : Records symbols p' (out ++ [defining X left right])) :
    Explains symbols source p' (out ++ [defining X left right])
      (Function.update expand X (expand left ++ [right])) where
  toRecords := hrecords
  expand_of_not_mem s hs := by
    rw [hadds.mem_synthetic_iff, not_or] at hs
    rw [Function.update_of_ne hs.2]
    exact h.expand_of_not_mem s hs.1
  expand_defining l r Y hY hrule := by
    rcases List.mem_append.1 hrule with hrule | hrule
    · have hY' : Y ∈ p.synthetic :=
        (h.lhs_known hrule).resolve_left (hadds.regular.not_mem_symbols Y hY)
      have hl : p.Knows symbols l := h.rhs_known _ hrule l (by simp)
      rw [hadds.update_eq (Or.inr hY'), hadds.update_eq hl, h.expand_defining l r Y hY' hrule]
    · rcases defining_inj (List.mem_singleton.1 hrule) with ⟨rfl, rfl, rfl⟩
      rw [Function.update_self, hadds.update_eq hleft]
  kept := by
    have hnone : [defining X left right].filter (fun r => r.lhs ∈ symbols) = [] := by
      simp [hadds.not_mem_symbols]
    rw [← h.kept, List.filter_append, hnone, List.append_nil]
    apply List.map_congr_left
    intro r hr
    apply Rule.expanded_congr
    intro s hs
    exact hadds.update_eq (h.rhs_known r (List.mem_filter.1 hr).1 s hs) _

/-- A rule for a symbol of the grammar keeps the invariant when it becomes the rule read. -/
theorem keep (h : Explains symbols source p out expand) {r k : Rule} (hlhs : k.lhs ∈ symbols)
    (hrhs : ∀ s ∈ k.rhs, p.Knows symbols s) (hlength : k.rhs.length ≤ maxRhs)
    (hparts : k.expanded expand = r.parts) :
    Explains symbols (source ++ [r]) p (out ++ [k]) expand where
  toRecords := h.toRecords.keep hlhs hrhs hlength
  expand_of_not_mem := h.expand_of_not_mem
  expand_defining left right X hX hrule := by
    rcases List.mem_append.1 hrule with hrule | hrule
    · exact h.expand_defining left right X hX hrule
    · have hlhs' : X = k.lhs := congrArg (fun r : Rule => r.lhs) (List.mem_singleton.1 hrule)
      exact absurd (hlhs' ▸ hlhs) (h.regular.not_mem_symbols X hX)
  kept := by
    rw [List.filter_append, List.map_append, h.kept, List.map_append]
    simp [hlhs, hparts]

/-! ## Folds -/

/-- A fold keeps the invariant.  Its nonterminal stands for what the left symbol stands for,
followed by the right symbol. -/
theorem foldStep (h : Explains symbols source p out expand) {left right X : String}
    {rules : List Rule} (hleft : p.Knows symbols left) (hright : right ∈ symbols)
    (step : FoldStep symbols left right p p' X rules) :
    ∃ expand', Explains symbols source p' (out ++ rules) expand' ∧
      Extends symbols p expand p' expand' ∧ X ∈ p'.synthetic ∧
      expand' X = expand left ++ [right] := by
  rcases h.toRecords.foldStep hleft hright step with ⟨hrecords, -, hX, hrule⟩
  cases step with
  | found hshared hknown =>
    rw [List.append_nil] at hrule ⊢
    exact ⟨expand, h, .refl, hX, h.expand_defining left right X hX hrule⟩
  | made hadds hnaive hunknown hshared =>
    have h' := h.define hadds hleft hrecords
    refine ⟨_, h', hadds.extends_update _, hX, ?_⟩
    rw [Function.update_self]

/-- A closing rule becomes the rule that it stands for when its left symbol stands for all symbols of the
rule but the last. -/
theorem expanded_closing (h : Explains symbols source p out expand) {r : Rule}
    {left last : String} {folded : List String} (hcut : IsCut symbols r folded [last])
    (hleft : expand left = folded) : (closing r left last).expanded expand = r.parts := by
  have hlast : last ∈ symbols := hcut.mem_of_mem_rest (by simp)
  have hstands : [left, last].flatMap expand = r.rhs := by
    simp [hleft, h.expand_of_mem_symbols hlast, hcut.rhs_eq]
  simp only [Rule.expanded, Rule.parts, lhs_closing, rhs_closing, lexical_closing,
    weight_closing, hstands, lexical_eq_false_of_maxRhs_lt hcut.maxRhs_lt]

/-! ## Repeated productions -/

/-- No production stands twice among the rules of new nonterminals. -/
theorem nodup_new_productions (h : Explains symbols source p out expand) :
    ((out.filter fun r => r.lhs ∉ symbols).map Rule.toProduction).Nodup := by
  apply List.Nodup.of_map Production.lhs
  rw [List.map_map]
  exact h.lhs_definitions ▸ h.regular.nodup_synthetic

/-- No production stands twice among the kept rules: they would have been made from rules with the
same production. -/
theorem nodup_kept_productions (h : Explains symbols source p out expand)
    (hsource : (source.map Rule.toProduction).Nodup) :
    ((out.filter fun r => r.lhs ∈ symbols).map Rule.toProduction).Nodup := by
  let read (q : Production) : String × List String × Bool :=
    (q.lhs, q.rhs.flatMap expand, q.lexical)
  have hread : ((out.filter fun r => r.lhs ∈ symbols).map Rule.toProduction).map read =
      (source.map Rule.toProduction).map fun q => (q.lhs, q.rhs, q.lexical) := by
    have hparts := congrArg (List.map fun parts => (parts.1, parts.2.1, parts.2.2.1)) h.kept
    simpa [Function.comp_def, Rule.expanded, Rule.parts, read] using hparts
  apply List.Nodup.of_map read
  rw [hread]
  apply hsource.map
  rintro ⟨⟨rhs, lexical, _⟩, lhs⟩ ⟨⟨rhs', lexical', _⟩, lhs'⟩ heq
  simpa [and_comm, and_assoc] using heq

/-- No production stands twice among the rules written. -/
theorem nodup_productions (h : Explains symbols source p out expand)
    (hsource : (source.map Rule.toProduction).Nodup) : (out.map Rule.toProduction).Nodup := by
  have hperm := List.filter_append_perm (fun r : Rule => decide (r.lhs ∈ symbols)) out
  rw [← (hperm.map Rule.toProduction).nodup_iff, List.map_append]
  have hnew := h.nodup_new_productions
  refine List.nodup_append.2 ⟨h.nodup_kept_productions hsource, by simpa using hnew, ?_⟩
  intro q hq q' hq' heq
  rcases List.mem_map.1 hq with ⟨k, hk, rfl⟩
  rcases List.mem_map.1 hq' with ⟨d, hd, rfl⟩
  have hlhs : k.lhs = d.lhs := congrArg Production.lhs heq
  have hold : k.lhs ∈ symbols := by simpa using (List.mem_filter.1 hk).2
  have hnot : d.lhs ∉ symbols := by simpa using (List.mem_filter.1 hd).2
  exact hnot (hlhs ▸ hold)

end Explains

/-! ## Stages -/

/-- The invariant at a stage of a pass: inside a rule, one symbol stands for those that have been
folded.  Every new nonterminal stands for a proper prefix of what stands on the right of a rule that
has been begun, and for each long rule that has been read one of them stands for all symbols but
the last. -/
structure ExplainsAt (symbols : List String) (source : List Rule) (p : Pass) (out : List Rule)
    (position : Position) (expand : String → List String) : Prop
    extends Explains symbols source p out expand where
  pending : ∀ r folded left rest, position = .inside r folded left rest →
    p.Knows symbols left ∧ expand left = folded
  prefixes : ∀ X ∈ p.synthetic, ∃ r ∈ position.begun source,
    expand X <+: r.rhs ∧ (expand X).length < r.rhs.length
  initial : ∀ r ∈ source, maxRhs < r.rhs.length → ∃ X ∈ p.synthetic, expand X = r.rhs.dropLast

namespace ExplainsAt

variable {position : Position}

/-- What is said about prefixes depends only on the state and on the rules that have been begun. -/
theorem prefixes_mono (h : ExplainsAt symbols source p out position expand) {begun : List Rule}
    (hbegun : ∀ r ∈ position.begun source, r ∈ begun) :
    ∀ X ∈ p.synthetic, ∃ r ∈ begun, expand X <+: r.rhs ∧ (expand X).length < r.rhs.length := by
  intro X hX
  rcases h.prefixes X hX with ⟨r, hr, hprefix⟩
  exact ⟨r, hbegun r hr, hprefix⟩

/-- A short rule of the grammar is copied. -/
theorem copy (h : ExplainsAt symbols source p out .between expand) {r : Rule}
    (hlhs : r.lhs ∈ symbols) (hrhs : ∀ s ∈ r.rhs, s ∈ symbols) (hshort : r.rhs.length ≤ maxRhs) :
    ExplainsAt symbols (source ++ [r]) p (out ++ [r]) .between expand where
  toExplains := by
    refine h.toExplains.keep hlhs (fun s hs => Or.inl (hrhs s hs)) hshort ?_
    simp only [Rule.expanded, Rule.parts, h.flatMap_expand_of_forall_mem hrhs]
  pending _ _ _ _ heq := by cases heq
  prefixes := h.prefixes_mono fun _ hr => List.mem_append_left _ hr
  initial r' hr' hlong := by
    rcases List.mem_append.1 hr' with hr' | hr'
    · exact h.initial r' hr' hlong
    · rw [List.mem_singleton.1 hr'] at hlong
      omega

/-- A long rule is entered: its first symbol stands for itself. -/
theorem enter (h : ExplainsAt symbols source p out .between expand) {r : Rule} {first : String}
    {rest : List String} (hcut : IsCut symbols r [first] rest) :
    ExplainsAt symbols source p out (.inside r [first] first rest) expand where
  toExplains := h.toExplains
  pending _ _ _ _ heq := by
    cases heq
    have hfirst : first ∈ symbols := hcut.rhs_mem first (by simp [hcut.rhs_eq])
    exact ⟨Or.inl hfirst, h.expand_of_mem_symbols hfirst⟩
  prefixes := h.prefixes_mono fun _ hr => List.mem_append_left _ hr
  initial := h.initial

/-- One more symbol of a rule is folded: the nonterminal stands for all symbols folded so far. -/
theorem fold {r : Rule} {folded rest : List String} {left right X : String} {rules : List Rule}
    (h : ExplainsAt symbols source p out (.inside r folded left (right :: rest)) expand)
    (hcut : IsCut symbols r folded (right :: rest)) (hrest : rest ≠ [])
    (step : FoldStep symbols left right p p' X rules) :
    ∃ expand', ExplainsAt symbols source p' (out ++ rules) (.inside r (folded ++ [right]) X rest)
      expand' := by
  rcases h.pending r folded left _ rfl with ⟨hleft, hfolded⟩
  have hright : right ∈ symbols := hcut.mem_of_mem_rest (by simp)
  rcases h.foldStep hleft hright step with ⟨expand', h', hextends, hX, hexpand⟩
  rw [hfolded] at hexpand
  refine ⟨expand', h', ?_, ?_, ?_⟩
  · intro _ _ _ _ heq
    cases heq
    exact ⟨Or.inr hX, hexpand⟩
  · intro Y hY
    rcases step.mem_synthetic hY with hold | rfl
    · rw [hextends.expand_eq Y (Or.inr hold)]
      exact h.prefixes Y hold
    · refine ⟨r, by simp [Position.begun], ?_, ?_⟩
      · rw [hexpand, hcut.next.rhs_eq]
        exact List.prefix_append _ _
      · have hpos : 0 < rest.length := List.length_pos_of_ne_nil hrest
        have hlength : (folded ++ [right] ++ rest).length =
            (folded ++ [right]).length + rest.length := List.length_append
        rw [hexpand, hcut.next.rhs_eq, hlength]
        omega
  · intro r' hr' hlong
    rcases h.initial r' hr' hlong with ⟨Y, hY, hexpandY⟩
    have hknown : p.Knows symbols Y := Or.inr hY
    refine ⟨Y, (hextends.known Y hknown).resolve_left ?_, ?_⟩
    · exact h.regular.not_mem_symbols Y hY
    · rw [hextends.expand_eq Y hknown, hexpandY]

/-- A long rule is closed. -/
theorem close {r : Rule} {folded : List String} {left last : String}
    (h : ExplainsAt symbols source p out (.inside r folded left [last]) expand)
    (hcut : IsCut symbols r folded [last]) :
    ExplainsAt symbols (source ++ [r]) p (out ++ [closing r left last]) .between expand where
  toExplains := by
    rcases h.pending r folded left _ rfl with ⟨hleft, hfolded⟩
    have hlast : last ∈ symbols := hcut.mem_of_mem_rest (by simp)
    exact h.toExplains.keep hcut.lhs_mem (knows_of_mem_rhs_closing hleft hlast) (by simp [maxRhs])
      (h.expanded_closing hcut hfolded)
  pending _ _ _ _ heq := by cases heq
  prefixes := h.prefixes
  initial r' hr' hlong := by
    rcases List.mem_append.1 hr' with hr' | hr'
    · exact h.initial r' hr' hlong
    · rw [List.mem_singleton.1 hr', hcut.rhs_eq, List.dropLast_concat]
      rcases h.pending r folded left _ rfl with ⟨hleft, hfolded⟩
      refine ⟨left, hleft.resolve_left fun hmem => ?_, hfolded⟩
      -- A symbol of the grammar stands for itself only, and at least two symbols have been folded.
      have hmany := hcut.maxRhs_lt
      rw [hcut.rhs_eq, ← hfolded, h.expand_of_mem_symbols hmem] at hmany
      simp [maxRhs] at hmany

end ExplainsAt

/-- The invariant holds at every stage. -/
theorem Stage.exists_explainsAt {strategy : Strategy} {stem : String} {position : Position}
    (stage : Stage strategy stem symbols source p out position) :
    ∃ expand, ExplainsAt symbols source p out position expand := by
  induction stage with
  | start =>
    refine ⟨_, explains_start strategy stem symbols, ?_, by simp [Pass.start], by simp⟩
    intro _ _ _ _ heq
    cases heq
  | copy _ hlhs hrhs hshort ih =>
    rcases ih with ⟨expand, h⟩
    exact ⟨expand, h.copy hlhs hrhs hshort⟩
  | enter _ hcut ih =>
    rcases ih with ⟨expand, h⟩
    exact ⟨expand, h.enter hcut⟩
  | fold stage hrest step ih =>
    rcases ih with ⟨expand, h⟩
    exact h.fold stage.isCut hrest step
  | close stage ih =>
    rcases ih with ⟨expand, h⟩
    exact ⟨expand, h.close stage.isCut⟩

end Pass

/-- Binarizing a grammar succeeds with rules that the rules of the grammar can be read from. -/
theorem Grammar.exists_explains (g : Grammar) (strategy : Strategy) (stem : String) :
    ∃ out expand, (g.binarize strategy stem).result = .ok out ∧
      Pass.Explains g.symbols g.rules (g.binarize strategy stem).pass out expand := by
  rcases g.exists_stage strategy stem with ⟨out, hresult, stage⟩
  rcases stage.exists_explainsAt with ⟨expand, h⟩
  exact ⟨out, expand, hresult, h.toExplains⟩

/-! ## A grammar with long rules -/

/-- A grammar whose long rules begin with the same two symbols and lead back to their left-hand
side. -/
def Grammar.nested : Grammar :=
  (((empty.add (.phrasal "S" ["a", "S", "b"]) 1).add (.phrasal "S" ["a", "S", "c", "S"]) 1).add
    (.ofBody "S" (.ofWord "w")) 2).estimate.grammar

theorem Grammar.mem_nonterminals_nested : "S" ∈ nested.nonterminals :=
  (nested.mem_nonterminals_iff "S").2 (by decide +kernel)

end TreebankGrammar
