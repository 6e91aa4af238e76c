import Mathlib.Logic.Function.Basic
import TreebankGrammar.Proofs.Binarization.Records
import TreebankGrammar.Proofs.Grammar.Symbols

/-!
# Shared nonterminals

The shared strategy gives the rules of the naive one up to names.  The new nonterminals of a naive
pass are renamed to those of a shared pass over the same grammar, and the rules of new
nonterminals that the renaming repeats are deleted.  The two passes run side by side: a naive fold
makes a nonterminal, and the shared one makes a nonterminal too or finds the one that the rule
made now is a repetition for.

Main results:

- Theorem `Shares.foldStep`: a fold in both passes keeps the invariant.
- Theorem `Shares.exists_binarizeRules`: both passes succeed over the same rules and keep the
  invariant.
- Theorem `Grammar.binarize_shares`: the shared rules are the renamed naive ones without
  repetitions.
-/

namespace TreebankGrammar

/-! ## Renaming -/

/-- The rule with other symbols. -/
def Rule.rename (φ : String → String) (r : Rule) : Rule where
  lhs := φ r.lhs
  rhs := r.rhs.map φ
  lexical := r.lexical
  length_of_lexical h := by
    rw [List.length_map]
    exact r.length_of_lexical h
  weight := r.weight

@[simp]
theorem Rule.lhs_rename (φ : String → String) (r : Rule) : (r.rename φ).lhs = φ r.lhs :=
  rfl

/-- Only the symbols in a rule matter for its renaming. -/
theorem Rule.rename_congr {φ ψ : String → String} {r : Rule} (hlhs : φ r.lhs = ψ r.lhs)
    (hrhs : ∀ s ∈ r.rhs, φ s = ψ s) : r.rename φ = r.rename ψ := by
  have hmap : r.rhs.map φ = r.rhs.map ψ := List.map_congr_left hrhs
  simp only [rename, hlhs, hmap]

/-- A rule whose symbols keep their names stays as it is. -/
theorem Rule.rename_eq_self {φ : String → String} {r : Rule} (hlhs : φ r.lhs = r.lhs)
    (hrhs : ∀ s ∈ r.rhs, φ s = s) : r.rename φ = r := by
  have hmap : r.rhs.map φ = r.rhs := by
    rw [List.map_congr_left hrhs, List.map_id']
  simp only [rename, hlhs, hmap]

/-! ## Repeated rules -/

/-- Deletes each rule for a new symbol that stood in the list before; `seen` are the rules before.
-/
def dropRepeated (isNew : String → Prop) [DecidablePred isNew] (seen : List Rule) :
    List Rule → List Rule
  | [] => []
  | r :: rest =>
    if isNew r.lhs ∧ r ∈ seen then dropRepeated isNew (seen ++ [r]) rest
    else r :: dropRepeated isNew (seen ++ [r]) rest

section DropRepeated

variable {isNew : String → Prop} [DecidablePred isNew]

theorem dropRepeated_append (seen xs ys : List Rule) :
    dropRepeated isNew seen (xs ++ ys) =
      dropRepeated isNew seen xs ++ dropRepeated isNew (seen ++ xs) ys := by
  induction xs generalizing seen with
  | nil => simp [dropRepeated]
  | cons x xs ih =>
    rw [List.cons_append, dropRepeated, dropRepeated, ih]
    split
    · simp
    · simp

/-- Nothing is added. -/
theorem mem_of_mem_dropRepeated {r : Rule} {seen xs : List Rule}
    (h : r ∈ dropRepeated isNew seen xs) : r ∈ xs := by
  induction xs generalizing seen with
  | nil => cases h
  | cons x xs ih =>
    rw [dropRepeated] at h
    split at h
    · exact List.mem_cons_of_mem x (ih h)
    · rcases List.mem_cons.1 h with rfl | h
      · exact List.mem_cons_self
      · exact List.mem_cons_of_mem x (ih h)

/-- A repeated rule for a new symbol is deleted at the end of a list. -/
theorem dropRepeated_concat_of_mem {r : Rule} {xs : List Rule} (hnew : isNew r.lhs)
    (hmem : r ∈ xs) : dropRepeated isNew [] (xs ++ [r]) = dropRepeated isNew [] xs := by
  rw [dropRepeated_append]
  simp [dropRepeated, hnew, hmem]

/-- Any other rule stays at the end of a list. -/
theorem dropRepeated_concat {r : Rule} {xs : List Rule} (h : isNew r.lhs → r ∉ xs) :
    dropRepeated isNew [] (xs ++ [r]) = dropRepeated isNew [] xs ++ [r] := by
  rw [dropRepeated_append]
  congr 1
  have hkeep : ¬(isNew r.lhs ∧ r ∈ [] ++ xs) := fun hboth => h hboth.1 hboth.2
  rw [dropRepeated, if_neg hkeep]
  rfl

/-- Only the left-hand sides in the list need to be told apart. -/
theorem dropRepeated_congr {isNew' : String → Prop} [DecidablePred isNew'] {seen xs : List Rule}
    (h : ∀ r ∈ xs, isNew r.lhs ↔ isNew' r.lhs) :
    dropRepeated isNew seen xs = dropRepeated isNew' seen xs := by
  induction xs generalizing seen with
  | nil => rfl
  | cons x xs ih =>
    have hx : isNew x.lhs ↔ isNew' x.lhs := h x (by simp)
    have hrest : ∀ r ∈ xs, isNew r.lhs ↔ isNew' r.lhs := fun r hr => h r (by simp [hr])
    simp only [dropRepeated, hx, ih hrest]

/-- No rule for another symbol is deleted. -/
theorem filter_dropRepeated (isNew : String → Prop) [DecidablePred isNew] (seen xs : List Rule) :
    (dropRepeated isNew seen xs).filter (fun r => ¬isNew r.lhs) =
      xs.filter fun r => ¬isNew r.lhs := by
  induction xs generalizing seen with
  | nil => rfl
  | cons x xs ih =>
    rw [dropRepeated]
    split
    · rename_i hdrop
      rw [ih, List.filter_cons_of_neg (by simp [hdrop.1])]
    · rw [List.filter_cons, List.filter_cons, ih]

end DropRepeated

namespace Pass

theorem rename_defining (φ : String → String) (X left right : String) :
    (defining X left right).rename φ = defining (φ X) (φ left) (φ right) :=
  rfl

theorem rename_closing {φ : String → String} {r : Rule} (h : φ r.lhs = r.lhs)
    (left last : String) : (closing r left last).rename φ = closing r (φ left) (φ last) := by
  simp [Rule.rename, closing, Rule.ofProduction, Production.phrasal, Production.ofBody,
    Body.phrasal, h]

/-! ## Passes side by side -/

/-- The invariant of a naive pass and a shared pass over the same grammar, when `φ` names the
nonterminals of the naive pass as the shared pass does. -/
structure Shares (symbols : List String) (p : Pass) (out : List Rule) (q : Pass)
    (shared : List Rule) (φ : String → String) : Prop where
  naive_records : Records symbols p out
  shared_records : Records symbols q shared
  naive_strategy : p.strategy = .naive
  shared_strategy : q.strategy = .shared
  rename_of_mem_symbols : ∀ s ∈ symbols, φ s = s
  mem_synthetic_iff : ∀ Y, Y ∈ q.synthetic ↔ ∃ X ∈ p.synthetic, φ X = Y
  dropRepeated_eq : dropRepeated (fun s => s ∉ symbols) [] (out.map (Rule.rename φ)) = shared

/-- Before the first rule the two passes agree. -/
theorem shares_start (stem : String) (symbols : List String) :
    Shares symbols (start .naive stem symbols) [] (start .shared stem symbols) [] id where
  naive_records := records_start .naive stem symbols
  shared_records := records_start .shared stem symbols
  naive_strategy := rfl
  shared_strategy := rfl
  rename_of_mem_symbols _ _ := rfl
  mem_synthetic_iff Y := by simp [start]
  dropRepeated_eq := rfl

variable {symbols : List String} {p p' q q' : Pass} {out shared : List Rule}
  {φ : String → String}

namespace Shares

/-- What a symbol of the naive pass is renamed to is known to the shared pass. -/
theorem knows_rename (h : Shares symbols p out q shared φ) {s : String}
    (hs : p.Knows symbols s) : q.Knows symbols (φ s) := by
  rcases hs with hs | hs
  · rw [h.rename_of_mem_symbols s hs]
    exact Or.inl hs
  · exact Or.inr ((h.mem_synthetic_iff (φ s)).2 ⟨s, hs, rfl⟩)

/-- A renamed rule is for a new nonterminal if it is not for a symbol of the grammar. -/
theorem lhs_mem_synthetic_iff (h : Shares symbols p out q shared φ) {r : Rule}
    (hr : r ∈ out.map (Rule.rename φ)) : r.lhs ∈ q.synthetic ↔ r.lhs ∉ symbols := by
  rcases List.mem_map.1 hr with ⟨k, hk, rfl⟩
  constructor
  · exact h.shared_records.regular.not_mem_symbols (φ k.lhs)
  · exact (h.knows_rename (h.naive_records.lhs_known hk)).resolve_left

/-- The rules written so far are renamed as before when the names of known symbols stay. -/
theorem map_rename_congr (h : Shares symbols p out q shared φ) {φ' : String → String}
    (hφ : ∀ s, p.Knows symbols s → φ' s = φ s) :
    out.map (Rule.rename φ') = out.map (Rule.rename φ) := by
  apply List.map_congr_left
  intro r hr
  apply Rule.rename_congr
  · exact hφ r.lhs (h.naive_records.lhs_known hr)
  · intro s hs
    exact hφ s (h.naive_records.rhs_known r hr s hs)

/-- A rule for a symbol of the grammar in both passes keeps the invariant. -/
theorem keep (h : Shares symbols p out q shared φ) {k : Rule} (hlhs : k.lhs ∈ symbols)
    (hrhs : ∀ s ∈ k.rhs, p.Knows symbols s) (hlength : k.rhs.length ≤ maxRhs) :
    Shares symbols p (out ++ [k]) q (shared ++ [k.rename φ]) φ where
  naive_records := h.naive_records.keep hlhs hrhs hlength
  shared_records := by
    refine h.shared_records.keep ?_ ?_ ?_
    · rw [Rule.lhs_rename, h.rename_of_mem_symbols k.lhs hlhs]
      exact hlhs
    · intro s hs
      rcases List.mem_map.1 hs with ⟨t, ht, rfl⟩
      exact h.knows_rename (hrhs t ht)
    · simpa [Rule.rename] using hlength
  naive_strategy := h.naive_strategy
  shared_strategy := h.shared_strategy
  rename_of_mem_symbols := h.rename_of_mem_symbols
  mem_synthetic_iff := h.mem_synthetic_iff
  dropRepeated_eq := by
    have hold : (k.rename φ).lhs ∈ symbols := by
      rw [Rule.lhs_rename, h.rename_of_mem_symbols k.lhs hlhs]
      exact hlhs
    rw [List.map_append, List.map_singleton, dropRepeated_concat, h.dropRepeated_eq]
    exact fun hnew => absurd hold hnew

/-! ## Folds -/

section Define

variable {X Y : String}

/-- With a new nonterminal of the naive pass its rule is renamed, and the rules before as before. -/
theorem map_rename_define (h : Shares symbols p out q shared φ) {left right : String}
    (hadds : p.Adds symbols X p') (hleft : p.Knows symbols left) (hright : right ∈ symbols) :
    (out ++ [defining X left right]).map (Rule.rename (Function.update φ X Y)) =
      out.map (Rule.rename φ) ++ [defining Y (φ left) right] := by
  have hknown : ∀ s, p.Knows symbols s → Function.update φ X Y s = φ s := by
    intro s hs
    exact Function.update_of_ne (hadds.ne_of_knows hs) Y φ
  rw [List.map_append, h.map_rename_congr hknown, List.map_singleton, rename_defining,
    Function.update_self, hknown left hleft, hknown right (Or.inl hright),
    h.rename_of_mem_symbols right hright]

/-- The names given to the nonterminals of the naive pass when it has made a new one. -/
theorem exists_synthetic_update_iff (h : Shares symbols p out q shared φ)
    (hadds : p.Adds symbols X p') (Z : String) :
    (∃ X' ∈ p'.synthetic, Function.update φ X Y X' = Z) ↔ Z ∈ q.synthetic ∨ Z = Y := by
  have hold : ∀ X' ∈ p.synthetic, Function.update φ X Y X' = φ X' := by
    intro X' hX'
    exact Function.update_of_ne (hadds.ne_of_knows (Or.inr hX')) Y φ
  constructor
  · rintro ⟨X', hX', rfl⟩
    rcases (hadds.mem_synthetic_iff X').1 hX' with hX' | rfl
    · rw [hold X' hX']
      exact Or.inl ((h.mem_synthetic_iff (φ X')).2 ⟨X', hX', rfl⟩)
    · exact Or.inr (Function.update_self X' Y φ)
  · rintro (hZ | rfl)
    · rcases (h.mem_synthetic_iff Z).1 hZ with ⟨X', hX', rfl⟩
      exact ⟨X', (hadds.mem_synthetic_iff X').2 (Or.inl hX'), hold X' hX'⟩
    · exact ⟨X, (hadds.mem_synthetic_iff X).2 (Or.inr rfl), Function.update_self X Z φ⟩

/-- A new nonterminal of the naive pass keeps the invariant when the shared pass has its rule up to
names. -/
theorem define (h : Shares symbols p out q shared φ) {left right : String} {shared' : List Rule}
    (hadds : p.Adds symbols X p') (hleft : p.Knows symbols left) (hright : right ∈ symbols)
    (hrecords : Records symbols p' (out ++ [defining X left right]))
    (hrecords' : Records symbols q' shared') (hstrategy : q'.strategy = q.strategy)
    (hsynthetic : ∀ Z, Z ∈ q'.synthetic ↔ Z ∈ q.synthetic ∨ Z = Y)
    (hdrop : dropRepeated (fun s => s ∉ symbols) []
      (out.map (Rule.rename φ) ++ [defining Y (φ left) right]) = shared') :
    Shares symbols p' (out ++ [defining X left right]) q' shared' (Function.update φ X Y) where
  naive_records := hrecords
  shared_records := hrecords'
  naive_strategy := by rw [hadds.strategy_eq, h.naive_strategy]
  shared_strategy := by rw [hstrategy, h.shared_strategy]
  rename_of_mem_symbols s hs := by
    rw [Function.update_of_ne (hadds.ne_of_knows (Or.inl hs)), h.rename_of_mem_symbols s hs]
  mem_synthetic_iff Z := by rw [hsynthetic, h.exists_synthetic_update_iff hadds]
  dropRepeated_eq := by rw [h.map_rename_define hadds hleft hright, hdrop]

end Define

/-- A fold in both passes keeps the invariant, and the nonterminal of the naive fold is renamed to
that of the shared one. -/
theorem foldStep (h : Shares symbols p out q shared φ) {left right X Y : String}
    {rules rules' : List Rule} (hleft : p.Knows symbols left) (hright : right ∈ symbols)
    (step : FoldStep symbols left right p p' X rules)
    (step' : FoldStep symbols (φ left) right q q' Y rules') :
    ∃ ψ, Shares symbols p' (out ++ rules) q' (shared ++ rules') ψ ∧ X ∈ p'.synthetic ∧
      ψ X = Y := by
  rcases h.naive_records.foldStep hleft hright step with ⟨hrecords, -, hX, -⟩
  rcases h.shared_records.foldStep (h.knows_rename hleft) hright step' with
    ⟨hrecords', -, hY, hrule⟩
  cases step with
  | found hstrategy _ =>
    rw [h.naive_strategy] at hstrategy
    cases hstrategy
  | made hadds _ _ _ =>
    refine ⟨Function.update φ X Y, ?_, hX, Function.update_self X Y φ⟩
    apply h.define hadds hleft hright hrecords hrecords' step'.strategy_eq
    · intro Z
      cases step' with
      | found _ _ =>
        constructor
        · exact Or.inl
        · rintro (hZ | rfl)
          · exact hZ
          · exact hY
      | made hadds' _ _ _ => exact hadds'.mem_synthetic_iff Z
    · cases step' with
      | found _ _ =>
        rw [List.append_nil] at hrule ⊢
        rw [dropRepeated_concat_of_mem, h.dropRepeated_eq]
        · exact hrecords'.regular.not_mem_symbols Y hY
        · rw [← h.dropRepeated_eq] at hrule
          exact mem_of_mem_dropRepeated hrule
      | made hadds' _ _ _ =>
        rw [dropRepeated_concat, h.dropRepeated_eq]
        intro _ hmem
        rcases List.mem_map.1 hmem with ⟨r, hr, heq⟩
        have hlhs : φ r.lhs = Y := congrArg (fun r : Rule => r.lhs) heq
        exact hadds'.ne_of_knows (h.knows_rename (h.naive_records.lhs_known hr)) hlhs

/-- Folds in a row in both passes keep the invariant, and the last nonterminal of the naive pass
is renamed to that of the shared one. -/
theorem exists_foldAll (h : Shares symbols p out q shared φ) {left : String}
    {rights : List String} (hleft : p.Knows symbols left) (hrights : ∀ s ∈ rights, s ∈ symbols) :
    ∃ p' last rules q' rules' ψ, p.foldAll left rights = (p', .ok (last, rules)) ∧
      q.foldAll (φ left) rights = (q', .ok (ψ last, rules')) ∧
      Shares symbols p' (out ++ rules) q' (shared ++ rules') ψ ∧ p'.Knows symbols last := by
  induction rights generalizing p q out shared φ left with
  | nil => exact ⟨p, left, [], q, [], φ, rfl, rfl, by simpa using h, hleft⟩
  | cons right rest ih =>
    have hright : right ∈ symbols := hrights right (by simp)
    have hrest : ∀ s ∈ rest, s ∈ symbols := fun s hs => hrights s (by simp [hs])
    rcases h.naive_records.regular.exists_foldStep left right with ⟨p₁, X, rules, hfold, step⟩
    rcases h.shared_records.regular.exists_foldStep (φ left) right with
      ⟨q₁, Y, rules', hfold', step'⟩
    rcases h.foldStep hleft hright step step' with ⟨φ₁, h₁, hX, rfl⟩
    rcases ih h₁ (Or.inr hX) hrest with
      ⟨p₂, last, later, q₂, later', φ₂, hfoldAll, hfoldAll', h₂, hlast⟩
    refine ⟨p₂, last, rules ++ later, q₂, rules' ++ later', φ₂, ?_, ?_, ?_, hlast⟩
    · simp [foldAll, hfold, hfoldAll]
    · simp [foldAll, hfold', hfoldAll']
    · simpa using h₂

/-! ## Rules -/

/-- Splitting a rule of the grammar in both passes keeps the invariant. -/
theorem exists_binarizeRule (h : Shares symbols p out q shared φ) {r : Rule}
    (hlhs : r.lhs ∈ symbols) (hrhs : ∀ s ∈ r.rhs, s ∈ symbols) (hlong : maxRhs < r.rhs.length) :
    ∃ p' rules q' rules' ψ, p.binarizeRule r = (p', .ok rules) ∧
      q.binarizeRule r = (q', .ok rules') ∧
      Shares symbols p' (out ++ rules) q' (shared ++ rules') ψ := by
  rcases exists_rhs_eq_of_maxRhs_lt hlong with ⟨first, middle, last, hsplit⟩
  have hfirst : first ∈ symbols := hrhs first (by simp [hsplit])
  have hmiddle : ∀ s ∈ middle, s ∈ symbols := fun s hs => hrhs s (by simp [hsplit, hs])
  have hlast : last ∈ symbols := hrhs last (by simp [hsplit])
  rcases h.exists_foldAll (Or.inl hfirst) hmiddle with
    ⟨p', left, rules, q', rules', ψ, hfold, hfold', h', hleft⟩
  rw [h.rename_of_mem_symbols first hfirst] at hfold'
  have hclosing : (closing r left last).lhs ∈ symbols := hlhs
  have hrename : (closing r left last).rename ψ = closing r (ψ left) last := by
    rw [rename_closing (h'.rename_of_mem_symbols r.lhs hlhs),
      h'.rename_of_mem_symbols last hlast]
  have hkeep := h'.keep hclosing (knows_of_mem_rhs_closing hleft hlast) (by simp [maxRhs])
  rw [hrename] at hkeep
  refine ⟨p', rules ++ [closing r left last], q', rules' ++ [closing r (ψ left) last], ψ, ?_⟩
  refine ⟨?_, ?_, ?_⟩
  · exact binarizeRule_of_foldAll hsplit hfold
  · exact binarizeRule_of_foldAll hsplit hfold'
  · simpa using hkeep

/-- Both passes succeed over the same rules of the grammar and keep the invariant. -/
theorem exists_binarizeRules (h : Shares symbols p out q shared φ) {rs : List Rule}
    (hlhs : ∀ r ∈ rs, r.lhs ∈ symbols) (hrhs : ∀ r ∈ rs, ∀ s ∈ r.rhs, s ∈ symbols) :
    ∃ p' rules q' rules' ψ, p.binarizeRules rs = (p', .ok rules) ∧
      q.binarizeRules rs = (q', .ok rules') ∧
      Shares symbols p' (out ++ rules) q' (shared ++ rules') ψ := by
  induction rs generalizing p q out shared φ with
  | nil => exact ⟨p, [], q, [], φ, rfl, rfl, by simpa using h⟩
  | cons r rest ih =>
    have hr : r.lhs ∈ symbols := hlhs r (by simp)
    have hs : ∀ s ∈ r.rhs, s ∈ symbols := hrhs r (by simp)
    have hlhs' : ∀ r' ∈ rest, r'.lhs ∈ symbols := fun r' hr' => hlhs r' (by simp [hr'])
    have hrhs' : ∀ r' ∈ rest, ∀ s ∈ r'.rhs, s ∈ symbols := fun r' hr' => hrhs r' (by simp [hr'])
    by_cases hshort : r.rhs.length ≤ maxRhs
    · have hsame : r.rename φ = r := by
        apply Rule.rename_eq_self (h.rename_of_mem_symbols r.lhs hr)
        intro s hmem
        exact h.rename_of_mem_symbols s (hs s hmem)
      have hkeep := h.keep hr (fun s hmem => Or.inl (hs s hmem)) hshort
      rw [hsame] at hkeep
      rcases ih hkeep hlhs' hrhs' with ⟨p', later, q', later', ψ, hrun, hrun', h'⟩
      refine ⟨p', r :: later, q', r :: later', ψ, ?_, ?_, by simpa using h'⟩
      · simp [binarizeRules, hshort, hrun]
      · simp [binarizeRules, hshort, hrun']
    · rcases h.exists_binarizeRule hr hs (by omega) with
        ⟨p₁, rules, q₁, rules', φ₁, hrule, hrule', h₁⟩
      rcases ih h₁ hlhs' hrhs' with ⟨p', later, q', later', ψ, hrun, hrun', h'⟩
      refine ⟨p', rules ++ later, q', rules' ++ later', ψ, ?_, ?_, by simpa using h'⟩
      · simp [binarizeRules, hshort, hrule, hrun]
      · simp [binarizeRules, hshort, hrule', hrun']

end Shares
end Pass

/-- The rules of the shared strategy are those of the naive one, with other names for the new
nonterminals and without the rules of new nonterminals that stood in the list before.  No rule for
a symbol of the grammar is left out. -/
theorem Grammar.binarize_shares (g : Grammar) (stem : String) :
    ∃ φ naive shared, (g.binarize .naive stem).result = .ok naive ∧
      (g.binarize .shared stem).result = .ok shared ∧ (∀ s ∈ g.symbols, φ s = s) ∧
      (∀ Y, Y ∈ (g.binarize .shared stem).pass.synthetic ↔
        ∃ X ∈ (g.binarize .naive stem).pass.synthetic, φ X = Y) ∧
      dropRepeated (fun s => s ∈ (g.binarize .shared stem).pass.synthetic) []
        (naive.map (Rule.rename φ)) = shared ∧
      (naive.map (Rule.rename φ)).filter (fun r => r.lhs ∈ g.symbols) =
        shared.filter fun r => r.lhs ∈ g.symbols := by
  rcases (Pass.shares_start stem g.symbols).exists_binarizeRules
      (fun _ hr => lhs_mem_symbols hr) fun _ hr _ hs => rhs_mem_symbols hr hs with
    ⟨p, naive, q, shared, φ, hnaive, hshared, h⟩
  rcases binarize_of_binarizeRules hnaive with ⟨hnaivePass, hnaiveResult⟩
  rcases binarize_of_binarizeRules hshared with ⟨hsharedPass, hsharedResult⟩
  simp only [List.nil_append] at h
  rw [hnaivePass, hsharedPass]
  refine ⟨φ, naive, shared, hnaiveResult, hsharedResult, h.rename_of_mem_symbols,
    h.mem_synthetic_iff, ?_, ?_⟩
  · rw [← h.dropRepeated_eq]
    apply dropRepeated_congr
    intro r hr
    exact h.lhs_mem_synthetic_iff hr
  · have hfilter := filter_dropRepeated (fun s => s ∉ g.symbols) [] (naive.map (Rule.rename φ))
    rw [h.dropRepeated_eq] at hfilter
    simpa using hfilter.symm

end TreebankGrammar
