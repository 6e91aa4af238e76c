import TreebankGrammar.Proofs.Binarization.Histories
import Mathlib.Data.Finset.Card
import Mathlib.Order.Interval.Finset.Nat

/-!
# Free numbers

The search for a name has no bound: it goes through the numbers until it finds one whose name is not
reserved.  It ends, because the names of different numbers differ and only finitely many names are
reserved.  The names that a supply gives are those of the free numbers in their order, and none of them
is in use when a pass asks for it.

Main definitions:

- `Supply.Search`: the search as an unbounded loop.
- `Supply.freeNumber`: the free numbers in their order.

Main results:

- Theorem `Supply.search_iff`: the search ends, at the number that is given.
- Theorem `Supply.exists_freeNumber_iff`: which numbers are free.
- Theorem `Supply.take_freeNumber`: the names that are given.
- Theorem `Supply.freeNumber_le`: how far the search goes.
- Theorem `Supply.names_in_order`: these facts, and that no operation of a pass meets a name in use.
-/

namespace TreebankGrammar

/-! ## The search -/

namespace Supply

/-- The search for a name, from the number of the last one: the next number is taken if its name is
free, and passed if its name is reserved. -/
inductive Search (stem : String) (reserved : List String) : Nat → Nat → Prop
  | found {n : Nat} (free : numbered stem (n + 1) ∉ reserved) : Search stem reserved n (n + 1)
  | passed {n m : Nat} (taken : numbered stem (n + 1) ∈ reserved)
      (later : Search stem reserved (n + 1) m) : Search stem reserved n m

/-- The search looks at the names of later numbers only. -/
theorem Search.congr {stem : String} {reserved reserved' : List String} {n m : Nat}
    (h : Search stem reserved n m)
    (hsame : ∀ k, n < k → (numbered stem k ∈ reserved ↔ numbered stem k ∈ reserved')) :
    Search stem reserved' n m := by
  induction h with
  | @found n free =>
    exact .found fun hmem => free ((hsame (n + 1) (Nat.lt_succ_self n)).2 hmem)
  | @passed n m taken _ ih =>
    exact .passed ((hsame (n + 1) (Nat.lt_succ_self n)).1 taken)
      (ih fun k hk => hsame k (Nat.lt_of_succ_lt hk))

/-- The search ends at one number. -/
theorem Search.unique {stem : String} {reserved : List String} {n m m' : Nat}
    (h : Search stem reserved n m) (h' : Search stem reserved n m') : m = m' := by
  induction h with
  | found free =>
    cases h' with
    | found _ => rfl
    | passed taken _ => exact absurd taken free
  | passed taken _ ih =>
    cases h' with
    | found free => exact absurd taken free
    | passed _ later => exact ih later

/-- The search ends. -/
theorem search_nextFree (stem : String) (reserved : List String) (n : Nat) :
    Search stem reserved n (nextFree stem reserved n) := by
  fun_induction nextFree stem reserved n with
  | case1 reserved n h ih =>
    exact .passed h (ih.congr fun k hk => mem_erase_numbered_iff hk)
  | case2 reserved n h => exact .found h

/-- The search ends at the number that is given. -/
theorem search_iff {stem : String} {reserved : List String} {n m : Nat} :
    Search stem reserved n m ↔ nextFree stem reserved n = m := by
  constructor
  · exact fun h => (search_nextFree stem reserved n).unique h
  · rintro rfl
    exact search_nextFree stem reserved n

/-! ## Free numbers in order -/

section

variable (stem : String) (reserved : List String)

/-- The number of the last name after so many names have been given. -/
def freeNumber : Nat → Nat
  | 0 => 0
  | k + 1 => nextFree stem reserved (freeNumber k)

theorem freeNumber_lt_succ (k : Nat) :
    freeNumber stem reserved k < freeNumber stem reserved (k + 1) :=
  lt_nextFree stem reserved _

theorem strictMono_freeNumber : StrictMono (freeNumber stem reserved) :=
  strictMono_nat_of_lt_succ (freeNumber_lt_succ stem reserved)

/-- The numbers of the names that are given are the positive ones whose names are free. -/
theorem exists_freeNumber_iff (m : Nat) :
    (∃ k, 0 < k ∧ freeNumber stem reserved k = m) ↔ 0 < m ∧ numbered stem m ∉ reserved := by
  constructor
  · rintro ⟨k, hk, rfl⟩
    obtain ⟨k, rfl⟩ := Nat.exists_eq_succ_of_ne_zero (Nat.ne_of_gt hk)
    exact ⟨Nat.zero_lt_of_lt (freeNumber_lt_succ stem reserved k), nextFree_not_mem _ _ _⟩
  · rintro ⟨hm, hfree⟩
    by_contra hmissed
    -- A number that is never given stays ahead of the search, which cannot be.
    have hahead : ∀ k, freeNumber stem reserved k < m := by
      intro k
      induction k with
      | zero => exact hm
      | succ k ih =>
        have hnext : freeNumber stem reserved (k + 1) ≤ m := Nat.le_of_not_lt fun hlt =>
          hfree (numbered_mem_of_lt_nextFree stem reserved ih hlt)
        have hne : freeNumber stem reserved (k + 1) ≠ m := fun heq =>
          hmissed ⟨k + 1, Nat.succ_pos k, heq⟩
        omega
    have hlarge := (strictMono_freeNumber stem reserved).le_apply (x := m)
    exact absurd (hahead m) (Nat.not_lt.2 hlarge)

/-- The names that a supply gives, and its counter after them. -/
theorem take_freeNumber (j k : Nat) :
    take { stem, reserved, counter := freeNumber stem reserved j } k =
      ((List.range k).map fun i => numbered stem (freeNumber stem reserved (j + i + 1)),
        { stem, reserved, counter := freeNumber stem reserved (j + k) }) := by
  induction k generalizing j with
  | zero => rfl
  | succ k ih =>
    have hnext : next { stem, reserved, counter := freeNumber stem reserved j } =
        (numbered stem (freeNumber stem reserved (j + 1)),
          { stem, reserved, counter := freeNumber stem reserved (j + 1) }) := rfl
    rw [take, hnext]
    dsimp only
    rw [ih (j + 1), List.range_succ_eq_map, List.map_cons, List.map_map]
    simp [Function.comp_def, Nat.add_assoc, Nat.add_comm 1]

/-- Besides the numbers given, the search has passed reserved names only. -/
theorem freeNumber_le (k : Nat) :
    freeNumber stem reserved k ≤ k + reserved.toFinset.card := by
  let given := (Finset.Icc 1 k).image (freeNumber stem reserved)
  let passed := (Finset.Icc 1 (freeNumber stem reserved k)).filter
    fun m => numbered stem m ∈ reserved
  have hsplit : Finset.Icc 1 (freeNumber stem reserved k) ⊆ given ∪ passed := by
    intro m hm
    obtain ⟨hpos, hle⟩ := Finset.mem_Icc.1 hm
    rw [Finset.mem_union]
    by_cases hmem : numbered stem m ∈ reserved
    · exact .inr (Finset.mem_filter.2 ⟨hm, hmem⟩)
    · obtain ⟨i, hi, rfl⟩ := (exists_freeNumber_iff stem reserved m).2 ⟨hpos, hmem⟩
      have hik : i ≤ k := (strictMono_freeNumber stem reserved).le_iff_le.1 hle
      exact .inl (Finset.mem_image_of_mem _ (Finset.mem_Icc.2 ⟨hi, hik⟩))
  have hgiven : given.card ≤ k := by
    refine Finset.card_image_le.trans ?_
    rw [Nat.card_Icc, Nat.add_sub_cancel]
  have hpassed : passed.card ≤ reserved.toFinset.card := by
    refine Finset.card_le_card_of_injOn (numbered stem) ?_ (numbered_injective stem).injOn
    intro m hm
    exact List.mem_toFinset.2 (Finset.mem_filter.1 hm).2
  have hcard := (Finset.card_le_card hsplit).trans (Finset.card_union_le given passed)
  rw [Nat.card_Icc, Nat.add_sub_cancel] at hcard
  omega

end

end Supply

/-! ## Operations of a pass -/

namespace Binarizer

/-- A regular pass stays regular through all operations. -/
theorem exists_regular_after (g : Grammar) {symbols : List String} {b : Binarizer} {p : Pass}
    (hstate : b.state = .started p) (hp : p.Regular symbols) (ops : List Operation) :
    ∃ p', (b.after g (ops.map .operation)).state = .started p' ∧ p'.Regular symbols := by
  induction ops generalizing b p with
  | nil => exact ⟨p, hstate, hp⟩
  | cons op ops ih =>
    obtain ⟨p₁, hdone, hmoves⟩ := (Continues.operate hstate op).exists_moves
    have hstate₁ : (b.operate op).1.state = .started p₁ := by rw [hdone]
    exact ih hstate₁ (Pass.keeps_of_moves Pass.Regular.move hmoves hp)

/-- In a regular pass an operation fails only if a rule has nothing on the right. -/
theorem eq_noSymbols_of_operate {symbols : List String} {b : Binarizer} {p : Pass}
    (hstate : b.state = .started p) (hp : p.Regular symbols) {op : Operation} {e : Error}
    (h : (b.operate op).2 = .error e) : e = .noSymbols := by
  have hcontinues := Continues.operate hstate op
  generalize b.operate op = done at h hcontinues
  cases hcontinues with
  | finished _ => cases h
  | @broken q p' cause moves failure =>
    have hruns : p.Runs (p', (.error cause : Except SymbolInUse Unit)) := .broken moves failure
    obtain ⟨value, hok⟩ := hp.exists_ok_of_runs hruns
    cases hok
  | noSymbols =>
    cases h
    rfl

end Binarizer

/-- The search for a name always ends.  The names that a supply gives are the stem with those positive
numbers whose names are not reserved, in order, and the counter exceeds the number of names given by no
more than the number of reserved names.  So after the start of a pass over any grammar, no sequence
of operations meets a name in use: they fail only for rules with nothing on the right. -/
theorem Supply.names_in_order :
    (∀ supply : Supply, ∃ m, Search supply.stem supply.reserved supply.counter m ∧
      supply.next = (numbered supply.stem m, { supply with counter := m })) ∧
    (∀ (stem : String) (reserved : List String), ∃ number : Nat → Nat,
      number 0 = 0 ∧ StrictMono number ∧
        (∀ m, (∃ i, 0 < i ∧ number i = m) ↔ 0 < m ∧ numbered stem m ∉ reserved) ∧
        ∀ k, take { stem, reserved } k =
            ((List.range k).map fun i => numbered stem (number (i + 1)),
              { stem, reserved, counter := number k }) ∧
          number k ≤ k + reserved.toFinset.card) ∧
    ∀ (g : Grammar) (b : Binarizer) (earlier : List Binarizer.Operation)
      (op : Binarizer.Operation) (e : Binarizer.Error),
      ((b.after g (.start :: earlier.map .operation)).operate op).2 = .error e →
        e = .noSymbols := by
  refine ⟨fun supply => ⟨_, search_iff.2 rfl, rfl⟩, fun stem reserved => ?_, ?_⟩
  · refine ⟨freeNumber stem reserved, rfl, strictMono_freeNumber stem reserved,
      exists_freeNumber_iff stem reserved, fun k => ⟨?_, freeNumber_le stem reserved k⟩⟩
    have htake : take { stem, reserved } k = _ := take_freeNumber stem reserved 0 k
    simpa only [Nat.zero_add] using htake
  · intro g b earlier op e h
    obtain ⟨p, hstate, hp⟩ := Binarizer.exists_regular_after g (b := b.start g) rfl
      (Pass.regular_start b.strategy b.stem g.symbols) earlier
    exact Binarizer.eq_noSymbols_of_operate hstate hp h

end TreebankGrammar
