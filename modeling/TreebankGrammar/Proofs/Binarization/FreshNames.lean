import TreebankGrammar.Binarization.Supply

/-!
# Fresh names

The search for the name of a new nonterminal ends at the first number whose name is free: the
names of different numbers differ, so that a reserved name that has been passed never comes back.

Main results:

- Theorem `numbered_injective`: different numbers give different names.
- Theorems `nextFree_not_mem` and `numbered_mem_of_lt_nextFree`: the search stops at a name that is
  free, and every name that it passes is reserved.
-/

namespace TreebankGrammar
namespace Supply

/-- Different numbers give different names. -/
theorem numbered_injective (stem : String) : Function.Injective (numbered stem) := by
  intro m n h
  have hrepr : Nat.repr m = Nat.repr n := (String.append_right_inj stem).1 h
  have hdigits : Nat.toDigits 10 m = Nat.toDigits 10 n := by
    simpa only [Nat.toList_repr] using congrArg String.toList hrepr
  have hread := congrArg (fun digits => Nat.ofDigitChars 10 digits 0) hdigits
  simpa using hread

/-- The search moves on. -/
theorem lt_nextFree (stem : String) (reserved : List String) (n : Nat) :
    n < nextFree stem reserved n := by
  fun_induction nextFree stem reserved n with
  | case1 reserved n h ih => omega
  | case2 reserved n h => omega

/-- A name that the search has passed is no obstacle for the rest of it. -/
theorem mem_erase_numbered_iff {stem : String} {reserved : List String} {m n : Nat} (h : n < m) :
    numbered stem m ∈ reserved.erase (numbered stem n) ↔ numbered stem m ∈ reserved := by
  have hne : numbered stem m ≠ numbered stem n := by
    intro heq
    have := numbered_injective stem heq
    omega
  exact List.mem_erase_of_ne hne

/-- The search stops at a free name. -/
theorem nextFree_not_mem (stem : String) (reserved : List String) (n : Nat) :
    numbered stem (nextFree stem reserved n) ∉ reserved := by
  fun_induction nextFree stem reserved n with
  | case1 reserved n h ih =>
    have hlt := lt_nextFree stem (reserved.erase (numbered stem (n + 1))) (n + 1)
    rwa [mem_erase_numbered_iff hlt] at ih
  | case2 reserved n h => exact h

/-- The search passes reserved names only. -/
theorem numbered_mem_of_lt_nextFree (stem : String) (reserved : List String) {m n : Nat}
    (hn : n < m) (hm : m < nextFree stem reserved n) : numbered stem m ∈ reserved := by
  fun_induction nextFree stem reserved n with
  | case1 reserved n h ih =>
    by_cases heq : m = n + 1
    · rw [heq]
      exact h
    · have hlt : n + 1 < m := by omega
      exact (mem_erase_numbered_iff hlt).1 (ih hlt hm)
  | case2 reserved n h => omega

end Supply
end TreebankGrammar
