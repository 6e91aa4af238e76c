/-!
# Numbered symbols

A supply of fresh symbols: a stem followed by one, two, three and so on, without the symbols
that are reserved.

Main definitions:

- `Supply`: a stem, the reserved symbols and the number of the last symbol.
- `Supply.next`: the next symbol.
- `Supply.take`: the next symbols.
-/

namespace TreebankGrammar

/-- A supply of fresh symbols: the number is that of the last symbol given. -/
structure Supply where
  stem : String := "X"
  reserved : List String := []
  counter : Nat := 0

namespace Supply

/-- The symbol with a stem and a number. -/
def numbered (stem : String) (n : Nat) : String :=
  stem ++ toString n

/-- The first number above the given one whose symbol is not reserved.  A reserved symbol is left
out of the search once it has been passed, because no other number gives it. -/
def nextFree (stem : String) (reserved : List String) (n : Nat) : Nat :=
  if numbered stem (n + 1) ∈ reserved then
    nextFree stem (reserved.erase (numbered stem (n + 1))) (n + 1)
  else n + 1
termination_by reserved.length
decreasing_by
  rename_i h
  have := List.length_pos_of_mem h
  rw [List.length_erase_of_mem h]
  omega

/-- The next symbol, and the supply after it. -/
def next (supply : Supply) : String × Supply :=
  let n := nextFree supply.stem supply.reserved supply.counter
  (numbered supply.stem n, { supply with counter := n })

/-- The next symbols, and the supply after them. -/
def take (supply : Supply) : Nat → List String × Supply
  | 0 => ([], supply)
  | count + 1 =>
    let (symbol, rest) := supply.next
    let (symbols, last) := rest.take count
    (symbol :: symbols, last)

@[simp]
theorem stem_next (supply : Supply) : supply.next.2.stem = supply.stem :=
  rfl

@[simp]
theorem reserved_next (supply : Supply) : supply.next.2.reserved = supply.reserved :=
  rfl

/-- As many symbols are taken as are asked for. -/
@[simp]
theorem length_take (supply : Supply) (count : Nat) : (supply.take count).1.length = count := by
  induction count generalizing supply with
  | zero => rfl
  | succ count ih => simp [take, ih]

end Supply
end TreebankGrammar
