import Mathlib.Logic.Function.Basic
import TreebankGrammar.Grammar.Estimation

/-!
# Grammars in memory

The tables of a grammar can be written to directly.  Then a row may hold rules of other nonterminals than
its own, and one rule object, with its one weight, may stand in several rows.  A `Grammar` has no such
rules.  Here the tables are as they stand in memory, whatever has been written to them, and the
operations on them go rule by rule.  A grammar that is merged into itself is written to while it is
walked through, and the walk fails when a row has come in.

Main definitions:

- `Holding`: a rule in a row, by its count and its object.
- `Tables`: the tables of a grammar and the weights of its rule objects.
- `Tables.estimate`: sets the weights.
- `Tables.merge` and `Tables.mergeSelf`: add the counts of other tables and of the same ones.
-/

namespace TreebankGrammar

/-- A rule in a row: how often it was seen, and the object that keeps its weight. -/
structure Holding where
  count : Int
  object : Nat
deriving DecidableEq

/-- The tables of a grammar.  Each row may hold any rules, and any rules may be one object. -/
structure Tables where
  symbolCounts : Table String Int := .empty
  rows : Table String (Table Production Holding) := .empty
  weights : Nat → Weight := fun _ => .zero
  normalised : Bool := false

namespace Tables

/-! ## Counts -/

/-- The count of a nonterminal, zero if it was never seen. -/
def symbolCount (t : Tables) (symbol : String) : Int :=
  t.symbolCounts.getD symbol 0

/-- The row of a nonterminal. -/
def row (t : Tables) (symbol : String) : Table Production Holding :=
  t.rows.getD symbol .empty

/-- The sum of the counts in the row of a nonterminal. -/
def rowTotal (t : Tables) (symbol : String) : Int :=
  ((t.row symbol).values.map Holding.count).foldr (· + ·) 0

/-- The count of a rule in a row, zero if it does not stand there. -/
def heldCount (t : Tables) (symbol : String) (p : Production) : Int :=
  (((t.row symbol).get? p).map Holding.count).getD 0

/-- The first nonterminal whose count is not the sum of the counts in its row. -/
def inconsistency? (t : Tables) : Option Inconsistency :=
  (t.symbolCounts.keys ++ t.rows.keys).findSome? fun symbol =>
    if t.symbolCount symbol = t.rowTotal symbol then none
    else some (.sumMismatch symbol (t.symbolCount symbol) (t.rowTotal symbol))

/-- Checks that the count of each nonterminal is the sum of the counts in its row. -/
def checkCounts (t : Tables) : Except Grammar.Error Unit :=
  match t.inconsistency? with
  | some i => .error i.error
  | none => .ok ()

/-! ## Counting -/

/-- The objects of all rules, row by row. -/
def objects (t : Tables) : List Nat :=
  t.rows.values.flatMap fun row => row.values.map Holding.object

/-- An object that is not one of a rule yet. -/
def newObject (t : Tables) : Nat :=
  t.objects.foldr max 0 + 1

/-- What a row holds of a rule that is seen more often, or for the first time. -/
def holdMore (object : Nat) (count : Int) : Option Holding → Holding
  | some holding => { holding with count := holding.count + count }
  | none => ⟨count, object⟩

/-- Counts a production, in the row of its own left-hand side.  A rule that is new is a new object. -/
def add (t : Tables) (p : Production) (count : Int) : Tables :=
  { t with
    symbolCounts := t.symbolCounts.upsert p.lhs fun old => old.getD 0 + count
    rows := t.rows.upsert p.lhs fun row =>
      (row.getD .empty).upsert p (holdMore t.newObject count)
    weights := Function.update t.weights t.newObject .zero }

/-! ## Merging -/

/-- Why tables cannot be merged. -/
inductive MergeError where
  | refused (cause : Grammar.Error)
  /-- A row has come in while the rows were walked through. -/
  | changedSize
deriving DecidableEq

/-- The wording of the error. -/
def MergeError.message : MergeError → String
  | .refused cause => cause.message
  | .changedSize => "dictionary changed size during iteration"

/-- What an operation leaves behind: the tables, also when it fails. -/
structure Outcome (ε : Type) where
  tables : Tables
  result : Except ε Unit

/-- All rules of the tables with their counts, row by row. -/
def heldCounts (t : Tables) : List (Production × Int) :=
  t.rows.values.flatMap fun row => row.entries.map fun (p, holding) => (p, holding.count)

/-- Adds the counts of other tables. -/
def addCounts (t other : Tables) : Tables :=
  other.heldCounts.foldl (fun t (p, count) => t.add p count) t

/-- Adds the counts of other tables, which must be consistent. -/
def merge (t other : Tables) : Outcome MergeError :=
  if t.normalised then ⟨t, .error (.refused .frozen)⟩
  else if other.normalised then ⟨t, .error (.refused .mergeFrozen)⟩
  else
    match other.checkCounts with
    | .error e => ⟨t, .error (.refused e)⟩
    | .ok () => ⟨t.addCounts other, .ok ()⟩

/-- Where estimation comes to: the nonterminal of a row, and after it each rule in the row. -/
inductive Checkpoint where
  | nonterminal (symbol : String)
  | rule (symbol : String) (holding : Holding)
deriving DecidableEq

/-- The checkpoints in the order of the tables. -/
def checkpoints (t : Tables) : List Checkpoint :=
  t.rows.entries.flatMap fun (symbol, row) =>
    .nonterminal symbol :: row.values.map (.rule symbol)

/-- Sets the weight of an object to a quotient unless the quotient is too large. -/
def setQuotient (weights : Nat → Weight) (object : Nat) :
    Option Weight → Except Grammar.Error (Nat → Weight)
  | some weight => .ok (Function.update weights object weight)
  | none => .error .overflow

/-- Passes a checkpoint: a rule object gets as its weight the quotient of the count there by the count of
the nonterminal.  A nonterminal that was not seen and a quotient that is too large are not passed. -/
def pass (symbolCount : String → Int) (weights : Nat → Weight) :
    Checkpoint → Except Grammar.Error (Nat → Weight)
  | .nonterminal symbol =>
    if symbolCount symbol ≤ 0 then
      .error (Inconsistency.notPositive symbol (symbolCount symbol)).error
    else .ok weights
  | .rule symbol holding =>
    setQuotient weights holding.object (Binary64.quotient? holding.count (symbolCount symbol))

/-- Passes checkpoints in order up to one that is not passed. -/
def weigh (symbolCount : String → Int) (weights : Nat → Weight) :
    List Checkpoint → (Nat → Weight) × Option Grammar.Error
  | [] => (weights, none)
  | cp :: later =>
    match pass symbolCount weights cp with
    | .ok next => weigh symbolCount next later
    | .error e => (weights, some e)

/-- Sets the weight of each rule to its count divided by the count of the nonterminal of its row. -/
def estimate (t : Tables) : Outcome Grammar.Error :=
  match t.checkCounts with
  | .error e => ⟨t, .error e⟩
  | .ok () =>
    match weigh t.symbolCount t.weights t.checkpoints with
    | (weights, none) => ⟨{ t with weights, normalised := true }, .ok ()⟩
    | (weights, some e) => ⟨{ t with weights }, .error e⟩

end Tables
end TreebankGrammar
