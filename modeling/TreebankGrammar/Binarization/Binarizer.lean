import TreebankGrammar.Binarization.Basic

/-!
# Binarizers

A binarizer makes one pass after the other over the same grammar.  Before its first pass it has no
symbols of the grammar, no source of names and no memory of pairs, so that it can only split
a rule that needs no new nonterminal.  A fixed symbol may take the place of the source of names at any
time, and the next pass replaces it.

Main definitions:

- `Binarizer`: the settings of the passes, and the state of the current one.
- `Binarizer.Error`: why an operation fails.
- `Binarizer.mint`, `Binarizer.fold`, `Binarizer.binarizeRule`: the operations of the current pass.
-/

namespace TreebankGrammar

/-- What a binarizer gets with its first pass. -/
inductive PassPart where
  | naming
  | reserved
  | memo
deriving DecidableEq

/-- The name of the part in messages. -/
def PassPart.name : PassPart → String
  | .naming => "new_symbol"
  | .reserved => "reserved"
  | .memo => "memo"

/-- An operation needs a part of a pass, and no pass has begun. -/
structure NotStarted where
  strategy : Strategy
  part : PassPart
deriving DecidableEq

/-- The wording of the error. -/
def NotStarted.message (e : NotStarted) : String :=
  Text.quoted e.strategy.name ++ " object has no attribute " ++ Text.quoted e.part.name

/-- Where a binarizer stands. -/
inductive PassState where
  /-- No pass has begun; all names are the same symbol, if one is given. -/
  | waiting (symbol : Option String)
  | started (pass : Pass)

/-- The settings of the passes over a grammar, and where the binarizer stands. -/
structure Binarizer where
  strategy : Strategy
  stem : String
  state : PassState := .waiting none

namespace Binarizer

/-- Why an operation of a binarizer fails. -/
inductive Error where
  | symbolInUse (cause : SymbolInUse)
  | notStarted (cause : NotStarted)
  /-- A rule to be split has nothing on the right. -/
  | noSymbols
deriving DecidableEq

/-- The wording of the error. -/
def Error.message : Error → String
  | .symbolInUse cause => cause.message
  | .notStarted cause => cause.message
  | .noSymbols => "tuple index out of range"

/-! ## Passes -/

/-- Begins a pass over a grammar. -/
def start (b : Binarizer) (g : Grammar) : Binarizer :=
  { b with state := .started (g.startPass b.strategy b.stem) }

/-- Makes all names the same symbol until the next pass begins. -/
def stick (b : Binarizer) (symbol : String) : Binarizer :=
  match b.state with
  | .waiting _ => { b with state := .waiting (some symbol) }
  | .started pass => { b with state := .started (pass.stick symbol) }

/-- The nonterminals that the current pass has made so far. -/
def synthetic (b : Binarizer) : List String :=
  match b.state with
  | .waiting _ => []
  | .started pass => pass.synthetic

/-- Binarizes a grammar in a pass of its own, and reports on it. -/
def run (b : Binarizer) (g : Grammar) : Binarizer × List Notice × Except Error (List Rule) :=
  let outcome := g.binarize b.strategy b.stem
  ({ b with state := .started outcome.pass }, outcome.notices,
    outcome.result.mapError .symbolInUse)

/-! ## Operations of a pass -/

/-- The part that a new nonterminal needs first before any pass: the names, then the symbols in use. -/
def missingForMint : Option String → PassPart
  | none => .naming
  | some _ => .reserved

/-- The part that a fold needs first before any pass: shared nonterminals are looked up before
a new one is made. -/
def missingForFold (strategy : Strategy) (symbol : Option String) : PassPart :=
  match strategy with
  | .naive => missingForMint symbol
  | .shared => .memo

/-- Goes on with the current pass, or fails for lack of a part if there is none. -/
def onPass {α : Type} (b : Binarizer) (missing : Option String → PassPart)
    (operation : Pass → Pass × Except SymbolInUse α) : Binarizer × Except Error α :=
  match b.state with
  | .waiting symbol => (b, .error (.notStarted ⟨b.strategy, missing symbol⟩))
  | .started pass =>
    let (pass, result) := operation pass
    ({ b with state := .started pass }, result.mapError .symbolInUse)

/-- Makes a new nonterminal. -/
def mint (b : Binarizer) : Binarizer × Except Error String :=
  b.onPass missingForMint Pass.mint

/-- The nonterminal for a pair of symbols, and its rule if it is new. -/
def fold (b : Binarizer) (left right : String) : Binarizer × Except Error (String × List Rule) :=
  b.onPass (missingForFold b.strategy) fun pass => pass.fold left right

/-- The rules that stand for one rule with a symbol on the right.  Without a fold no pass is needed. -/
def binarizeRule (b : Binarizer) (r : Rule) : Binarizer × Except Error (List Rule) :=
  match r.rhs with
  | [] => (b, .error .noSymbols)
  | [symbol] => (b, .ok [Pass.closing r symbol symbol])
  | [left, right] => (b, .ok [Pass.closing r left right])
  | _ => b.onPass (missingForFold b.strategy) fun pass => pass.binarizeRule r

end Binarizer
end TreebankGrammar
