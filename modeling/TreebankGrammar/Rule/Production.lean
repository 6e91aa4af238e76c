/-!
# Productions

A production rewrites a nonterminal, its left-hand side, as a sequence of symbols, its
right-hand side.  A lexical production rewrites it as one word.

Main definitions:

- `Body`: what a production has besides its left-hand side.
- `Production`: a left-hand side and a body.
- `Production.make?`: the production with the given parts, unless it is lexical and does not have
  exactly one symbol on the right.
-/

namespace TreebankGrammar

/-- The right-hand side of a production, and whether the production is lexical. -/
structure Body where
  rhs : List String
  lexical : Bool
  length_of_lexical : lexical = true → rhs.length = 1
deriving DecidableEq

/-- A nonterminal and the body that it is rewritten as. -/
structure Production extends Body where
  lhs : String
deriving DecidableEq

/-- The parts of a lexical production that does not have exactly one symbol on the right. -/
structure LexicalError where
  lhs : String
  rhs : List String
deriving DecidableEq

/-- The wording of the error. -/
def LexicalError.message (e : LexicalError) : String :=
  "A lexical rule has exactly one symbol on the right: " ++ e.lhs ++ " -> " ++
    " ".intercalate e.rhs

/-- The body that is not lexical. -/
def Body.phrasal (rhs : List String) : Body :=
  ⟨rhs, false, by simp⟩

/-- The lexical body with the given word. -/
def Body.ofWord (word : String) : Body :=
  ⟨[word], true, by simp⟩

namespace Production

/-- The production with a left-hand side and a body. -/
def ofBody (lhs : String) (body : Body) : Production :=
  { body with lhs := lhs }

/-- The production that is not lexical. -/
def phrasal (lhs : String) (rhs : List String) : Production :=
  ofBody lhs (.phrasal rhs)

/-- The production with the given parts; a lexical one needs exactly one symbol on the right. -/
def make? (lhs : String) (rhs : List String) (lexical : Bool) : Except LexicalError Production :=
  if h : lexical = true → rhs.length = 1 then
    .ok { lhs, rhs, lexical, length_of_lexical := h }
  else .error ⟨lhs, rhs⟩

@[simp]
theorem lhs_ofBody (lhs : String) (body : Body) : (ofBody lhs body).lhs = lhs :=
  rfl

@[simp]
theorem toBody_ofBody (lhs : String) (body : Body) : (ofBody lhs body).toBody = body :=
  rfl

end Production
end TreebankGrammar
