import TreebankGrammar.Grammar.Editing
import TreebankGrammar.Workspace.Basic
import TreebankGrammar.Workspace.Command

/-!
# Execution of commands

What becomes of a workspace when a command is carried out, what is reported, and the answer or
the error.  An error does not undo what was done before it.

Main definitions:

- `Response`: the workspace, the notices and the result after a command.
- `Workspace.execute`: carries out one command.
-/

namespace TreebankGrammar

/-- What a command leaves behind. -/
structure Response where
  workspace : Workspace
  notices : List Notice := []
  result : Except Error Answer

namespace Workspace

/-! ## Responses -/

/-- The command changes nothing and gives an answer. -/
def answer (w : Workspace) (a : Answer) : Response :=
  { workspace := w, result := .ok a }

/-- The command changes nothing and fails. -/
def fail (w : Workspace) (e : Error) : Response :=
  { workspace := w, result := .error e }

/-- The outcome of an operation on the grammar with a name. -/
def ofOutcome {α : Type} (w : Workspace) (name : String) (outcome : Outcome α)
    (toAnswer : α → Answer) : Response where
  workspace := w.setGrammar name outcome.grammar
  notices := outcome.notices
  result :=
    match outcome.result with
    | .ok value => .ok (toAnswer value)
    | .error e => .error (.grammar e)

/-- Goes on with the grammar with a name. -/
def withGrammar (w : Workspace) (name : String) (next : Grammar → Response) : Response :=
  match w.grammar? name with
  | some g => next g
  | none => w.fail (.unknown name)

/-- Makes the rule of a specification and goes on with it. -/
def withRule (w : Workspace) (spec : RuleSpec) (next : Rule → Response) : Response :=
  match spec.rule? with
  | .ok r => next r
  | .error e => w.fail (.lexical e)

/-- Writes a rule file and answers with its text. -/
def store (w : Workspace) (file : String) (header : List String) (rules : List Rule) : Response :=
  match RuleFile.store w.directory file header rules with
  | .ok directory =>
    { workspace := { w with directory }, result := .ok (.text (RuleFile.render header rules)) }
  | .error e => w.fail (.file e)

/-! ## Binarizers -/

/-- Makes a binarizer for the grammar with a name. -/
def addBinarizer (w : Workspace) (b g : String) (binarizer : Binarizer) : Response :=
  match w.grammarNames.get? g with
  | some position =>
    { w with binarizers := w.binarizers.insert b ⟨position, binarizer⟩ }.answer .done
  | none => w.fail (.unknown g)

/-- Puts back a binarizer that has gone on. -/
def setBinarizer (w : Workspace) (b : String) (assigned : AssignedBinarizer)
    (binarizer : Binarizer) : Workspace :=
  { w with binarizers := w.binarizers.insert b { assigned with binarizer } }

/-- What an operation of a binarizer leaves behind. -/
def ofBinarizer {α : Type} (w : Workspace) (b : String) (assigned : AssignedBinarizer)
    (done : Binarizer × Except Binarizer.Error α) (toAnswer : Binarizer → α → Answer) :
    Response where
  workspace := w.setBinarizer b assigned done.1
  result :=
    match done.2 with
    | .ok value => .ok (toAnswer done.1 value)
    | .error e => .error (.binarizer e)

/-- Goes on with the binarizer with a name and its grammar. -/
def withBinarizer (w : Workspace) (b : String)
    (next : AssignedBinarizer → Grammar → Response) : Response :=
  match w.binarizers.get? b with
  | some assigned => next assigned (w.grammarAt assigned.grammar)
  | none => w.fail (.unknown b)

/-- Binarizes the grammar of a binarizer in a new pass. -/
def runBinarizer (w : Workspace) (b : String) (assigned : AssignedBinarizer) (g : Grammar) :
    Response :=
  let (binarizer, notices, result) := assigned.binarizer.run g
  { w.ofBinarizer b assigned (binarizer, result) fun binarizer rules =>
      .binarized rules binarizer.synthetic with
    notices }

/-! ## Commands -/

/-- Carries out one command. -/
def execute (w : Workspace) : Command → Response
  | .newGrammar g => (w.addGrammar g .empty).answer .done
  | .countTree g source =>
    w.withGrammar g fun grammar =>
      match source.candidate with
      | .error e => w.fail (.unreadable e)
      | .ok c =>
        match grammar.countTree c with
        | .ok (counted, rules) => (w.setGrammar g counted).answer (.number rules)
        | .error e => w.fail (.grammar e)
  | .countTrees g sources =>
    w.withGrammar g fun grammar => w.ofOutcome g (grammar.countStream sources) .number
  | .countTreebank g file limits =>
    w.withGrammar g fun grammar =>
      w.ofOutcome g (grammar.countTreebank w.directory file limits) .number
  | .loadTreebank g file limits normalise =>
    let outcome := Grammar.ofTreebank w.directory file limits normalise
    match outcome.result with
    | .ok () => { (w.addGrammar g outcome.grammar).answer .done with notices := outcome.notices }
    | .error e => { w.fail (.grammar e) with notices := outcome.notices }
  | .merge g other =>
    w.withGrammar g fun grammar =>
      w.withGrammar other fun added =>
        match grammar.merge added with
        | .ok merged => (w.setGrammar g merged).answer .done
        | .error e => w.fail (.grammar e)
  | .estimate g => w.withGrammar g fun grammar => w.ofOutcome g grammar.estimate fun _ => .done
  | .checkCounts g =>
    w.withGrammar g fun grammar =>
      match grammar.checkCounts with
      | .ok () => w.answer .done
      | .error e => w.fail (.grammar e)
  | .setSymbolCount g symbol count =>
    w.withGrammar g fun grammar =>
      (w.setGrammar g (grammar.setSymbolCount symbol count)).answer .done
  | .setRuleCount g spec count =>
    w.withGrammar g fun grammar =>
      w.withRule spec fun r => (w.setGrammar g (grammar.setRuleCount r count)).answer .done
  | .setWeight g spec =>
    w.withGrammar g fun grammar =>
      w.withRule spec fun r => (w.setGrammar g (grammar.setWeight r)).answer .done
  | .showGrammar g => w.withGrammar g fun grammar => w.answer (.grammar grammar)
  | .isNormalised g epsilon =>
    w.withGrammar g fun grammar => w.answer (.truth (grammar.isNormalised epsilon))
  | .weight g lhs rhs lexical =>
    w.withGrammar g fun grammar => w.answer (.weight (grammar.weight lhs rhs lexical))
  | .symbols g =>
    w.withGrammar g fun grammar =>
      w.answer (.symbols grammar.nonterminals grammar.terminals grammar.symbols grammar.size)
  | .rules g => w.withGrammar g fun grammar => w.answer (.rules grammar.rules)
  | .binarize g strategy stem into =>
    w.withGrammar g fun grammar =>
      let outcome := grammar.binarize strategy stem
      match outcome.result with
      | .ok rules =>
        { (w.keepRules into rules).answer (.rules rules) with notices := outcome.notices }
      | .error e => { w.fail (.binarizer (.symbolInUse e)) with notices := outcome.notices }
  | .storeGrammar g file header =>
    w.withGrammar g fun grammar => w.store file header grammar.rules
  | .storeRules rules file header => w.store file header (w.rulesNamed rules)
  | .loadRules file into =>
    match RuleFile.load w.directory file with
    | .ok rules => (w.keepRules into rules).answer (.rules rules)
    | .error e => w.fail (.ofLoad e)
  | .newBinarizer b g strategy stem => w.addBinarizer b g { strategy, stem }
  | .runBinarizer b => w.withBinarizer b (w.runBinarizer b)
  | .startPass b =>
    w.withBinarizer b fun assigned g =>
      (w.setBinarizer b assigned (assigned.binarizer.start g)).answer .done
  | .stick b symbol =>
    w.withBinarizer b fun assigned _ =>
      (w.setBinarizer b assigned (assigned.binarizer.stick symbol)).answer .done
  | .mint b =>
    w.withBinarizer b fun assigned _ =>
      w.ofBinarizer b assigned assigned.binarizer.mint fun _ symbol => .symbol symbol
  | .fold b left right =>
    w.withBinarizer b fun assigned _ =>
      w.ofBinarizer b assigned (assigned.binarizer.fold left right) fun _ (symbol, rules) =>
        .folded symbol rules
  | .binarizeRule b spec =>
    w.withBinarizer b fun assigned _ =>
      w.withRule spec fun r =>
        w.ofBinarizer b assigned (assigned.binarizer.binarizeRule r) fun binarizer rules =>
          .binarized rules binarizer.synthetic

end Workspace
end TreebankGrammar
