import TreebankGrammar.Binarization.Binarizer
import TreebankGrammar.Proofs.Binarization.Moves
import TreebankGrammar.Proofs.Binarization.Stages
import TreebankGrammar.Proofs.Table
import Mathlib.Data.List.Induction

/-!
# Histories of binarizers

The calls of a binarizer can come in any order: passes begin, nonterminals are made, pairs are
folded, rules are split and the grammar is binarized, and a fixed symbol may take the place of the
names, so that calls fail at any point of a pass.  The records of the current pass stay consistent all
along, and the next pass owes nothing to the ones before.

Main definitions:

- `Pass.Orderly`: the records of a pass are consistent.
- `Binarizer.Operation` and `Binarizer.Call`: what a binarizer can be asked for.
- `Binarizer.CallStep`: what a call does to a binarizer.

Main results:

- Theorem `Pass.Orderly.move`: moves keep the records consistent.
- Theorem `Binarizer.callStep_perform`: all that a call does.
- Theorem `Binarizer.records_after`: what holds after every sequence of calls.
-/

namespace TreebankGrammar

open Relation

/-! ## Records of a pass -/

namespace Pass

/-- The records of a pass over a grammar with the given symbols are consistent: no nonterminal was made
twice, the list and the set of them agree, none is a symbol of the grammar, and the remembered pairs
have nonterminals of their own. -/
structure Orderly (symbols : List String) (p : Pass) : Prop where
  reserved_eq : p.reserved = symbols
  nodup_synthetic : p.synthetic.Nodup
  mem_minted_iff : ∀ X, X ∈ p.minted ↔ X ∈ p.synthetic
  not_mem_reserved : ∀ X ∈ p.synthetic, X ∉ p.reserved
  mem_minted_of_memo : ∀ {pair : String × String} {X : String},
    p.memo.get? pair = some X → X ∈ p.minted
  memo_injective : ∀ {pair pair' : String × String} {X : String},
    p.memo.get? pair = some X → p.memo.get? pair' = some X → pair = pair'

namespace Orderly

variable {symbols : List String} {p p' : Pass}

theorem start (strategy : Strategy) (stem : String) (symbols : List String) :
    (Pass.start strategy stem symbols).Orderly symbols where
  reserved_eq := rfl
  nodup_synthetic := List.nodup_nil
  mem_minted_iff _ := Iff.rfl
  not_mem_reserved := by simp [Pass.start]
  mem_minted_of_memo h := by cases h
  memo_injective h := by cases h

/-- The source of names has no part in the records. -/
theorem withNaming (h : p.Orderly symbols) (naming : Naming) :
    { p with naming }.Orderly symbols :=
  ⟨h.reserved_eq, h.nodup_synthetic, h.mem_minted_iff, h.not_mem_reserved, h.mem_minted_of_memo,
    h.memo_injective⟩

/-- The records stay consistent when a name is asked for. -/
theorem mintStep {result : Except SymbolInUse String} (h : p.Orderly symbols)
    (step : MintStep p p' result) : p'.Orderly symbols := by
  cases step with
  | refused naming _ => exact h.withNaming naming
  | @made naming X hreserved hminted =>
    exact {
      reserved_eq := h.reserved_eq
      nodup_synthetic := by
        have hnew : X ∉ p.synthetic := fun hX => hminted ((h.mem_minted_iff X).2 hX)
        have hnodup := h.nodup_synthetic.concat hnew
        rwa [List.concat_eq_append] at hnodup
      mem_minted_iff := fun Y => by
        simp [h.mem_minted_iff, or_comm]
      not_mem_reserved := fun Y hY => by
        rcases List.mem_append.1 hY with hY | hY
        · exact h.not_mem_reserved Y hY
        · rw [List.mem_singleton.1 hY]
          exact hreserved
      mem_minted_of_memo := fun hget => List.mem_insert_of_mem (h.mem_minted_of_memo hget)
      memo_injective := h.memo_injective }

/-- The records stay consistent when a nonterminal just made is remembered for a pair. -/
theorem remember {X : String} (h : p.Orderly symbols) (step : MintStep p p' (.ok X))
    (left right : String) : (p'.remember left right X).Orderly symbols := by
  have h' := h.mintStep step
  cases step with
  | made naming _ hminted =>
    -- No pair that was known before has the new nonterminal.
    have hnew : ∀ {pair : String × String}, p.memo.get? pair ≠ some X := fun hget =>
      hminted (h.mem_minted_of_memo hget)
    refine ⟨h'.reserved_eq, h'.nodup_synthetic, h'.mem_minted_iff, h'.not_mem_reserved, ?_, ?_⟩
    · intro pair Y hY
      rcases Table.get?_insert_eq_some_iff.1 hY with ⟨-, rfl⟩ | ⟨-, hY⟩
      · exact List.mem_insert_self
      · exact List.mem_insert_of_mem (h.mem_minted_of_memo hY)
    · intro pair pair' Y hY hY'
      rcases Table.get?_insert_eq_some_iff.1 hY with ⟨rfl, rfl⟩ | ⟨-, hY⟩
      · rcases Table.get?_insert_eq_some_iff.1 hY' with ⟨rfl, -⟩ | ⟨-, hY'⟩
        · rfl
        · exact absurd hY' hnew
      · rcases Table.get?_insert_eq_some_iff.1 hY' with ⟨-, rfl⟩ | ⟨-, hY'⟩
        · exact absurd hY hnew
        · exact h.memo_injective hY hY'

/-- Moves keep the records consistent. -/
theorem move (hmove : Move p p') (h : p.Orderly symbols) : p'.Orderly symbols := by
  cases hmove with
  | mint => exact h.mintStep p.mintStep
  | @learn left right X _ made =>
    have hstep := p.mintStep
    rw [made] at hstep
    exact h.remember hstep left right

end Orderly

end Pass

/-! ## Operations -/

namespace Binarizer

/-- The operations of the current pass. -/
inductive Operation where
  | mint
  | fold (left right : String)
  | binarizeRule (r : Rule)

/-- The binarizer after an operation, and whether the operation fails. -/
def operate (b : Binarizer) : Operation → Binarizer × Except Error Unit
  | .mint => (b.mint.1, b.mint.2.map fun _ => ())
  | .fold left right => ((b.fold left right).1, (b.fold left right).2.map fun _ => ())
  | .binarizeRule r => ((b.binarizeRule r).1, (b.binarizeRule r).2.map fun _ => ())

/-- What an operation does to a binarizer that is in a pass: the pass goes through moves, and the
operation fails only if the last of them does or if a rule has nothing on the right. -/
inductive Continues {α : Type} (b : Binarizer) (p : Pass) : Binarizer × Except Error α → Prop
  | finished {p' : Pass} {value : α} (moves : ReflTransGen Pass.Move p p') :
      Continues b p ({ b with state := .started p' }, .ok value)
  | broken {q p' : Pass} {e : SymbolInUse} (moves : ReflTransGen Pass.Move p q)
      (failure : q.mint = (p', .error e)) :
      Continues b p ({ b with state := .started p' }, .error (.symbolInUse e))
  | noSymbols : Continues b p ({ b with state := .started p }, .error .noSymbols)

namespace Continues

variable {α β : Type} {b : Binarizer} {p : Pass}

theorem onPass (h : b.state = .started p) (missing : Option String → PassPart)
    {operation : Pass → Pass × Except SymbolInUse α} (hruns : p.Runs (operation p)) :
    Continues b p (b.onPass missing operation) := by
  unfold Binarizer.onPass
  rw [h]
  dsimp only
  cases hdone : operation p with
  | mk p' result =>
    rw [hdone] at hruns
    cases hruns with
    | finished moves => exact .finished moves
    | broken moves failure => exact .broken moves failure

theorem map {done : Binarizer × Except Error α} (h : Continues b p done) (f : α → β) :
    Continues b p (done.1, done.2.map f) := by
  cases h with
  | finished moves => exact .finished moves
  | broken moves failure => exact .broken moves failure
  | noSymbols => exact .noSymbols

theorem mint (h : b.state = .started p) : Continues b p b.mint :=
  onPass h _ p.runs_mint

theorem fold (h : b.state = .started p) (left right : String) :
    Continues b p (b.fold left right) :=
  onPass h _ (p.runs_fold left right)

theorem binarizeRule (h : b.state = .started p) (r : Rule) : Continues b p (b.binarizeRule r) := by
  have hsame : b = { b with state := .started p } := by rw [← h]
  unfold Binarizer.binarizeRule
  split
  · rw [hsame]
    exact .noSymbols
  · rw [hsame]
    exact .finished .refl
  · rw [hsame]
    exact .finished .refl
  · exact onPass h _ (p.runs_binarizeRule r)

/-- All that an operation does to a binarizer that is in a pass. -/
theorem operate (h : b.state = .started p) (op : Operation) : Continues b p (b.operate op) := by
  cases op with
  | mint => exact (mint h).map _
  | fold left right => exact (fold h left right).map _
  | binarizeRule r => exact (binarizeRule h r).map _

/-- The pass goes through moves, and the settings stay as they are. -/
theorem exists_moves {done : Binarizer × Except Error α} (h : Continues b p done) :
    ∃ p', done.1 = { b with state := .started p' } ∧ ReflTransGen Pass.Move p p' := by
  cases h with
  | finished moves => exact ⟨_, rfl, moves⟩
  | @broken q p' e moves failure =>
    have hruns : p.Runs (p', (.error e : Except SymbolInUse α)) := .broken moves failure
    exact ⟨p', rfl, hruns.moves⟩
  | noSymbols => exact ⟨p, rfl, .refl⟩

end Continues

/-- Before any pass, operations change nothing. -/
theorem operate_of_waiting {b : Binarizer} {symbol : Option String} (h : b.state = .waiting symbol)
    (op : Operation) : (b.operate op).1 = b := by
  have honPass : ∀ {α : Type} (missing : Option String → PassPart)
      (operation : Pass → Pass × Except SymbolInUse α), (b.onPass missing operation).1 = b := by
    intro α missing operation
    rw [onPass, h]
  cases op with
  | mint => exact honPass missingForMint Pass.mint
  | fold left right => exact honPass (missingForFold b.strategy) fun p => p.fold left right
  | binarizeRule r =>
    unfold operate binarizeRule
    dsimp only
    split
    · rfl
    · rfl
    · rfl
    · exact honPass (missingForFold b.strategy) fun p => p.binarizeRule r

/-! ## Failures -/

/-- What the current pass has recorded: its nonterminals as a list and as a set, and the remembered
pairs. -/
def records (b : Binarizer) :
    Option (List String × List String × Table (String × String) String) :=
  match b.state with
  | .waiting _ => none
  | .started p => some (p.synthetic, p.minted, p.memo)

/-- An operation that fails only because of the name that it asks for records nothing when it fails. -/
theorem records_onPass_of_error {α : Type} {b : Binarizer} {missing : Option String → PassPart}
    {operation : Pass → Pass × Except SymbolInUse α}
    (hmint : ∀ {p p' : Pass} {e : SymbolInUse}, operation p = (p', .error e) → p.mint = (p', .error e))
    {e : Error} (h : (b.onPass missing operation).2 = .error e) :
    (b.onPass missing operation).1.records = b.records := by
  unfold onPass at h ⊢
  cases hstate : b.state with
  | waiting symbol => rfl
  | started p =>
    rw [hstate] at h
    dsimp only at h ⊢
    cases hdone : operation p with
    | mk p' result =>
      cases result with
      | ok value =>
        rw [hdone] at h
        cases h
      | error cause =>
        obtain ⟨naming, rfl⟩ := Pass.eq_of_mint_error (hmint hdone)
        rw [records, records, hstate]

/-! ## Calls -/

/-- The calls of a binarizer: a pass begins, all names become one symbol, the grammar is binarized, or
the current pass goes on. -/
inductive Call where
  | start
  | stick (symbol : String)
  | run
  | operation (op : Operation)

/-- Whether a call begins a pass. -/
def Call.beginsPass : Call → Bool
  | .start | .run => true
  | .stick _ | .operation _ => false

/-- The binarizer of a grammar after a call, and whether the call fails. -/
def perform (g : Grammar) (b : Binarizer) : Call → Binarizer × Except Error Unit
  | .start => (b.start g, .ok ())
  | .stick symbol => (b.stick symbol, .ok ())
  | .run => ((b.run g).1, (b.run g).2.2.map fun _ => ())
  | .operation op => b.operate op

/-- The binarizer of a grammar after calls in a row, whether they fail or not. -/
def after (g : Grammar) (b : Binarizer) (calls : List Call) : Binarizer :=
  calls.foldl (fun b call => (b.perform g call).1) b

/-- What a call does to a binarizer: the pass goes through moves, after its start if the call begins it;
or all names become one symbol; and before any pass nothing can be recorded. -/
inductive CallStep (g : Grammar) (b : Binarizer) (call : Call) : Binarizer → Prop
  | begins {p : Pass} (begins : call.beginsPass = true)
      (moves : ReflTransGen Pass.Move (g.startPass b.strategy b.stem) p) :
      CallStep g b call { b with state := .started p }
  | continues {p p' : Pass} (state : b.state = .started p) (moves : ReflTransGen Pass.Move p p') :
      CallStep g b call { b with state := .started p' }
  | sticks {p : Pass} (state : b.state = .started p) (symbol : String) :
      CallStep g b call { b with state := .started (p.stick symbol) }
  | waits {symbol : Option String} (begins : call.beginsPass = false)
      (state : b.state = .waiting symbol) (symbol' : Option String) :
      CallStep g b call { b with state := .waiting symbol' }

/-- All that a call does. -/
theorem callStep_perform (g : Grammar) (b : Binarizer) (call : Call) :
    CallStep g b call (b.perform g call).1 := by
  cases call with
  | start => exact .begins rfl .refl
  | run =>
    exact .begins rfl ((g.startPass b.strategy b.stem).runs_binarizeRules g.rules).moves
  | stick symbol =>
    unfold perform stick
    cases hstate : b.state with
    | waiting old => exact .waits rfl hstate (some symbol)
    | started p => exact .sticks hstate symbol
  | operation op =>
    change CallStep g b _ (b.operate op).1
    cases hstate : b.state with
    | waiting symbol =>
      rw [operate_of_waiting hstate op]
      have hwaits : CallStep g b (.operation op) { b with state := .waiting symbol } :=
        .waits rfl hstate symbol
      rwa [← hstate] at hwaits
    | started p =>
      obtain ⟨p', hdone, hmoves⟩ := (Continues.operate hstate op).exists_moves
      rw [hdone]
      exact .continues hstate hmoves

namespace CallStep

variable {g : Grammar} {b b' : Binarizer} {call : Call}

/-- A call keeps the settings. -/
theorem settings (step : CallStep g b call b') :
    b'.strategy = b.strategy ∧ b'.stem = b.stem := by
  cases step with
  | begins _ _ => exact ⟨rfl, rfl⟩
  | continues _ _ => exact ⟨rfl, rfl⟩
  | sticks _ _ => exact ⟨rfl, rfl⟩
  | waits _ _ _ => exact ⟨rfl, rfl⟩

/-- The binarizer is in a pass after a call that begins one, and stays in a pass. -/
theorem exists_started (step : CallStep g b call b')
    (h : call.beginsPass = true ∨ ∃ p, b.state = .started p) : ∃ p, b'.state = .started p := by
  cases step with
  | begins _ _ => exact ⟨_, rfl⟩
  | continues _ _ => exact ⟨_, rfl⟩
  | sticks _ _ => exact ⟨_, rfl⟩
  | waits hbegins hstate _ =>
    rcases h with h | ⟨p, h⟩
    · rw [hbegins] at h
      cases h
    · rw [hstate] at h
      cases h

/-- A call keeps the records of the current pass consistent. -/
theorem orderly (step : CallStep g b call b')
    (h : ∀ p, b.state = .started p → p.Orderly g.symbols) :
    ∀ p, b'.state = .started p → p.Orderly g.symbols := by
  cases step with
  | begins _ moves =>
    rintro p ⟨⟩
    exact Pass.keeps_of_moves Pass.Orderly.move moves (.start _ _ _)
  | continues hstate moves =>
    rintro p ⟨⟩
    exact Pass.keeps_of_moves Pass.Orderly.move moves (h _ hstate)
  | sticks hstate symbol =>
    rintro p ⟨⟩
    exact (h _ hstate).withNaming (.constant symbol)
  | waits _ _ _ =>
    rintro p ⟨⟩

end CallStep

/-! ## Histories -/

section

variable (g : Grammar) (b : Binarizer)

theorem after_concat (calls : List Call) (call : Call) :
    b.after g (calls ++ [call]) = ((b.after g calls).perform g call).1 :=
  List.foldl_concat ..

/-- Calls keep the settings. -/
theorem settings_after (calls : List Call) :
    (b.after g calls).strategy = b.strategy ∧ (b.after g calls).stem = b.stem := by
  induction calls using List.reverseRecOn with
  | nil => exact ⟨rfl, rfl⟩
  | append_singleton calls call ih =>
    rw [after_concat]
    obtain ⟨hstrategy, hstem⟩ := (callStep_perform g (b.after g calls) call).settings
    exact ⟨hstrategy.trans ih.1, hstem.trans ih.2⟩

/-- A binarizer is in a pass once a pass has begun. -/
theorem exists_started_after {calls : List Call} (h : ∃ call ∈ calls, call.beginsPass = true) :
    ∃ p, (b.after g calls).state = .started p := by
  induction calls using List.reverseRecOn with
  | nil => simp at h
  | append_singleton calls call ih =>
    rw [after_concat]
    refine (callStep_perform g (b.after g calls) call).exists_started ?_
    obtain ⟨begin, hbegin, hbegins⟩ := h
    rcases List.mem_append.1 hbegin with hbegin | hbegin
    · exact .inr (ih ⟨begin, hbegin, hbegins⟩)
    · rw [List.mem_singleton.1 hbegin] at hbegins
      exact .inl hbegins

/-- Calls keep the records of the current pass consistent. -/
theorem orderly_after (h : ∀ p, b.state = .started p → p.Orderly g.symbols) (calls : List Call) :
    ∀ p, (b.after g calls).state = .started p → p.Orderly g.symbols := by
  induction calls using List.reverseRecOn with
  | nil => exact h
  | append_singleton calls call ih =>
    rw [after_concat]
    exact (callStep_perform g (b.after g calls) call).orderly ih

/-- Binarizing depends on the settings alone. -/
theorem run_congr {b b' : Binarizer} (hstrategy : b'.strategy = b.strategy) (hstem : b'.stem = b.stem) :
    b'.run g = b.run g := by
  obtain ⟨strategy, stem, state⟩ := b
  obtain ⟨strategy', stem', state'⟩ := b'
  cases hstrategy
  cases hstem
  rfl

end

/-- After any calls of a new binarizer, failing ones included: once a pass has begun, the records of the
current pass are consistent; a new nonterminal that cannot be made and a fold that fails leave them
as they are; and binarizing succeeds and gives what a new binarizer gives. -/
theorem records_after (strategy : Strategy) (stem : String) (g : Grammar) (calls : List Call) :
    let new : Binarizer := { strategy, stem }
    let b := new.after g calls
    (.start ∈ calls ∨ .run ∈ calls → ∃ p, b.state = .started p ∧ p.Orderly g.symbols) ∧
      (∀ e, b.mint.2 = .error e → b.mint.1.records = b.records) ∧
      (∀ left right e, (b.fold left right).2 = .error e →
        (b.fold left right).1.records = b.records) ∧
      b.run g = new.run g ∧ ∃ rules, (b.run g).2.2 = .ok rules := by
  intro new b
  have hrun : b.run g = new.run g := by
    obtain ⟨hstrategy, hstem⟩ := new.settings_after g calls
    exact run_congr g hstrategy hstem
  refine ⟨?_, ?_, ?_, hrun, ?_⟩
  · intro hbegun
    have hbegins : ∃ call ∈ calls, call.beginsPass = true := by
      rcases hbegun with hstart | hrun
      · exact ⟨.start, hstart, rfl⟩
      · exact ⟨.run, hrun, rfl⟩
    obtain ⟨p, hp⟩ := new.exists_started_after g hbegins
    exact ⟨p, hp, new.orderly_after g (by rintro p ⟨⟩) calls p hp⟩
  · exact fun e h => records_onPass_of_error (fun hmint => hmint) h
  · exact fun left right e h => records_onPass_of_error Pass.mint_of_fold_error h
  · obtain ⟨out, hresult, -⟩ := g.exists_stage strategy stem
    refine ⟨out, ?_⟩
    rw [hrun, run, hresult]
    rfl

end Binarizer
end TreebankGrammar
