import Phrasebook.Proofs.Dictionary.Editing
import Phrasebook.Proofs.Shell.Effects

/-!
A command keeps to its own part of the state. Done field by field, with the dictionary itself changed in
place, a command comes to what it comes to as a whole: when it fails at any point nothing has been changed
yet. And a field that a command is not about is the same after it.
-/

namespace Phrasebook.Shell
open InPlace
open Terminal (Colors)

abbrev Working := InPlace Failure (State × FileTree)

namespace Working

def assign (f : State → State) : Working Unit := modify fun x => (f x.1, x.2)

def edit (m : Editing Unit) : Working Unit :=
  within (fun x => x.1.dictionary) (fun d x => ({ x.1 with dictionary := d }, x.2)) .refused m

def ask {α : Type} (answer : State → Except Failure α) : Working Unit := do
  let (s, _) ← get
  let _ ← .given (answer s)

def load (path : String) (format : Option Format) : Working Unit := do
  let (_, t) ← get
  let detection ← .given (detect t path format)
  let grammar ← .given (GrammarFile.read t path detection.format)
  let dictionary ← .given (GrammarFile.build path grammar)
  assign fun s => { s with dictionary }
  assign fun s => { s with format := detection.format }
  assign fun s => { s with grammarPath := some path }
  assign fun s => { s with scope := s.scope.filter fun name => (s.dictionary.resolve? name).isSome }

def write (path : String) : Working Unit := do
  let (s, t) ← get
  let (t', written) := GrammarFile.save s.grammar t path (Format.ofPath path)
  -- Where the writing fails, what was done to the files before stays done.
  modify fun x => (x.1, t')
  .given written

def save (path : Option String) : Working Unit := do
  let (s, _) ← get
  match path <|> s.grammarPath with
  | none => throw .nowhereToSave
  | some path =>
    write path
    assign fun s => { s with grammarPath := some path }

end Working

open Working

def Command.perform (colors : Colors) : Command → Working Unit
  | .suggest input => ask fun s => suggestText colors s input
  | .walks input => ask fun s => walksText colors s input
  | .add name pattern => edit (Call.add name (.written pattern)).perform
  | .define name texts => edit (Call.define name (texts.map .written)).perform
  | .remove name pattern => edit (Call.remove name (.written pattern)).perform
  | .scope none => ask State.currentScope
  | .scope (some name) => do
    ask fun s => s.dictionary.findScope name
    assign fun s => { s with scope := some name }
  | .patterns name => ask fun s => patternsText colors s name
  | .lookahead (some value) => assign fun s => { s with lookahead := value }
  | .limit value => assign fun s => { s with limit := value }
  | .load path format => Working.load path format
  | .save path => Working.save path
  | .lookahead none | .scopes | .stats | .settings | .help _ | .exit => pure ()

variable {colors : Colors} {s : State} {t : FileTree} {c : Command}

def Result.outline (r : Result) : Except Failure Unit × State × FileTree :=
  (r.reply.map fun _ => (), r.state, r.files)

theorem outcome_ask {α : Type} (answer : State → Except Failure α) (s : State) (t : FileTree) :
    (ask answer).outcome (s, t) = ((answer s).map fun _ => (), s, t) := by
  simp only [ask, outcome_bind, outcome_get, outcome_given]
  cases answer s <;> rfl

theorem outline_tell (s : State) (t : FileTree) (answer : Except Failure String) :
    (Result.tell s t answer).outline = (answer.map fun _ => (), s, t) := by
  cases answer <;> rfl

theorem outcome_edit (call : Call) (s : State) (t : FileTree) :
    (edit call.perform).outcome (s, t) = match call.answer s.dictionary with
      | .ok d => (.ok (), { s with dictionary := d }, t)
      | .error e => (.error (.refused e), s, t) := by
  change (((call.perform).outcome s.dictionary).1.mapError Failure.refused,
    { s with dictionary := ((call.perform).outcome s.dictionary).2 }, t) = _
  rw [Editing.outcome_perform]
  cases call.answer s.dictionary <;> rfl

theorem outcome_load (s : State) (t : FileTree) (path : String) (format : Option Format) :
    (Working.load path format).outcome (s, t) = match GrammarFile.load t path format with
      | .ok file => (.ok (), s.adopt file, t)
      | .error f => (.error f, s, t) := by
  simp only [Working.load, outcome_bind, outcome_get, outcome_given]
  simp only [GrammarFile.load, bind, Except.bind]
  cases detect t path format with
  | error f => rfl
  | ok detection =>
    dsimp only
    cases GrammarFile.read t path detection.format with
    | error f => rfl
    | ok grammar =>
      dsimp only
      cases GrammarFile.build path grammar with
      | error f => rfl
      | ok d => rfl

theorem outcome_write (s : State) (t : FileTree) (path : String) :
    (Working.write path).outcome (s, t) =
      ((GrammarFile.save s.grammar t path (Format.ofPath path)).2,
        s, (GrammarFile.save s.grammar t path (Format.ofPath path)).1) := by
  simp only [Working.write, outcome_bind, outcome_get, outcome_modify, outcome_given]

theorem outcome_perform (colors : Colors) (s : State) (t : FileTree) (c : Command) :
    (c.perform colors).outcome (s, t) = (c.run colors s t).outline := by
  cases c with
  | suggest input => rw [Command.perform, outcome_ask]; exact (outline_tell s t _).symm
  | walks input => rw [Command.perform, outcome_ask]; exact (outline_tell s t _).symm
  | add name pattern =>
    rw [Command.perform, outcome_edit, Command.run, addPattern, Call.answer]
    cases s.dictionary.find name >>= fun id => s.dictionary.add id (.written pattern) <;> rfl
  | define name texts =>
    rw [Command.perform, outcome_edit, Command.run, defineScope, Call.answer]
    cases s.dictionary.define name (texts.map .written) <;> rfl
  | remove name pattern =>
    rw [Command.perform, outcome_edit, Command.run, removePattern, Call.answer]
    cases s.dictionary.find name >>= fun id => s.dictionary.remove id (.written pattern) <;> rfl
  | scope name =>
    cases name with
    | none =>
      rw [Command.perform, outcome_ask, Command.run, outline_tell]
      cases s.currentScope <;> rfl
    | some name =>
      rw [Command.perform, outcome_bind, outcome_ask, Command.run, selectScope]
      cases s.dictionary.findScope name <;> rfl
  | scopes => rfl
  | patterns name => rw [Command.perform, outcome_ask]; exact (outline_tell s t _).symm
  | lookahead value => cases value <;> rfl
  | limit value => rfl
  | load path format =>
    rw [Command.perform, outcome_load, Command.run, loadGrammar]
    cases GrammarFile.load t path format <;> rfl
  | save path =>
    rw [Command.perform, Working.save, outcome_bind, outcome_get, Command.run, saveGrammar]
    dsimp only
    cases path <|> s.grammarPath with
    | none => rfl
    | some place =>
      dsimp only
      rw [outcome_bind, outcome_write]
      rcases GrammarFile.save s.grammar t place (Format.ofPath place) with ⟨t', r⟩
      cases r <;> rfl
  | stats => rfl
  | settings => rfl
  | help topic => cases topic <;> rfl
  | exit => rfl

/-- What a command is not about is as it was before. -/
structure InLane (c : Command) (s s' : State) : Prop where
  dictionary : c.changesGrammar = false → s'.dictionary = s.dictionary
  scope : (∀ name, c ≠ .scope (some name)) → (∀ path format, c ≠ .load path format) →
    s'.scope = s.scope
  lookahead : (∀ value, c ≠ .lookahead value) → s'.lookahead = s.lookahead
  limit : (∀ value, c ≠ .limit value) → s'.limit = s.limit
  format : (∀ path format, c ≠ .load path format) → s'.format = s.format
  grammarPath : (∀ path format, c ≠ .load path format) → (∀ path, c ≠ .save path) →
    s'.grammarPath = s.grammarPath
  configPath : s'.configPath = s.configPath

theorem InLane.refl (c : Command) (s : State) : InLane c s s :=
  ⟨fun _ => rfl, fun _ _ => rfl, fun _ => rfl, fun _ => rfl, fun _ => rfl, fun _ _ => rfl, rfl⟩

theorem Effect.inLane {s' : State} {t' : FileTree} (h : Effect s t c s' t') : InLane c s s' := by
  cases h with
  | none _ => exact .refl c s
  | define _ => exact { InLane.refl _ s with dictionary := nofun }
  | add _ _ => exact { InLane.refl _ s with dictionary := nofun }
  | scope => exact { InLane.refl _ s with scope := fun h => absurd rfl (h _) }
  | lookahead => exact { InLane.refl _ s with lookahead := fun h => absurd rfl (h _) }
  | limit => exact { InLane.refl _ s with limit := fun h => absurd rfl (h _) }
  | load _ =>
    exact { InLane.refl _ s with
      dictionary := nofun
      scope := fun _ h => absurd rfl (h _ _)
      format := fun h => absurd rfl (h _ _)
      grammarPath := fun h => absurd rfl (h _ _) }
  | save _ _ => exact { InLane.refl _ s with grammarPath := fun _ h => absurd rfl (h _) }

/-- Done change by change a command comes to the same as when it is done whole. If it fails, the state
is what it was, and if it succeeds, so is everything that the command is not about. -/
theorem command_keeps_lane (colors : Colors) (s : State) (t : FileTree) (c : Command) :
    (c.perform colors).outcome (s, t) = (c.run colors s t).outline ∧
    (∀ f, (c.run colors s t).reply = .error f →
      (c.run colors s t).state = s ∧ (c.run colors s t).files = t) ∧
    ∀ reply, (c.run colors s t).reply = .ok reply → InLane c s (c.run colors s t).state :=
  ⟨outcome_perform colors s t c, fun _ => unchanged_of_error, fun _ h => (effect_of_ok h).inLane⟩

def astray : Grammar := ⟨.single "main" [⟨[.lookup (.single "way" ["nowhere"])]⟩]⟩

def lost : FileTree := ⟨["desk"], [(["desk", "g.json"], .file (astray.encode .json)),
  (["desk"], .directory)]⟩

def busy : State :=
  { dictionary := .ofCalls [.define "main" [.written "go"]]
    scope := some "main"
    lookahead := 1
    grammarPath := some "old.json" }

theorem command_keeps_lane_busy :
    ((Command.load "g.json" none).run false busy lost).reply =
      .error (.invalidGrammar "g.json" (.unknownContext "way" "nowhere")) ∧
    ((Command.load "g.json" none).run false busy lost).state = busy ∧
    ((Command.lookahead (some 2)).run false busy lost).reply = .ok (.said "Lookahead: 2") ∧
    InLane (.lookahead (some 2)) busy ((Command.lookahead (some 2)).run false busy lost).state := by
  have hfails : ((Command.load "g.json" none).run false busy lost).reply =
      .error (.invalidGrammar "g.json" (.unknownContext "way" "nowhere")) := by decide +kernel
  have hdone : ((Command.lookahead (some 2)).run false busy lost).reply =
      .ok (.said "Lookahead: 2") := by decide +kernel
  exact ⟨hfails, ((command_keeps_lane false busy lost _).2.1 _ hfails).1, hdone,
    (command_keeps_lane false busy lost _).2.2 _ hdone⟩

end Phrasebook.Shell
