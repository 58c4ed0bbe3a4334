import Mathlib.Tactic.SplitIfs
import Phrasebook.Proofs.GrammarFile
import Phrasebook.Proofs.Settings.Stored
import Phrasebook.Shell.Session

/-!
What a command does. A command that fails leaves the state and the files as they were; each of the others
changes what it is about and nothing else. Only four commands can change the grammar, its place or a file.
-/

namespace Phrasebook.Shell
open Terminal (Colors)

variable {colors : Colors} {s : State} {t : FileTree} {c : Command} {line : String}

def Command.stores : Command → Bool
  | .save _ => true
  | c => c.changesGrammar

/-- The state and the files after a command that succeeds. -/
inductive Effect (s : State) (t : FileTree) : Command → State → FileTree → Prop
  | none {c : Command} (hc : c.stores = false) : Effect s t c s t
  | define {name : String} {texts : List String} {d : Dictionary}
      (answered : s.dictionary.define name (texts.map .written) = .ok d) :
      Effect s t (.define name texts) { s with dictionary := d } t
  | add {name pattern : String} {id : ScopeId} {d : Dictionary} (found : s.dictionary.find name = .ok id)
      (answered : s.dictionary.add id (.written pattern) = .ok d) :
      Effect s t (.add name pattern) { s with dictionary := d } t
  | scope {name : String} : Effect s t (.scope (some name)) { s with scope := some name } t
  | lookahead {value : Nat} : Effect s t (.lookahead (some value)) { s with lookahead := value } t
  | limit {value : Option Nat} : Effect s t (.limit value) { s with limit := value } t
  | load {path : String} {format : Option Format} {file : GrammarFile}
      (opened : GrammarFile.load t path format = .ok file) :
      Effect s t (.load path format) (s.adopt file) t
  | save {path : Option String} {place : String} {t' : FileTree}
      (chosen : (path <|> s.grammarPath) = some place)
      (written : t.write place (s.grammar.encode (Format.ofPath place)) = .ok t') :
      Effect s t (.save path) { s with grammarPath := some place } t'

theorem Effect.of_load {path : String} {format : Option Format} {s' : State} {t' : FileTree}
    (h : Effect s t (.load path format) s' t') :
    ∃ file, GrammarFile.load t path format = .ok file ∧ s' = s.adopt file ∧ t' = t := by
  cases h with
  | none hc => cases hc
  | load opened => exact ⟨_, opened, rfl, rfl⟩

theorem Effect.of_save {path : Option String} {s' : State} {t' : FileTree}
    (h : Effect s t (.save path) s' t') :
    ∃ place, (path <|> s.grammarPath) = some place ∧
      t.write place (s.grammar.encode (Format.ofPath place)) = .ok t' ∧
      s' = { s with grammarPath := some place } := by
  cases h with
  | none hc => cases hc
  | save chosen written => exact ⟨_, chosen, written, rfl⟩

/-- What comes of a command: it fails and nothing changes, or it has its effect. Only one command leaves
the shell. -/
inductive Comes (s : State) (t : FileTree) (c : Command) : Result → Prop
  | failed (f : Failure) : Comes s t c (.fail s t f)
  | done {s' : State} {t' : FileTree} {reply : Reply} (effect : Effect s t c s' t')
      (leaves : reply = .leave ↔ c = .exit) : Comes s t c ⟨s', t', .ok reply⟩

theorem comes_say {s' : State} (effect : Effect s t c s' t) (hc : c ≠ .exit) (text : String) :
    Comes s t c (.say s' t text) :=
  .done effect ⟨nofun, fun h => absurd h hc⟩

theorem reply_tell (s : State) (t : FileTree) (answer : Except Failure String) :
    (Result.tell s t answer).reply = answer.map .said := by
  cases answer <;> rfl

theorem comes_tell (hstores : c.stores = false) (hc : c ≠ .exit) (answer : Except Failure String) :
    Comes s t c (.tell s t answer) := by
  cases answer with
  | ok text => exact comes_say (.none hstores) hc text
  | error f => exact .failed f

theorem comes_remove (name pattern : String) :
    Comes s t (.remove name pattern) (removePattern s t name pattern) := by
  unfold removePattern
  split
  · exact .failed _
  · rename_i d hd
    obtain ⟨id, -, hd⟩ := bind_eq_ok_iff.1 hd
    exact absurd hd Dictionary.remove_ne_ok

theorem comes_run (colors : Colors) (s : State) (t : FileTree) (c : Command) :
    Comes s t c (c.run colors s t) := by
  cases c with
  | suggest input => exact comes_tell rfl (by simp) _
  | walks input => exact comes_tell rfl (by simp) _
  | add name pattern =>
    simp only [Command.run, addPattern]
    split
    · exact .failed _
    · rename_i d hd
      obtain ⟨id, hfound, hadd⟩ := bind_eq_ok_iff.1 hd
      exact comes_say (.add hfound hadd) (by simp) _
  | define name texts =>
    simp only [Command.run, defineScope]
    split
    · exact .failed _
    · exact comes_say (.define ‹_›) (by simp) _
  | remove name pattern => exact comes_remove name pattern
  | scope name =>
    cases name with
    | none => exact comes_tell rfl (by simp) _
    | some name =>
      simp only [Command.run, selectScope]
      split
      · exact .failed _
      · exact comes_say .scope (by simp) _
  | scopes => exact comes_say (.none rfl) (by simp) _
  | patterns name => exact comes_tell rfl (by simp) _
  | lookahead value =>
    cases value with
    | none => exact comes_say (.none rfl) (by simp) _
    | some value => exact comes_say .lookahead (by simp) _
  | limit value => exact comes_say .limit (by simp) _
  | load path format =>
    simp only [Command.run, loadGrammar]
    split
    · exact .failed _
    · exact comes_say (.load ‹_›) (by simp) _
  | save path =>
    simp only [Command.run, saveGrammar]
    split
    · exact .failed _
    · rename_i place hplace
      split
      · rename_i t' f hsave
        unfold GrammarFile.save at hsave
        split at hsave <;> cases hsave
        exact .failed _
      · exact .done (.save hplace (GrammarFile.save_eq_ok_iff.1 ‹_›)) (by simp)
  | stats => exact comes_say (.none rfl) (by simp) _
  | settings => exact comes_say (.none rfl) (by simp) _
  | help topic => cases topic <;> exact comes_say (.none rfl) (by simp) _
  | exit => exact .done (.none rfl) ⟨fun _ => rfl, fun _ => rfl⟩

theorem effect_of_ok {reply : Reply} (h : (c.run colors s t).reply = .ok reply) :
    Effect s t c (c.run colors s t).state (c.run colors s t).files := by
  have hcomes := comes_run colors s t c
  generalize c.run colors s t = r at h hcomes
  cases hcomes with
  | failed f => cases h
  | done effect _ => exact effect

theorem unchanged_of_error {f : Failure} (h : (c.run colors s t).reply = .error f) :
    (c.run colors s t).state = s ∧ (c.run colors s t).files = t := by
  have hcomes := comes_run colors s t c
  generalize c.run colors s t = r at h hcomes
  cases hcomes with
  | failed f => exact ⟨rfl, rfl⟩
  | done effect _ => cases h

theorem leaves_iff : (c.run colors s t).reply = .ok .leave ↔ c = .exit := by
  have hcomes := comes_run colors s t c
  constructor
  · intro h
    generalize c.run colors s t = r at h hcomes
    cases hcomes with
    | failed f => cases h
    | done _ leaves => exact leaves.1 (Except.ok.inj h)
  · rintro rfl
    rfl

end Phrasebook.Shell
