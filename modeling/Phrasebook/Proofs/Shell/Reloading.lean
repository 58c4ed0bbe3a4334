import Phrasebook.Proofs.Shell.Effects

/-!
A grammar saved and loaded again in one session. The patterns of every scope are what they were, and so is
every answer of the same scope. Only the scope that is asked when none is selected may be another one: the
scopes come back in the order of their names, and the first of them is asked.
-/

namespace Phrasebook

variable {ρ : ScopeId → ScopeId} {d d' : Dictionary}

theorem Segment.shown_renumber (colors : Terminal.Colors) (x : Segment) :
    (x.renumber ρ).shown colors = x.shown colors := by
  cases x <;> rfl

theorem Suggestion.shown_renumber (colors : Terminal.Colors) (typed : String) (s : Suggestion) :
    (s.renumber ρ).shown colors typed = s.shown colors typed := by
  simp only [shown, renumber, List.isEmpty_map, List.map_map, Function.comp_def,
    Segment.shown_renumber]

theorem atMost_map {α β : Type} (f : α → β) (limit : Option Nat) (l : List α) :
    atMost limit (l.map f) = (atMost limit l).map f := by
  cases limit with
  | none => rfl
  | some n => exact (List.map_take ..).symm

namespace Dictionary

theorem Alike.isSome_resolve? (h : d.Alike ρ d') (name : String) :
    (d'.resolve? name).isSome = (d.resolve? name).isSome := by
  rw [h.resolve?, Option.isSome_map]

theorem Alike.consult (h : d.Alike ρ d') (scope : String) (input : List Word) (lookahead : Nat)
    (limit : Option Nat) : d'.consult scope input lookahead limit =
      (d.consult scope input lookahead limit).map (·.map (Suggestion.renumber ρ)) := by
  have hresolve := h.resolve? scope
  unfold Dictionary.consult findScope find
  rw [hresolve]
  cases d.resolve? scope with
  | none => rfl
  | some id =>
    refine congrArg Except.ok ?_
    rw [h.suggest, atMost_map]

theorem patterns_of_capture_eq (hd : d.names.Nodup) (hd' : d'.names.Nodup)
    (h : Grammar.capture d' = Grammar.capture d) (name : String) :
    (d'.resolve? name).map d'.patterns = (d.resolve? name).map d.patterns := by
  have hmem {d : Dictionary} (hd : d.names.Nodup) (patterns : List Pattern) :
      (d.resolve? name).map d.patterns = some patterns ↔
        (name, patterns) ∈ (Grammar.capture d).scopes.entries := by
    rw [Grammar.mem_capture_iff hd, Option.map_eq_some_iff]
    exact exists_congr fun id => and_congr_right fun _ => eq_comm
  exact Option.ext fun patterns => by rw [hmem hd', h, hmem hd]

end Dictionary

namespace Shell
open Terminal (Colors)

variable {colors : Colors} {s s' : State} {t : FileTree} {path : String} {file : GrammarFile}

theorem suggestText_of_alike (halike : s.dictionary.Alike ρ s'.dictionary)
    (hscope : s'.currentScope = s.currentScope) (hlookahead : s'.lookahead = s.lookahead)
    (hlimit : s'.limit = s.limit) (input : List String) :
    suggestText colors s' input = suggestText colors s input := by
  unfold suggestText State.suggest
  rw [hscope, hlookahead, hlimit]
  cases s.currentScope with
  | error f => simp only [bind, Except.bind]
  | ok scope =>
    simp only [bind, Except.bind, halike.consult]
    cases s.dictionary.consult scope (wordsOf input) s.lookahead s.limit with
    | error f => simp only [Except.map]
    | ok found =>
      simp only [Except.map, List.isEmpty_map, List.map_map, Function.comp_def,
        Suggestion.shown_renumber, List.length_map]

/-- Which scope is asked does not depend on the order of the scopes: one is selected, there is a main
one, or the one that was registered first is first by name as well. -/
def State.Settled (s : State) : Prop :=
  s.scope.isSome = true ∨ (s.dictionary.resolve? Dictionary.mainScope).isSome = true ∨
    s.dictionary.names.head? = s.grammar.scopes.names.head?

theorem currentScope_of_none (hscope : s.scope = none)
    (hmain : (s.dictionary.resolve? Dictionary.mainScope).isSome = false) :
    s.currentScope = s.dictionary.names.head?.elim (.error .noScopes) .ok := by
  unfold State.currentScope Dictionary.chooseScope
  simp only [hscope, hmain, Bool.false_eq_true, if_false]
  cases s.dictionary.names <;> rfl

theorem currentScope_adopt (hnodup : s.dictionary.names.Nodup) (hfile : file.Holds s.dictionary)
    (hscope : ∀ name, s.scope = some name → (s.dictionary.resolve? name).isSome = true) :
    (s.Settled → (s.adopt file).currentScope = s.currentScope) ∧
      (¬ s.Settled → ∃ name, s.grammar.scopes.names.head? = some name ∧
        (s.adopt file).currentScope = .ok name) := by
  obtain ⟨ρ, halike⟩ := hfile.alike
  have hmain := halike.isSome_resolve? Dictionary.mainScope
  cases hselected : s.scope with
  | some name =>
    have hdefined := hscope name hselected
    have hkept : (s.adopt file).scope = some name := by
      simp [State.adopt, hselected, halike.isSome_resolve?, hdefined]
    refine ⟨fun _ => ?_, fun h => absurd (.inl (by simp [hselected])) h⟩
    simp only [State.currentScope, Dictionary.chooseScope, hkept, hselected]
    simp only [State.adopt, halike.isSome_resolve?]
  | none =>
    have hkept : (s.adopt file).scope = none := by
      simp [State.adopt, hselected]
    cases hmain' : (s.dictionary.resolve? Dictionary.mainScope).isSome with
    | true =>
      refine ⟨fun _ => ?_, fun h => absurd (.inr (.inl hmain')) h⟩
      simp only [State.currentScope, Dictionary.chooseScope, hkept, hselected]
      simp only [State.adopt, hmain, hmain', if_true]
    | false =>
      have hbefore := currentScope_of_none hselected hmain'
      have hafter := currentScope_of_none (s := s.adopt file) hkept (hmain.trans hmain')
      have hnames : (s.adopt file).dictionary.names = s.grammar.scopes.names := hfile.names
      rw [hnames] at hafter
      refine ⟨fun h => ?_, fun h => ?_⟩
      · have hhead : s.dictionary.names.head? = s.grammar.scopes.names.head? := by
          simpa [State.Settled, hselected, hmain'] using h
        rw [hafter, hbefore, hhead]
      · cases hhead : s.grammar.scopes.names.head? with
        | some name => exact ⟨name, rfl, by rw [hafter, hhead]; rfl⟩
        | none =>
          have hempty : s.grammar.scopes.names = [] := List.head?_eq_none_iff.1 hhead
          have hperm := Grammar.perm_names_capture hnodup
          rw [← State.grammar, hempty] at hperm
          exact absurd (.inr (.inr (by rw [hperm.eq_nil, hempty]))) h

theorem reply_suggest (s : State) (t : FileTree) (input : List String) :
    ((Command.suggest input).run colors s t).reply = (suggestText colors s input).map .said := by
  rw [Command.run, reply_tell]

theorem adopts_saved (hmade : s.dictionary.Made)
    (hstorable : s.grammar.Storable (Format.ofPath path)) {saved loaded : Result}
    (hsave : (Command.save (some path)).run colors s t = saved)
    (hload : (Command.load path none).run colors saved.state saved.files = loaded)
    {answer answer' : Reply} (hsaved : saved.reply = .ok answer) (hloaded : loaded.reply = .ok answer') :
    ∃ file, file.Holds s.dictionary ∧ loaded.state = s.adopt file := by
  have hsave : Effect s t (.save (some path)) saved.state saved.files := by
    subst hsave
    exact effect_of_ok hsaved
  have hload : Effect saved.state saved.files (.load path none) loaded.state loaded.files := by
    subst hload
    exact effect_of_ok hloaded
  obtain ⟨_, hplace, hwrite, hstate⟩ := hsave.of_save
  cases hplace
  obtain ⟨file, hfile, hadopted, -⟩ := hload.of_load
  refine ⟨file, (GrammarFile.holds_of_load hmade hstorable (FileTree.read_write hwrite) hfile).2, ?_⟩
  rw [hadopted, hstate]
  rfl

/-- Saving a grammar and loading it again is not seen by any question, as long as the same scope is
asked. If none is selected and there is no main one, the first by name is asked afterwards. -/
theorem reload_answers (hmade : s.dictionary.Made)
    (hscope : ∀ name, s.scope = some name → (s.dictionary.resolve? name).isSome = true)
    (hstorable : s.grammar.Storable (Format.ofPath path)) {saved loaded : Result}
    (hsave : (Command.save (some path)).run colors s t = saved)
    (hload : (Command.load path none).run colors saved.state saved.files = loaded)
    {answer answer' : Reply} (hsaved : saved.reply = .ok answer) (hloaded : loaded.reply = .ok answer') :
    (∀ name, (loaded.state.dictionary.resolve? name).map loaded.state.dictionary.patterns =
      (s.dictionary.resolve? name).map s.dictionary.patterns) ∧
    (s.Settled → loaded.state.currentScope = s.currentScope ∧
      ∀ input, ((Command.suggest input).run colors loaded.state loaded.files).reply =
        ((Command.suggest input).run colors s t).reply) ∧
    (¬ s.Settled → ∃ name, s.grammar.scopes.names.head? = some name ∧
      loaded.state.currentScope = .ok name ∧
      ∀ input, ((Command.suggest input).run colors loaded.state loaded.files).reply =
        ((Command.suggest input).run colors { s with scope := some name } t).reply) := by
  obtain ⟨file, hholds, hadopted⟩ := adopts_saved hmade hstorable hsave hload hsaved hloaded
  have hnodup := hmade.names_nodup
  have hnodup' : file.dictionary.names.Nodup := hholds.names ▸ NameMap.names_nodup _
  obtain ⟨ρ, halike⟩ := hholds.alike
  obtain ⟨hsettled, hunsettled⟩ := currentScope_adopt hnodup hholds hscope
  rw [hadopted]
  simp only [reply_suggest]
  refine ⟨Dictionary.patterns_of_capture_eq hnodup hnodup' hholds.captured, fun h => ?_, fun h => ?_⟩
  · refine ⟨hsettled h, fun input => ?_⟩
    rw [suggestText_of_alike (s := s) halike (hsettled h) rfl rfl]
  · obtain ⟨name, hhead, hcurrent⟩ := hunsettled h
    have hdefined : (s.dictionary.resolve? name).isSome = true := by
      rw [Option.isSome_iff_exists, ← Dictionary.mem_names_iff, ← Grammar.mem_names_capture_iff hnodup]
      exact List.mem_of_mem_head? hhead
    have hselected : State.currentScope { s with scope := some name } = .ok name := by
      simp only [State.currentScope, Dictionary.chooseScope, hdefined, if_true]
    refine ⟨name, hhead, hcurrent, fun input => ?_⟩
    rw [suggestText_of_alike (s := { s with scope := some name }) halike
      (hcurrent.trans hselected.symm) rfl rfl]

theorem exists_loaded {d : Dictionary} {format : Format} (hmade : d.Made)
    (hstorable : (Grammar.capture d).Storable format)
    (hread : t.read path = .ok ((Grammar.capture d).encode format))
    (hlooks : ¬ (format = .binary ∧ Detection.LooksLikeObject (Grammar.capture d).scopes.size))
    (s : State) : ∃ reply, ((Command.load path none).run colors s t).reply = .ok reply := by
  have hdetect := Grammar.detect_of_read hread hstorable
  rw [if_neg hlooks] at hdetect
  obtain ⟨file, hfile⟩ := GrammarFile.exists_load hmade hstorable hread hdetect rfl
  simp only [Command.run, loadGrammar, hfile]
  exact ⟨_, rfl⟩

def shelf : Dictionary := .ofCalls [.define "b" [.written "x"], .define "a" [.written "y"]]

theorem made_shelf : shelf.Made := ⟨_, rfl⟩

theorem storable_shelf : (Grammar.capture shelf).Storable .json := by
  unfold Grammar.Storable
  decide +kernel

def shelved : FileTree := Grammar.desk.put ["desk", "g.json"]
  (.file ((Grammar.capture shelf).encode .json))

theorem run_save_shelf {s : State} (h : s.dictionary = shelf) :
    (Command.save (some "g.json")).run false s Grammar.desk =
      .say { s with grammarPath := some "g.json" } shelved "Saved grammar to g.json" := by
  simp only [Command.run, saveGrammar, State.grammar, h]
  rfl

theorem exists_loaded_shelf (s : State) :
    ∃ reply, ((Command.load "g.json" none).run false s shelved).reply = .ok reply := by
  have hwrite : Grammar.desk.write "g.json" ((Grammar.capture shelf).encode .json) = .ok shelved := rfl
  exact exists_loaded made_shelf storable_shelf (FileTree.read_write hwrite) (by decide) s

theorem reload_answers_shelf : ∃ saved loaded : Result,
    (Command.save (some "g.json")).run false { dictionary := shelf, scope := some "b" } Grammar.desk =
      saved ∧
    (Command.load "g.json" none).run false saved.state saved.files = loaded ∧
    loaded.state.currentScope = .ok "b" ∧
    ∀ input, ((Command.suggest input).run false loaded.state loaded.files).reply =
      ((Command.suggest input).run false { dictionary := shelf, scope := some "b" } Grammar.desk).reply := by
  have hsave := run_save_shelf (s := { dictionary := shelf, scope := some "b" }) rfl
  have hstorable : (State.grammar { dictionary := shelf, scope := some "b" }).Storable
    (Format.ofPath "g.json") := storable_shelf
  have hscope : ∀ name, some "b" = some name → (shelf.resolve? name).isSome = true := by
    intro name hname
    cases hname
    decide +kernel
  obtain ⟨reply, hloaded⟩ := exists_loaded_shelf
    { dictionary := shelf, scope := some "b", grammarPath := some "g.json" }
  have hanswers := reload_answers (s := { dictionary := shelf, scope := some "b" }) made_shelf
    hscope hstorable hsave rfl rfl hloaded
  obtain ⟨hcurrent, hsuggest⟩ := hanswers.2.1 (.inl rfl)
  refine ⟨_, _, hsave, rfl, hcurrent.trans ?_, hsuggest⟩
  simp only [State.currentScope, Dictionary.chooseScope, hscope "b" rfl, if_true]

theorem reload_asks_another : ∃ saved loaded : Result, ∃ answer answer' : Reply,
    (Command.save (some "g.json")).run false { dictionary := shelf } Grammar.desk = saved ∧
    (Command.load "g.json" none).run false saved.state saved.files = loaded ∧
    saved.reply = .ok answer ∧ loaded.reply = .ok answer' ∧
    State.currentScope { dictionary := shelf } = .ok "b" ∧ loaded.state.currentScope = .ok "a" := by
  have hsave := run_save_shelf (s := { dictionary := shelf }) rfl
  have hstorable : (State.grammar { dictionary := shelf }).Storable (Format.ofPath "g.json") :=
    storable_shelf
  have hmain : (shelf.resolve? Dictionary.mainScope).isSome = false := by decide +kernel
  have hfirst : shelf.names.head? = some "b" := by decide +kernel
  have hsorted : (Grammar.capture shelf).scopes.names.head? = some "a" := by decide +kernel
  obtain ⟨reply, hloaded⟩ := exists_loaded_shelf { dictionary := shelf, grammarPath := some "g.json" }
  obtain ⟨file, hholds, hadopted⟩ := adopts_saved (s := { dictionary := shelf }) made_shelf hstorable
    hsave rfl rfl hloaded
  have hunsettled : ¬ State.Settled { dictionary := shelf } := by
    simp [State.Settled, State.grammar, hmain, hfirst, hsorted]
  obtain ⟨name, hhead, hcurrent⟩ :=
    (currentScope_adopt (s := { dictionary := shelf }) made_shelf.names_nodup hholds nofun).2 hunsettled
  cases hsorted.symm.trans hhead
  refine ⟨_, _, _, reply, hsave, rfl, rfl, hloaded, ?_, hadopted ▸ hcurrent⟩
  rw [currentScope_of_none rfl hmain, hfirst]
  rfl

end Shell
end Phrasebook
