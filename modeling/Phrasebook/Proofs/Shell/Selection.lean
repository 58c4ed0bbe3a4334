import Phrasebook.Proofs.Dictionary.Growth
import Phrasebook.Proofs.Shell.Effects

/-!
The scope that a shell asks. A scope is selected only if it is there, no command takes a scope away, and a
grammar that is loaded keeps the selection only if it has the scope. So whatever commands are given, and
whatever the files hold, a question fails only as long as there is no scope at all.
-/

namespace Phrasebook
open Terminal (Colors)

namespace Dictionary

variable {d : Dictionary} {name : String} {named : Option String} {f : Failure}

theorem findScope_eq_error_iff : d.findScope name = .error f ↔
    f = .refused (.unknownScope name) ∧ name ∉ d.names := by
  rw [findScope, find, ← isSome_resolve?_iff]
  cases d.resolve? name <;> simp [eq_comm]

theorem mem_names_of_chooseScope (h : d.chooseScope named = .ok name) : name ∈ d.names := by
  unfold chooseScope at h
  split at h
  · split_ifs at h with hknown
    cases h
    exact isSome_resolve?_iff.1 hknown
  · split_ifs at h with hmain
    · cases h
      exact isSome_resolve?_iff.1 hmain
    · split at h <;> cases h
      simp [*]

theorem chooseScope_eq_error_iff (h : ∀ name, named = some name → name ∈ d.names) :
    d.chooseScope named = .error f ↔ f = .noScopes ∧ d.names = [] := by
  cases named with
  | some name =>
    have hname := h name rfl
    simp [chooseScope, isSome_resolve?_iff, hname, List.ne_nil_of_mem hname]
  | none =>
    simp only [chooseScope, isSome_resolve?_iff]
    split_ifs with hmain
    · simp [List.ne_nil_of_mem hmain]
    · cases d.names <;> simp [eq_comm]

end Dictionary

namespace Shell

variable {colors : Colors} {s s' : State} {t t' : FileTree} {c : Command} {name : String} {f : Failure}

/-- Commands lead to the state, each of them with its own files. -/
inductive Reached : State → Prop
  | fresh : Reached {}
  | command {s : State} (before : Reached s) (colors : Colors) (t : FileTree) (c : Command) :
      Reached (c.run colors s t).state

def State.SelectsKnown (s : State) : Prop := ∀ name, s.scope = some name → name ∈ s.dictionary.names

theorem mem_names_of_select {reply : Reply}
    (h : ((Command.scope (some name)).run colors s t).reply = .ok reply) : name ∈ s.dictionary.names := by
  by_contra hnew
  have hunknown : s.dictionary.findScope name = .error (.refused (.unknownScope name)) :=
    Dictionary.findScope_eq_error_iff.2 ⟨rfl, hnew⟩
  simp only [Command.run, selectScope, hunknown] at h
  cases h

namespace State.SelectsKnown

theorem growth (hs : s.SelectsKnown) (hgrowth : s.dictionary.Growth s'.dictionary)
    (hscope : s'.scope = s.scope) : s'.SelectsKnown := by
  intro name hname
  obtain ⟨id, hid⟩ := Dictionary.mem_names_iff.1 (hs name (hscope ▸ hname))
  exact Dictionary.mem_names_iff.2 ⟨id, hgrowth.resolve? hid⟩

theorem adopt (s : State) (file : GrammarFile) : (s.adopt file).SelectsKnown := by
  intro name hname
  obtain ⟨-, hknown⟩ := Option.filter_eq_some_iff.1 hname
  exact Dictionary.isSome_resolve?_iff.1 hknown

theorem run (hs : s.SelectsKnown) (colors : Colors) (t : FileTree) (c : Command) :
    (c.run colors s t).state.SelectsKnown := by
  cases hreply : (c.run colors s t).reply with
  | error f =>
    rw [(unchanged_of_error hreply).1]
    exact hs
  | ok reply =>
    have heffect := effect_of_ok hreply
    generalize (c.run colors s t).state = s', (c.run colors s t).files = t' at heffect ⊢
    cases heffect with
    | none | lookahead | limit | save => exact hs
    | @define name texts d answered =>
      exact hs.growth (.answer (c := .define name (texts.map .written)) answered) rfl
    | @add name pattern id d found answered =>
      exact hs.growth (.answer (c := .add name (.written pattern))
        (bind_eq_ok_iff.2 ⟨id, found, answered⟩)) rfl
    | @scope name =>
      intro name' hname
      cases hname
      have hknown := mem_names_of_select hreply
      exact hknown
    | load => exact adopt s _

end State.SelectsKnown

theorem Reached.selectsKnown (h : Reached s) : s.SelectsKnown := by
  induction h with
  | fresh => exact nofun
  | command _ colors t c ih => exact ih.run colors t c

theorem Reached.commands (h : Reached s) (colors : Colors) (t : FileTree) (cs : List Command) :
    Reached (cs.foldl (fun s c => (c.run colors s t).state) s) := by
  induction cs generalizing s with
  | nil => exact h
  | cons c cs ih => exact ih (h.command colors t c)

theorem exists_findScope_of_currentScope (h : s.currentScope = .ok name) :
    ∃ id, s.dictionary.findScope name = .ok id := by
  have hknown := Dictionary.mem_names_of_chooseScope h
  cases hfind : s.dictionary.findScope name with
  | ok id => exact ⟨id, rfl⟩
  | error f => exact absurd hknown (Dictionary.findScope_eq_error_iff.1 hfind).2

theorem suggestText_eq_error_iff {input : List String} :
    suggestText colors s input = .error f ↔ s.currentScope = .error f := by
  cases hcurrent : s.currentScope with
  | error f' => simp [suggestText, State.suggest, hcurrent, bind, Except.bind]
  | ok name =>
    obtain ⟨id, hid⟩ := exists_findScope_of_currentScope hcurrent
    simp only [suggestText, State.suggest, Dictionary.consult, hcurrent, hid, bind, Except.bind]
    split_ifs <;> simp

theorem walksText_eq_error_iff {input : List String} :
    walksText colors s input = .error f ↔ s.currentScope = .error f := by
  cases hcurrent : s.currentScope with
  | error f' => simp [walksText, State.walks, hcurrent, bind, Except.bind]
  | ok name =>
    obtain ⟨id, hid⟩ := exists_findScope_of_currentScope hcurrent
    simp only [walksText, State.walks, hcurrent, hid, bind, Except.bind]
    split_ifs <;> simp

theorem reply_tell_eq_error_iff {answer : Except Failure String} :
    (Result.tell s t answer).reply = .error f ↔ answer = .error f := by
  rw [reply_tell]
  cases answer <;> simp [Except.map]

/-- In every state that commands lead to, the selected scope is there, and a question fails only where
there is no scope. -/
theorem selected_scope_exists (h : Reached s) :
    (∀ name, s.scope = some name → name ∈ s.dictionary.names) ∧
    (∀ f, s.currentScope = .error f ↔ f = .noScopes ∧ s.dictionary.names = []) ∧
    ∀ colors t input f,
      (((Command.suggest input).run colors s t).reply = .error f ↔
        f = .noScopes ∧ s.dictionary.names = []) ∧
      (((Command.walks input).run colors s t).reply = .error f ↔
        f = .noScopes ∧ s.dictionary.names = []) := by
  have hknown := h.selectsKnown
  have hcurrent : ∀ f, s.currentScope = .error f ↔ f = .noScopes ∧ s.dictionary.names = [] :=
    fun f => Dictionary.chooseScope_eq_error_iff hknown
  refine ⟨hknown, hcurrent, fun colors t input f => ⟨?_, ?_⟩⟩
  · rw [Command.run, reply_tell_eq_error_iff, suggestText_eq_error_iff, hcurrent]
  · rw [Command.run, reply_tell_eq_error_iff, walksText_eq_error_iff, hcurrent]

def hamlet : FileTree := ⟨["desk"],
  [(["desk", "inn.json"], .file ((⟨.single "inn" []⟩ : Grammar).encode .json)), (["desk"], .directory)]⟩

def settling : List Command :=
  [.define "shop" ["open"], .scope (some "shop"), .load "shop.json" none]

def visit (cs : List Command) : State := cs.foldl (fun s c => (c.run false s hamlet).state) {}

theorem selected_scope_exists_settling : Reached (visit settling) ∧
    (visit settling).scope = some "shop" ∧ "shop" ∈ (visit settling).dictionary.names ∧
    (visit (settling ++ [.load "inn.json" none])).scope = none ∧
    ∀ f, ((Command.suggest []).run false (visit (settling ++ [.load "inn.json" none])) hamlet).reply ≠
      .error f := by
  have hreached := Reached.fresh.commands false hamlet settling
  have hselected : (visit settling).scope = some "shop" := by decide +kernel
  have hloaded := Reached.fresh.commands false hamlet (settling ++ [.load "inn.json" none])
  have hnames : (visit (settling ++ [.load "inn.json" none])).dictionary.names = ["inn"] := by
    decide +kernel
  obtain ⟨hknown, -⟩ := selected_scope_exists hreached
  obtain ⟨-, -, hasked⟩ := selected_scope_exists hloaded
  refine ⟨hreached, hselected, hknown _ hselected, by decide +kernel, fun f hf => ?_⟩
  obtain ⟨-, hempty⟩ := (hasked false hamlet [] f).1.1 hf
  exact absurd (hnames.symm.trans hempty) (by decide)

end Shell
end Phrasebook
