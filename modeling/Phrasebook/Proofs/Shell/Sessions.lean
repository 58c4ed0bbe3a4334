import Phrasebook.Proofs.Shell.Effects
import Phrasebook.Program

/-!
Whole sessions. A session does the commands of its lines, one after the other, up to the one that leaves.
At every moment its dictionary is one that calls lead to, and its settings can be kept and read again.
-/

namespace Phrasebook
open Terminal (Colors)

theorem readCount_lt {text : String} {n : Nat} (h : readCount text = .ok n) : n < Json.wordLimit := by
  have hdigits : ∀ (cs : List Char) (m : Nat), m < Json.wordLimit → readCount.digits m cs = .ok n →
      n < Json.wordLimit := by
    intro cs
    induction cs with
    | nil =>
      intro m hm h
      cases h
      exact hm
    | cons c cs ih =>
      intro m _ h
      rw [readCount.digits] at h
      split_ifs at h with _ hfits
      exact ih _ (Nat.not_le.1 hfits) h
  unfold readCount at h
  split at h
  · cases h
  · cases h
  · exact hdigits _ 0 (by decide) h
  · exact hdigits _ 0 (by decide) h

theorem eq_some_of_orElse {α : Type} {x y : Option α} {a : α} (h : (x <|> y) = some a) :
    x = some a ∨ y = some a := by
  cases x with
  | none => exact .inr h
  | some b => exact .inl h

theorem Settings.Counted.override {stored given : Settings} (hstored : stored.Counted)
    (hgiven : given.Counted) : (stored.override given).Counted where
  lookahead := fun n h =>
    (eq_some_of_orElse h).elim (hgiven.lookahead n) (hstored.lookahead n)
  limit := fun n h => (eq_some_of_orElse h).elim (hgiven.limit n) (hstored.limit n)

namespace Shell

variable {colors : Colors} {around : Surroundings} {s s' : State} {t t' : FileTree} {c : Command}
  {line : String}

namespace Command

def InWords : Command → Prop
  | .lookahead value | .limit value => ∀ n, value = some n → n < Json.wordLimit
  | _ => True

theorem inWords_lookahead {args : List String} {value : Option Nat} (h : readLookahead args = .ok value) :
    (lookahead value).InWords := by
  rintro n rfl
  cases args with
  | nil => cases h
  | cons text args =>
    simp only [readLookahead] at h
    split at h
    · cases h
      exact readCount_lt ‹_›
    · cases h

theorem inWords_limit {args : List String} {value : Option Nat} (h : readLimit args = .ok value) :
    (limit value).InWords := by
  rintro n rfl
  cases args with
  | nil => cases h
  | cons text args =>
    simp only [readLimit] at h
    split_ifs at h
    · cases h
    · split at h
      · cases h
        exact readCount_lt ‹_›
      · cases h

theorem inWords_of_ofArguments {args : List String} {verb : Verb} (h : ofArguments args verb = .ok c) :
    c.InWords := by
  cases verb with
  | lookahead =>
    obtain ⟨value, hvalue, h⟩ := bind_eq_ok_iff.1 h
    cases h
    exact inWords_lookahead hvalue
  | limit =>
    obtain ⟨value, hvalue, h⟩ := bind_eq_ok_iff.1 h
    cases h
    exact inWords_limit hvalue
  | load =>
    simp only [ofArguments] at h
    split at h
    · obtain ⟨format, -, h⟩ := bind_eq_ok_iff.1 h
      cases h
      trivial
    · cases h
  | add | define | remove =>
    simp only [ofArguments] at h
    split at h <;> cases h
    trivial
  | suggest | walks | scope | scopes | patterns | save | stats | settings | help | exit =>
    cases h
    trivial

theorem inWords_of_read (h : read line = .ok c) : c.InWords := by
  unfold read at h
  split at h
  · cases h
  · simp only at h
    split at h
    · exact inWords_of_ofArguments h
    · cases h

end Command

structure State.Sound (s : State) : Prop where
  made : s.dictionary.Made
  counted : s.settings.Counted

theorem State.Sound.effect (hs : s.Sound) (hc : c.InWords) (h : Effect s t c s' t') : s'.Sound := by
  obtain ⟨hmade, hcounted⟩ := hs
  cases h with
  | none => exact ⟨hmade, hcounted⟩
  | @define name texts d answered =>
    exact ⟨hmade.answer (c := .define name (texts.map .written)) answered, hcounted⟩
  | @add name pattern id d found answered =>
    exact ⟨hmade.answer (c := .add name (.written pattern)) (bind_eq_ok_iff.2 ⟨id, found, answered⟩),
      hcounted⟩
  | scope => exact ⟨hmade, hcounted.lookahead, hcounted.limit⟩
  | @lookahead value => exact ⟨hmade, hc, hcounted.limit⟩
  | limit => exact ⟨hmade, hcounted.lookahead, hc⟩
  | load opened =>
    obtain ⟨-, -, hbuild, -⟩ := GrammarFile.load_eq_ok_iff.1 opened
    exact ⟨(Grammar.made_of_build hbuild).1, hcounted.lookahead, hcounted.limit⟩
  | save => exact ⟨hmade, hcounted.lookahead, hcounted.limit⟩

structure State.Stays (s s' : State) : Prop where
  dictionary : s'.dictionary = s.dictionary
  format : s'.format = s.format
  grammarPath : s'.grammarPath = s.grammarPath

theorem Effect.stays (h : Effect s t c s' t') (hc : c.stores = false) : s.Stays s' ∧ t' = t := by
  cases h with
  | none | scope | lookahead | limit => exact ⟨⟨rfl, rfl, rfl⟩, rfl⟩
  | define | add | load | save => cases hc

theorem Effect.configPath (h : Effect s t c s' t') : s'.configPath = s.configPath := by
  cases h <;> rfl

def commands (lines : List String) : List Command :=
  (lines.filterMap fun line => (Command.read line).toOption).takeWhile (· ≠ .exit)

namespace Session

variable {session session' : Session} {lines : List String} {cs : List Command}

def perform (session : Session) (c : Command) : Session :=
  let r := c.run session.colors session.state session.files
  { session with state := r.state, files := r.files }

def Succeeds (session : Session) (c : Command) : Prop :=
  ∃ reply, (c.run session.colors session.state session.files).reply = .ok reply

theorem turn_of_error {f : Failure} (h : Command.read line = .error f) :
    ∃ printed, session.turn line = .next session printed := by
  unfold turn
  split_ifs
  · exact ⟨_, rfl⟩
  · rw [h]
    exact ⟨_, rfl⟩

theorem turn_of_read (h : Command.read line = .ok c) :
    (c = .exit → session.turn line = .leave session) ∧
      (c ≠ .exit → ∃ printed, session.turn line = .next (session.perform c) printed) := by
  have hwords : (Word.ofText line).isEmpty = false := by
    cases hline : Word.ofText line with
    | nil => simp [Command.read, parts, hline] at h
    | cons => rfl
  unfold turn
  simp only [hwords, h, Bool.false_eq_true, if_false]
  constructor
  · rintro rfl
    rfl
  · intro hc
    cases hreply : (c.run session.colors session.state session.files).reply with
    | error f =>
      exact ⟨_, rfl⟩
    | ok reply =>
      cases reply with
      | said text => exact ⟨_, rfl⟩
      | silent => exact ⟨_, rfl⟩
      | leave => exact absurd (leaves_iff.1 hreply) hc

theorem fst_turns (lines : List String) (session : Session) :
    (turns lines session).1 = (commands lines).foldl perform session := by
  induction lines generalizing session with
  | nil => rfl
  | cons line lines ih =>
    rw [turns]
    cases hread : Command.read line with
    | error f =>
      obtain ⟨printed, hturn⟩ := turn_of_error hread
      have hcommands : commands (line :: lines) = commands lines := by
        simp [commands, hread, Except.toOption]
      rw [hturn, hcommands]
      exact ih session
    | ok c =>
      obtain ⟨hleave, hnext⟩ := turn_of_read hread
      by_cases hc : c = .exit
      · have hcommands : commands (line :: lines) = [] := by
          simp [commands, hread, Except.toOption, hc]
        rw [hleave hc, hcommands]
        rfl
      · have hcommands : commands (line :: lines) = c :: commands lines := by
          simp [commands, hread, Except.toOption, hc]
        obtain ⟨printed, hturn⟩ := hnext hc
        rw [hturn, hcommands]
        exact ih _

theorem perform_cases (session : Session) (c : Command) :
    session.perform c = session ∨ session.Succeeds c ∧
      Effect session.state session.files c (session.perform c).state (session.perform c).files := by
  cases hreply : (c.run session.colors session.state session.files).reply with
  | error f =>
    obtain ⟨hstate, hfiles⟩ := unchanged_of_error hreply
    exact .inl (by rw [perform, hstate, hfiles])
  | ok reply => exact .inr ⟨⟨reply, hreply⟩, effect_of_ok hreply⟩

theorem inWords_of_mem_commands (h : c ∈ commands lines) : c.InWords := by
  have hmem := (List.takeWhile_sublist _).subset h
  obtain ⟨line, -, hline⟩ := List.mem_filterMap.1 hmem
  exact Command.inWords_of_read (toOption_eq_some_iff.1 hline)

structure Runs (session : Session) (colors : Colors) (around : Surroundings) (config : Option String) :
    Prop where
  colors : session.colors = colors
  around : session.around = around
  config : session.state.configPath = config
  sound : session.state.Sound

variable {config : Option String}

theorem Runs.perform (h : session.Runs colors around config) (hc : c.InWords) :
    (session.perform c).Runs colors around config := by
  rcases session.perform_cases c with hsame | ⟨-, heffect⟩
  · rwa [hsame]
  · exact ⟨h.colors, h.around, heffect.configPath.trans h.config, h.sound.effect hc heffect⟩

theorem Runs.foldl (h : session.Runs colors around config) (hcs : ∀ c ∈ cs, c.InWords) :
    (cs.foldl Session.perform session).Runs colors around config := by
  induction cs generalizing session with
  | nil => exact h
  | cons c cs ih =>
    obtain ⟨hc, hcs⟩ := List.forall_mem_cons.1 hcs
    exact ih (h.perform hc) hcs

theorem readGrammar_cases (session : Session) (settings : Settings) :
    (∃ t, (readGrammar session settings).1 = { session with files := t }) ∨
      ∃ t path file, GrammarFile.load t path settings.format = .ok file ∧
        (readGrammar session settings).1 =
          { session with files := t, state := session.state.adopt file } := by
  unfold readGrammar
  split
  · exact .inl ⟨_, rfl⟩
  · split_ifs
    · exact .inl ⟨_, rfl⟩
    · split
      · exact .inl ⟨_, rfl⟩
      · exact .inr ⟨_, _, _, ‹_›, rfl⟩

theorem runs_start (colors : Colors) (around : Surroundings) (t : FileTree) (config : Option String)
    {given : Settings} (hgiven : given.Counted) :
    (start colors around t config given).1.Runs colors around config := by
  have hsettings := (Settings.counted_loadOrOpen around t config).override hgiven
  have hlookahead : ∀ n, some (((Settings.loadOrOpen around t config).2.override given).lookahead.getD 0) =
      some n → n < Json.wordLimit := by
    intro n hn
    cases hn
    cases hstored : ((Settings.loadOrOpen around t config).2.override given).lookahead with
    | none => decide
    | some n => exact hsettings.lookahead n hstored
  unfold start
  simp only
  generalize hsession : (Session.mk colors around _ _ : Session) = session
  rcases readGrammar_cases session ((Settings.loadOrOpen around t config).2.override given) with
    ⟨t', heq⟩ | ⟨t', path, file, hfile, heq⟩
  · rw [heq]
    subst hsession
    exact ⟨rfl, rfl, rfl, Dictionary.made_empty, hlookahead, hsettings.limit⟩
  · obtain ⟨-, -, hbuild, -⟩ := GrammarFile.load_eq_ok_iff.1 hfile
    rw [heq]
    subst hsession
    exact ⟨rfl, rfl, rfl, (Grammar.made_of_build hbuild).1, hlookahead, hsettings.limit⟩

theorem runs_turns (colors : Colors) (around : Surroundings) (t : FileTree) (config : Option String)
    {given : Settings} (hgiven : given.Counted) (lines : List String) :
    (turns lines (start colors around t config given).1).1.Runs colors around config := by
  rw [fst_turns]
  exact (runs_start colors around t config hgiven).foldl fun _ => inWords_of_mem_commands

end Session

end Shell
end Phrasebook
