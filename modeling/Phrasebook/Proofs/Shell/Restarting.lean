import Mathlib.Tactic.FinCases
import Phrasebook.Proofs.Shell.Closing

/-!
A saved grammar in the next session. Saving tells the settings where the grammar is but not in which format
it was saved; at the end the format that the session had before is kept. So the grammar comes back exactly
if that format is the one that the name of its file suggests, and otherwise there is a warning. Where the
lines of the session are kept in the very file, the grammar is gone.
-/

namespace Phrasebook.Shell
open Terminal (Colors)

variable {colors : Colors} {around : Surroundings} {config path : Option String} {place : String}
  {t t' : FileTree} {format : Format} {c : Command}

namespace Session

variable {session session' : Session} {later : List Command}

def StoresNothing (session : Session) (later : List Command) : Prop :=
  ∀ before c after, later = before ++ c :: after → c.stores = true →
    ¬ (before.foldl perform session).Succeeds c

theorem StoresNothing.nil (session : Session) : session.StoresNothing [] := by
  intro before c after h
  simp at h

theorem StoresNothing.tail (h : session.StoresNothing (c :: later)) :
    (session.perform c).StoresNothing later := by
  rintro before c' after rfl
  exact h (c :: before) c' after rfl

theorem StoresNothing.stays (h : session.StoresNothing later) :
    session.state.Stays (later.foldl perform session).state ∧
      (later.foldl perform session).files = session.files := by
  induction later generalizing session with
  | nil => exact ⟨⟨rfl, rfl, rfl⟩, rfl⟩
  | cons c later ih =>
    obtain ⟨hstays, hfiles⟩ := ih h.tail
    rw [List.foldl_cons]
    rcases session.perform_cases c with hsame | ⟨hsucceeds, heffect⟩
    · rw [hsame] at hstays hfiles ⊢
      exact ⟨hstays, hfiles⟩
    · have hc : c.stores = false :=
        Bool.eq_false_iff.2 fun hc => h [] c later rfl hc hsucceeds
      obtain ⟨hstep, hfiles'⟩ := heffect.stays hc
      exact ⟨⟨hstays.dictionary.trans hstep.dictionary, hstays.format.trans hstep.format,
        hstays.grammarPath.trans hstep.grammarPath⟩, hfiles.trans hfiles'⟩

theorem perform_save (h : session.Succeeds (.save path)) : ∃ place,
    (path <|> session.state.grammarPath) = some place ∧
    (session.perform (.save path)).state = { session.state with grammarPath := some place } ∧
    (session.perform (.save path)).files.read place =
      .ok (session.state.grammar.encode (Format.ofPath place)) := by
  obtain ⟨reply, hreply⟩ := h
  obtain ⟨place, hplace, hwrite, hstate⟩ := (effect_of_ok hreply).of_save
  exact ⟨place, hplace, hstate, FileTree.read_write hwrite⟩

/-- The session starts without a warning and has the grammar of the file. -/
structure Resumes (begun : Session × Printed) (place : String) (g : Grammar) : Prop where
  silent : begun.2.err = ""
  loaded : begun.1.state.grammarPath = some place
  grammar : begun.1.state.grammar = g

theorem readGrammar_of_read (session : Session) {settings : Settings} {content : Text.Bytes}
    (hpath : settings.grammarPath = some place) (hread : session.files.read place = .ok content) :
    (∀ f, GrammarFile.load session.files place settings.format = .error f →
      (readGrammar session settings).2.err ≠ "") ∧
    (∀ file, GrammarFile.load session.files place settings.format = .ok file →
      (readGrammar session settings).2.err = "" ∧
        (readGrammar session settings).1 = { session with state := session.state.adopt file }) := by
  unfold readGrammar Settings.grammarFile
  simp only [hpath, Outcome.ok, FileTree.pathExists_of_read hread, Bool.not_true, Bool.false_eq_true,
    if_false]
  refine ⟨fun f hf => ?_, fun file hfile => ?_⟩
  · simp only [hf]
    change "" ++ ("  " ++ warning session.colors ++ ": Could not load grammar: " ++ f.report ++ "\n") ≠ ""
    simp
  · simp only [hfile]
    exact ⟨rfl, trivial⟩

def next (colors : Colors) (around : Surroundings) (t : FileTree) (config : Option String)
    (settings : Settings) : Session :=
  ⟨colors, around, { State.configure {} settings with configPath := config }, t⟩

theorem start_of_load (colors : Colors) {settings : Settings}
    (h : Settings.load around t config = (t', .ok settings)) :
    (start colors around t config {}).1 =
      (readGrammar (next colors around t' config settings) settings).1 ∧
    (start colors around t config {}).2.err =
      (readGrammar (next colors around t' config settings) settings).2.err := by
  have hstored : Settings.loadOrOpen around t config = (t', settings) := by
    rw [Settings.loadOrOpen, h]
  unfold start
  rw [hstored]
  exact ⟨rfl, String.empty_append⟩

theorem Runs.save_of_keepSettings {history : History} (hruns : session.Runs colors around config)
    (hkept : (session.keepLines history).1.keepSettings = (t', {})) :
    session.state.settings.save around (session.keepLines history).1.files config = (t', .ok ()) := by
  have hclosing := hruns.keepLines history
  have hsaved := keepSettings_eq_iff.1 hkept
  rwa [State.saveSettings, hclosing.around, hclosing.config, state_keepLines] at hsaved

theorem resumes_start_iff {history : History} (hruns : session.Runs colors around config)
    (hpath : session.state.grammarPath = some place)
    (hread : session.files.read place = .ok (session.state.grammar.encode format))
    (hstorable : session.state.grammar.Storable format)
    (hkept : (session.keepLines history).1.keepSettings = (t', {}))
    (hapart : ∀ p, t'.Leads (Settings.usualPlace around config) p → ¬ t'.Leads place p)
    (hspared : history.unsaved = true → ∀ p, t'.Leads (historyFile around) p → ¬ t'.Leads place p) :
    Resumes (start colors around t' config {}) place session.state.grammar ↔
      session.state.format = format := by
  have hsaved := hruns.save_of_keepSettings hkept
  -- First the lines are kept, then the settings, and neither is written over the grammar.
  have hdirectories := (session.keepsKinds_keepLines history).toKeepsDirectories.trans
    (Settings.keepsDirectories_of_save hsaved)
  have hread := read_keepLines hread fun hunsaved p hp hq =>
    hspared hunsaved p (hruns.around ▸ hdirectories.leads hp) (hdirectories.leads hq)
  have hread' := Settings.read_of_save hsaved hread hapart
  have hload := Settings.load_of_save hruns.sound.counted hsaved
  obtain ⟨hnext, herr⟩ := start_of_load colors hload
  have hnamed : session.state.settings.grammarPath = some place := hpath
  obtain ⟨hfails, hopens⟩ := readGrammar_of_read (next colors around t' config session.state.settings)
    hnamed hread'
  have hmade := hruns.sound.made
  -- The settings tell the format that the session had, so nothing is detected.
  have hgiven : detect t' place session.state.settings.format =
    .ok ⟨session.state.format, .given⟩ := rfl
  constructor
  · intro h
    cases hfile : GrammarFile.load t' place session.state.settings.format with
    | error f => exact absurd (herr.symm.trans h.silent) (hfails f hfile)
    | ok file =>
      have hformat := (GrammarFile.holds_of_load hmade hstorable hread' hfile).1
      rwa [← Except.ok.inj (hgiven.symm.trans (GrammarFile.load_eq_ok_iff.1 hfile).1)] at hformat
  · intro h
    obtain ⟨file, hfile⟩ := GrammarFile.exists_load hmade hstorable hread' hgiven h
    obtain ⟨hsilent, hadopted⟩ := hopens file hfile
    have hstate := congrArg Session.state (hnext.trans hadopted)
    refine ⟨herr.trans hsilent, ?_, ?_⟩
    · rw [hstate]
      exact congrArg some (GrammarFile.load_eq_ok_iff.1 hfile).2.2.2
    · rw [hstate]
      exact (GrammarFile.holds_of_load hmade hstorable hread' hfile).2.captured

theorem ofJsonBytes_historyText_ne_ok (history : History) (g : Grammar) :
    Grammar.ofJsonBytes (Text.utf8 history.text) ≠ .ok g := by
  intro h
  obtain ⟨s, hs⟩ : ∃ s, Text.utf8 history.text = 0x23 :: s := by
    rw [History.text, Text.utf8_append, Text.utf8_append]
    exact ⟨_, rfl⟩
  have htokens : Json.tokens (0x23 :: s) = [.broken (.first .noValue) (.first .noValue)] :=
    (Json.tokens_scan rfl rfl).trans (congrArg _ Json.tokens_nil)
  obtain ⟨hread, -⟩ := Grammar.ofJsonBytes_eq_ok_iff.1 h
  rw [hs, htokens] at hread
  cases hread

/-- A session whose lines are written over its grammar leaves it to none. -/
theorem not_resumes_of_overwritten {history : History} {content : Text.Bytes} {p : Place} {g : Grammar}
    (hruns : session.Runs colors around config) (hpath : session.state.grammarPath = some place)
    (hread : session.files.read place = .ok content) (hunsaved : history.unsaved = true)
    (hover : session.files.Leads (historyFile around) p) (hplace : session.files.Leads place p)
    (hkept : (session.keepLines history).1.keepSettings = (t', {}))
    (hapart : ∀ p, t'.Leads (Settings.usualPlace around config) p → ¬ t'.Leads place p)
    (hformat : session.state.format = .json) :
    ¬ Resumes (start colors around t' config {}) place g := by
  intro h
  have hsaved := hruns.save_of_keepSettings hkept
  -- The lines go where the grammar is, and there they stay.
  have hlines : (session.keepLines history).1.files.read place = .ok (Text.utf8 history.text) := by
    obtain ⟨q, hq, hentry⟩ := FileTree.read_eq_ok_iff.1 hread
    cases hq.unique hplace
    have hwrite : session.files.write (historyFile session.around) (Text.utf8 history.text) =
        .ok (session.files.put p (.file (Text.utf8 history.text))) :=
      FileTree.write_eq_ok_iff.2 ⟨p, hruns.around ▸ hover, by simp [hentry], rfl⟩
    rw [keepLines, History.save, if_pos hunsaved, hwrite]
    exact FileTree.read_eq_ok_iff.2 ⟨p, (FileTree.keepsDirectories_of_write hwrite).leads hplace,
      by rw [FileTree.entryAt_put hplace.ne_root, if_pos rfl]⟩
  have hread' := Settings.read_of_save hsaved hlines hapart
  obtain ⟨hnext, herr⟩ := start_of_load colors (Settings.load_of_save hruns.sound.counted hsaved)
  have hnamed : session.state.settings.grammarPath = some place := hpath
  have hfails := (readGrammar_of_read (next colors around t' config session.state.settings) hnamed hread').1
  cases hfile : GrammarFile.load t' place session.state.settings.format with
  | error f => exact absurd (herr.symm.trans h.silent) (hfails f hfile)
  | ok file =>
    obtain ⟨hdetect, hload, -⟩ := GrammarFile.load_eq_ok_iff.1 hfile
    have hgiven : detect t' place session.state.settings.format = .ok ⟨session.state.format, .given⟩ := rfl
    rw [← Except.ok.inj (hgiven.symm.trans hdetect), Grammar.load_of_read hread', hformat] at hload
    cases hdecoded : Grammar.ofJsonBytes (Text.utf8 history.text) with
    | ok g => exact ofJsonBytes_historyText_ne_ok history g hdecoded
    | error f => simp [Grammar.decode, hdecoded] at hload

theorem keepSettings_of_shell {typed : Bool} {lines : List String} {history : History}
    (hended : (turns lines (start colors around t config {}).1).1 = session)
    (hhistory : (start colors around t config {}).1.remembered typed lines = history)
    (hleft : (Program.shell colors around t config {} typed lines).files = t')
    (hkept : (session.keepLines history).1.keepSettings.2 = {}) :
    (session.keepLines history).1.keepSettings = (t', {}) := by
  rw [files_shell, hended, hhistory] at hleft
  exact Prod.ext hleft hkept

/-- After a session in which a grammar was saved, and nothing stored later, the next one resumes with that
grammar exactly if the format that the session had is the one of the file's name. -/
theorem resumes_after_save {lines : List String} {earlier later : List Command} {typed : Bool}
    {history : History} (hlines : commands lines = earlier ++ .save path :: later)
    (hbegun : earlier.foldl perform (start colors around t config {}).1 = session)
    (hsaved : session.Succeeds (.save path)) (hplace : (path <|> session.state.grammarPath) = some place)
    (hlater : (session.perform (.save path)).StoresNothing later)
    (hended : (turns lines (start colors around t config {}).1).1 = session')
    (hstorable : session'.state.grammar.Storable (Format.ofPath place))
    (hhistory : (start colors around t config {}).1.remembered typed lines = history)
    (hleft : (Program.shell colors around t config {} typed lines).files = t')
    (hkept : (session'.keepLines history).1.keepSettings.2 = {})
    (hapart : ∀ p, t'.Leads (Settings.usualPlace around config) p → ¬ t'.Leads place p)
    (hspared : history.unsaved = true → ∀ p, t'.Leads (historyFile around) p → ¬ t'.Leads place p) :
    Resumes (start colors around t' config {}) place session'.state.grammar ↔
      session.state.format = Format.ofPath place := by
  have hruns := runs_turns colors around t config Settings.counted_empty lines
  have hclosed := keepSettings_of_shell hended hhistory hleft hkept
  rw [hended] at hruns
  rw [fst_turns, hlines, List.foldl_append, hbegun, List.foldl_cons] at hended
  obtain ⟨_, hplace', hstate, hread⟩ := perform_save hsaved
  cases hplace.symm.trans hplace'
  obtain ⟨hstays, hfiles⟩ := hlater.stays
  rw [hended] at hstays hfiles
  rw [hstate] at hstays
  have hgrammar : session'.state.grammar = session.state.grammar :=
    congrArg Grammar.capture hstays.dictionary
  rw [← hfiles, ← hgrammar] at hread
  rw [resumes_start_iff hruns hstays.grammarPath hread hstorable hclosed hapart hspared, hstays.format]

open Grammar (desk)

def writer : Surroundings := ⟨"/desk", "/desk"⟩

def noting (place : String) : List String := ["define main go", "save " ++ place, "exit"]

def begun : Session := (start false writer desk (some "c.json") {}).1.perform (.define "main" ["go"])

def ended (place : String) : Session := begun.perform (.save (some place))

def left (place : String) : FileTree :=
  (Program.shell false writer desk (some "c.json") {} true (noting place)).files

def learnt (place : String) : History :=
  (start false writer desk (some "c.json") {}).1.remembered true (noting place)

theorem turns_noting (h : commands (noting place) = [.define "main" ["go"], .save (some place)]) :
    (turns (noting place) (start false writer desk (some "c.json") {}).1).1 = ended place := by
  rw [fst_turns, h]
  rfl

theorem leads_on_desk {name : String} {p : Place} (hworking : t.working = ["desk"])
    (hname : name ∈ ["c.json", "g.json", "g.bin"]) (h : t.Leads name p) : p = ["desk", name] := by
  obtain ⟨working, entries⟩ := t
  subst hworking
  fin_cases hname <;> exact h.unique ⟨["desk"], _, rfl, by decide, rfl⟩

theorem apart_on_desk (place : String) (hworking : t.working = ["desk"])
    (hplace : place ∈ ["g.json", "g.bin"]) :
    ∀ p, t.Leads (Settings.usualPlace writer (some "c.json")) p → ¬ t.Leads place p := by
  intro p hp hq
  have hsame := (leads_on_desk hworking (by decide) hp).symm.trans
    (leads_on_desk hworking (List.mem_cons_of_mem _ hplace) hq)
  fin_cases hplace <;> exact absurd hsame (by decide)

theorem spared_on_desk (hworking : t.working = ["desk"])
    (hhistory : t.spot (historyFile writer) = .ok (.name ["desk"] ".phrase_trie_history" false))
    (hplace : place ∈ ["g.json", "g.bin"]) : ∀ p, t.Leads (historyFile writer) p → ¬ t.Leads place p := by
  intro p hp hq
  have hsame := (hp.unique ⟨_, _, hhistory, by decide, rfl⟩).symm.trans
    (leads_on_desk hworking (List.mem_cons_of_mem _ hplace) hq)
  fin_cases hplace <;> exact absurd hsame (by decide)

structure Notes (place : String) : Prop where
  lines : commands (noting place) = [.define "main" ["go"], .save (some place)]
  saved : begun.Succeeds (.save (some place))
  storable : (ended place).state.grammar.Storable (Format.ofPath place)
  kept : ((ended place).keepLines (learnt place)).1.keepSettings.2 = {}
  working : (left place).working = ["desk"]
  history : (left place).spot (historyFile writer) = .ok (.name ["desk"] ".phrase_trie_history" false)
  format : begun.state.format = .json

theorem notes (hplace : place ∈ ["g.json", "g.bin"]) : Notes place := by
  have hsaved {reply : Reply} (h : ((Command.save (some place)).run begun.colors begun.state
      begun.files).reply.toOption = some reply) : begun.Succeeds (.save (some place)) :=
    ⟨reply, toOption_eq_some_iff.1 h⟩
  fin_cases hplace
  · exact ⟨by decide +kernel, hsaved (by decide +kernel : _ = some (.said "Saved grammar to g.json")),
      by unfold Grammar.Storable; decide +kernel, by decide +kernel, by decide +kernel, by decide +kernel,
      by decide +kernel⟩
  · exact ⟨by decide +kernel, hsaved (by decide +kernel : _ = some (.said "Saved grammar to g.bin")),
      by unfold Grammar.Storable; decide +kernel, by decide +kernel, by decide +kernel, by decide +kernel,
      by decide +kernel⟩

theorem resumes_noting : commands (noting "g.json") = [.define "main" ["go"], .save (some "g.json")] ∧
    begun.Succeeds (.save (some "g.json")) ∧
    (turns (noting "g.json") (start false writer desk (some "c.json") {}).1).1 = ended "g.json" ∧
    (Program.shell false writer desk (some "c.json") {} true (noting "g.json")).files = left "g.json" ∧
    Resumes (start false writer (left "g.json") (some "c.json") {}) "g.json"
      (ended "g.json").state.grammar := by
  have h : Notes "g.json" := notes (by decide)
  have hended := turns_noting h.lines
  have hbegun : [Command.define "main" ["go"]].foldl perform
    (start false writer desk (some "c.json") {}).1 = begun := rfl
  have hapart := apart_on_desk "g.json" h.working (by decide)
  have hspared := spared_on_desk h.working h.history (by decide : "g.json" ∈ _)
  have hresumes := resumes_after_save h.lines hbegun h.saved rfl (StoresNothing.nil _) hended h.storable
    rfl rfl h.kept hapart fun _ => hspared
  exact ⟨h.lines, h.saved, hended, rfl, hresumes.2 h.format⟩

/-- Saved in the other format, the phrase does not come back: its file is read as JSON. -/
theorem not_resumes_noting : commands (noting "g.bin") = [.define "main" ["go"], .save (some "g.bin")] ∧
    begun.Succeeds (.save (some "g.bin")) ∧
    (turns (noting "g.bin") (start false writer desk (some "c.json") {}).1).1 = ended "g.bin" ∧
    (Program.shell false writer desk (some "c.json") {} true (noting "g.bin")).files = left "g.bin" ∧
    ¬ Resumes (start false writer (left "g.bin") (some "c.json") {}) "g.bin"
      (ended "g.bin").state.grammar := by
  have h : Notes "g.bin" := notes (by decide)
  have hended := turns_noting h.lines
  have hruns := runs_turns false writer desk (some "c.json") Settings.counted_empty (noting "g.bin")
  rw [hended] at hruns
  obtain ⟨_, hplace, hstate, hread⟩ := perform_save h.saved
  cases hplace
  have hgrammar : (ended "g.bin").state.grammar = begun.state.grammar := by
    rw [ended, hstate]
    rfl
  rw [← hgrammar] at hread
  have hapart := apart_on_desk "g.bin" h.working (by decide)
  have hspared := spared_on_desk h.working h.history (by decide : "g.bin" ∈ _)
  refine ⟨h.lines, h.saved, hended, rfl, fun hresumes => ?_⟩
  have hsame := (resumes_start_iff hruns (congrArg State.grammarPath hstate) hread h.storable
    (keepSettings_of_shell hended rfl rfl h.kept) hapart fun _ => hspared).1 hresumes
  have hformat : (ended "g.bin").state.format = .json := (congrArg State.format hstate).trans h.format
  exact absurd (hformat.symm.trans hsame) (by decide)

end Session
end Phrasebook.Shell
