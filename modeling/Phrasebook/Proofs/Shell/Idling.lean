import Phrasebook.Proofs.Shell.Reloading
import Phrasebook.Proofs.Shell.Restarting

/-!
What is left of the stored settings by a session in which nothing is done. The limit and the lookahead are
stored again. The grammar is known to the session only after its file was opened: if that fails, its place
is forgotten, and the next session looks for a grammar at the usual place.
-/

namespace Phrasebook
open Terminal (Colors)

namespace Settings

variable {around : Surroundings} {config : Option String} {t t₁ t₂ t' : FileTree}
  {settings : Settings} {path : String}

theorem grammarFile_of_some (h : settings.grammarPath = some path) :
    settings.grammarFile around t = (t, .ok path) := by
  rw [grammarFile, h]
  rfl

theorem grammarFile_of_none (h : settings.grammarPath = none) :
    settings.grammarFile around t = defaultGrammarPath around t (settings.format.getD .json) := by
  rw [grammarFile, h]

theorem keeps_grammarFile (settings : Settings) (around : Surroundings) (t : FileTree) :
    t.Keeps (settings.grammarFile around t).1 := by
  cases hplace : settings.grammarPath with
  | some path =>
    rw [grammarFile_of_some hplace]
    exact .refl t
  | none =>
    rw [grammarFile_of_none hplace]
    exact keeps_inDirectory t _ _

theorem exists_save (hload : load around t config = (t₁, .ok settings))
    (hstored : t₁.pathExists (usualPlace around config) = true) (hkeeps : t₁.KeepsKinds t₂)
    (s : Settings) : ∃ t', s.save around t₂ config = (t', .ok ()) ∧ t₂.KeepsDirectories t' := by
  obtain ⟨t₀, path, hplace, hload⟩ := Outcome.andThen_eq_ok_iff.1 hload
  obtain ⟨rfl, hagain⟩ := place_again hplace
  obtain ⟨rfl, content, hread⟩ : t₀ = t₁ ∧ ∃ content, t₁.read (usualPlace around config) = .ok content := by
    split_ifs at hload with hmissing
    · cases hload
      simp [hstored] at hmissing
    · split at hload
      · cases hload
      · rename_i text htext
        obtain ⟨content, hread, -⟩ := bind_eq_ok_iff.1 htext
        split at hload
        · cases hload
        · cases hload
          exact ⟨rfl, content, hread⟩
  obtain ⟨p, hp, hfile⟩ := FileTree.read_eq_ok_iff.1 hread
  obtain ⟨content', hentry⟩ := hkeeps.file p content hfile
  have hwrite : t₂.write (usualPlace around config) (Text.utf8 s.toJson.pretty) =
      .ok (t₂.put p (.file (Text.utf8 s.toJson.pretty))) :=
    FileTree.write_eq_ok_iff.2 ⟨p, hkeeps.leads hp, by simp [hentry], rfl⟩
  exact ⟨_, save_eq_ok_iff.2 ⟨t₂, _, hagain t₂ hkeeps.toKeepsDirectories, hwrite⟩,
    FileTree.keepsDirectories_of_write hwrite⟩

end Settings

namespace Shell

variable {colors : Colors} {around : Surroundings} {config : Option String} {t t₁ t₂ t' : FileTree}
  {settings : Settings} {path : String} {file : GrammarFile} {lines : List String}

namespace Session

theorem readGrammar_of_load (session : Session)
    (hpath : settings.grammarFile session.around session.files = (t₂, .ok path))
    (hfile : GrammarFile.load t₂ path settings.format = .ok file) :
    (readGrammar session settings).1 =
      { session with files := t₂, state := session.state.adopt file } := by
  obtain ⟨content, hread, -⟩ := GrammarFile.read_of_load hfile
  unfold readGrammar
  simp only [hpath, FileTree.pathExists_of_read hread, hfile, Bool.not_true, Bool.false_eq_true, if_false]

theorem readGrammar_of_not_load (session : Session) {r : Except Failure String}
    (hpath : settings.grammarFile session.around session.files = (t₂, r))
    (hnone : ∀ path file, r = .ok path → GrammarFile.load t₂ path settings.format ≠ .ok file) :
    (readGrammar session settings).1 = { session with files := t₂ } := by
  unfold readGrammar
  rw [hpath]
  cases r with
  | error f => rfl
  | ok path =>
    dsimp only
    split_ifs
    · rfl
    · split
      · rfl
      · exact absurd ‹_› (hnone path _ rfl)

theorem files_readGrammar (session : Session) (settings : Settings) :
    (readGrammar session settings).1.files =
      (settings.grammarFile session.around session.files).1 := by
  unfold readGrammar
  split
  · rename_i h
    rw [h]
  · rename_i h
    rw [h]
    dsimp only
    split_ifs
    · rfl
    · split <;> rfl

theorem settings_readGrammar (session : Session) (settings : Settings) :
    (readGrammar session settings).1.state.settings.limit = session.state.limit ∧
      (readGrammar session settings).1.state.settings.lookahead = some session.state.lookahead := by
  rcases readGrammar_cases session settings with ⟨_, heq⟩ | ⟨_, _, _, -, heq⟩
  · rw [heq]
    exact ⟨rfl, rfl⟩
  · rw [heq]
    exact ⟨rfl, rfl⟩

theorem load_of_idle {session : Session} {typed : Bool}
    (hload : Settings.load around t config = (t₁, .ok settings))
    (hstored : t₁.pathExists (Settings.usualPlace around config) = true) (hidle : commands lines = [])
    (hsession : (readGrammar (next colors around t₁ config settings) settings).1 = session)
    (hleft : (Program.shell colors around t config {} typed lines).files = t') :
    session.files.KeepsDirectories t' ∧
      Settings.load around t' config = (t', .ok session.state.settings) := by
  have hturns : (turns lines (start colors around t config {}).1).1 = session := by
    rw [fst_turns, hidle, List.foldl_nil, (start_of_load colors hload).1, hsession]
  have hruns := runs_turns colors around t config Settings.counted_empty lines
  rw [hturns] at hruns
  obtain ⟨history, hhistory⟩ :
    ∃ history, (start colors around t config {}).1.remembered typed lines = history := ⟨_, rfl⟩
  rw [files_shell, hturns, hhistory] at hleft
  have hread : t₁.Keeps session.files := by
    rw [← hsession, files_readGrammar]
    exact Settings.keeps_grammarFile settings around t₁
  have hlines := session.keepsKinds_keepLines history
  obtain ⟨t₃, hsave, hdirectories⟩ :=
    Settings.exists_save hload hstored (hread.kinds.trans hlines) session.state.settings
  have hkept : (session.keepLines history).1.keepSettings = (t₃, {}) := by
    have hclosing := hruns.keepLines history
    rw [keepSettings_eq_iff, State.saveSettings, hclosing.around, hclosing.config, state_keepLines, hsave]
  rw [hkept] at hleft
  subst hleft
  exact ⟨hlines.toKeepsDirectories.trans hdirectories, Settings.load_of_save hruns.sound.counted hsave⟩

theorem grammarFile_of_load (hpath : settings.grammarFile around t₁ = (t₂, .ok path))
    (hkeeps : t₂.KeepsDirectories t') (hfile : file.path = path) (s : State) :
    ((s.adopt file).settings.grammarFile around t').2 = (settings.grammarFile around t').2 := by
  have hadopted : (s.adopt file).settings.grammarFile around t' = (t', .ok path) := by
    rw [← hfile]
    rfl
  rw [hadopted]
  cases hplace : settings.grammarPath with
  | some place =>
    rw [Settings.grammarFile_of_some hplace] at hpath ⊢
    cases hpath
    rfl
  | none =>
    rw [Settings.grammarFile_of_none hplace] at hpath ⊢
    have hagain : Settings.defaultGrammarPath around t' (settings.format.getD .json) = (t', .ok path) := by
      obtain ⟨rfl, hagain⟩ := Settings.inDirectory_again hpath
      exact hagain t' hkeeps
    rw [hagain]

/-- The limit and the lookahead are kept. The place of the grammar is kept exactly if none is stored, or
its file opens, or it is where a grammar is looked for anyway. -/
theorem idle_shell_keeps_settings {typed : Bool}
    (hload : Settings.load around t config = (t₁, .ok settings))
    (hstored : t₁.pathExists (Settings.usualPlace around config) = true) (hidle : commands lines = [])
    (hleft : (Program.shell colors around t config {} typed lines).files = t') :
    ∃ settings', Settings.load around t' config = (t', .ok settings') ∧
      settings'.limit = settings.limit ∧ settings'.lookahead.getD 0 = settings.lookahead.getD 0 ∧
      ((settings'.grammarFile around t').2 = (settings.grammarFile around t').2 ↔
        ∀ place, settings.grammarPath = some place →
          (∃ file, GrammarFile.load t₁ place settings.format = .ok file) ∨
            (Settings.defaultGrammarPath around t' (settings.format.getD .json)).2 = .ok place) := by
  obtain ⟨session, hsession⟩ :
    ∃ session, (readGrammar (next colors around t₁ config settings) settings).1 = session := ⟨_, rfl⟩
  obtain ⟨hkeeps, hload'⟩ := load_of_idle hload hstored hidle hsession hleft
  obtain ⟨hlimit, hlookahead⟩ := settings_readGrammar (next colors around t₁ config settings) settings
  rw [hsession] at hlimit hlookahead
  refine ⟨_, hload', hlimit, by rw [hlookahead]; rfl, ?_⟩
  obtain ⟨t₂, r, hpath⟩ : ∃ t₂ r, settings.grammarFile around t₁ = (t₂, r) := ⟨_, _, rfl⟩
  by_cases hopens : ∃ path file, r = .ok path ∧ GrammarFile.load t₂ path settings.format = .ok file
  · obtain ⟨path, file, rfl, hfile⟩ := hopens
    have hopened := readGrammar_of_load (next colors around t₁ config settings) hpath hfile
    rw [hsession] at hopened
    subst hopened
    refine iff_of_true (grammarFile_of_load hpath hkeeps (GrammarFile.load_eq_ok_iff.1 hfile).2.2.2 _) ?_
    intro place hplace
    rw [Settings.grammarFile_of_some hplace] at hpath
    cases hpath
    exact .inl ⟨file, hfile⟩
  · have hclosed := readGrammar_of_not_load (next colors around t₁ config settings) hpath
      fun path file hr hfile => hopens ⟨path, file, hr, hfile⟩
    rw [hsession] at hclosed
    subst hclosed
    -- The session knows no place, so the next one looks at the usual place for the same format.
    change (Settings.defaultGrammarPath around t' (settings.format.getD .json)).2 = _ ↔ _
    cases hplace : settings.grammarPath with
    | none => simp [Settings.grammarFile_of_none hplace]
    | some place =>
      have hnot : ¬ ∃ file, GrammarFile.load t₁ place settings.format = .ok file := by
        rintro ⟨file, hfile⟩
        rw [Settings.grammarFile_of_some hplace] at hpath
        cases hpath
        exact hopens ⟨place, file, rfl, hfile⟩
      rw [Settings.grammarFile_of_some hplace]
      simp [hnot]

open Grammar (desk)

def naming : Settings :=
  { grammarPath := some "g.json", format := some .json, lookahead := some 2, limit := some 5 }

def kept (t : FileTree) : FileTree := (naming.save writer t (some "c.json")).1

theorem load_kept (h : (naming.save writer t (some "c.json")).2 = .ok ()) :
    Settings.load writer (kept t) (some "c.json") = (kept t, .ok naming) := by
  have hcounted : naming.Counted := by
    constructor
    · rintro n ⟨⟩
      decide
    · rintro n ⟨⟩
      decide
  have hsave : naming.save writer t (some "c.json") = (kept t, .ok ()) := by rw [kept, ← h]
  exact Settings.load_of_save hcounted hsave

theorem idle_shell_keeps_settings_desk :
    Settings.load writer (kept shelved) (some "c.json") = (kept shelved, .ok naming) ∧
    (kept shelved).pathExists (Settings.usualPlace writer (some "c.json")) = true ∧
    commands [""] = [] ∧ ∃ t' settings',
      (Program.shell false writer (kept shelved) (some "c.json") {} true [""]).files = t' ∧
      Settings.load writer t' (some "c.json") = (t', .ok settings') ∧ settings'.limit = some 5 ∧
      settings'.lookahead.getD 0 = 2 ∧ (settings'.grammarFile writer t').2 = .ok "g.json" := by
  have hload := load_kept (t := shelved) (toOption_eq_some_iff.1 (by decide +kernel))
  have hstored : (kept shelved).pathExists (Settings.usualPlace writer (some "c.json")) = true := by
    decide +kernel
  have hidle : commands [""] = [] := by decide +kernel
  have hopens : (GrammarFile.load (kept shelved) "g.json" naming.format).toOption.isSome = true := by
    decide +kernel
  obtain ⟨file, hfile⟩ := Option.isSome_iff_exists.1 hopens
  obtain ⟨t', hleft⟩ :
    ∃ t', (Program.shell false writer (kept shelved) (some "c.json") {} true [""]).files = t' := ⟨_, rfl⟩
  obtain ⟨settings', hload', hlimit, hlookahead, hpath⟩ :=
    idle_shell_keeps_settings hload hstored hidle hleft
  refine ⟨hload, hstored, hidle, t', settings', hleft, hload', hlimit, hlookahead, hpath.2 ?_⟩
  rintro place ⟨⟩
  exact .inl ⟨file, toOption_eq_some_iff.1 hfile⟩

/-- The grammar's file is missing while nothing is done: its place is forgotten. -/
theorem idle_shell_forgets_desk :
    Settings.load writer (kept desk) (some "c.json") = (kept desk, .ok naming) ∧
    (kept desk).pathExists (Settings.usualPlace writer (some "c.json")) = true ∧
    commands [] = [] ∧ ∃ t' settings',
      (Program.shell false writer (kept desk) (some "c.json") {} true []).files = t' ∧
      Settings.load writer t' (some "c.json") = (t', .ok settings') ∧ settings'.grammarPath = none ∧
      (settings'.grammarFile writer t').2 ≠ (naming.grammarFile writer t').2 := by
  have hload := load_kept (t := desk) (toOption_eq_some_iff.1 (by decide +kernel))
  have hstored : (kept desk).pathExists (Settings.usualPlace writer (some "c.json")) = true := by
    decide +kernel
  have hmissing : (GrammarFile.load (kept desk) "g.json" naming.format).toOption = none := by
    decide +kernel
  have hpath : naming.grammarFile writer (kept desk) = (kept desk, .ok "g.json") := rfl
  have hnone : ∀ path file, (Except.ok "g.json" : Except Failure String) = .ok path →
      GrammarFile.load (kept desk) path naming.format ≠ .ok file := by
    rintro path file ⟨⟩ hfile
    rw [hfile] at hmissing
    cases hmissing
  have hforgets :=
    readGrammar_of_not_load (next false writer (kept desk) (some "c.json") naming) hpath hnone
  obtain ⟨t', hleft⟩ :
    ∃ t', (Program.shell false writer (kept desk) (some "c.json") {} true []).files = t' := ⟨_, rfl⟩
  obtain ⟨-, hload'⟩ := load_of_idle hload hstored rfl hforgets hleft
  refine ⟨hload, hstored, rfl, t', _, hleft, hload', rfl, ?_⟩
  intro hsame
  change (Settings.defaultGrammarPath writer t' .json).2 = .ok "g.json" at hsame
  have husual := (Settings.inDirectory_again (Prod.ext rfl hsame)).1
  exact absurd husual (by decide +kernel)

end Session
end Shell
end Phrasebook
