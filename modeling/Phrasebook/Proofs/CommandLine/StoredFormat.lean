import Phrasebook.CommandLine.Run
import Phrasebook.Proofs.GrammarFile
import Phrasebook.Proofs.Settings.Pairing
import Phrasebook.Proofs.Shell.Reloading
import Phrasebook.Proofs.Shell.Restarting

/-!
The stored format. Setting a grammar stores the format that its name suggests, and this is the format in
which the next commands read their grammar, also if it is another one. So they read it in the format that
would be found out exactly if that is the stored one, or none is stored; otherwise they fail.
-/

namespace Phrasebook
open Terminal (Colors)

variable {colors : Colors} {around : Surroundings} {config : Option String} {path : String}
  {t t₁ t₂ t₃ : FileTree} {p : Place} {stored given settings : Settings} {file file' : GrammarFile}
  {format : Format}

namespace Detection

def Suits (found : Detection) (given : Option Format) : Prop := ∀ f, given = some f → f = found.format

theorem detect_iff_suits {found : Detection} {given : Option Format}
    (h : detect t path none = .ok found) :
    (detect t path given).map Detection.format = .ok found.format ↔ found.Suits given := by
  cases given with
  | none => simp [h, Except.map, Suits]
  | some f => simp [detect, Except.map, Suits]

end Detection

namespace GrammarFile

theorem format_unique {given given' : Option Format} (h : load t path given = .ok file)
    (h' : load t path given' = .ok file')
    (hshort : ∀ s, t.read path = .ok s → s.length < 2 ^ 59) :
    file.detection.format = file'.detection.format := by
  obtain ⟨s, hs, hdecode⟩ := read_of_load h
  obtain ⟨s', hs', hdecode'⟩ := read_of_load h'
  cases hs.symm.trans hs'
  exact Grammar.format_unique (hshort s hs) hdecode hdecode'

variable {given : Option Format}

theorem load_of_suits (h : load t path none = .ok file) (hsuits : file.detection.Suits given) :
    ∃ detection, detection.format = file.detection.format ∧
      load t path given = .ok { file with detection } := by
  obtain ⟨-, hgrammar, hbuild, hpath⟩ := load_eq_ok_iff.1 h
  cases given with
  | none => exact ⟨file.detection, rfl, h⟩
  | some f =>
    cases hsuits f rfl
    exact ⟨⟨file.detection.format, .given⟩, rfl, load_eq_ok_iff.2 ⟨rfl, hgrammar, hbuild, hpath⟩⟩

theorem load_of_not_suits (h : load t path none = .ok file) (hsuits : ¬ file.detection.Suits given)
    (hshort : ∀ s, t.read path = .ok s → s.length < 2 ^ 59) : ∃ f, load t path given = .error f := by
  cases hload : load t path given with
  | error f => exact ⟨f, rfl⟩
  | ok file' =>
    refine absurd (fun f hf => ?_) hsuits
    obtain ⟨hdetect, -⟩ := load_eq_ok_iff.1 hload
    rw [hf] at hdetect
    exact (congrArg Detection.format (Except.ok.inj hdetect)).trans (format_unique hload h hshort)

end GrammarFile

namespace CommandLine

theorem Changes.paired (h : stored.Paired) (c : Changes) : (c.apply stored).Paired := by
  have hbase : (if c.reset then {} else stored : Settings).Paired := by
    split
    · exact Settings.paired_empty
    · exact h
  unfold Changes.apply
  generalize (if c.reset then {} else stored : Settings) = s at hbase
  cases hpath : c.grammarPath with
  | none => exact hbase
  | some path => rfl

theorem Reading.count?_lt {r : Reading} {name : String} {n : Nat} (h : r.count? name = some n) :
    n < Json.wordLimit := by
  unfold Reading.count? at h
  obtain ⟨text, -, h⟩ := Option.bind_eq_some_iff.1 h
  exact readCount_lt (toOption_eq_some_iff.1 h)

theorem Invocation.exists_request {words : List String} {call : Invocation}
    (h : Invocation.read words = .ok call) : ∃ r verb, call.request = Reading.request r verb := by
  obtain ⟨⟨head, command⟩, -, h⟩ := bind_eq_ok_iff.1 h
  cases command with
  | none =>
    obtain ⟨_, -, h⟩ := bind_eq_ok_iff.1 h
    cases h
  | some c =>
    obtain ⟨r, -, h⟩ := bind_eq_ok_iff.1 h
    obtain ⟨_, -, h⟩ := bind_eq_ok_iff.1 h
    cases h
    exact ⟨r, _, rfl⟩

theorem Changes.counted {words : List String} {changes : Changes} (h : stored.Counted)
    (hread : Invocation.read words = .ok ⟨config, .settings changes⟩) :
    (changes.apply stored).Counted := by
  obtain ⟨r, verb, hrequest⟩ := Invocation.exists_request hread
  have hbase : (if changes.reset then {} else stored : Settings).Counted := by
    split
    · exact Settings.counted_empty
    · exact h
  cases verb <;> cases hrequest
  exact ⟨fun n hn => (eq_some_of_orElse hn).elim Reading.count?_lt (hbase.lookahead n),
    fun n hn => (eq_some_of_orElse hn).elim Reading.count?_lt (hbase.limit n)⟩

def Invocation.IsSettings (call : Invocation) : Prop :=
  (∃ words, Invocation.read words = .ok call) ∧ ∃ changes, call.request = .settings changes

theorem fst_andThen_ok {α β : Type} (o : Outcome α) (f : α → β) :
    (o.andThen fun t a => .ok t (f a)).1 = o.1 := by
  obtain ⟨t, r⟩ := o
  cases r <;> rfl

theorem pairedAt_run {call : Invocation} (hcall : call.IsSettings) (hp : Settings.PairedAt t p) :
    Settings.PairedAt (run colors around t call).1 p := by
  obtain ⟨⟨words, hread⟩, changes, hrequest⟩ := hcall
  obtain ⟨config, request⟩ := call
  cases hrequest
  unfold run
  cases hload : Settings.loadOrOpen around t config with
  | mk t' stored =>
    have hkeeps := Settings.keeps_loadOrOpen around t config
    rw [hload] at hkeeps
    have hstored : stored.Counted := by
      have hcounted := Settings.counted_loadOrOpen around t config
      rwa [hload] at hcounted
    simp only [changeSettings]
    split
    · exact hp.keeps hkeeps
    · rw [fst_andThen_ok]
      exact (hp.keeps hkeeps).save (Changes.counted hstored hread)
        ((hp.loadOrOpen hload).imp_left fun hpaired => Changes.paired hpaired changes)

def after (colors : Colors) (around : Surroundings) (t : FileTree) (calls : List Invocation) : FileTree :=
  calls.foldl (fun t call => (run colors around t call).1) t

theorem pairedAt_after {calls : List Invocation} (hcalls : ∀ call ∈ calls, call.IsSettings)
    (hp : Settings.PairedAt t p) : Settings.PairedAt (after colors around t calls) p := by
  induction calls generalizing t with
  | nil => exact hp
  | cons call calls ih =>
    obtain ⟨hcall, hcalls⟩ := List.forall_mem_cons.1 hcalls
    exact ih hcalls (pairedAt_run hcall hp)

theorem paired_after {calls : List Invocation} (hcalls : ∀ call ∈ calls, call.IsSettings)
    (hstored : Settings.loadOrOpen around (after colors around t calls) config = (t₂, stored))
    (hfresh : ∀ p content, t₂.Leads (Settings.usualPlace around config) p →
      t.entry? p ≠ some (.file content)) : stored.Paired := by
  rcases Settings.loadOrOpen_cases hstored with rfl | ⟨p, hp, -⟩
  · exact Settings.paired_empty
  · have hnone := Settings.pairedAt_of_no_file fun content => hfresh p content hp
    rcases (pairedAt_after hcalls hnone).loadOrOpen hstored with hpaired | ⟨q, hqp, hq⟩
    · exact hpaired
    · exact absurd (hq.unique hp) hqp

inductive Request.Asks : Request → Settings → Prop
  | suggest (input : List String) (given : Settings) : Asks (.suggest input given) given
  | patterns (scope : Option String) (given : Settings) : Asks (.patterns scope given) given
  | check (given : Settings) : Asks (.check given) given

def Request.answer (colors : Colors) (settings : Settings) (file : GrammarFile) :
    Request → Except Failure String
  | .suggest input _ => suggestText colors file.dictionary input settings
  | .patterns scope _ =>
    patternsText colors file.dictionary
      (match scope with | some name => [name] | none => file.dictionary.names)
  | .check _ => .ok (checkText colors file)
  | _ => .error .needsShell

variable {request : Request}

theorem run_of_load (hasks : request.Asks given)
    (hstored : Settings.loadOrOpen around t config = (t₂, stored))
    (hpath : (stored.override given).grammarFile around t₂ = (t₃, .ok path))
    (hload : GrammarFile.load t₃ path (stored.override given).format = .ok file) :
    run colors around t ⟨config, request⟩ =
      (t₃, request.answer colors (stored.override given) file) := by
  obtain ⟨s, hread, -⟩ := GrammarFile.read_of_load hload
  have hexists := FileTree.pathExists_of_read hread
  cases hasks with
  | suggest input =>
    simp only [run, hstored, configured, hpath, Outcome.andThen, hexists, hload, Outcome.ofExcept,
      if_true, Request.answer]
  | patterns scope =>
    simp only [run, hstored, configured, hpath, Outcome.andThen, hexists, hload, Outcome.ofExcept,
      if_true]
    rfl
  | check =>
    simp only [run, hstored, hpath, Outcome.andThen, hload, Outcome.ofExcept, Except.map,
      Request.answer]

theorem run_of_load_error {f : Failure} (hasks : request.Asks given)
    (hstored : Settings.loadOrOpen around t config = (t₂, stored))
    (hpath : (stored.override given).grammarFile around t₂ = (t₃, .ok path))
    (hload : GrammarFile.load t₃ path (stored.override given).format = .error f) :
    ∃ f', run colors around t ⟨config, request⟩ = (t₃, .error f') := by
  have hconfigured : ∃ f', configured around t₂ (stored.override given) = (t₃, .error f') := by
    simp only [configured, hpath, Outcome.andThen, hload]
    split
    · exact ⟨f, rfl⟩
    · exact ⟨_, rfl⟩
  obtain ⟨f', hconfigured⟩ := hconfigured
  cases hasks with
  | suggest | patterns => exact ⟨f', by simp only [run, hstored, hconfigured, Outcome.andThen]⟩
  | check =>
    exact ⟨f, by simp only [run, hstored, hpath, Outcome.andThen, hload, Outcome.ofExcept, Except.map]⟩

def Agrees (stored : Settings) (format : Format) : Prop :=
  ∀ q, stored.grammarPath = some q → Format.ofPath q = format

/-- After any changes of the settings, a command that gives no format reads its grammar in the one that is
found out from the file exactly if the stored grammar's name suggests it. Then a file that opens is opened
to the same grammar and dictionary, and otherwise the command fails. -/
theorem reads_as_detected_iff {calls : List Invocation} {found : Detection}
    (hcalls : ∀ call ∈ calls, call.IsSettings) (hleft : after colors around t calls = t₁)
    (hstored : Settings.loadOrOpen around t₁ config = (t₂, stored))
    (hfresh : ∀ p content, t₂.Leads (Settings.usualPlace around config) p →
      t.entry? p ≠ some (.file content))
    (hasks : request.Asks given) (hgiven : given.format = none)
    (hpath : (stored.override given).grammarFile around t₂ = (t₃, .ok path))
    (hfound : detect t₃ path none = .ok found) :
    ((detect t₃ path (stored.override given).format).map Detection.format = .ok found.format ↔
      Agrees stored found.format) ∧
    ∀ file, GrammarFile.load t₃ path none = .ok file →
      (Agrees stored found.format → ∃ detection, detection.format = found.format ∧
        run colors around t₁ ⟨config, request⟩ =
          (t₃, request.answer colors (stored.override given) { file with detection })) ∧
      (¬ Agrees stored found.format → (∀ s, t₃.read path = .ok s → s.length < 2 ^ 59) →
        ∃ f, run colors around t₁ ⟨config, request⟩ = (t₃, .error f)) := by
  subst hleft
  have hpaired : stored.format = stored.grammarPath.map Format.ofPath := paired_after hcalls hstored hfresh
  have hformat : (stored.override given).format = stored.grammarPath.map Format.ofPath := by
    rw [← hpaired, Settings.override, hgiven]
    rfl
  have hsuits : found.Suits (stored.override given).format ↔ Agrees stored found.format := by
    simp [hformat, Detection.Suits, Agrees]
  rw [← hsuits]
  refine ⟨Detection.detect_iff_suits hfound, fun file hopens => ?_⟩
  cases hfound.symm.trans (GrammarFile.load_eq_ok_iff.1 hopens).1
  refine ⟨fun h => ?_, fun h hshort => ?_⟩
  · obtain ⟨detection, hsame, hload⟩ := GrammarFile.load_of_suits hopens h
    exact ⟨detection, hsame, run_of_load hasks hstored hpath hload⟩
  · obtain ⟨f, hload⟩ := GrammarFile.load_of_not_suits hopens h hshort
    exact run_of_load_error hasks hstored hpath hload

open Grammar (desk)
open Shell (shelf shelved storable_shelf made_shelf)
open Shell.Session (writer leads_on_desk apart_on_desk)

def setting (q : String) : Invocation := ⟨some "c.json", .settings { grammarPath := some q }⟩

def pinned (q : String) : FileTree := after false writer shelved [setting q]

def pin (q : String) : Settings := { grammarPath := some q, format := some (Format.ofPath q) }

theorem loadOrOpen_shelved : Settings.loadOrOpen writer shelved (some "c.json") = (shelved, {}) := by
  decide +kernel

theorem save_pin (q : String) (h : ((pin q).save writer shelved (some "c.json")).2 = .ok ()) :
    (pin q).save writer shelved (some "c.json") = (pinned q, .ok ()) := by
  have hpinned : pinned q = ((pin q).save writer shelved (some "c.json")).1 := by
    change (run false writer shelved (setting q)).1 = _
    simp only [run, setting, loadOrOpen_shelved, changeSettings]
    rw [if_neg (by simp [Changes.isNone]), fst_andThen_ok]
    rfl
  rw [hpinned, ← h]

variable {q : String}

theorem loadOrOpen_pinned (h : (pin q).save writer shelved (some "c.json") = (pinned q, .ok ())) :
    Settings.loadOrOpen writer (pinned q) (some "c.json") = (pinned q, pin q) := by
  have hcounted : (pin q).Counted := ⟨nofun, nofun⟩
  rw [Settings.loadOrOpen, Settings.load_of_save hcounted h]

theorem exists_open_pinned (h : (pin q).save writer shelved (some "c.json") = (pinned q, .ok ()))
    (hworking : (pinned q).working = ["desk"]) :
    (∀ s, (pinned q).read "g.json" = .ok s → s.length < 2 ^ 59) ∧
      detect (pinned q) "g.json" none = .ok ⟨.json, .content⟩ ∧
      ∃ file, GrammarFile.load (pinned q) "g.json" none = .ok file := by
  have hwrite : desk.write "g.json" ((Grammar.capture shelf).encode .json) = .ok shelved := rfl
  have hread := Settings.read_of_save h (FileTree.read_write hwrite)
    (apart_on_desk "g.json" hworking (by decide))
  have hdetect := Grammar.detect_of_read hread storable_shelf
  refine ⟨fun s hs => ?_, hdetect, GrammarFile.exists_load made_shelf storable_shelf hread hdetect rfl⟩
  rw [← Except.ok.inj (hread.symm.trans hs)]
  exact storable_shelf

theorem reads_as_detected_shelved : (setting "g.json").IsSettings ∧
    Settings.loadOrOpen writer (pinned "g.json") (some "c.json") = (pinned "g.json", pin "g.json") ∧
    ∃ file detection, GrammarFile.load (pinned "g.json") "g.json" none = .ok file ∧
      run false writer (pinned "g.json") ⟨some "c.json", .check {}⟩ =
        (pinned "g.json", .ok (checkText false { file with detection })) := by
  have hread : Invocation.read ["settings", "--config", "c.json", "--set-grammar", "g.json"] =
    .ok (setting "g.json") := by decide +kernel
  have hsave := save_pin "g.json" (toOption_eq_some_iff.1 (by decide +kernel))
  have hworking : (pinned "g.json").working = ["desk"] := by decide +kernel
  have hstored := loadOrOpen_pinned hsave
  obtain ⟨-, hfound, file, hfile⟩ := exists_open_pinned hsave hworking
  have hsettings : (setting "g.json").IsSettings := ⟨⟨_, hread⟩, _, rfl⟩
  have hfresh : ∀ p content, (pinned "g.json").Leads (Settings.usualPlace writer (some "c.json")) p →
      shelved.entry? p ≠ some (.file content) := by
    intro p content hp
    rw [leads_on_desk hworking (by decide) hp]
    exact nofun
  have hall := reads_as_detected_iff (List.forall_mem_singleton.2 hsettings) rfl hstored hfresh
    (.check {}) rfl rfl hfound
  have hagrees : Agrees (pin "g.json") .json := by
    intro q hq
    cases hq
    decide
  obtain ⟨detection, -, hrun⟩ := (hall.2 file hfile).1 hagrees
  exact ⟨hsettings, hstored, file, detection, hfile, hrun⟩

/-- Another grammar is set, whose name suggests the binary format: the grammar that is named now is JSON,
and is read as binary. -/
theorem misreads_shelved : (setting "g.bin").IsSettings ∧
    Settings.loadOrOpen writer (pinned "g.bin") (some "c.json") = (pinned "g.bin", pin "g.bin") ∧
    detect (pinned "g.bin") "g.json" none = .ok ⟨.json, .content⟩ ∧
    (∃ file, GrammarFile.load (pinned "g.bin") "g.json" none = .ok file) ∧
    ∃ f, run false writer (pinned "g.bin") ⟨some "c.json", .check { grammarPath := some "g.json" }⟩ =
      (pinned "g.bin", .error f) := by
  have hread : Invocation.read ["settings", "--config", "c.json", "--set-grammar", "g.bin"] =
    .ok (setting "g.bin") := by decide +kernel
  have hsave := save_pin "g.bin" (toOption_eq_some_iff.1 (by decide +kernel))
  have hworking : (pinned "g.bin").working = ["desk"] := by decide +kernel
  have hstored := loadOrOpen_pinned hsave
  obtain ⟨hshort, hfound, file, hfile⟩ := exists_open_pinned hsave hworking
  have hunsuited : ¬ file.detection.Suits (some (Format.ofPath "g.bin")) := by
    rw [← Except.ok.inj (hfound.symm.trans (GrammarFile.load_eq_ok_iff.1 hfile).1)]
    exact fun h => absurd (h _ rfl) (by decide)
  obtain ⟨f, hload⟩ := GrammarFile.load_of_not_suits hfile hunsuited hshort
  exact ⟨⟨⟨_, hread⟩, _, rfl⟩, hstored, hfound, ⟨file, hfile⟩, run_of_load_error (.check _) hstored rfl hload⟩

end CommandLine
end Phrasebook
