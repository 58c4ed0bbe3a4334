import Phrasebook.Proofs.Shell.Sessions

/-!
The end of a session. First the lines are kept, if some were typed, and then the settings. Each of them is
written in its own place, and what else there is in the files stays as it is.
-/

namespace Phrasebook.Shell
open Terminal (Colors)
open Text (Bytes utf8)

variable {colors : Colors} {around : Surroundings} {config : Option String} {t t' : FileTree}
  {place : String} {content : Bytes} {history : History}

namespace Session

variable {session : Session}

theorem leave_of_exit {line : String} (h : Command.read line = .ok .exit) (session : Session) :
    session.turn line = .leave session := (turn_of_read h).1 rfl

/-- No line behind one that leaves makes a difference. -/
theorem turns_heard (lines : List String) (session : Session) :
    turns (heard lines) session = turns lines session := by
  induction lines generalizing session with
  | nil => rfl
  | cons line lines ih =>
    rw [heard]
    split
    · rename_i hread
      rw [turns, turns, leave_of_exit hread]
    · rw [turns, turns]
      cases session.turn line with
      | leave s => rfl
      | next s printed => simp only [ih]

theorem keepLines_cases (session : Session) (history : History) :
    (session.keepLines history).1 = session ∨ ∃ t', history.unsaved = true ∧
      session.files.write (historyFile session.around) (utf8 history.text) = .ok t' ∧
      (session.keepLines history).1 = { session with files := t' } := by
  unfold keepLines History.save
  by_cases hunsaved : history.unsaved = true
  · rw [if_pos hunsaved]
    cases hwrite : session.files.write (historyFile session.around) (utf8 history.text) with
    | ok t' => exact .inr ⟨t', hunsaved, rfl, rfl⟩
    | error f => exact .inl rfl
  · rw [if_neg hunsaved]
    exact .inl rfl

theorem state_keepLines (session : Session) (history : History) :
    (session.keepLines history).1.state = session.state := by
  rcases session.keepLines_cases history with h | ⟨t', -, -, h⟩ <;> rw [h]

theorem Runs.keepLines (h : session.Runs colors around config) (history : History) :
    (session.keepLines history).1.Runs colors around config := by
  rcases session.keepLines_cases history with hsame | ⟨t', -, -, hsame⟩
  · rwa [hsame]
  · rw [hsame]
    exact ⟨h.colors, h.around, h.config, h.sound⟩

theorem keepsKinds_keepLines (session : Session) (history : History) :
    session.files.KeepsKinds (session.keepLines history).1.files := by
  rcases session.keepLines_cases history with h | ⟨t', -, hwrite, h⟩
  · rw [h]
    exact .refl _
  · rw [h]
    exact FileTree.keepsKinds_of_write hwrite

theorem read_keepLines (hread : session.files.read place = .ok content)
    (hspared : history.unsaved = true → ∀ p,
      session.files.Leads (historyFile session.around) p → ¬ session.files.Leads place p) :
    (session.keepLines history).1.files.read place = .ok content := by
  rcases session.keepLines_cases history with h | ⟨t', hunsaved, hwrite, h⟩
  · rwa [h]
  · rw [h]
    obtain ⟨p, hp, -, -⟩ := FileTree.write_eq_ok_iff.1 hwrite
    obtain ⟨q, hq, -⟩ := FileTree.read_eq_ok_iff.1 hread
    refine FileTree.read_write_of_ne hwrite hp hread hq ?_
    rintro rfl
    exact hspared hunsaved p hp hq

theorem keepSettings_eq_iff : session.keepSettings = (t', {}) ↔
    session.state.saveSettings session.around session.files = (t', .ok ()) := by
  unfold keepSettings
  split
  · rename_i t hsaved
    simp [hsaved]
  · rename_i t f hsaved
    simp [hsaved]

theorem files_shell (colors : Colors) (around : Surroundings) (t : FileTree) (config : Option String)
    (given : Settings) (typed : Bool) (lines : List String) :
    (Program.shell colors around t config given typed lines).files =
      ((turns lines (start colors around t config given).1).1.keepLines
        ((start colors around t config given).1.remembered typed lines)).1.keepSettings.1 := by
  dsimp only [Program.shell, close]

end Session
end Phrasebook.Shell
