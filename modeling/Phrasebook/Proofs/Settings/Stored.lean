import Phrasebook.Proofs.FileTree
import Phrasebook.Proofs.Settings.Documents
import Phrasebook.Settings.Stored
import Phrasebook.Touched

/-!
Settings kept in a file. Their place is found again as long as the directories on the way to it stay, so
settings that were kept are what is loaded next, and keeping them touches no file but their own.
-/

namespace Phrasebook
open Text (Bytes utf8)

variable {t t' t₁ t₂ : FileTree} {path other : String} {content : Bytes}

namespace Outcome
variable {α β : Type} {o : Outcome α} {next : FileTree → α → Outcome β} {b : β}

theorem andThen_eq_ok_iff :
    o.andThen next = (t', .ok b) ↔ ∃ t a, o = (t, .ok a) ∧ next t a = (t', .ok b) := by
  obtain ⟨t, r⟩ := o
  cases r <;> simp [andThen]

end Outcome

theorem makeDirectories_eq_ok_iff :
    makeDirectories t path = (t', .ok ()) ↔ t.makeDirectories path = (t', .ok ()) := by
  unfold makeDirectories
  split <;> simp_all [Outcome.ok, Outcome.fail]

theorem makeDirectories_fst (t : FileTree) (path : String) :
    (makeDirectories t path).1 = (t.makeDirectories path).1 := by
  unfold makeDirectories
  split <;> simp_all [Outcome.ok, Outcome.fail]

theorem makeDirectories_again (h : makeDirectories t path = (t₁, .ok ()))
    (hkeeps : t₁.KeepsDirectories t₂) : makeDirectories t₂ path = (t₂, .ok ()) := by
  rw [makeDirectories_eq_ok_iff] at h ⊢
  cases hempty : path.isEmpty with
  | true => rw [FileTree.makeDirectories, hempty, if_pos rfl]
  | false =>
    have hdirectory := hkeeps.isDirectory (FileTree.isDirectory_makeDirectories hempty h)
    exact FileTree.makeDirectories_of_isDirectory hdirectory

namespace Settings
variable {s : Surroundings} {custom : Option String} {settings : Settings}

theorem inDirectory_again {up path' : String}
    (h : (makeDirectories t up).andThen (fun t () => .ok t path') = (t₁, .ok path)) :
    path = path' ∧ ∀ t₂, t₁.KeepsDirectories t₂ →
      (makeDirectories t₂ up).andThen (fun t () => .ok t path') = (t₂, .ok path) := by
  obtain ⟨_, _, hmake, hnext⟩ := Outcome.andThen_eq_ok_iff.1 h
  cases hnext
  exact ⟨rfl, fun t₂ hkeeps =>
    Outcome.andThen_eq_ok_iff.2 ⟨t₂, (), makeDirectories_again hmake hkeeps, rfl⟩⟩

theorem keeps_inDirectory (t : FileTree) (up path : String) :
    t.Keeps ((makeDirectories t up).andThen fun t () => .ok t path).1 := by
  have hkeeps := t.keeps_makeDirectories up
  rw [← makeDirectories_fst] at hkeeps
  revert hkeeps
  generalize makeDirectories t up = o
  obtain ⟨t', r⟩ := o
  cases r <;> exact id

theorem place_again (h : place s t custom = (t₁, .ok path)) :
    path = usualPlace s custom ∧
      ∀ t₂, t₁.KeepsDirectories t₂ → place s t₂ custom = (t₂, .ok path) := by
  cases custom with
  | none => exact inDirectory_again h
  | some path' =>
    simp only [place] at h ⊢
    split at h
    · cases h
    · split at h
      · cases h
        exact ⟨rfl, fun _ _ => rfl⟩
      · exact inDirectory_again h

theorem keeps_place (s : Surroundings) (t : FileTree) (custom : Option String) :
    t.Keeps (place s t custom).1 := by
  unfold place
  split
  · split
    · exact .refl t
    · split
      · exact .refl t
      · exact keeps_inDirectory t _ _
  · exact keeps_inDirectory t _ _

theorem save_eq_ok_iff : settings.save s t custom = (t', .ok ()) ↔ ∃ t₁ path,
    place s t custom = (t₁, .ok path) ∧ t₁.write path (utf8 settings.toJson.pretty) = .ok t' := by
  rw [save, Outcome.andThen_eq_ok_iff]
  refine exists_congr fun t₁ => exists_congr fun path => and_congr_right fun _ => ?_
  split <;> simp_all [Outcome.ok, Outcome.fail]

/-- Settings that were kept are loaded again, and nothing changes on the way. -/
theorem load_of_save (hcounted : settings.Counted) (h : settings.save s t custom = (t', .ok ())) :
    load s t' custom = (t', .ok settings) := by
  obtain ⟨t₁, path, hplace, hwrite⟩ := save_eq_ok_iff.1 h
  have hread := FileTree.read_write hwrite
  have hplace' := (place_again hplace).2 t' (FileTree.keepsDirectories_of_write hwrite)
  have htext : t'.readText path = .ok settings.toJson.pretty :=
    bind_eq_ok_iff.2 ⟨_, hread, by rw [Text.decode?_utf8]⟩
  refine Outcome.andThen_eq_ok_iff.2 ⟨t', path, hplace', ?_⟩
  simp only [FileTree.pathExists_of_read hread, htext, ofText_pretty hcounted]
  rfl

theorem keepsDirectories_of_save (h : settings.save s t custom = (t', .ok ())) :
    t.KeepsDirectories t' := by
  obtain ⟨t₁, path, hplace, hwrite⟩ := save_eq_ok_iff.1 h
  have hkeeps := keeps_place s t custom
  rw [hplace] at hkeeps
  exact hkeeps.directories.trans (FileTree.keepsDirectories_of_write hwrite)

theorem read_of_save (h : settings.save s t custom = (t', .ok ())) (hread : t.read other = .ok content)
    (hapart : ∀ p, t'.Leads (usualPlace s custom) p → ¬ t'.Leads other p) :
    t'.read other = .ok content := by
  obtain ⟨t₁, path, hplace, hwrite⟩ := save_eq_ok_iff.1 h
  have hkeeps : t.Keeps t₁ := by
    have hkeeps := keeps_place s t custom
    rwa [hplace] at hkeeps
  have hread₁ := hkeeps.read hread
  have hdirectories := FileTree.keepsDirectories_of_write hwrite
  obtain ⟨p, hp, -, -⟩ := FileTree.write_eq_ok_iff.1 hwrite
  obtain ⟨q, hq, -⟩ := FileTree.read_eq_ok_iff.1 hread₁
  refine FileTree.read_write_of_ne hwrite hp hread₁ hq ?_
  rintro rfl
  exact hapart p ((place_again hplace).1 ▸ hdirectories.leads hp) (hdirectories.leads hq)

theorem counted_of_load (h : load s t custom = (t', .ok settings)) : settings.Counted := by
  obtain ⟨t₁, path, -, h⟩ := Outcome.andThen_eq_ok_iff.1 h
  split_ifs at h
  · cases h
    exact counted_empty
  · split at h
    · cases h
    · split at h
      · cases h
      · cases h
        exact counted_of_ofText ‹_›

theorem counted_loadOrOpen (s : Surroundings) (t : FileTree) (custom : Option String) :
    (loadOrOpen s t custom).2.Counted := by
  unfold loadOrOpen
  split
  · exact counted_of_load ‹_›
  · exact counted_empty

end Settings
end Phrasebook
