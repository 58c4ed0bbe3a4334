import Phrasebook.Proofs.Settings.Stored

/-!
Settings in which the format is that of the grammar's name. Only what is kept at their place matters for
that: settings that are loaded come from there, and settings that are kept go there.
-/

namespace Phrasebook
open Text (utf8)

variable {t t' : FileTree} {p : Place}

namespace Settings
variable {around : Surroundings} {config : Option String} {s : Settings}

/-- The format is that of the grammar's name; where there is no grammar, there is no format. -/
def Paired (s : Settings) : Prop := s.format = s.grammarPath.map Format.ofPath

theorem paired_empty : Paired {} := rfl

def KeptAt (t : FileTree) (p : Place) (s : Settings) : Prop :=
  ∃ content text, t.entry? p = some (.file content) ∧ Text.decode? content = some text ∧
    ofText text = .ok s

def PairedAt (t : FileTree) (p : Place) : Prop := ∀ s, KeptAt t p s → s.Paired

theorem pairedAt_of_no_file (h : ∀ content, t.entry? p ≠ some (.file content)) : PairedAt t p := by
  rintro s ⟨content, _, hentry, -⟩
  exact absurd hentry (h content)

theorem PairedAt.keeps (h : PairedAt t p) (hkeeps : t.Keeps t') : PairedAt t' p := by
  rintro s ⟨content, text, hentry, hread⟩
  exact h s ⟨content, text, hkeeps.file p content hentry, hread⟩

theorem keeps_loadOrOpen (around : Surroundings) (t : FileTree) (config : Option String) :
    t.Keeps (loadOrOpen around t config).1 := by
  have hload : (loadOrOpen around t config).1 = (place around t config).1 := by
    unfold loadOrOpen load
    generalize place around t config = o
    obtain ⟨t', r⟩ := o
    cases r with
    | error f => rfl
    | ok path =>
      simp only [Outcome.andThen]
      split_ifs
      · rfl
      · cases t'.readText path with
        | error fault => rfl
        | ok text =>
          simp only
          cases ofText text <;> rfl
  rw [hload]
  exact keeps_place around t config

theorem loadOrOpen_cases (h : loadOrOpen around t config = (t', s)) :
    s = {} ∨ ∃ p, t'.Leads (usualPlace around config) p ∧ KeptAt t' p s := by
  unfold loadOrOpen at h
  split at h
  · rename_i hload
    cases h
    obtain ⟨t₁, path, hplace, hload⟩ := Outcome.andThen_eq_ok_iff.1 hload
    cases (place_again hplace).1
    split_ifs at hload
    · cases hload
      exact .inl rfl
    · split at hload
      · cases hload
      · rename_i htext
        obtain ⟨content, hread, hdecode⟩ := bind_eq_ok_iff.1 htext
        obtain ⟨p, hp, hentry⟩ := FileTree.read_eq_ok_iff.1 hread
        split at hload
        · cases hload
        · rename_i hsettings
          cases hload
          refine .inr ⟨p, hp, content, _, hentry, ?_, hsettings⟩
          split at hdecode <;> simp_all
  · cases h
    exact .inl rfl

theorem PairedAt.loadOrOpen (hp : PairedAt t p) (h : loadOrOpen around t config = (t', s)) :
    s.Paired ∨ ∃ q ≠ p, t'.Leads (usualPlace around config) q := by
  have hkeeps := keeps_loadOrOpen around t config
  rw [h] at hkeeps
  rcases loadOrOpen_cases h with rfl | ⟨q, hq, hkept⟩
  · exact .inl paired_empty
  · by_cases hqp : q = p
    · exact .inl (hp.keeps hkeeps s (hqp ▸ hkept))
    · exact .inr ⟨q, hqp, hq⟩

theorem keeps_of_save_error {f : Failure} (h : s.save around t config = (t', .error f)) : t.Keeps t' := by
  have hkeeps := keeps_place around t config
  unfold save at h
  generalize place around t config = o at h hkeeps
  obtain ⟨t₁, r⟩ := o
  cases r with
  | error f => cases h; exact hkeeps
  | ok path =>
    simp only [Outcome.andThen] at h
    split at h <;> cases h
    exact hkeeps

theorem PairedAt.save (hp : PairedAt t p) (hcounted : s.Counted)
    (hs : s.Paired ∨ ∃ q ≠ p, t.Leads (usualPlace around config) q) :
    PairedAt (s.save around t config).1 p := by
  cases hsave : s.save around t config with
  | mk t' r =>
    cases r with
    | error f => exact hp.keeps (keeps_of_save_error hsave)
    | ok =>
      obtain ⟨t₁, path, hplace, hwrite⟩ := save_eq_ok_iff.1 hsave
      have hkeeps := keeps_place around t config
      rw [hplace] at hkeeps
      cases (place_again hplace).1
      obtain ⟨q, hq, -, rfl⟩ := FileTree.write_eq_ok_iff.1 hwrite
      rintro s' ⟨content, text, hentry, htext, hs'⟩
      rw [FileTree.entryAt_put hq.ne_root] at hentry
      split_ifs at hentry with hpq
      · have hcontent := FileEntry.file.inj (Option.some.inj hentry)
        rw [← hcontent, Text.decode?_utf8] at htext
        rw [← Option.some.inj htext, ofText_pretty hcounted] at hs'
        rw [← Except.ok.inj hs']
        -- The settings were not kept elsewhere, for their path leads to one place only.
        rcases hs with hs | ⟨q', hne, hq'⟩
        · exact hs
        · exact absurd ((hkeeps.directories.leads hq').unique hq) (hpq ▸ hne)
      · exact (hp.keeps hkeeps) s' ⟨content, text, hentry, htext, hs'⟩

end Settings
end Phrasebook
