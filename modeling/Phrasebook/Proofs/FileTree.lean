import Mathlib.Tactic.SplitIfs
import Phrasebook.FileTree
import Phrasebook.Proofs.Sequencing

/-!
Files written and read back. A path leads to the same spot as long as the directories on its way stay,
and neither writing a file nor making a directory takes one away. So what is written under a path is read
under it, and is read on until something is written in its place.
-/

namespace Phrasebook.FileTree
open Text (Bytes)

variable {t t' t'' : FileTree} {path other : String} {place p q : Place} {name : String}
  {names : List String} {e : FileEntry} {content : Bytes} {slash : Bool} {s : Spot}

theorem lookup_filter_ne {l : List (Place × FileEntry)} (h : p ≠ q) :
    (l.filter fun x => x.1 ≠ q).lookup p = l.lookup p := by
  induction l with
  | nil => rfl
  | cons x l ih =>
    by_cases hx : x.1 = q
    · have hne : (p == x.1) = false := by simpa [hx] using h
      rw [List.filter_cons_of_neg (by simpa using hx), ih, List.lookup_cons, hne]
    · rw [List.filter_cons_of_pos (by simpa using hx), List.lookup_cons, List.lookup_cons, ih]

theorem entryAt_put (hq : q ≠ []) :
    FileTree.entry? (t.put q e) p = if p = q then some e else t.entry? p := by
  by_cases hroot : p = []
  · simp [ entry?, hroot, hq.symm]
  by_cases hp : p = q
  · simp [ entry?, put, hp, hq]
  · have hne : (p == q) = false := by simpa using hp
    simp only [ entry?, put, hroot, hp, if_false, List.lookup_cons, hne, lookup_filter_ne hp]

structure KeepsDirectories (t t' : FileTree) : Prop where
  working : t'.working = t.working
  directory : ∀ place, t.entry? place = some .directory → t'.entry? place = some .directory

structure Keeps (t t' : FileTree) : Prop where
  working : t'.working = t.working
  entry : ∀ place e, t.entry? place = some e → t'.entry? place = some e
  file : ∀ place content, t'.entry? place = some (.file content) → t.entry? place = some (.file content)

structure KeepsKinds (t t' : FileTree) : Prop extends t.KeepsDirectories t' where
  file : ∀ place content, t.entry? place = some (.file content) →
    ∃ content', t'.entry? place = some (.file content')

theorem KeepsKinds.refl (t : FileTree) : t.KeepsKinds t :=
  ⟨⟨rfl, fun _ h => h⟩, fun _ content h => ⟨content, h⟩⟩

theorem Keeps.refl (t : FileTree) : t.Keeps t := ⟨rfl, fun _ _ h => h, fun _ _ h => h⟩

theorem Keeps.trans (h : t.Keeps t') (h' : t'.Keeps t'') : t.Keeps t'' where
  working := h'.working.trans h.working
  entry := fun place e he => h'.entry place e (h.entry place e he)
  file := fun place content hf => h.file place content (h'.file place content hf)

theorem Keeps.directories (h : t.Keeps t') : t.KeepsDirectories t' :=
  ⟨h.working, fun place => h.entry place .directory⟩

theorem Keeps.kinds (h : t.Keeps t') : t.KeepsKinds t' :=
  ⟨h.directories, fun place content hf => ⟨content, h.entry place (.file content) hf⟩⟩

theorem KeepsDirectories.trans (h : t.KeepsDirectories t') (h' : t'.KeepsDirectories t'') :
    t.KeepsDirectories t'' where
  working := h'.working.trans h.working
  directory := fun place hp => h'.directory place (h.directory place hp)

theorem KeepsKinds.trans (h : t.KeepsKinds t') (h' : t'.KeepsKinds t'') : t.KeepsKinds t'' where
  toKeepsDirectories := h.toKeepsDirectories.trans h'.toKeepsDirectories
  file := by
    intro place content hf
    obtain ⟨content', hf'⟩ := h.file place content hf
    exact h'.file place content' hf'

theorem keepsDirectories_put (hq : q ≠ []) (h : t.entry? q ≠ some .directory) :
    t.KeepsDirectories (t.put q e) where
  working := rfl
  directory := by
    intro p hp
    have hne : p ≠ q := fun heq => h (heq ▸ hp)
    rw [entryAt_put hq, if_neg hne, hp]

theorem keeps_put_directory (hq : q ≠ []) (h : t.entry? q = none) :
    t.Keeps (t.put q .directory) where
  working := rfl
  entry := by
    intro p e' hp
    have hne : p ≠ q := fun heq => by simp [← heq, hp] at h
    rw [entryAt_put hq, if_neg hne, hp]
  file := by
    intro p content hp
    rw [entryAt_put hq] at hp
    split_ifs at hp
    · cases hp
    · exact hp

theorem enter_eq_ok_iff {p : Place} : t.enter place name = .ok p ↔
    name.utf8ByteSize ≤ nameLimit ∧ t.entry? (place ++ [name]) = some .directory ∧
      p = place ++ [name] := by
  simp only [enter, lookUp]
  split_ifs with hlong
  · simp [bind, Except.bind, Nat.not_le.2 hlong]
  · simp only [bind, Except.bind, Nat.not_lt.1 hlong, true_and]
    split <;> rename_i he <;> simp [he, eq_comm]

theorem KeepsDirectories.enter (h : t.KeepsDirectories t') (he : t.enter place name = .ok p) :
    t'.enter place name = .ok p := by
  obtain ⟨hshort, hdir, rfl⟩ := enter_eq_ok_iff.1 he
  exact enter_eq_ok_iff.2 ⟨hshort, h.directory _ hdir, rfl⟩

theorem KeepsDirectories.follow (h : t.KeepsDirectories t')
    (hs : t.follow slash place names = .ok s) : t'.follow slash place names = .ok s := by
  fun_induction FileTree.follow t slash place names with
  | case1 place => exact hs
  | case2 place rest ih =>
    rw [FileTree.follow]
    exact ih hs
  | case3 place rest ih =>
    rw [FileTree.follow]
    exact ih hs
  | case4 place name hdot hdots =>
    rw [FileTree.follow]
    · exact hs
    · exact hdot
    · exact hdots
  | case5 place name rest hrest hdot hdots ih =>
    obtain ⟨p, hp, hs⟩ := bind_eq_ok_iff.1 hs
    rw [FileTree.follow]
    · exact bind_eq_ok_iff.2 ⟨p, h.enter hp, ih p hs⟩
    all_goals assumption

theorem KeepsDirectories.spot (h : t.KeepsDirectories t') (hs : t.spot path = .ok s) :
    t'.spot path = .ok s := by
  unfold FileTree.spot at hs ⊢
  rw [h.working]
  split_ifs at hs ⊢ <;> exact h.follow hs

theorem lookUp_eq_ok_iff {found : Option FileEntry} : t.lookUp place name = .ok found ↔
    name.utf8ByteSize ≤ nameLimit ∧ found = t.entry? (place ++ [name]) := by
  unfold lookUp
  split_ifs with hlong
  · simp [Nat.not_le.2 hlong]
  · simp [Nat.not_lt.1 hlong, eq_comm]

def Leads (t : FileTree) (path : String) (place : Place) : Prop :=
  ∃ directory name, t.spot path = .ok (.name directory name false) ∧
    name.utf8ByteSize ≤ nameLimit ∧ place = directory ++ [name]

theorem Leads.ne_root (h : t.Leads path place) : place ≠ [] := by
  obtain ⟨directory, name, -, -, rfl⟩ := h
  simp

theorem Leads.unique (hp : t.Leads path p) (hq : t.Leads path q) : p = q := by
  obtain ⟨_, _, hs, -, rfl⟩ := hp
  obtain ⟨_, _, hs', -, rfl⟩ := hq
  cases hs.symm.trans hs'
  rfl

theorem KeepsDirectories.leads (h : t.KeepsDirectories t') (hp : t.Leads path p) :
    t'.Leads path p := by
  obtain ⟨directory, name, hs, hshort, rfl⟩ := hp
  exact ⟨directory, name, h.spot hs, hshort, rfl⟩

theorem find_eq_ok_iff : t.find path = .ok e ↔
    (∃ place, t.spot path = .ok (.directory place) ∧ e = .directory) ∨
    ∃ directory name slash, t.spot path = .ok (.name directory name slash) ∧
      name.utf8ByteSize ≤ nameLimit ∧ t.entry? (directory ++ [name]) = some e ∧
      (slash = true → e = .directory) := by
  unfold find
  constructor
  · intro h
    obtain ⟨s, hs, h⟩ := bind_eq_ok_iff.1 h
    cases s with
    | directory place =>
      cases h
      exact .inl ⟨place, hs, rfl⟩
    | name directory name slash =>
      obtain ⟨found, hfound, h⟩ := bind_eq_ok_iff.1 h
      obtain ⟨hshort, rfl⟩ := lookUp_eq_ok_iff.1 hfound
      refine .inr ⟨directory, name, slash, hs, hshort, ?_⟩
      revert h
      cases t.entry? (directory ++ [name]) with
      | none => nofun
      | some e' => cases e' <;> cases slash <;> simp +contextual [eq_comm]
  · rintro (⟨place, hs, rfl⟩ | ⟨directory, name, slash, hs, hshort, he, hslash⟩)
    · rw [hs]
      rfl
    · refine bind_eq_ok_iff.2 ⟨_, hs, bind_eq_ok_iff.2 ⟨_, lookUp_eq_ok_iff.2 ⟨hshort, he.symm⟩, ?_⟩⟩
      cases e <;> cases slash <;> simp_all

theorem read_eq_ok_iff : t.read path = .ok content ↔
    ∃ place, t.Leads path place ∧ t.entry? place = some (.file content) := by
  unfold read
  constructor
  · intro h
    obtain ⟨e, he, h⟩ := bind_eq_ok_iff.1 h
    cases e with
    | directory => cases h
    | file c =>
      cases h
      rcases find_eq_ok_iff.1 he with ⟨_, _, he⟩ | ⟨directory, name, slash, hs, hshort, he, hslash⟩
      · cases he
      · cases slash with
        | true => cases hslash rfl
        | false => exact ⟨_, ⟨directory, name, hs, hshort, rfl⟩, he⟩
  · intro h
    obtain ⟨_, ⟨directory, name, hs, hshort, rfl⟩, he⟩ := h
    have hfind : t.find path = .ok (.file content) :=
      find_eq_ok_iff.2 (.inr ⟨directory, name, false, hs, hshort, he, nofun⟩)
    rw [hfind]
    rfl

theorem write_eq_ok_iff : t.write path content = .ok t' ↔
    ∃ place, t.Leads path place ∧ t.entry? place ≠ some .directory ∧
      t' = t.put place (.file content) := by
  unfold write
  constructor
  · intro h
    obtain ⟨s, hs, h⟩ := bind_eq_ok_iff.1 h
    split at h
    · cases h
    · cases h
    · rename_i directory name
      obtain ⟨found, hfound, h⟩ := bind_eq_ok_iff.1 h
      obtain ⟨hshort, rfl⟩ := lookUp_eq_ok_iff.1 hfound
      refine ⟨_, ⟨directory, name, hs, hshort, rfl⟩, ?_⟩
      split at h
      · cases h
      · rename_i hne
        cases h
        exact ⟨hne, rfl⟩
  · intro h
    obtain ⟨_, ⟨directory, name, hs, hshort, rfl⟩, hne, rfl⟩ := h
    refine bind_eq_ok_iff.2 ⟨_, hs, bind_eq_ok_iff.2 ⟨_, lookUp_eq_ok_iff.2 ⟨hshort, rfl⟩, ?_⟩⟩
    split
    · exact absurd ‹_› hne
    · rfl

theorem keepsDirectories_of_write (h : t.write path content = .ok t') : t.KeepsDirectories t' := by
  obtain ⟨place, hplace, hne, rfl⟩ := write_eq_ok_iff.1 h
  exact keepsDirectories_put hplace.ne_root hne

theorem keepsKinds_of_write (h : t.write path content = .ok t') : t.KeepsKinds t' where
  toKeepsDirectories := keepsDirectories_of_write h
  file := by
    intro p c hp
    obtain ⟨place, hplace, -, rfl⟩ := write_eq_ok_iff.1 h
    by_cases heq : p = place
    · exact ⟨content, by rw [entryAt_put hplace.ne_root, if_pos heq]⟩
    · exact ⟨c, by rw [entryAt_put hplace.ne_root, if_neg heq, hp]⟩

theorem read_write (h : t.write path content = .ok t') : t'.read path = .ok content := by
  have hkeeps := keepsDirectories_of_write h
  obtain ⟨place, hplace, -, rfl⟩ := write_eq_ok_iff.1 h
  refine read_eq_ok_iff.2 ⟨place, hkeeps.leads hplace, ?_⟩
  rw [entryAt_put hplace.ne_root, if_pos rfl]

theorem read_write_of_ne {content' : Bytes} (h : t.write path content = .ok t')
    (hp : t.Leads path p) (hread : t.read other = .ok content') (hq : t.Leads other q)
    (hne : p ≠ q) : t'.read other = .ok content' := by
  have hkeeps := keepsDirectories_of_write h
  obtain ⟨place, hplace, -, rfl⟩ := write_eq_ok_iff.1 h
  obtain ⟨q', hq', hentry⟩ := read_eq_ok_iff.1 hread
  cases hplace.unique hp
  cases hq'.unique hq
  refine read_eq_ok_iff.2 ⟨q, hkeeps.leads hq, ?_⟩
  rw [entryAt_put hplace.ne_root, if_neg hne.symm, hentry]

theorem Keeps.read (h : t.Keeps t') (hread : t.read path = .ok content) :
    t'.read path = .ok content := by
  obtain ⟨place, hplace, hentry⟩ := read_eq_ok_iff.1 hread
  exact read_eq_ok_iff.2 ⟨place, h.directories.leads hplace, h.entry _ _ hentry⟩

theorem pathExists_of_read (h : t.read path = .ok content) : t.pathExists path = true := by
  obtain ⟨e, he, -⟩ := bind_eq_ok_iff.1 h
  rw [pathExists, he]

theorem isDirectory_iff : t.isDirectory path = true ↔ t.find path = .ok .directory := by
  unfold isDirectory
  split <;> simp_all

theorem KeepsDirectories.isDirectory (h : t.KeepsDirectories t') (hd : t.isDirectory path = true) :
    t'.isDirectory path = true := by
  rw [isDirectory_iff, find_eq_ok_iff] at hd ⊢
  rcases hd with ⟨place, hs, -⟩ | ⟨directory, name, slash, hs, hshort, hentry, -⟩
  · exact .inl ⟨place, h.spot hs, rfl⟩
  · exact .inr ⟨directory, name, slash, h.spot hs, hshort, h.directory _ hentry, fun _ => rfl⟩

theorem makeDirectory_eq_ok_iff : t.makeDirectory path = .ok t' ↔
    ∃ directory name slash, t.spot path = .ok (.name directory name slash) ∧
      name.utf8ByteSize ≤ nameLimit ∧ t.entry? (directory ++ [name]) = none ∧
      t' = t.put (directory ++ [name]) .directory := by
  unfold makeDirectory
  constructor
  · intro h
    obtain ⟨s, hs, h⟩ := bind_eq_ok_iff.1 h
    cases s with
    | directory => cases h
    | name directory name slash =>
      obtain ⟨found, hfound, h⟩ := bind_eq_ok_iff.1 h
      obtain ⟨hshort, rfl⟩ := lookUp_eq_ok_iff.1 hfound
      split at h
      · cases h
      · cases h
        exact ⟨directory, name, slash, hs, hshort, ‹_›, rfl⟩
  · intro h
    obtain ⟨directory, name, slash, hs, hshort, hnone, rfl⟩ := h
    refine bind_eq_ok_iff.2 ⟨_, hs, bind_eq_ok_iff.2 ⟨_, lookUp_eq_ok_iff.2 ⟨hshort, rfl⟩, ?_⟩⟩
    simp only [hnone]

theorem keeps_of_makeDirectory (h : t.makeDirectory path = .ok t') : t.Keeps t' := by
  obtain ⟨directory, name, slash, -, -, hnone, rfl⟩ := makeDirectory_eq_ok_iff.1 h
  exact keeps_put_directory (by simp) hnone

theorem isDirectory_of_makeDirectory (h : t.makeDirectory path = .ok t') :
    t'.isDirectory path = true := by
  have hkeeps := (keeps_of_makeDirectory h).directories
  obtain ⟨directory, name, slash, hs, hshort, -, rfl⟩ := makeDirectory_eq_ok_iff.1 h
  refine isDirectory_iff.2 (find_eq_ok_iff.2 (.inr
    ⟨directory, name, slash, hkeeps.spot hs, hshort, ?_, fun _ => rfl⟩))
  rw [entryAt_put (by simp), if_pos rfl]

theorem makeDirectory_of_isDirectory (h : t.isDirectory path = true) :
    t.makeDirectory path = .error .exists := by
  rcases find_eq_ok_iff.1 (isDirectory_iff.1 h) with
    ⟨place, hs, -⟩ | ⟨directory, name, slash, hs, hshort, hentry, -⟩
  · rw [makeDirectory, hs]
    rfl
  · have hfound : t.lookUp directory name = .ok (some .directory) :=
      lookUp_eq_ok_iff.2 ⟨hshort, hentry.symm⟩
    rw [makeDirectory, hs]
    simp only [bind, Except.bind, hfound]

theorem makeDirectories_of_isDirectory (h : t.isDirectory path = true) :
    t.makeDirectories path = (t, .ok ()) := by
  rw [makeDirectories, makeDirectory_of_isDirectory h]
  simp only [orPresent, h, if_true]
  split_ifs <;> rfl

theorem keeps_makeDirectories (t : FileTree) (path : String) :
    t.Keeps (t.makeDirectories path).1 := by
  fun_induction makeDirectories t path with
  | case1 => exact .refl _
  | case2 path _ t' h => exact keeps_of_makeDirectory h
  | case3 => exact .refl _
  | case4 path _ _ up _ _ t' f hup ih =>
    rw [hup] at ih
    exact ih
  | case5 path _ _ up _ _ t' hup t'' hmake ih =>
    rw [hup] at ih
    exact ih.trans (keeps_of_makeDirectory hmake)
  | case6 path _ _ up _ _ t' hup f _ ih =>
    rw [hup] at ih
    exact ih
  | case7 => exact .refl _
  | case8 => exact .refl _

theorem isDirectory_makeDirectories (hne : path.isEmpty = false)
    (h : t.makeDirectories path = (t', .ok ())) : t'.isDirectory path = true := by
  have hpresent : ∀ {t : FileTree} {f : FileFault},
      (t.orPresent path f).map (fun _ => ()) = .ok () → t.isDirectory path = true := by
    intro t f hf
    unfold orPresent at hf
    split_ifs at hf with hd
    · exact hd
    · cases hf
  rw [makeDirectories, hne] at h
  simp only [Bool.false_eq_true, if_false] at h
  split at h
  · rename_i hmake
    cases h
    exact isDirectory_of_makeDirectory hmake
  · split at h
    · cases h
    · split_ifs at h
      · split at h
        · cases h
        · split at h
          · rename_i hmake
            cases h
            exact isDirectory_of_makeDirectory hmake
          · obtain ⟨rfl, hf⟩ := Prod.mk.inj h
            exact hpresent hf
      · cases h
  · obtain ⟨rfl, hf⟩ := Prod.mk.inj h
    exact hpresent hf

end Phrasebook.FileTree
