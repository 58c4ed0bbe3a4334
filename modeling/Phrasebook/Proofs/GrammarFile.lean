import Phrasebook.Proofs.Detection
import Phrasebook.Proofs.Grammar.Building

/-!
Opening the file of a saved dictionary. It opens in the format it was saved in and in no other, and what
is built from it answers as the dictionary did, its scopes in the order of their names.
-/

namespace Phrasebook

namespace Grammar

theorem build_capture_of_made {d : Dictionary} (hd : d.Made) : ∃ d' ρ,
    (capture d).build = .ok d' ∧ capture d' = capture d ∧ d.Alike ρ d' := by
  obtain ⟨calls, rfl⟩ := hd
  exact build_capture calls

theorem filled_capture_of_made {d : Dictionary} (hd : d.Made) : (capture d).Filled := by
  obtain ⟨calls, rfl⟩ := hd
  exact filled_capture calls

end Grammar

namespace GrammarFile

variable {t t' : FileTree} {path : String} {given : Option Format} {file : GrammarFile} {g : Grammar}
  {d : Dictionary} {detection : Detection} {format : Format}

theorem load_eq_ok_iff : load t path given = .ok file ↔ detect t path given = .ok file.detection ∧
    Grammar.load t path file.detection.format = .ok file.grammar ∧
    file.grammar.build = .ok file.dictionary ∧ file.path = path := by
  obtain ⟨path', detection, g, d⟩ := file
  have hread : ∀ {format}, read t path format = .ok g ↔ Grammar.load t path format = .ok g := by
    intro format
    unfold read
    split <;> simp_all
  have hbuild : build path g = .ok d ↔ g.build = .ok d := by
    unfold build
    split <;> simp_all
  constructor
  · intro h
    obtain ⟨detection', hdetect, h⟩ := bind_eq_ok_iff.1 h
    obtain ⟨g', hg, h⟩ := bind_eq_ok_iff.1 h
    obtain ⟨d', hd, h⟩ := bind_eq_ok_iff.1 h
    cases h
    exact ⟨hdetect, hread.1 hg, hbuild.1 hd, rfl⟩
  · intro h
    obtain ⟨hdetect, hg, hd, rfl⟩ := h
    exact bind_eq_ok_iff.2 ⟨_, hdetect, bind_eq_ok_iff.2 ⟨_, hread.2 hg,
      bind_eq_ok_iff.2 ⟨_, hbuild.2 hd, rfl⟩⟩⟩

theorem read_of_load (h : load t path given = .ok file) : ∃ s,
    t.read path = .ok s ∧ Grammar.decode file.detection.format s = .ok file.grammar := by
  obtain ⟨-, hgrammar, -⟩ := load_eq_ok_iff.1 h
  unfold Grammar.load at hgrammar
  split at hgrammar
  · exact ⟨_, ‹_›, hgrammar⟩
  · cases hgrammar
  · cases hgrammar

theorem save_eq_ok_iff :
    save g t path format = (t', .ok ()) ↔ t.write path (g.encode format) = .ok t' := by
  rw [← Grammar.save_eq_ok_iff]
  unfold save
  split <;> simp_all [Outcome.ok, Outcome.fail]

/-- The file holds the dictionary's grammar, and what is built from it cannot be told from the
dictionary but by the order of its scopes. -/
structure Holds (file : GrammarFile) (d : Dictionary) : Prop where
  grammar : file.grammar = .capture d
  captured : Grammar.capture file.dictionary = .capture d
  names : file.dictionary.names = (Grammar.capture d).scopes.names
  alike : ∃ ρ, d.Alike ρ file.dictionary

theorem holds_of_load (hd : d.Made) (hstorable : (Grammar.capture d).Storable format)
    (hread : t.read path = .ok ((Grammar.capture d).encode format))
    (h : load t path given = .ok file) : file.detection.format = format ∧ file.Holds d := by
  obtain ⟨-, hgrammar, hbuild, -⟩ := load_eq_ok_iff.1 h
  rw [Grammar.load_of_read hread] at hgrammar
  obtain ⟨hformat, hsame⟩ :=
    Grammar.eq_of_decode_encode (Grammar.filled_capture_of_made hd) hstorable hgrammar
  obtain ⟨d', ρ, hbuild', hcapture, halike⟩ := Grammar.build_capture_of_made hd
  have hdictionary : file.dictionary = d' :=
    Except.ok.inj (hbuild.symm.trans (hsame ▸ hbuild'))
  exact ⟨hformat, hsame, hdictionary ▸ hcapture, hsame ▸ (Grammar.made_of_build hbuild).2,
    ρ, hdictionary ▸ halike⟩

theorem exists_load (hd : d.Made) (hstorable : (Grammar.capture d).Storable format)
    (hread : t.read path = .ok ((Grammar.capture d).encode format))
    (hdetect : detect t path given = .ok detection) (hformat : detection.format = format) :
    ∃ file, load t path given = .ok file := by
  subst hformat
  obtain ⟨d', -, hbuild, -⟩ := Grammar.build_capture_of_made hd
  refine ⟨⟨path, detection, .capture d, d'⟩, load_eq_ok_iff.2 ⟨hdetect, ?_, hbuild, rfl⟩⟩
  rw [Grammar.load_of_read hread]
  exact Grammar.decode_encode (Grammar.filled_capture_of_made hd) hstorable.fits

end GrammarFile
end Phrasebook
