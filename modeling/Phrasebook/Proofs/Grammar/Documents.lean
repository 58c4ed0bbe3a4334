import Phrasebook.Format
import Phrasebook.Proofs.Grammar.BinaryDocument
import Phrasebook.Proofs.Grammar.JsonDocument
import Phrasebook.Proofs.Grammar.Rebuilding

/-!
Documents of both formats. A grammar that is written and read again is the same grammar, and so is one
that goes to the other format and back in between. The grammars there are, read from a document or
captured from a dictionary, have no lookup that cannot be filled.
-/

namespace Phrasebook.Grammar
open Text (Bytes)

variable {g : Grammar} {format source target : Format} {s : Bytes}

/-- Whether the format has room for the grammar: the binary layout has eight bytes for a length. -/
def Fits (g : Grammar) : Format → Prop
  | .json => True
  | .binary => g.Short

theorem decode_json_eq_ok_iff : decode .json s = .ok g ↔ ofJsonBytes s = .ok g := by
  simp only [decode]
  split <;> simp_all

theorem decode_binary_eq_ok_iff : decode .binary s = .ok g ↔ ofBinary s = .ok g := by
  simp only [decode]
  split <;> simp_all

theorem decode_encode (hfilled : g.Filled) (hfits : g.Fits format) :
    decode format (g.encode format) = .ok g := by
  cases format with
  | json => exact decode_json_eq_ok_iff.2 (ofJsonBytes_jsonText hfilled)
  | binary => exact decode_binary_eq_ok_iff.2 (ofBinary_binary hfilled hfits)

theorem filled_of_decode (h : decode format s = .ok g) : g.Filled := by
  cases format with
  | json => exact filled_of_ofJsonBytes (decode_json_eq_ok_iff.1 h)
  | binary => exact filled_of_ofBinary (decode_binary_eq_ok_iff.1 h)

theorem filled_capture (calls : List Call) :
    (capture (Dictionary.ofCalls calls)).Filled := by
  have hd := Dictionary.sound_ofCalls calls
  obtain ⟨log, hlog⟩ := Dictionary.exists_records calls
  intro s hs p hp
  have hscope : ∀ name, (Dictionary.ofCalls calls).resolve? name =
      ((Dictionary.ofCalls calls).resolve? name).map id := by simp
  have hspelt := (spelt_target hd hlog hscope hs).2
  exact ((List.forall₂_and_left _ _).1 (hspelt.imp fun _ _ h => ⟨h.filled, h⟩)).1 p hp

theorem fits_of_decode (h : decode format s = .ok g) : g.Fits format := by
  cases format with
  | json => trivial
  | binary => exact short_of_ofBinary (decode_binary_eq_ok_iff.1 h)

def convert (source target : Format) (s : Bytes) : Except DocumentFault Bytes :=
  (encode · target) <$> decode source s

theorem convert_eq_ok (h : decode source s = .ok g) :
    convert source target s = .ok (g.encode target) :=
  map_eq_ok_iff.2 ⟨g, h, rfl⟩

/-- What is written is read again, from either format and after a change of format and back. -/
theorem documents_lossless :
    (∀ (g : Grammar) (format : Format), g.Filled → g.Fits format →
      decode format (g.encode format) = .ok g) ∧
    (∀ calls, (capture (Dictionary.ofCalls calls)).Filled) ∧
    (∀ format s g, decode format s = .ok g → g.Filled ∧ g.Fits format) ∧
    ∀ source target s g, decode source s = .ok g → g.Fits target →
      ∃ t u, convert source target s = .ok t ∧ decode target t = .ok g ∧
        convert target source t = .ok u ∧ decode source u = .ok g := by
  refine ⟨fun g format hfilled hfits => decode_encode hfilled hfits, filled_capture,
    fun format s g h => ⟨filled_of_decode h, fits_of_decode h⟩, ?_⟩
  intro source target s g h htarget
  have ht := decode_encode (filled_of_decode h) htarget
  have hu := decode_encode (filled_of_decode h) (fits_of_decode h)
  exact ⟨_, _, convert_eq_ok h, ht, convert_eq_ok ht, hu⟩

/-- A scope without a name that has a pattern without elements, and one whose name has to be escaped,
with a word that looks like a lookup and an alias without a name. -/
def oddities : Grammar where
  scopes := ⟨[("", [.empty]), ("<\"\n\\", [⟨[
    .word ⟨"<é>", by decide, Word.any_isBlank_eq_false.1 (by decide)⟩,
    .lookup ⟨⟨[("", ["", "<\"\n\\"]), ("b", ["b"])], by decide⟩⟩]⟩])], by decide⟩

theorem documents_lossless_oddities : oddities.Filled ∧ oddities.Fits .binary ∧
    decode .binary (oddities.encode .binary) = .ok oddities ∧
    ∃ t u, convert .binary .json (oddities.encode .binary) = .ok t ∧ decode .json t = .ok oddities ∧
      convert .json .binary t = .ok u ∧ decode .binary u = .ok oddities := by
  have hfilled : oddities.Filled := by
    simp [Filled, oddities, Pattern.Filled, Pattern.empty, Element.Filled, Lookup.Filled,
      -Prod.forall, -List.mem_cons, List.forall_mem_cons]
  have hfits : oddities.Short := by decide
  have hread := documents_lossless.1 oddities .binary hfilled hfits
  exact ⟨hfilled, hfits, hread, documents_lossless.2.2.2 .binary .json _ oddities hread trivial⟩

end Phrasebook.Grammar
