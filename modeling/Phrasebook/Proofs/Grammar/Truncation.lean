import Phrasebook.Proofs.Grammar.Formats
import Phrasebook.Proofs.Json.Beginnings

/-!
Documents that are cut off. In either format no part of a written document is a document, however little
of its end is missing. And where a document goes on as a longer one, both are the same grammar: what
is missing are blanks of the one format and bytes that the other does not look at.
-/

namespace Phrasebook.Grammar
open Text (Bytes utf8)

variable {g g' : Grammar} {format : Format} {s more : Bytes}

theorem ofJsonBytes_append (h : ofJsonBytes s = .ok g) (h' : ofJsonBytes (s ++ more) = .ok g') :
    g' = g ∧ ∀ b ∈ more, Json.isSpace b = true := by
  obtain ⟨hread, hrest⟩ := ofJsonBytes_eq_ok_iff.1 h
  obtain ⟨hread', hrest'⟩ := ofJsonBytes_eq_ok_iff.1 h'
  rcases Json.Tree.read_append_cases hrest more with hflawed | ⟨n, hnumber⟩ | hall
  · exact absurd hread (ofTree_ne_ok hflawed g)
  · rw [hnumber] at hread
    exact absurd hread (Json.Tree.mismatch_ne_ok _ _ g)
  · rw [hall] at hread' hrest'
    exact ⟨Except.ok.inj (hread'.symm.trans hread), Json.tokens_eq_nil_iff.1 hrest'⟩

theorem eq_nil_of_ofJsonBytes (hfilled : g.Filled) (hdocument : s ++ more = utf8 g.jsonText)
    (h : ofJsonBytes s = .ok g') : more = [] := by
  obtain ⟨-, hblank⟩ := ofJsonBytes_append h (hdocument ▸ ofJsonBytes_jsonText hfilled)
  obtain ⟨inside, htext⟩ := g.exists_jsonText
  by_contra hmore
  have hlast : (s ++ more).getLast? = some 0x7d := by
    rw [hdocument, htext, Text.utf8_append]
    exact List.getLast?_concat
  rw [List.getLast?_append_of_ne_nil s hmore] at hlast
  exact absurd (hblank _ (List.mem_of_getLast? hlast)) (by decide)

theorem eq_nil_of_decode (hfilled : g.Filled) (hfits : g.Fits format)
    (hdocument : s ++ more = g.encode format) (h : decode format s = .ok g') : more = [] := by
  cases format with
  | json => exact eq_nil_of_ofJsonBytes hfilled hdocument (decode_json_eq_ok_iff.1 h)
  | binary => exact eq_nil_of_ofBinary hfits hdocument (decode_binary_eq_ok_iff.1 h)

theorem eq_of_decode_append (h : decode format s = .ok g) (h' : decode format (s ++ more) = .ok g') :
    g' = g := by
  cases format with
  | json => exact (ofJsonBytes_append (decode_json_eq_ok_iff.1 h) (decode_json_eq_ok_iff.1 h')).1
  | binary =>
    have hsame := ofBinary_append (decode_binary_eq_ok_iff.1 h) more
    exact Except.ok.inj ((decode_binary_eq_ok_iff.1 h').symm.trans hsame)

/-- A written document that is cut off is refused, and no document at all is the beginning of one of
another grammar. -/
theorem truncated_refused :
    (∀ (g : Grammar) (format : Format) (s : Bytes), g.Filled → g.Fits format →
      s <+: g.encode format → s ≠ g.encode format → ∃ fault, decode format s = .error fault) ∧
    ∀ (format : Format) (s t : Bytes) (g g' : Grammar), s <+: t →
      decode format s = .ok g → decode format t = .ok g' → g' = g := by
  refine ⟨fun g format s hfilled hfits hpart hproper => ?_, ?_⟩
  · obtain ⟨more, hdocument⟩ := hpart
    cases h : decode format s with
    | error fault => exact ⟨fault, rfl⟩
    | ok g' =>
      have hmore := eq_nil_of_decode hfilled hfits hdocument h
      rw [hmore, List.append_nil] at hdocument
      exact absurd hdocument hproper
  · rintro format s _ g g' ⟨more, rfl⟩ h h'
    exact eq_of_decode_append h h'

theorem truncated_refused_oddities : oddities.Filled ∧ oddities.Fits .binary ∧
    (∃ fault, decode .binary (oddities.encode .binary).dropLast = .error fault) ∧
    ∃ g, decode .binary (oddities.encode .binary ++ [0]) = .ok g ∧ g = oddities := by
  have hfilled : oddities.Filled := by
    simp [Filled, oddities, Pattern.Filled, Pattern.empty, Element.Filled, Lookup.Filled,
      -Prod.forall, -List.mem_cons, List.forall_mem_cons]
  have hfits : oddities.Short := by decide
  have hproper : (oddities.encode .binary).dropLast ≠ oddities.encode .binary := by decide
  have hread : decode .binary (oddities.encode .binary) = .ok oddities := decode_encode hfilled hfits
  have hlonger : decode .binary (oddities.encode .binary ++ [0]) = .ok oddities :=
    decode_binary_eq_ok_iff.2 (ofBinary_append (decode_binary_eq_ok_iff.1 hread) [0])
  exact ⟨hfilled, hfits,
    truncated_refused.1 oddities .binary _ hfilled hfits (List.dropLast_prefix _) hproper,
    oddities, hlonger,
    truncated_refused.2 .binary _ _ oddities oddities (List.prefix_append _ _) hread hlonger⟩

end Phrasebook.Grammar
