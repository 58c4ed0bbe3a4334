import Mathlib.Data.List.TakeWhile
import Phrasebook.GrammarFile
import Phrasebook.Proofs.FileTree
import Phrasebook.Proofs.Grammar.Formats

/-!
Finding out the format of a saved grammar. A JSON document starts with a brace. A binary document starts
with the number of its scopes, the low byte first, and what is taken for a brace there is a byte of that
number: such a document is taken for JSON, which it is not.
-/

namespace Phrasebook
open Text (Bytes utf8)

variable {g g' : Grammar} {format format' : Format} {t t' : FileTree} {path : String} {s rest : Bytes}
  {b : UInt8}

namespace Detection

def firstVisible? (s : Bytes) : Option UInt8 := s.find? fun b => !isAsciiBlank b

/-- Whether a binary document of so many scopes starts like a JSON object. -/
def LooksLikeObject (count : Nat) : Prop := firstVisible? (Binary.putLength count) = some 0x7b

instance : DecidablePred LooksLikeObject := fun _ => inferInstanceAs (Decidable (_ = _))

theorem ofContent?_of_firstVisible? (h : firstVisible? (s.take headerLength) = some b) :
    ofContent? s = some (if b == 0x7b then .json else .binary) := by
  rw [firstVisible?, List.find?_not_eq_head?_dropWhile] at h
  rw [ofContent?]
  cases hs : (s.take headerLength).dropWhile isAsciiBlank with
  | nil => simp [hs] at h
  | cons b' s' =>
    rw [hs] at h
    cases h
    rfl

theorem ofContent?_jsonText (g : Grammar) : ofContent? (utf8 g.jsonText) = some .json := by
  obtain ⟨inside, htext⟩ := g.exists_jsonText
  have hbrace : firstVisible? ((utf8 g.jsonText).take headerLength) = some 0x7b := by
    have hbytes : utf8 g.jsonText = 0x7b :: utf8 (inside ++ "\x7d") := by
      rw [htext, String.append_assoc, Text.utf8_append]
      rfl
    rw [hbytes]
    rfl
  exact ofContent?_of_firstVisible? hbrace

theorem exists_firstVisible? {count : Nat} (h : count < 2 ^ 59) :
    ∃ b, firstVisible? (Binary.putLength count) = some b := by
  have hhigh : count / 256 / 256 / 256 / 256 / 256 / 256 / 256 < 8 := by omega
  have hvisible : ∀ n < 8, isAsciiBlank (UInt8.ofNat (n % 256)) = false := by decide
  rw [← Option.isSome_iff_exists, firstVisible?, List.find?_isSome]
  refine ⟨_, ?_, by rw [hvisible _ hhigh]; rfl⟩
  simp [Binary.putLength, Binary.littleEnd]

theorem ofContent?_binary (h : g.scopes.size < 2 ^ 59) :
    ofContent? g.binary = some (if LooksLikeObject g.scopes.size then .json else .binary) := by
  obtain ⟨b, hb⟩ := exists_firstVisible? h
  have hheader : firstVisible? (g.binary.take headerLength) = some b := by
    have hlength : (Binary.putLength g.scopes.size).length ≤ headerLength := by
      rw [Binary.length_putLength]
      decide
    have hbinary : g.binary = Binary.putLength g.scopes.size ++
      g.scopes.entries.flatMap Grammar.putScope := rfl
    rw [hbinary, List.take_append, List.take_of_length_le hlength, firstVisible?, List.find?_append]
    change (firstVisible? _).or _ = _
    rw [hb, Option.some_or]
  rw [ofContent?_of_firstVisible? hheader]
  simp only [LooksLikeObject, hb, beq_iff_eq, Option.some.injEq]

end Detection

namespace Grammar
open Detection (LooksLikeObject)

theorem size_le_length_binary (g : Grammar) : g.scopes.size ≤ g.binary.length :=
  Binary.count_le_length_putList length_putScope_pos g.scopes.entries

theorem ofContent?_encode (h : g.Storable format) : Detection.ofContent? (g.encode format) =
    some (if format = .binary ∧ LooksLikeObject g.scopes.size then .json else format) := by
  cases format with
  | json => exact Detection.ofContent?_jsonText g
  | binary =>
    rw [encode, Detection.ofContent?_binary (Nat.lt_of_le_of_lt g.size_le_length_binary h)]
    simp only [true_and]

theorem save_eq_ok_iff : g.save t path format = .ok t' ↔ t.write path (g.encode format) = .ok t' := by
  unfold save
  split <;> simp_all

theorem load_of_read (h : t.read path = .ok s) : load t path format = decode format s := by
  rw [load, h]

theorem detect_of_read (h : t.read path = .ok (g.encode format)) (hstorable : g.Storable format) :
    detect t path none = .ok
      ⟨if format = .binary ∧ LooksLikeObject g.scopes.size then .json else format, .content⟩ := by
  simp only [detect, Detection.ofFile?, h, ofContent?_encode hstorable]

/-- A saved grammar is found to be in the format it was saved in, and read back, unless it is binary
and has a number of scopes that looks like a JSON object. -/
theorem detected_of_save (hfilled : g.Filled) (hstorable : g.Storable format)
    (h : g.save t path format = .ok t') : ∃ d, detect t' path none = .ok d ∧
      (d.format = format ↔ ¬ (format = .binary ∧ LooksLikeObject g.scopes.size)) ∧
      (load t' path d.format = .ok g ↔ ¬ (format = .binary ∧ LooksLikeObject g.scopes.size)) := by
  have hread := FileTree.read_write (save_eq_ok_iff.1 h)
  refine ⟨_, detect_of_read hread hstorable, ?_⟩
  rw [load_of_read hread, decode_encode_iff hfilled hstorable, and_self]
  by_cases hlooks : format = .binary ∧ LooksLikeObject g.scopes.size
  · rw [if_pos hlooks, hlooks.1]
    simp [hlooks.2]
  · rw [if_neg hlooks]
    simp [hlooks]

def lonely : Grammar := ⟨⟨[("main", [.empty])], by decide⟩⟩

def desk : FileTree := ⟨["desk"], [(["desk"], .directory)]⟩

theorem write_desk (s : Bytes) :
    desk.write "g.bin" s = .ok (desk.put ["desk", "g.bin"] (.file s)) := rfl

theorem detected_lonely : lonely.Filled ∧ lonely.Storable .binary ∧
    lonely.save desk "g.bin" .binary = .ok (desk.put ["desk", "g.bin"] (.file lonely.binary)) ∧
    ∃ d, detect (desk.put ["desk", "g.bin"] (.file lonely.binary)) "g.bin" none = .ok d ∧
      d.format = .binary ∧
      load (desk.put ["desk", "g.bin"] (.file lonely.binary)) "g.bin" d.format = .ok lonely := by
  have hfilled : lonely.Filled := by
    simp [Filled, lonely, Pattern.Filled, Pattern.empty]
  have hstorable : lonely.Storable .binary := by
    unfold Storable
    decide
  have hvisible : ¬ (Format.binary = .binary ∧ LooksLikeObject lonely.scopes.size) := by decide
  have hsave : lonely.save desk "g.bin" .binary =
    .ok (desk.put ["desk", "g.bin"] (.file lonely.binary)) := rfl
  obtain ⟨d, hd, hformat, hload⟩ := detected_of_save hfilled hstorable hsave
  exact ⟨hfilled, hstorable, hsave, d, hd, hformat.2 hvisible, hload.2 hvisible⟩

theorem replicate_lt_replicate {n m : Nat} (h : n < m) (c : Char) :
    List.replicate n c < List.replicate m c := by
  induction n generalizing m with
  | zero =>
    obtain ⟨k, rfl⟩ := Nat.exists_eq_succ_of_ne_zero (Nat.ne_of_gt h)
    exact List.nil_lt_cons _ _
  | succ n ih =>
    obtain ⟨k, rfl⟩ := Nat.exists_eq_succ_of_ne_zero (Nat.ne_of_gt (Nat.zero_lt_of_lt h))
    exact List.cons_lt_cons_iff.2 (.inr ⟨rfl, ih (Nat.lt_of_succ_lt_succ h)⟩)

def crowd (count : Nat) : Grammar where
  scopes := ⟨(List.range count).map fun n => (String.ofList (List.replicate n 'a'), []), by
    rw [List.pairwise_map]
    refine List.pairwise_lt_range.imp fun h => ?_
    change (String.ofList _).toList < (String.ofList _).toList
    simpa using replicate_lt_replicate h 'a'⟩

theorem length_putScope_replicate (n : Nat) :
    (putScope (String.ofList (List.replicate n 'a'), [])).length = n + 16 := by
  have hname : (utf8 (String.ofList (List.replicate n 'a'))).length = n := by
    simp [utf8, Json.Quotation.encode_of_lt]
  simp only [putScope, Binary.putText, Binary.putList, List.length_append, Binary.length_putLength,
    hname, List.flatMap_nil, List.length_nil]
  omega

theorem storable_crowd : (crowd 123).Storable .binary := by
  have hlength : (crowd 123).binary.length = 8 + ((List.range 123).map (· + 16)).sum := by
    simp only [binary, Binary.putList, crowd, List.length_append, Binary.length_putLength,
      List.flatMap_map, List.length_flatMap, length_putScope_replicate]
  rw [Storable, encode, hlength]
  decide +kernel

theorem misdetected_crowd : (crowd 123).Filled ∧ (crowd 123).Storable .binary ∧
    ∃ t, (crowd 123).save desk "g.bin" .binary = .ok t ∧
      detect t "g.bin" none = .ok ⟨.json, .content⟩ ∧ ∀ g, load t "g.bin" .json ≠ .ok g := by
  have hfilled : (crowd 123).Filled := by
    simp [Filled, crowd]
  have hsave : (crowd 123).save desk "g.bin" .binary =
    .ok (desk.put ["desk", "g.bin"] (.file ((crowd 123).encode .binary))) :=
    save_eq_ok_iff.2 (write_desk _)
  have hread := FileTree.read_write (save_eq_ok_iff.1 hsave)
  have hlooks : Format.binary = .binary ∧ LooksLikeObject (crowd 123).scopes.size := by
    rw [NameMap.size, crowd, List.length_map, List.length_range]
    decide
  refine ⟨hfilled, storable_crowd, _, hsave, ?_, fun g hg => ?_⟩
  · rw [detect_of_read hread storable_crowd, if_pos hlooks]
  · rw [load_of_read hread] at hg
    exact absurd (eq_of_decode_encode hfilled storable_crowd hg).1 (by decide)

end Grammar
end Phrasebook
