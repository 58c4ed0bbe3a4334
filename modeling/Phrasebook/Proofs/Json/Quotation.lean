import Mathlib.Data.List.Basic
import Phrasebook.Json.Writer
import Phrasebook.Proofs.Sequencing
import Phrasebook.Proofs.Text.Utf8

/-!
Strings survive between quotes. What is written for a character is read as pieces that denote its
bytes: a quote, a backslash and a control character are escaped, every other byte stands for itself.
-/

namespace Phrasebook.Json
open Text (Bytes encode utf8)

/-- The pieces stand for the bytes, none of them for half of a pair of code units. -/
inductive Denotes : List Piece → Bytes → Prop
  | nil : Denotes [] []
  | byte {ps : List Piece} {s : Bytes} (b : UInt8) (rest : Denotes ps s) :
      Denotes (.byte b :: ps) (b :: s)
  | escape {ps : List Piece} {s : Bytes} (b : UInt8) (rest : Denotes ps s) :
      Denotes (.escape b :: ps) (b :: s)
  | unit {ps : List Piece} {s : Bytes} {n : Nat} (control : n < 32) (rest : Denotes ps s) :
      Denotes (.unit n :: ps) (UInt8.ofNat n :: s)

namespace Denotes
variable {ps : List Piece} {s : Bytes}

theorem assemble_eq (h : Denotes ps s) (n : Nat) : assemble n ps = .ok s := by
  induction h generalizing n with
  | nil => rfl
  | byte b _ ih => rw [assemble, ih]; rfl
  | escape b _ ih => rw [assemble, ih]; rfl
  | @unit ps s u control _ ih =>
    have htrail : isTrail u = false := by simp [isTrail]; omega
    have hlead : isLead u = false := by simp [isLead]; omega
    have hchar : (Char.ofNat u).toNat = u := by
      rw [Char.ofNat, dif_pos (.inl (by omega))]
      rfl
    have hbytes := Text.utf8EncodeChar_of_lt (x := Char.ofNat u) (by omega)
    rw [hchar] at hbytes
    rw [assemble.eq_def]
    simp only [htrail, hlead, ih, hbytes]
    rfl

theorem endsInLead_eq (h : Denotes ps s) : endsInLead ps = false := by
  induction h with
  | nil => rfl
  | @byte ps s b rest ih | @escape ps s b rest ih =>
    cases ps with
    | nil => rfl
    | cons p ps => rwa [endsInLead, List.getLast?_cons_cons]
  | @unit ps s n control rest ih =>
    cases ps with
    | nil => simp [endsInLead, isLead]; omega
    | cons p ps => rwa [endsInLead, List.getLast?_cons_cons]

end Denotes

namespace Quotation
variable {ps : List Piece} {r : Except Flaw Bytes} {s t : Bytes}

/-- Wherever the text stands in its token, what is read are pieces for the bytes `s`, up to the end
`r`. -/
def Denotes (t s : Bytes) (r : Except Flaw Bytes) : Prop :=
  ∀ n, Json.Denotes (read n t).pieces s ∧ (read n t).rest = r

theorem read_quote (s : Bytes) : Denotes (0x22 :: s) [] (.ok s) := by
  intro n
  rw [read]
  exact ⟨.nil, rfl⟩

theorem read_byte {b : UInt8} (h : Denotes t s r) (hcontrol : ¬ b < 0x20) (hquote : b ≠ 0x22)
    (hback : b ≠ 0x5c) : Denotes (b :: t) (b :: s) r := by
  intro n
  have hread : read n (b :: t) = (read (n + 1) t).cons (.byte b) := by
    rw [read]
    · rw [if_neg hcontrol]
    all_goals simp [hquote, hback]
  rw [hread]
  exact ⟨.byte b (h _).1, (h _).2⟩

theorem read_bytes {bs : Bytes} (h : Denotes t s r)
    (hbs : ∀ b ∈ bs, ¬ b < 0x20 ∧ b ≠ 0x22 ∧ b ≠ 0x5c) : Denotes (bs ++ t) (bs ++ s) r := by
  induction bs with
  | nil => exact h
  | cons b bs ih =>
    obtain ⟨⟨hcontrol, hquote, hback⟩, hbs⟩ := List.forall_mem_cons.1 hbs
    exact read_byte (ih hbs) hcontrol hquote hback

theorem read_escape {e b : UInt8} (h : Denotes t s r) (he : e ≠ 0x75)
    (hb : escaped? e = some b) : Denotes (0x5c :: e :: t) (b :: s) r := by
  intro n
  have hread : read n (0x5c :: e :: t) = (read (n + 2) t).cons (.escape b) := by
    rw [read]
    · simp only [if_neg he, hb]
    all_goals simp [he]
  rw [hread]
  exact ⟨.escape b (h _).1, (h _).2⟩

theorem read_unit {high low : UInt8} {u : Nat} (h : Denotes t s r) (hu : u < 32)
    (hhigh : hexValue? high = some (u / 16)) (hlow : hexValue? low = some (u % 16)) :
    Denotes (0x5c :: 0x75 :: 0x30 :: 0x30 :: high :: low :: t) (UInt8.ofNat u :: s) r := by
  intro n
  have hzero : hexValue? 0x30 = some 0 := rfl
  have hvalue : ((0 * 16 + 0) * 16 + u / 16) * 16 + u % 16 = u := by omega
  have hread : read n (0x5c :: 0x75 :: 0x30 :: 0x30 :: high :: low :: t) =
      (read (n + 6) t).cons (.unit u) := by
    rw [read]
    simp only [hzero, hhigh, hlow, hvalue]
  rw [hread]
  exact ⟨.unit hu (h _).1, (h _).2⟩

theorem hexValue?_digitChar : ∀ n < 16, hexValue? (UInt8.ofNat n.digitChar.toNat) = some n := by
  decide

theorem digitChar_lt : ∀ n < 16, n.digitChar.toNat < 128 := by decide

theorem lt_iff_toNat_lt {c d : Char} : c < d ↔ c.toNat < d.toNat := Iff.rfl

theorem encode_of_lt {cs : List Char} (h : ∀ c ∈ cs, c.toNat < 128) :
    encode cs = cs.map fun c => UInt8.ofNat c.toNat := by
  rw [encode, List.map_eq_flatMap]
  exact List.flatMap_congr fun c hc => Text.utf8EncodeChar_of_lt (h c hc)

theorem read_control {c : Char} (h : Denotes t s r) (hc : c.toNat < 32) {high : Char}
    (hlt : high.toNat < 128) (hhigh : hexValue? (UInt8.ofNat high.toNat) = some (c.toNat / 16)) :
    Denotes (encode ['\\', 'u', '0', '0', high, (c.toNat % 16).digitChar] ++ t)
      (String.utf8EncodeChar c ++ s) r := by
  have hmod : c.toNat % 16 < 16 := Nat.mod_lt _ (by decide)
  have hascii : ∀ x ∈ ['\\', 'u', '0', '0', high, (c.toNat % 16).digitChar], x.toNat < 128 := by
    simp [hlt, digitChar_lt _ hmod]
  rw [encode_of_lt hascii, Text.utf8EncodeChar_of_lt (by omega)]
  exact read_unit h hc hhigh (hexValue?_digitChar _ hmod)

theorem read_plain {c : Char} (h : Denotes t s r) (hcontrol : ¬ c.toNat < 32)
    (hquote : c ≠ '"') (hback : c ≠ '\\') :
    Denotes (encode [c] ++ t) (String.utf8EncodeChar c ++ s) r := by
  rw [encode, List.flatMap_singleton]
  refine read_bytes h fun b hb => ?_
  rw [UInt8.lt_iff_toNat_lt, ne_eq, ne_eq, ← UInt8.toNat_inj, ← UInt8.toNat_inj]
  change ¬ b.toNat < 32 ∧ ¬ b.toNat = 34 ∧ ¬ b.toNat = 92
  by_cases hlt : c.toNat < 128
  · rw [Text.utf8EncodeChar_of_lt hlt, List.mem_singleton] at hb
    rw [hb, Text.toNat_ofNat (by omega)]
    exact ⟨hcontrol, fun heq => hquote (Char.toNat_inj.1 heq), fun heq => hback (Char.toNat_inj.1 heq)⟩
  · have hle := Text.le_of_mem_utf8EncodeChar (Nat.not_lt.1 hlt) hb
    omega

theorem read_escapeChar (c : Char) (h : Denotes t s r) :
    Denotes (encode (escapeChar c) ++ t) (String.utf8EncodeChar c ++ s) r := by
  unfold escapeChar
  -- Seven characters have an escape of their own; the others are told apart by their number.
  split
  · exact read_escape (e := 0x22) h (by decide) rfl
  · exact read_escape (e := 0x5c) h (by decide) rfl
  · exact read_escape (e := 0x6e) h (by decide) rfl
  · exact read_escape (e := 0x72) h (by decide) rfl
  · exact read_escape (e := 0x74) h (by decide) rfl
  · exact read_escape (e := 0x62) h (by decide) rfl
  · exact read_escape (e := 0x66) h (by decide) rfl
  · rename_i hquote hback _ _ _ _ _
    by_cases hc : c < ' '
    · have hcontrol : c.toNat < 32 := lt_iff_toNat_lt.1 hc
      rw [if_pos hc]
      refine read_control h hcontrol (by split <;> decide) ?_
      split
      · rename_i hlow
        have hlow : c.toNat < 16 := lt_iff_toNat_lt.1 hlow
        rw [show c.toNat / 16 = 0 by omega]
        rfl
      · rename_i hlow
        have hlow : ¬ c.toNat < 16 := mt (lt_iff_toNat_lt (d := '\x10')).2 hlow
        rw [show c.toNat / 16 = 1 by omega]
        rfl
    · rw [if_neg hc]
      exact read_plain h (mt (lt_iff_toNat_lt (d := ' ')).2 hc) hquote hback

theorem read_text (cs : List Char) (t : Bytes) :
    Denotes (encode (cs.flatMap escapeChar) ++ 0x22 :: t) (encode cs) (.ok t) := by
  induction cs with
  | nil => exact read_quote t
  | cons c cs ih =>
    rw [List.flatMap_cons, encode, List.flatMap_append, List.append_assoc, ← encode, ← encode]
    exact read_escapeChar c ih

end Quotation

theorem token_of_denotes {x : String} {s t : Bytes} (h : Quotation.Denotes t (utf8 x) (.ok s))
    (n : Nat) : (Quotation.read n t).token = (.string (.ok x), s) := by
  obtain ⟨hpieces, hrest⟩ := h n
  have htext : (Quotation.read n t).text = .ok x := by
    refine bind_eq_ok_iff.2 ⟨_, hpieces.assemble_eq 1, ?_⟩
    simp only [hpieces.endsInLead_eq, Bool.false_eq_true, if_false, Text.decode?_utf8]
  rw [Quotation.token, hrest, htext]

theorem scan_stringText (x : String) (s : Bytes) :
    ∃ t, utf8 (stringText x) ++ s = 0x22 :: t ∧ scan 0x22 t = (.string (.ok x), s) := by
  refine ⟨encode (x.toList.flatMap escapeChar) ++ 0x22 :: s, ?_, ?_⟩
  · have hquote : String.utf8EncodeChar '"' = [0x22] := rfl
    rw [utf8, stringText, String.toList_ofList, encode, List.cons_append, List.flatMap_cons,
      List.flatMap_append, List.flatMap_singleton, hquote]
    simp [encode]
  · exact token_of_denotes (Quotation.read_text x.toList s) 1

end Phrasebook.Json
