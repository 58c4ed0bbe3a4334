import Mathlib.Tactic.SplitIfs
import Phrasebook.Proofs.Sequencing
import Phrasebook.Text.Utf8

/-!
Texts survive as bytes. Decoding the bytes of a text gives the text back, character by character: the
first byte of a character tells how many there are, and none of the others is refused. No other bytes
are decoded.
-/

namespace Phrasebook.Text

variable {a b c d : UInt8} {s : Bytes} {index : Nat}

theorem toNat_ofNat {n : Nat} (h : n < 256) : (UInt8.ofNat n).toNat = n := by
  rw [UInt8.toNat_ofNat']
  exact Nat.mod_eq_of_lt h

theorem isTail_iff : isTail b = true ↔ 128 ≤ b.toNat ∧ b.toNat ≤ 191 := by
  simp [isTail, UInt8.le_iff_toNat_le]

theorem isSecond_iff : isSecond a b = true ↔ (128 ≤ b.toNat ∧ b.toNat ≤ 191) ∧
    (a.toNat = 224 → 160 ≤ b.toNat) ∧ (a.toNat = 237 → b.toNat < 160) ∧
    (a.toNat = 240 → 144 ≤ b.toNat) ∧ (a.toNat = 244 → b.toNat < 144) := by
  simp [isSecond, isTail_iff, ← UInt8.toNat_inj, UInt8.lt_iff_toNat_lt, UInt8.le_iff_toNat_le]
  omega

theorem utf8EncodeChar_of_lt {x : Char} (h : x.toNat < 128) :
    String.utf8EncodeChar x = [UInt8.ofNat x.toNat] := by
  rw [String.utf8EncodeChar]
  exact if_pos (Nat.le_of_lt_succ h)

theorem le_of_mem_utf8EncodeChar {x : Char} (h : 128 ≤ x.toNat) (hb : b ∈ String.utf8EncodeChar x) :
    128 ≤ b.toNat := by
  have hone : ¬ x.val.toNat ≤ 127 := Nat.not_le.2 h
  rw [String.utf8EncodeChar, if_neg hone] at hb
  generalize x.val.toNat = v at hb
  split_ifs at hb <;> simp only [List.mem_cons, List.not_mem_nil, or_false] at hb
  · rcases hb with rfl | rfl <;> rw [toNat_ofNat (by omega)] <;> omega
  · rcases hb with rfl | rfl | rfl <;> rw [toNat_ofNat (by omega)] <;> omega
  · rcases hb with rfl | rfl | rfl | rfl <;> rw [toNat_ofNat (by omega)] <;> omega

theorem decodeFrom_one (h : a.toNat < 128) :
    decodeFrom index (a :: s) = (Char.ofNat a.toNat :: ·) <$> decodeFrom (index + 1) s := by
  have ha : a < 0x80 := by simpa [UInt8.lt_iff_toNat_lt] using h
  rw [decodeFrom.eq_def]
  exact if_pos ha

theorem decodeFrom_two (h : 194 ≤ a.toNat) (h' : a.toNat < 224) (hb : isSecond a b = true) :
    decodeFrom index (a :: b :: s) =
      (Char.ofNat (a.toNat % 32 * 64 + tailBits b) :: ·) <$> decodeFrom (index + 2) s := by
  have h₁ : ¬ a < 0x80 := by simp [UInt8.lt_iff_toNat_lt]; omega
  have h₂ : ¬ (a < 0xc2 || 0xf4 < a) = true := by simp [UInt8.lt_iff_toNat_lt]; omega
  have h₃ : a < 0xe0 := by simpa [UInt8.lt_iff_toNat_lt] using h'
  rw [decodeFrom.eq_def]
  simp only [if_neg h₁, if_neg h₂, hb, Bool.not_true, Bool.false_eq_true, ↓reduceIte, if_pos h₃]

theorem decodeFrom_three (h : 224 ≤ a.toNat) (h' : a.toNat < 240) (hb : isSecond a b = true)
    (hc : isTail c = true) : decodeFrom index (a :: b :: c :: s) =
      (Char.ofNat ((a.toNat % 16 * 64 + tailBits b) * 64 + tailBits c) :: ·) <$>
        decodeFrom (index + 3) s := by
  have h₁ : ¬ a < 0x80 := by simp [UInt8.lt_iff_toNat_lt]; omega
  have h₂ : ¬ (a < 0xc2 || 0xf4 < a) = true := by simp [UInt8.lt_iff_toNat_lt]; omega
  have h₃ : ¬ a < 0xe0 := by simp [UInt8.lt_iff_toNat_lt]; omega
  have h₄ : a < 0xf0 := by simpa [UInt8.lt_iff_toNat_lt] using h'
  rw [decodeFrom.eq_def]
  simp only [if_neg h₁, if_neg h₂, hb, hc, Bool.not_true, Bool.false_eq_true, ↓reduceIte,
    if_neg h₃, if_pos h₄]

theorem decodeFrom_four (h : 240 ≤ a.toNat) (h' : a.toNat ≤ 244) (hb : isSecond a b = true)
    (hc : isTail c = true) (hd : isTail d = true) : decodeFrom index (a :: b :: c :: d :: s) =
      (Char.ofNat (((a.toNat % 8 * 64 + tailBits b) * 64 + tailBits c) * 64 + tailBits d) :: ·) <$>
        decodeFrom (index + 4) s := by
  have h₁ : ¬ a < 0x80 := by simp [UInt8.lt_iff_toNat_lt]; omega
  have h₂ : ¬ (a < 0xc2 || 0xf4 < a) = true := by simp [UInt8.lt_iff_toNat_lt]; omega
  have h₃ : ¬ a < 0xe0 := by simp [UInt8.lt_iff_toNat_lt]; omega
  have h₄ : ¬ a < 0xf0 := by simp [UInt8.lt_iff_toNat_lt]; omega
  rw [decodeFrom.eq_def]
  simp only [if_neg h₁, if_neg h₂, hb, hc, hd, Bool.not_true, Bool.false_eq_true, ↓reduceIte,
    if_neg h₃, if_neg h₄]

theorem decodeFrom_utf8EncodeChar (x : Char) (s : Bytes) (index : Nat) : ∃ index',
    decodeFrom index (String.utf8EncodeChar x ++ s) = (x :: ·) <$> decodeFrom index' s := by
  have hvalid : x.val.toNat < 0xd800 ∨ 0xdfff < x.val.toNat ∧ x.val.toNat < 0x110000 := x.valid
  have hchar : Char.ofNat x.val.toNat = x := Char.ofNat_toNat x
  rw [String.utf8EncodeChar]
  generalize x.val.toNat = v at hvalid hchar
  subst hchar
  split_ifs with h₁ h₂ h₃
  · have ha : (UInt8.ofNat v).toNat = v := toNat_ofNat (by omega)
    refine ⟨index + 1, ?_⟩
    rw [List.cons_append, List.nil_append, decodeFrom_one (by omega), ha]
  · have ha : (UInt8.ofNat (v / 64 % 32 + 192)).toNat = v / 64 + 192 := by
      rw [toNat_ofNat (by omega)]
      omega
    have hb : (UInt8.ofNat (v % 64 + 128)).toNat = v % 64 + 128 := toNat_ofNat (by omega)
    have hv : (v / 64 + 192) % 32 * 64 + (v % 64 + 128) % 64 = v := by omega
    refine ⟨index + 2, ?_⟩
    simp only [List.cons_append, List.nil_append]
    rw [decodeFrom_two (by omega) (by omega) (isSecond_iff.2 (by omega)), tailBits, ha, hb, hv]
  · have ha : (UInt8.ofNat (v / 4096 % 16 + 224)).toNat = v / 4096 + 224 := by
      rw [toNat_ofNat (by omega)]
      omega
    have hb : (UInt8.ofNat (v / 64 % 64 + 128)).toNat = v / 64 % 64 + 128 := toNat_ofNat (by omega)
    have hc : (UInt8.ofNat (v % 64 + 128)).toNat = v % 64 + 128 := toNat_ofNat (by omega)
    have hv : ((v / 4096 + 224) % 16 * 64 + (v / 64 % 64 + 128) % 64) * 64 +
        (v % 64 + 128) % 64 = v := by
      omega
    refine ⟨index + 3, ?_⟩
    simp only [List.cons_append, List.nil_append]
    rw [decodeFrom_three (by omega) (by omega) (isSecond_iff.2 (by omega)) (isTail_iff.2 (by omega)),
      tailBits, tailBits, ha, hb, hc, hv]
  · have ha : (UInt8.ofNat (v / 262144 % 8 + 240)).toNat = v / 262144 + 240 := by
      rw [toNat_ofNat (by omega)]
      omega
    have hb : (UInt8.ofNat (v / 4096 % 64 + 128)).toNat = v / 4096 % 64 + 128 :=
      toNat_ofNat (by omega)
    have hc : (UInt8.ofNat (v / 64 % 64 + 128)).toNat = v / 64 % 64 + 128 := toNat_ofNat (by omega)
    have hd : (UInt8.ofNat (v % 64 + 128)).toNat = v % 64 + 128 := toNat_ofNat (by omega)
    have hv : (((v / 262144 + 240) % 8 * 64 + (v / 4096 % 64 + 128) % 64) * 64 +
        (v / 64 % 64 + 128) % 64) * 64 + (v % 64 + 128) % 64 = v := by
      omega
    refine ⟨index + 4, ?_⟩
    simp only [List.cons_append, List.nil_append]
    rw [decodeFrom_four (by omega) (by omega) (isSecond_iff.2 (by omega)) (isTail_iff.2 (by omega))
      (isTail_iff.2 (by omega)), tailBits, tailBits, tailBits, ha, hb, hc, hd, hv]

theorem decodeFrom_encode (cs : List Char) (index : Nat) : decodeFrom index (encode cs) = .ok cs := by
  induction cs generalizing index with
  | nil => rfl
  | cons x cs ih =>
    obtain ⟨index', h⟩ := decodeFrom_utf8EncodeChar x (encode cs) index
    rw [encode, List.flatMap_cons]
    rw [encode] at h
    rw [h, ← encode, ih]
    rfl

theorem decode_encode (cs : List Char) : decode (encode cs) = .ok cs := decodeFrom_encode cs 0

theorem decode?_utf8 (t : String) : decode? (utf8 t) = some t := by
  rw [decode?, utf8, decode_encode]
  exact congrArg some String.ofList_toList

theorem utf8_append (t u : String) : utf8 (t ++ u) = utf8 t ++ utf8 u := by
  rw [utf8, utf8, utf8, String.toList_append, encode, List.flatMap_append, encode, encode]

theorem utf8EncodeChar_ofNat {n : Nat} (h : n.isValidChar) : String.utf8EncodeChar (Char.ofNat n) =
    if n ≤ 0x7f then [UInt8.ofNat n]
    else if n ≤ 0x7ff then [UInt8.ofNat (n / 64 % 32 + 192), UInt8.ofNat (n % 64 + 128)]
    else if n ≤ 0xffff then [UInt8.ofNat (n / 4096 % 16 + 224), UInt8.ofNat (n / 64 % 64 + 128),
      UInt8.ofNat (n % 64 + 128)]
    else [UInt8.ofNat (n / 262144 % 8 + 240), UInt8.ofNat (n / 4096 % 64 + 128),
      UInt8.ofNat (n / 64 % 64 + 128), UInt8.ofNat (n % 64 + 128)] := by
  have hn : (Char.ofNat n).val.toNat = n := by
    rw [Char.ofNat, dif_pos h]
    rfl
  rw [String.utf8EncodeChar, hn]

theorem ofNat_eq (b : UInt8) {n : Nat} (h : n = b.toNat) : UInt8.ofNat n = b := by
  rw [h, UInt8.ofNat_toNat]

theorem encode_one (h : a.toNat < 128) : String.utf8EncodeChar (Char.ofNat a.toNat) = [a] := by
  rw [utf8EncodeChar_ofNat (.inl (by omega)), if_pos (by omega), UInt8.ofNat_toNat]

theorem encode_two (h : 194 ≤ a.toNat) (h' : a.toNat < 224) (hb : isSecond a b = true) :
    String.utf8EncodeChar (Char.ofNat (a.toNat % 32 * 64 + tailBits b)) = [a, b] := by
  have hb := isSecond_iff.1 hb
  rw [tailBits, utf8EncodeChar_ofNat (.inl (by omega)), if_neg (by omega), if_pos (by omega),
    ofNat_eq a (by omega), ofNat_eq b (by omega)]

theorem encode_three (h : 224 ≤ a.toNat) (h' : a.toNat < 240) (hb : isSecond a b = true)
    (hc : isTail c = true) : String.utf8EncodeChar
      (Char.ofNat ((a.toNat % 16 * 64 + tailBits b) * 64 + tailBits c)) = [a, b, c] := by
  have hb := isSecond_iff.1 hb
  have hc := isTail_iff.1 hc
  have hn : ((a.toNat % 16 * 64 + b.toNat % 64) * 64 + c.toNat % 64).isValidChar := by
    unfold Nat.isValidChar
    omega
  rw [tailBits, tailBits, utf8EncodeChar_ofNat hn, if_neg (by omega), if_neg (by omega),
    if_pos (by omega), ofNat_eq a (by omega), ofNat_eq b (by omega), ofNat_eq c (by omega)]

theorem encode_four (h : 240 ≤ a.toNat) (h' : a.toNat ≤ 244) (hb : isSecond a b = true)
    (hc : isTail c = true) (hd : isTail d = true) : String.utf8EncodeChar
      (Char.ofNat (((a.toNat % 8 * 64 + tailBits b) * 64 + tailBits c) * 64 + tailBits d)) =
        [a, b, c, d] := by
  have hb := isSecond_iff.1 hb
  have hc := isTail_iff.1 hc
  have hd := isTail_iff.1 hd
  rw [tailBits, tailBits, tailBits, utf8EncodeChar_ofNat (.inr (by omega)), if_neg (by omega),
    if_neg (by omega), if_neg (by omega), ofNat_eq a (by omega), ofNat_eq b (by omega),
    ofNat_eq c (by omega), ofNat_eq d (by omega)]

theorem starts_of_not (h : ¬ (a < 0xc2 || 0xf4 < a) = true) : 194 ≤ a.toNat ∧ a.toNat ≤ 244 := by
  simpa [UInt8.lt_iff_toNat_lt] using h

theorem encode_cons (x : Char) (cs : List Char) :
    encode (x :: cs) = String.utf8EncodeChar x ++ encode cs := List.flatMap_cons

theorem encode_of_decodeFrom {cs : List Char} (h : decodeFrom index s = .ok cs) : encode cs = s := by
  fun_induction decodeFrom index s generalizing cs with
  | case1 =>
    cases h
    rfl
  | case2 index a s hone ih =>
    obtain ⟨rest, hrest, rfl⟩ := map_eq_ok_iff.1 h
    rw [encode_cons, encode_one (UInt8.lt_iff_toNat_lt.1 hone), ih hrest]
    rfl
  | case6 index a hone hfirst b s hb htwo ih =>
    obtain ⟨rest, hrest, rfl⟩ := map_eq_ok_iff.1 h
    have htwo := UInt8.lt_iff_toNat_lt.1 htwo
    rw [encode_cons, encode_two (starts_of_not hfirst).1 htwo (by simpa using hb), ih hrest]
    rfl
  | case9 index a hone hfirst b hb htwo c s hc hthree ih =>
    obtain ⟨rest, hrest, rfl⟩ := map_eq_ok_iff.1 h
    have htwo := UInt8.le_iff_toNat_le.1 (UInt8.not_lt.1 htwo)
    have hthree := UInt8.lt_iff_toNat_lt.1 hthree
    rw [encode_cons, encode_three htwo hthree (by simpa using hb) (by simpa using hc), ih hrest]
    rfl
  | case12 index a hone hfirst b hb htwo c hc hthree d s hd ih =>
    obtain ⟨rest, hrest, rfl⟩ := map_eq_ok_iff.1 h
    have hthree := UInt8.le_iff_toNat_le.1 (UInt8.not_lt.1 hthree)
    rw [encode_cons, encode_four hthree (starts_of_not hfirst).2 (by simpa using hb)
      (by simpa using hc) (by simpa using hd), ih hrest]
    rfl
  -- In all other cases the bytes are refused.
  | _ => cases h

theorem decode_eq_ok_iff {cs : List Char} : decode s = .ok cs ↔ encode cs = s :=
  ⟨encode_of_decodeFrom, fun h => h ▸ decode_encode cs⟩

end Phrasebook.Text
