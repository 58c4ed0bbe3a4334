import Phrasebook.Json.Token
import Phrasebook.Proofs.Text.Utf8

/-!
Counts survive as digits. A count that fits a machine word is read back from its digits, if what follows
them does not go on with the number.
-/

namespace Phrasebook.Json
open Text (Bytes encode utf8)

variable {n m k : Nat} {b : UInt8} {s : Bytes}

def Delimited (s : Bytes) : Prop := ∀ b ∈ s.head?, b = 0x2c ∨ b = 0x0a

theorem utf8_toString_of_lt (h : n < 10) : utf8 (toString n) = [UInt8.ofNat (48 + n)] := by
  have hchar := Nat.toNat_digitChar_of_lt_ten h
  rw [utf8, Nat.toString_eq_repr, Nat.toList_repr, Nat.toDigits_of_lt_base h, encode,
    List.flatMap_singleton, Text.utf8EncodeChar_of_lt (by omega), hchar]

theorem utf8_toString_of_le (h : 10 ≤ n) :
    utf8 (toString n) = utf8 (toString (n / 10)) ++ [UInt8.ofNat (48 + n % 10)] := by
  have hchar := Nat.toNat_digitChar_of_lt_ten (Nat.mod_lt n (by decide : 0 < 10))
  simp only [utf8, Nat.toString_eq_repr, Nat.toList_repr]
  rw [Nat.toDigits_of_base_le (by decide) h, encode, List.flatMap_append, List.flatMap_singleton,
    Text.utf8EncodeChar_of_lt (by omega), hchar, ← encode]

theorem isDigit_ofNat : ∀ k < 10, isDigit (UInt8.ofNat (48 + k)) = true := by decide

theorem digit_ofNat : ∀ k < 10, digit (UInt8.ofNat (48 + k)) = k := by decide

theorem isDigit_of_mem_utf8_toString (hb : b ∈ utf8 (toString n)) : isDigit b = true := by
  induction n using Nat.strongRecOn with
  | ind n ih =>
    by_cases h : n < 10
    · rw [utf8_toString_of_lt h, List.mem_singleton] at hb
      exact hb ▸ isDigit_ofNat n h
    · rw [utf8_toString_of_le (Nat.not_lt.1 h), List.mem_append, List.mem_singleton] at hb
      rcases hb with hb | rfl
      · exact ih (n / 10) (by omega) hb
      · exact isDigit_ofNat _ (Nat.mod_lt n (by decide))

theorem exists_utf8_toString (n : Nat) :
    ∃ b s, utf8 (toString n) = b :: s ∧ (b = 0x30 → s = []) := by
  have hpositive : ∀ n, 0 < n → ∃ b s, utf8 (toString n) = b :: s ∧ b ≠ 0x30 := by
    intro n
    induction n using Nat.strongRecOn with
    | ind n ih =>
      intro hn
      by_cases h : n < 10
      · have hne : ∀ k < 10, 0 < k → UInt8.ofNat (48 + k) ≠ 0x30 := by decide
        exact ⟨_, [], utf8_toString_of_lt h, hne n h hn⟩
      · obtain ⟨b, s, hs, hb⟩ := ih (n / 10) (by omega) (by omega)
        exact ⟨b, _, by rw [utf8_toString_of_le (Nat.not_lt.1 h), hs]; rfl, hb⟩
  cases n with
  | zero => exact ⟨0x30, [], rfl, fun _ => rfl⟩
  | succ n =>
    obtain ⟨b, s, hs, hb⟩ := hpositive (n + 1) (Nat.succ_pos n)
    exact ⟨b, s, hs, fun h => absurd h hb⟩

theorem gather_append (h : gather n s = (m, 0)) : gather n (s ++ [b]) = gather m [b] := by
  induction s generalizing n with
  | nil =>
    cases h
    rfl
  | cons c s ih =>
    rw [gather] at h
    rw [List.cons_append, gather]
    split_ifs at h ⊢
    · exact ih h
    · cases h

theorem gather_utf8_toString (h : n < wordLimit) : gather 0 (utf8 (toString n)) = (n, 0) := by
  induction n using Nat.strongRecOn with
  | ind n ih =>
    by_cases hlt : n < 10
    · have hfits : 0 * 10 + digit (UInt8.ofNat (48 + n)) < wordLimit := by
        rw [digit_ofNat n hlt]
        omega
      rw [utf8_toString_of_lt hlt, gather, if_pos hfits, gather, digit_ofNat n hlt]
      simp
    · have hfits : n / 10 * 10 + digit (UInt8.ofNat (48 + n % 10)) = n := by
        rw [digit_ofNat _ (Nat.mod_lt n (by decide))]
        omega
      have hhigh := ih (n / 10) (by omega) (by omega)
      rw [utf8_toString_of_le (Nat.not_lt.1 hlt), gather_append hhigh, gather, hfits, if_pos h, gather]

theorem digits_append {ds : Bytes} (hds : ∀ b ∈ ds, isDigit b = true) (hs : Delimited s) :
    digits (ds ++ s) = (ds, s) := by
  have hrest : s.takeWhile isDigit = [] ∧ s.dropWhile isDigit = s := by
    cases s with
    | nil => exact ⟨rfl, rfl⟩
    | cons b s =>
      have hb : ¬ isDigit b = true := by
        rcases hs b rfl with rfl | rfl <;> decide
      exact ⟨List.takeWhile_cons_of_neg hb, List.dropWhile_cons_of_neg hb⟩
  rw [digits, List.takeWhile_append_of_pos hds, List.dropWhile_append_of_pos hds, hrest.1, hrest.2,
    List.append_nil]

theorem scanFraction_of_delimited (hs : Delimited s) : scanFraction k s = .ok none s := by
  cases s with
  | nil => rfl
  | cons b s => rcases hs b rfl with rfl | rfl <;> rfl

theorem scanExponent_of_delimited (hs : Delimited s) : scanExponent k s = .ok none s := by
  cases s with
  | nil => rfl
  | cons b s => rcases hs b rfl with rfl | rfl <;> rfl

theorem scan_digit (hb : isDigit b = true) : scan b s = scanNumber false (b :: s) := by
  have hne (c : UInt8) (hc : isDigit c = false) : (b == c) = false := by
    rw [beq_eq_false_iff_ne]
    rintro rfl
    exact absurd (hb.symm.trans hc) (by decide)
  simp only [scan, hne 0x7b rfl, hne 0x7d rfl, hne 0x5b rfl, hne 0x5d rfl, hne 0x2c rfl, hne 0x3a rfl,
    hne 0x22 rfl, hne 0x2d rfl, hb, Bool.false_eq_true, if_false, if_true]

theorem isSpace_of_isDigit (hb : isDigit b = true) : isSpace b = false := by
  refine Bool.eq_false_iff.2 fun hspace => ?_
  simp only [isSpace, Bool.or_eq_true, beq_iff_eq] at hspace
  rcases hspace with ((rfl | rfl) | rfl) | rfl <;> exact absurd hb (by decide)

theorem scan_utf8_toString (h : n < wordLimit) (hs : Delimited s) :
    ∃ b t, utf8 (toString n) ++ s = b :: t ∧ isSpace b = false ∧
      scan b t = (.number (.ok (.int n)), s) := by
  obtain ⟨b, ds, hds, hzero⟩ := exists_utf8_toString n
  have hdigits : ∀ x ∈ b :: ds, isDigit x = true := fun x hx =>
    isDigit_of_mem_utf8_toString (hds ▸ hx)
  have hb := hdigits b List.mem_cons_self
  have hgather := gather_utf8_toString h
  rw [hds] at hgather
  have hwhole : scanWhole 0 (b :: ds ++ s) = .ok (b :: ds) s := by
    rw [scanWhole, digits_append hdigits hs]
    split <;> simp_all
  have hnumber (width : Nat) : numberOf width false (b :: ds) none none = .ok (.int n) := by
    simp only [numberOf, hgather]
    rfl
  refine ⟨b, ds ++ s, by rw [hds]; rfl, isSpace_of_isDigit hb, ?_⟩
  rw [scan_digit hb, ← List.cons_append, scanNumber, Bool.toNat_false, hwhole]
  simp only [scanFraction_of_delimited hs, scanExponent_of_delimited hs, hnumber]

end Phrasebook.Json
