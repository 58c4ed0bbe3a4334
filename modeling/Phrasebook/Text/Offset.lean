/-!
Offsets in a text, counted in bytes. An offset that falls inside a character or behind the end cuts no
text off.
-/

namespace Phrasebook.Text

def byteLength : List Char → Nat
  | [] => 0
  | c :: s => c.utf8Size + byteLength s

theorem byteLength_append (s t : List Char) :
    byteLength (s ++ t) = byteLength s + byteLength t := by
  induction s with
  | nil => simp [byteLength]
  | cons c s ih => simp only [List.cons_append, byteLength, ih]; omega

def firstBytes? (n : Nat) : List Char → Option (List Char)
  | [] => if n = 0 then some [] else none
  | c :: s =>
    if n = 0 then some []
    else if c.utf8Size ≤ n then (c :: ·) <$> firstBytes? (n - c.utf8Size) s
    else none

def afterBytes? (n : Nat) : List Char → Option (List Char)
  | [] => if n = 0 then some [] else none
  | c :: s =>
    if n = 0 then some (c :: s)
    else if c.utf8Size ≤ n then afterBytes? (n - c.utf8Size) s
    else none

theorem firstBytes?_byteLength (s t : List Char) : firstBytes? (byteLength s) (s ++ t) = some s := by
  induction s with
  | nil => cases t <;> simp [byteLength, firstBytes?]
  | cons c s ih =>
    have := c.utf8Size_pos
    rw [List.cons_append, byteLength, firstBytes?, if_neg (by omega), if_pos (by omega),
      Nat.add_sub_cancel_left, ih]
    rfl

theorem byteLength_of_firstBytes? {n : Nat} {s t : List Char} (h : firstBytes? n s = some t) :
    byteLength t = n ∧ t <+: s := by
  induction s generalizing n t with
  | nil =>
    unfold firstBytes? at h
    split at h
    · cases h; simp_all [byteLength]
    · simp at h
  | cons c s ih =>
    unfold firstBytes? at h
    split at h
    · cases h; simp_all [byteLength]
    · split at h
      · obtain ⟨u, hu, rfl⟩ := Option.map_eq_some_iff.1 h
        obtain ⟨hl, r, rfl⟩ := ih hu
        exact ⟨by simp only [byteLength, hl]; omega, r, by simp⟩
      · simp at h

end Phrasebook.Text
