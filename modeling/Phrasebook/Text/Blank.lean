/-!
Blank characters and the two things done with them: cutting a text at its blanks and trimming it.

The blanks are the characters with the Unicode property `White_Space`, the line and paragraph
separators and the no-break space included.
-/

namespace Phrasebook.Text

def isBlank (c : Char) : Bool :=
  ('\t' ≤ c && c ≤ '\r') || c == ' ' || c == '\x85' || c == '\xa0' || c == '\u1680' ||
    ('\u2000' ≤ c && c ≤ '\u200a') || c == '\u2028' || c == '\u2029' || c == '\u202f' ||
    c == '\u205f' || c == '\u3000'

def isInk (c : Char) : Bool := !isBlank c

theorem isInk_of_mem_takeWhile {c : Char} {s : List Char} (h : c ∈ s.takeWhile isInk) :
    isBlank c = false := by
  induction s with
  | nil => simp at h
  | cons d s ih =>
    rw [List.takeWhile_cons] at h
    split at h
    · rcases List.mem_cons.1 h with rfl | h
      · simpa [isInk] using ‹isInk _›
      · exact ih h
    · simp at h

theorem isInk_of_dropWhile_eq_cons {c : Char} {s r : List Char}
    (h : s.dropWhile isBlank = c :: r) : isBlank c = false := by
  induction s with
  | nil => simp at h
  | cons d s ih =>
    rw [List.dropWhile_cons] at h
    split at h
    · exact ih h
    · simp_all

def trim (s : List Char) : List Char :=
  ((s.dropWhile isBlank).reverse.dropWhile isBlank).reverse

end Phrasebook.Text
