import Phrasebook.Error
import Phrasebook.Text.Blank

/-!
A word is a text that is not empty and holds no blank. Cutting any text at its blanks gives words,
and a word is cut into itself.
-/

namespace Phrasebook
open Text (isBlank isInk)

structure Word where
  text : String
  ne_empty : text.toList ≠ []
  no_blank : ∀ c ∈ text.toList, isBlank c = false

namespace Word

@[ext] theorem ext {a b : Word} (h : a.text = b.text) : a = b := by
  cases a; cases b; simp_all

instance : DecidableEq Word := fun a b => decidable_of_iff (a.text = b.text) ⟨ext, congrArg text⟩

instance : Hashable Word := ⟨fun w => hash w.text⟩

def letters (w : Word) : List Char := w.text.toList

theorem any_isBlank_eq_false {s : List Char} :
    s.any isBlank = false ↔ ∀ c ∈ s, isBlank c = false := by
  simp

def ofString (text : String) : Except PatternError Word :=
  if h : text.toList = [] then .error .emptyWord
  else if h' : text.toList.any isBlank = false then .ok ⟨text, h, any_isBlank_eq_false.1 h'⟩
  else .error (.blankInWord text)

theorem ofString_text (w : Word) : ofString w.text = .ok w := by
  unfold ofString
  rw [dif_neg w.ne_empty, dif_pos (any_isBlank_eq_false.2 w.no_blank)]

theorem text_of_ofString {s : String} {w : Word} (h : ofString s = .ok w) : w.text = s := by
  unfold ofString at h
  split at h
  · simp at h
  · split at h
    · simp only [Except.ok.injEq] at h; rw [← h]
    · simp at h

def leading (c : Char) (s : List Char) (h : isBlank c = false) : Word where
  text := String.ofList (c :: s.takeWhile isInk)
  ne_empty := by simp
  no_blank := by
    intro d hd
    simp only [String.toList_ofList, List.mem_cons] at hd
    rcases hd with rfl | hd
    · exact h
    · exact Text.isInk_of_mem_takeWhile hd

def cut (s : List Char) : List Word :=
  match h : s.dropWhile isBlank with
  | [] => []
  | c :: r =>
    leading c r (Text.isInk_of_dropWhile_eq_cons h) :: cut (r.dropWhile isInk)
termination_by s.length
decreasing_by
  have h₁ := congrArg List.length h
  have h₂ := (List.dropWhile_suffix isBlank (l := s)).length_le
  have h₃ := (List.dropWhile_suffix isInk (l := r)).length_le
  simp only [List.length_cons] at h₁
  omega

def ofText (text : String) : List Word := cut text.toList

end Word
end Phrasebook
