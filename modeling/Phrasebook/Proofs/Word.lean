import Mathlib.Data.List.Basic
import Mathlib.Data.List.TakeWhile
import Phrasebook.Word

/-!
Words and their letters. A word is told by its letters, and a text is cut into words where it has
blanks: words written one after the other, each behind a blank, are cut apart again.
-/

namespace Phrasebook.Word
open Text (isBlank isInk)

theorem exists_letters (w : Word) : ∃ c s, w.letters = c :: s :=
  List.exists_cons_of_ne_nil w.ne_empty

theorem letters_injective {v w : Word} (h : v.letters = w.letters) : v = w :=
  Word.ext (String.toList_injective h)

theorem ofList_letters (w : Word) : String.ofList w.letters = w.text :=
  String.ofList_toList

theorem cut_nil : cut [] = [] := by
  rw [cut]
  simp

theorem cut_blank {c : Char} (h : isBlank c = true) (s : List Char) : cut (c :: s) = cut s := by
  have hdrop : (c :: s).dropWhile isBlank = s.dropWhile isBlank := by simp [h]
  rw [cut, cut]
  split <;> rename_i h₁ <;> split <;> rename_i h₂ <;> rw [hdrop, h₂] at h₁
  · cases h₁
  · cases h₁
  · cases h₁
    rfl

theorem cut_append (w : Word) {s : List Char} (h : ∀ c ∈ s.head?, isBlank c = true) :
    cut (w.letters ++ s) = w :: cut s := by
  obtain ⟨c, r, hcr⟩ := w.exists_letters
  have hblank : ∀ x ∈ w.letters, isBlank x = false := w.no_blank
  have hink : ∀ x ∈ r, isInk x = true := fun x hx => by
    simp [isInk, hblank x (by simp [hcr, hx])]
  have hc : isBlank c = false := hblank c (by simp [hcr])
  have hstart : (w.letters ++ s).dropWhile isBlank = c :: (r ++ s) := by
    rw [hcr, List.cons_append, List.dropWhile_cons_of_neg (by simp [hc])]
  have hstop : s.takeWhile isInk = [] ∧ s.dropWhile isInk = s := by
    cases s with
    | nil => exact ⟨rfl, rfl⟩
    | cons b s =>
      have hb : isInk b = false := by simp [isInk, h b rfl]
      simp [hb]
  rw [cut]
  split
  · rename_i heq
    rw [hstart] at heq
    cases heq
  · rename_i d r' heq
    rw [hstart] at heq
    obtain ⟨rfl, rfl⟩ := List.cons.inj heq
    have hlead : (leading c (r ++ s) hc).letters = w.letters := by
      simp only [leading, letters, String.toList_ofList, List.takeWhile_append_of_pos hink,
        hstop.1, List.append_nil]
      exact hcr.symm
    rw [letters_injective hlead, List.dropWhile_append_of_pos hink, hstop.2]

theorem cut_letters (w : Word) : cut w.letters = [w] := by
  have h := w.cut_append (s := []) (by simp)
  rwa [List.append_nil, cut_nil] at h

theorem text_induction {P : List Char → Prop} (nil : P [])
    (blank : ∀ c s, isBlank c = true → P s → P (c :: s))
    (word : ∀ (w : Word) s, (∀ c ∈ s.head?, isBlank c = true) → P s → P (w.letters ++ s))
    (s : List Char) : P s := by
  induction hlength : s.length using Nat.strong_induction_on generalizing s with
  | _ n ih =>
    subst hlength
    cases s with
    | nil => exact nil
    | cons c s =>
      cases hc : isBlank c with
      | true => exact blank c s hc (ih _ (Nat.lt_succ_self _) s rfl)
      | false =>
        have hletters : (leading c s hc).letters = c :: s.takeWhile isInk := String.toList_ofList
        have hsplit : c :: s = (leading c s hc).letters ++ s.dropWhile isInk := by
          rw [hletters, List.cons_append, List.takeWhile_append_dropWhile]
        have hstop : ∀ b ∈ (s.dropWhile isInk).head?, isBlank b = true := by
          intro b hb
          have hnot := List.head?_dropWhile_not isInk s
          rw [Option.mem_def.1 hb] at hnot
          simpa [isInk] using hnot
        have hshorter := (List.dropWhile_suffix isInk (l := s)).length_le
        rw [hsplit]
        exact word _ _ hstop (ih _ (Nat.lt_succ_of_le hshorter) _ rfl)

theorem cut_append_blank {c : Char} (h : isBlank c = true) (s t : List Char) :
    cut (s ++ c :: t) = cut s ++ cut t := by
  induction s using text_induction with
  | nil => rw [List.nil_append, cut_blank h, cut_nil, List.nil_append]
  | blank b s hb ih => rw [List.cons_append, cut_blank hb, cut_blank hb, ih]
  | word w s hs ih =>
    have hstop : ∀ b ∈ (s ++ c :: t).head?, isBlank b = true := by
      cases s with
      | nil => simpa using h
      | cons b s => exact hs
    rw [List.append_assoc, cut_append w hstop, cut_append w hs, ih, List.cons_append]

theorem mem_of_mem_cut {s : List Char} {w : Word} {c : Char} (hw : w ∈ cut s) (hc : c ∈ w.letters) :
    c ∈ s := by
  induction s using text_induction with
  | nil =>
    rw [cut_nil] at hw
    exact absurd hw List.not_mem_nil
  | blank b s hb ih =>
    rw [cut_blank hb] at hw
    exact List.mem_cons_of_mem _ (ih hw)
  | word v s hs ih =>
    rw [cut_append v hs] at hw
    rcases List.mem_cons.1 hw with rfl | hw
    · exact List.mem_append_left _ hc
    · exact List.mem_append_right _ (ih hw)

theorem exists_cut_of_no_blank {s : List Char} (hne : s ≠ []) (h : ∀ c ∈ s, isBlank c = false) :
    ∃ w : Word, w.letters = s ∧ cut s = [w] := by
  let w : Word := ⟨String.ofList s, by rwa [String.toList_ofList], by rwa [String.toList_ofList]⟩
  have hletters : w.letters = s := String.toList_ofList
  exact ⟨w, hletters, by rw [← hletters, w.cut_letters]⟩

theorem map_text_cut {s : String} (hne : s.toList ≠ []) (h : s.toList.any isBlank = false) :
    (cut s.toList).map (·.text) = [s] := by
  obtain ⟨w, hw, hcut⟩ := exists_cut_of_no_blank hne (any_isBlank_eq_false.1 h)
  rw [hcut, List.map_singleton, ← ofList_letters, hw, String.ofList_toList]

def spaced (ws : List Word) : List Char := ws.flatMap fun w => ' ' :: w.letters

theorem cut_append_spaced (w : Word) (ws : List Word) : cut (w.letters ++ spaced ws) = w :: ws := by
  induction ws generalizing w with
  | nil => exact (congrArg cut (List.append_nil _)).trans w.cut_letters
  | cons v ws ih =>
    rw [cut_append w (by simp [spaced, isBlank]), spaced, List.flatMap_cons, List.cons_append,
      cut_blank (by decide)]
    exact congrArg _ (ih v)

theorem cut_spaced (ws : List Word) : cut (spaced ws) = ws := by
  cases ws with
  | nil => exact cut_nil
  | cons w ws =>
    rw [spaced, List.flatMap_cons, List.cons_append, cut_blank (by decide)]
    exact cut_append_spaced w ws

theorem ofText_intercalate (ws : List Word) :
    ofText (String.intercalate " " (ws.map (·.text))) = ws := by
  have htext : ∀ (w : Word) (ws : List Word),
      (String.intercalate " " ((w :: ws).map (·.text))).toList = w.letters ++ spaced ws := by
    intro w ws
    induction ws generalizing w with
    | nil => simp [spaced, letters]
    | cons v ws ih =>
      rw [List.map_cons, List.map_cons, String.intercalate_cons_cons, ← List.map_cons,
        String.toList_append, ih]
      simp [spaced, letters]
  cases ws with
  | nil => exact cut_nil
  | cons w ws => exact (congrArg cut (htext w ws)).trans (cut_append_spaced w ws)

end Phrasebook.Word
