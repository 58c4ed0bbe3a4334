import Mathlib.Data.List.TakeWhile
import Mathlib.Tactic.SplitIfs
import Phrasebook.Text.Split

/-!
Texts cut at one character. What is put together with the character between its parts is cut into
those parts again, as long as none of them holds the character; and no piece of a cut text does.
-/

namespace Phrasebook.Text

variable {sep c : Char} {s p : List Char} {ps : List (List Char)}

theorem pieces_ne_nil (sep : Char) (s : List Char) : pieces sep s ≠ [] := by
  cases s with
  | nil => simp [pieces]
  | cons c s =>
    rw [pieces]
    split_ifs
    · simp
    · split <;> simp

theorem pieces_cons_of_ne (h : c ≠ sep) (hs : pieces sep s = p :: ps) :
    pieces sep (c :: s) = (c :: p) :: ps := by
  rw [pieces, if_neg h, hs]

theorem pieces_of_not_mem (h : sep ∉ s) : pieces sep s = [s] := by
  induction s with
  | nil => rfl
  | cons c s ih =>
    rw [List.mem_cons, not_or] at h
    exact pieces_cons_of_ne (Ne.symm h.1) (ih h.2)

theorem pieces_append_cons (h : sep ∉ p) (s : List Char) :
    pieces sep (p ++ sep :: s) = p :: pieces sep s := by
  induction p with
  | nil => rw [List.nil_append, pieces, if_pos rfl]
  | cons c p ih =>
    rw [List.mem_cons, not_or] at h
    exact pieces_cons_of_ne (Ne.symm h.1) (ih h.2)

theorem pieces_intercalate (hne : ps ≠ []) (h : ∀ p ∈ ps, sep ∉ p) :
    pieces sep ([sep].intercalate ps) = ps := by
  induction ps with
  | nil => exact absurd rfl hne
  | cons p rest ih =>
    obtain ⟨hp, hrest⟩ := List.forall_mem_cons.1 h
    cases rest with
    | nil =>
      rw [List.intercalate_singleton]
      exact pieces_of_not_mem hp
    | cons q rest =>
      rw [List.intercalate_cons_cons, List.append_assoc, List.singleton_append,
        pieces_append_cons hp, ih (List.cons_ne_nil _ _) hrest]

theorem mem_of_mem_pieces (hp : p ∈ pieces sep s) (hc : c ∈ p) : c ∈ s ∧ c ≠ sep := by
  induction s generalizing p with
  | nil =>
    rw [pieces, List.mem_singleton] at hp
    rw [hp] at hc
    cases hc
  | cons d s ih =>
    rw [pieces] at hp
    split_ifs at hp with hd
    · rcases List.mem_cons.1 hp with rfl | hp
      · cases hc
      · exact (ih hp hc).imp_left (List.mem_cons_of_mem d)
    · obtain ⟨q, qs, hq⟩ := List.exists_cons_of_ne_nil (pieces_ne_nil sep s)
      rw [hq] at hp ih
      rcases List.mem_cons.1 hp with rfl | hp
      · rcases List.mem_cons.1 hc with rfl | hc
        · exact ⟨List.mem_cons_self, hd⟩
        · exact (ih List.mem_cons_self hc).imp_left (List.mem_cons_of_mem d)
      · exact (ih (List.mem_cons_of_mem q hp) hc).imp_left (List.mem_cons_of_mem d)

theorem halves?_of_not_mem (h : sep ∉ s) : halves? sep s = none := by
  have hdrop : s.dropWhile (· ≠ sep) = [] :=
    List.dropWhile_eq_nil_iff.2 fun c hc => decide_eq_true fun heq => h (heq ▸ hc)
  rw [halves?, hdrop]

theorem halves?_append_cons (h : sep ∉ p) (s : List Char) :
    halves? sep (p ++ sep :: s) = some (p, s) := by
  have hp : ∀ c ∈ p, decide (c ≠ sep) = true :=
    fun c hc => decide_eq_true fun heq => h (heq ▸ hc)
  rw [halves?, List.dropWhile_append_of_pos hp, List.takeWhile_append_of_pos hp]
  simp

theorem not_mem_of_halves?_eq_none (h : halves? sep s = none) : sep ∉ s := by
  intro hmem
  obtain ⟨a, b, rfl, ha⟩ := List.eq_append_cons_of_mem hmem
  rw [halves?_append_cons ha] at h
  cases h

theorem split_of_halves? {a b : List Char} (h : halves? sep s = some (a, b)) :
    s = a ++ sep :: b ∧ sep ∉ a := by
  rw [halves?] at h
  split at h
  · cases h
  · rename_i d r hdrop
    cases h
    have hd : d = sep := by
      have hhead := List.head?_dropWhile_not (fun x => decide (x ≠ sep)) s
      rw [hdrop] at hhead
      simpa using hhead
    refine ⟨?_, fun hmem => ?_⟩
    · rw [← hd, ← hdrop, hd, List.takeWhile_append_dropWhile]
    · simpa using List.mem_takeWhile_imp hmem

end Phrasebook.Text
