import Phrasebook.Proofs.Terminal.Visible
import Phrasebook.Proofs.Word
import Phrasebook.Shell.Highlight

/-!
Colours while a line is typed. A line that starts with a command is put together again from its parts,
with one space between each two; every other line stays as it is. So colours are all that is added
exactly where the line has no other blanks anyway.
-/

namespace Phrasebook.Shell
open Terminal (Colors Style Displays visible paint)

variable {colors : Colors} {line part : String} {args : List String} {verb : Verb}

def leadingVerb? (line : String) : Option Verb :=
  (parts line).head?.bind fun first => Verb.named? (Text.lowercase first)

def shownLine (line : String) : String :=
  if leadingVerb? line = none then line else spaced (parts line)

theorem shownLine_eq_iff : shownLine line = line ↔ leadingVerb? line = none ∨ spaced (parts line) = line := by
  unfold shownLine
  split_ifs with hverb <;> simp [hverb]

theorem highlight_of_none (h : leadingVerb? line = none) : highlight colors line = line := by
  unfold highlight
  split
  · rfl
  · rename_i first args hparts
    simp only [leadingVerb?, hparts, List.head?_cons, Option.bind_some] at h
    rw [h]

theorem highlight_of_some (colors : Colors) (h : leadingVerb? line = some verb) : ∃ first args,
    parts line = first :: args ∧ highlight colors line =
      spaced (paint colors (.boldColored .blue) first :: highlightArguments colors verb args) := by
  unfold highlight
  unfold leadingVerb? at h
  cases hparts : parts line with
  | nil =>
    rw [hparts] at h
    cases h
  | cons first args =>
    rw [hparts, List.head?_cons, Option.bind_some] at h
    exact ⟨first, args, rfl, by simp only [h]⟩

theorem displays_highlightPart (colors : Colors) (style : Option Style) (h : '\x1b' ∉ part.toList) :
    Displays (highlightPart colors style part) part := by
  cases style with
  | none => exact .of_not_mem h
  | some style => exact .paint colors style h

theorem displays_highlightArguments (colors : Colors) (verb : Verb)
    (h : ∀ part ∈ args, '\x1b' ∉ part.toList) :
    List.Forall₂ Displays (highlightArguments colors verb args) args := by
  cases args with
  | nil => exact .nil
  | cons first rest =>
    obtain ⟨hfirst, hrest⟩ := List.forall_mem_cons.1 h
    refine .cons (displays_highlightPart colors _ hfirst) (List.forall₂_map_left_iff.2 ?_)
    exact List.forall₂_same.2 fun part hpart => displays_highlightPart colors _ (hrest part hpart)

theorem displays_highlight (colors : Colors) (h : '\x1b' ∉ line.toList) :
    Displays (highlight colors line) (shownLine line) := by
  have hparts : ∀ part ∈ parts line, '\x1b' ∉ part.toList := by
    intro part hpart hmem
    obtain ⟨w, hw, rfl⟩ := List.mem_map.1 hpart
    exact h (Word.mem_of_mem_cut hw hmem)
  unfold shownLine
  cases hverb : leadingVerb? line with
  | none =>
    rw [if_pos rfl, highlight_of_none hverb]
    exact .of_not_mem h
  | some verb =>
    obtain ⟨first, args, hline, htext⟩ := highlight_of_some colors hverb
    rw [if_neg (Option.some_ne_none _), htext, hline]
    obtain ⟨hfirst, hargs⟩ := List.forall_mem_cons.1 (hline ▸ hparts)
    refine .intercalate (.of_not_mem (by decide)) (.cons (.paint colors _ hfirst) ?_)
    exact displays_highlightArguments colors verb hargs

theorem highlightPart_false (style : Option Style) (part : String) :
    highlightPart false style part = part := by
  cases style <;> rfl

theorem highlightArguments_false (verb : Verb) (args : List String) :
    highlightArguments false verb args = args := by
  cases args with
  | nil => rfl
  | cons first rest => simp [highlightArguments, highlightPart_false]

theorem highlight_false (line : String) : highlight false line = shownLine line := by
  unfold shownLine
  cases hverb : leadingVerb? line with
  | none => rw [if_pos rfl, highlight_of_none hverb]
  | some verb =>
    obtain ⟨first, args, hline, htext⟩ := highlight_of_some false hverb
    rw [if_neg (Option.some_ne_none _), htext, hline, highlightArguments_false]
    rfl

/-- Colours are all that is added to a line exactly when it starts with no command or has its parts with
one space between each two and no blank elsewhere. With a command in front the line is seen so in any
case. -/
theorem highlight_keeps_iff (colors : Colors) (line : String) :
    ('\x1b' ∉ line.toList → (visible (highlight colors line).toList = line.toList ↔
      leadingVerb? line = none ∨ spaced (parts line) = line)) ∧
    (highlight false line = line ↔ leadingVerb? line = none ∨ spaced (parts line) = line) ∧
    ('\x1b' ∉ line.toList → leadingVerb? line ≠ none →
      visible (highlight colors line).toList = (spaced (parts line)).toList) := by
  refine ⟨fun hescape => ?_, ?_, fun hescape hverb => ?_⟩
  · rw [(displays_highlight colors hescape).visible, String.toList_inj, shownLine_eq_iff]
  · rw [highlight_false, shownLine_eq_iff]
  · rw [(displays_highlight colors hescape).visible, shownLine, if_neg hverb]

theorem parts_spread (n : Nat) :
    parts (String.ofList ("s".toList ++ List.replicate (n + 1) ' ' ++ "x".toList)) = ["s", "x"] := by
  have hs := Word.map_text_cut (s := "s") (by decide) (by decide)
  have hx : ∀ k, (Word.cut (List.replicate k ' ' ++ "x".toList)).map (·.text) = ["x"] := by
    intro k
    induction k with
    | zero => exact Word.map_text_cut (by decide) (by decide)
    | succ k ih => rwa [List.replicate_succ, List.cons_append, Word.cut_blank (by decide)]
  rw [parts, Word.ofText, String.toList_ofList, List.append_assoc, List.replicate_succ,
    List.cons_append, Word.cut_append_blank (by decide), List.map_append, hs, hx]
  rfl

theorem highlight_keeps_one_space : leadingVerb? "s x" ≠ none ∧
    visible (highlight true "s x").toList = "s x".toList ∧ highlight false "s x" = "s x" ∧
    visible (highlight true "s x").toList = (spaced (parts "s x")).toList := by
  have hparts : parts "s x" = ["s", "x"] := parts_spread 0
  have hspaced : spaced (parts "s x") = "s x" := congrArg spaced hparts
  have hverb : leadingVerb? "s x" ≠ none := by
    rw [leadingVerb?, hparts]
    decide
  have hescape : '\x1b' ∉ "s x".toList := by decide
  obtain ⟨hseen, hplain, hshown⟩ := highlight_keeps_iff true "s x"
  exact ⟨hverb, (hseen hescape).2 (.inr hspaced), hplain.2 (.inr hspaced), hshown hescape hverb⟩

/-- The second of two spaces is lost, with colours and without. -/
theorem not_highlight_keeps_two_spaces :
    (¬ ∀ colors line, '\x1b' ∉ line.toList → visible (highlight colors line).toList = line.toList) ∧
    ¬ ∀ line, highlight false line = line := by
  have hparts : parts "s  x" = ["s", "x"] := parts_spread 1
  have hshown : shownLine "s  x" = "s x" := by
    rw [shownLine, leadingVerb?, hparts]
    decide
  refine ⟨fun hclaim => ?_, fun hclaim => ?_⟩
  · have hseen := hclaim true "s  x" (by decide)
    rw [(displays_highlight true (by decide)).visible, hshown] at hseen
    exact absurd hseen (by decide)
  · have hseen := hclaim "s  x"
    rw [highlight_false, hshown] at hseen
    exact absurd hseen (by decide)

end Phrasebook.Shell
