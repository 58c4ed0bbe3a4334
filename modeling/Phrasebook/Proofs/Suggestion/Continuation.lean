import Phrasebook.Proofs.Suggestion.Joining
import Phrasebook.Proofs.Trie.Spelling

/-!
What a suggestion says of the items that follow. The words typed are the first of the items, the
last of them maybe only the beginning of a word; the suggestion is the rest of that word and all
items after it. Joining with a suggestion that begins no word in its middle puts the segments one
after the other.
-/

namespace Phrasebook

/-- `s` continues the typed words to the items. -/
inductive Continues : List Word → List Item → Suggestion → Prop
  | start (rest : List Item) : Continues [] rest ⟨none, rest.map Item.segment⟩
  | whole (t : Word) (rest : List Item) :
      Continues [t] (.word t :: rest) ⟨none, rest.map Item.segment⟩
  | part {t w : Word} {r : List Char} (rest : List Item) (more : r ≠ [])
      (begun : w.letters = t.letters ++ r) :
      Continues [t] (.word w :: rest)
        ⟨some t.text, .text (String.ofList r) :: rest.map Item.segment⟩
  | word {t t' : Word} {tokens : List Word} {out : List Item} {s : Suggestion}
      (later : Continues (t' :: tokens) out s) :
      Continues (t :: t' :: tokens) (.word t :: out) s

namespace Continues
variable {tokens ws : List Word} {out mid items : List Item} {s : Suggestion} {t : Word}

theorem length_le (h : Continues tokens out s) : tokens.length ≤ out.length := by
  induction h with
  | start rest => exact Nat.zero_le _
  | whole t rest => simp
  | part rest _ _ => simp
  | word _ ih => exact Nat.succ_le_succ ih

theorem take_words (h : Continues tokens out s) :
    ∀ x ∈ out.take tokens.length, ∃ w, x = .word w := by
  induction h with
  | start rest => simp
  | whole t rest => simp
  | part rest _ _ => simp
  | word _ ih =>
    rw [List.length_cons, List.take_succ_cons, List.forall_mem_cons]
    exact ⟨⟨_, rfl⟩, ih⟩

theorem eq_words (h : Continues tokens out s) (hs : s = ⟨none, []⟩) : out = tokens.map .word := by
  induction h with
  | start rest => simpa using hs
  | whole t rest => simpa using hs
  | part rest _ _ => simp at hs
  | word _ ih =>
    rw [ih hs]
    rfl

theorem stem_eq (h : Continues tokens out s) :
    s.stem = match s.segments with
      | .text _ :: _ => tokens.getLast?.map (·.text)
      | _ => none := by
  have hplain : ∀ rest : List Item, (match rest.map Item.segment with
      | .text _ :: _ => tokens.getLast?.map (·.text)
      | _ => none) = none := by
    intro rest
    rcases rest with - | ⟨w | p, rest⟩ <;> rfl
  induction h with
  | start rest => exact (hplain rest).symm
  | whole t rest => exact (hplain rest).symm
  | part rest _ _ => rfl
  | word _ ih =>
    rw [List.getLast?_cons_cons] at hplain ⊢
    exact ih hplain

theorem append (h : Continues tokens out s) (hne : tokens ≠ []) (items : List Item) :
    Continues tokens (out ++ items) ⟨s.stem, s.segments ++ items.map Item.segment⟩ := by
  induction h with
  | start rest => exact absurd rfl hne
  | whole t rest =>
    rw [← List.map_append]
    exact .whole t _
  | part rest more begun =>
    have h := Continues.part (rest ++ items) more begun
    rw [List.map_append] at h
    exact h
  | word _ ih => exact .word (ih (by simp))

theorem of_append (h : Continues tokens (mid ++ items) s) (hne : tokens ≠ [])
    (hlength : tokens.length ≤ mid.length) :
    ∃ s', Continues tokens mid s' ∧ s = ⟨s'.stem, s'.segments ++ items.map Item.segment⟩ := by
  generalize hout : mid ++ items = out at h
  induction h generalizing mid with
  | start rest => exact absurd rfl hne
  | whole t rest =>
    cases mid with
    | nil => simp at hlength
    | cons x mid =>
      obtain ⟨rfl, rfl⟩ := List.cons.inj hout
      exact ⟨_, .whole t mid, by simp⟩
  | part rest more begun =>
    cases mid with
    | nil => simp at hlength
    | cons x mid =>
      obtain ⟨rfl, rfl⟩ := List.cons.inj hout
      exact ⟨_, .part mid more begun, by simp⟩
  | word _ ih =>
    cases mid with
    | nil => simp at hlength
    | cons x mid =>
      obtain ⟨rfl, hrest⟩ := List.cons.inj hout
      obtain ⟨s', hs', heq⟩ := ih (by simp) (Nat.le_of_succ_le_succ hlength) hrest
      exact ⟨s', .word hs', heq⟩

theorem words_append (h : Continues tokens out s) (hne : tokens ≠ []) (ws : List Word) :
    Continues (ws ++ tokens) (ws.map .word ++ out) s := by
  induction ws with
  | nil => exact h
  | cons w ws ih =>
    have hcons : ws ++ tokens ≠ [] := by simp [hne]
    obtain ⟨t, rest, ht⟩ := List.exists_cons_of_ne_nil hcons
    rw [ht] at ih
    rw [List.cons_append, ht]
    exact .word ih

theorem of_words_append {ws : List Word} (h : Continues (ws ++ tokens) out s) (hne : tokens ≠ []) :
    ∃ items, out = ws.map .word ++ items ∧ Continues tokens items s := by
  induction ws generalizing out with
  | nil => exact ⟨out, rfl, h⟩
  | cons w ws ih =>
    obtain ⟨t, rest, ht⟩ := List.exists_cons_of_ne_nil (List.append_ne_nil_of_right_ne_nil ws hne)
    rw [List.cons_append, ht] at h
    cases h with
    | word later =>
      obtain ⟨items, rfl, hitems⟩ := ih (ht ▸ later)
      exact ⟨items, rfl, hitems⟩

theorem split (h : Continues tokens (mid ++ out) s) (hlength : mid.length < tokens.length) :
    ∃ ws rest, tokens = ws ++ rest ∧ mid = ws.map .word ∧ rest ≠ [] ∧ Continues rest out s := by
  induction mid generalizing tokens with
  | nil => exact ⟨[], tokens, rfl, rfl, List.ne_nil_of_length_pos hlength, h⟩
  | cons x mid ih =>
    cases h with
    | start rest => simp at hlength
    | whole t rest => simp at hlength
    | part rest _ _ => simp at hlength
    | @word t t' tokens _ _ later =>
      obtain ⟨ws, rest, htokens, rfl, hrest, h⟩ := ih later (Nat.lt_of_succ_lt_succ hlength)
      exact ⟨t :: ws, rest, by rw [htokens, List.cons_append], rfl, hrest, h⟩

theorem of_tail {t w : Word} {r : List Char} (h : w.letters = t.letters ++ r) (rest : List Item)
    {input : List Word} (hinput : input.getLast? = some t) :
    Continues [t] (.word w :: rest) (Tail.suggestion input ⟨r, rest.map Item.segment⟩) := by
  by_cases hr : r = []
  · subst hr
    rw [List.append_nil] at h
    rw [Word.letters_injective h]
    exact .whole t rest
  · simp only [Tail.suggestion, Tail.close, hr, hinput, ↓reduceIte]
    exact .part rest hr h

theorem exists_tail (h : Continues [t] out s) {input : List Word}
    (hinput : input.getLast? = some t) : ∃ w r rest, out = .word w :: rest ∧
      w.letters = t.letters ++ r ∧ s = Tail.suggestion input ⟨r, rest.map Item.segment⟩ := by
  cases h with
  | whole t rest => exact ⟨t, [], rest, rfl, by simp, by simp [Tail.suggestion, Tail.close]⟩
  | @part t w r rest more begun =>
    exact ⟨w, r, rest, rfl, begun, by simp [Tail.suggestion, Tail.close, more, hinput]⟩

end Continues

namespace Suggestion

theorem concat_items (a : Suggestion) (items : List Item) :
    a.concat ⟨none, items.map Item.segment⟩ =
      ⟨a.stem, a.segments ++ items.map Item.segment⟩ := by
  have htext : ∀ b rest, items.map Item.segment ≠ .text b :: rest := by
    intro b rest
    rcases items with - | ⟨w | p, items⟩ <;> simp [Item.segment]
  have hstem : (a.stem <|> none) = a.stem := by cases a.stem <;> rfl
  simp only [concat, joinSegments_eq_append htext, hstem]

end Suggestion
end Phrasebook
