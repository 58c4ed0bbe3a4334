import Phrasebook.Proofs.Lookahead.Resolution
import Phrasebook.Proofs.Suggestion.Answers
import Phrasebook.Proofs.Trie.Arcs

/-!
What remains of a suggestion once its first letter is typed. The ways on from a position that begin
with the letter are, in their order, the ways on from the position behind it. What is joined behind
the first segment does not depend on it, and neither does what is put in an open place; suggestions
that remain different stay different, so equal ones may be left out before or after.
-/

namespace Phrasebook

variable {c : Char} {t t' : Word} {input input' : List Word}

def Word.push (w : Word) (c : Char) (h : Text.isBlank c = false) : Word where
  text := w.text.push c
  ne_empty := by simp
  no_blank := by
    intro d hd
    rw [String.toList_push, List.mem_append, List.mem_singleton] at hd
    rcases hd with hd | rfl
    · exact w.no_blank d hd
    · exact h

/-- What remains of a suggestion once its first letter, if that is `c`, is typed; `stem` is the word
typed then. -/
def Suggestion.narrow (stem : String) (c : Char) (s : Suggestion) : Option Suggestion :=
  match s.segments with
  | .text x :: rest =>
    match x.toList with
    | [] => none
    | a :: letters =>
      if a ≠ c then none
      else if letters = [] then some ⟨none, rest⟩
      else some ⟨some stem, .text (String.ofList letters) :: rest⟩
  | _ => none

namespace Suggestion
variable {s a b r : Suggestion} {stem : String} {segments rest : List Segment}

theorem narrow_text {first : Option String} {a : Char} {letters : List Char} :
    narrow stem c ⟨first, .text (String.ofList (a :: letters)) :: rest⟩ =
      if a = c then some ⟨if letters = [] then none else some stem, Tail.close ⟨letters, rest⟩⟩
      else none := by
  simp only [narrow, String.toList_ofList, Tail.close, ne_eq, ite_not]
  split_ifs <;> rfl

theorem narrow_eq_none (h : ∀ x rest, s.segments ≠ .text x :: rest) : s.narrow stem c = none := by
  rw [narrow]
  split
  · rename_i heq
    exact absurd heq (h _ _)
  · rfl

theorem segments_of_narrow (h : s.narrow stem c = some r) : ∃ letters rest,
    s.segments = .text (String.ofList (c :: letters)) :: rest ∧
      r = ⟨if letters = [] then none else some stem, Tail.close ⟨letters, rest⟩⟩ := by
  obtain ⟨first, segments⟩ := s
  match segments with
  | [] | .word _ :: _ | .slot _ :: _ => cases h
  | .text x :: rest =>
    obtain ⟨letters, rfl⟩ : ∃ letters, x = String.ofList letters := ⟨_, String.ofList_toList.symm⟩
    cases letters with
    | nil => simp [narrow] at h
    | cons a letters =>
      rw [narrow_text] at h
      by_cases ha : a = c
      · rw [if_pos ha] at h
        subst ha
        exact ⟨letters, rest, rfl, (Option.some.inj h).symm⟩
      · rw [if_neg ha] at h
        cases h

theorem narrow_injective (ha : a.narrow stem c = some r) (hb : b.narrow stem c = some r)
    (hstem : a.stem = b.stem) : a = b := by
  obtain ⟨letters, rest, hsegments, hr⟩ := segments_of_narrow ha
  obtain ⟨letters', rest', hsegments', hr'⟩ := segments_of_narrow hb
  obtain ⟨first, segments⟩ := a
  obtain ⟨first', segments'⟩ := b
  dsimp only at hsegments hsegments' hstem
  subst hsegments hsegments' hstem hr
  by_cases hl : letters = [] <;> by_cases hl' : letters' = []
  · simp_all [Tail.close]
  · simp_all [Tail.close]
  · simp_all [Tail.close]
  · simp_all [Tail.close]

theorem narrow_concat (s : Suggestion) (items : List Item) :
    (s.concat ⟨none, items.map Item.segment⟩).narrow stem c =
      (s.narrow stem c).map fun r => r.concat ⟨none, items.map Item.segment⟩ := by
  simp only [concat_items]
  obtain ⟨first, segments⟩ := s
  match segments with
  | [] =>
    refine narrow_eq_none fun x rest => ?_
    rcases items with - | ⟨w | p, items⟩ <;> simp [Item.segment]
  | .word _ :: _ | .slot _ :: _ => rfl
  | .text x :: rest =>
    obtain ⟨letters, rfl⟩ : ∃ letters, x = String.ofList letters := ⟨_, String.ofList_toList.symm⟩
    cases letters with
    | nil => simp [narrow]
    | cons a letters =>
      rw [List.cons_append, narrow_text, narrow_text]
      split_ifs <;> simp [Tail.close, *]

end Suggestion

@[simp] theorem Word.letters_push (w : Word) (h : Text.isBlank c = false) :
    (w.push c h).letters = w.letters ++ [c] :=
  String.toList_push c

namespace Node
variable {n stop : Node} {items : List Item}

theorem follow_append (a b : List Char) (n : Node) :
    n.follow (a ++ b) = (n.follow a).bind (follow b) := by
  induction a generalizing n with
  | nil => rfl
  | cons c a ih =>
    rw [List.cons_append, follow, follow, Option.bind_assoc]
    exact congrArg _ (funext ih)

theorem spell_push (n : Node) (w : Word) (h : Text.isBlank c = false) :
    n.spell (w.push c h).letters = (n.spell w.letters).bind fun stop => stop.chars.find? c := by
  obtain ⟨a, s, has⟩ := w.exists_letters
  rw [Word.letters_push, has, List.cons_append, spell, spell, Option.bind_assoc]
  refine congrArg _ (funext fun m => ?_)
  rw [follow_append]
  refine congrArg _ (funext fun stop => ?_)
  exact Option.bind_fun_some _

theorem narrow_suggestion_along (hinput : input'.getLast? = some t') {q : List Label}
    (hq : ∃ (r : List Char) (items : List Item), q = r.map .more ++ spelling items) :
    (Tail.suggestion input (Tail.along q)).narrow t'.text c =
      (behind? (.more c) q).map fun q => Tail.suggestion input' (Tail.along q) := by
  obtain ⟨r, items, rfl⟩ := hq
  rw [Tail.along_spelling]
  cases r with
  | nil =>
    rcases items with - | ⟨w | p, items⟩
    · rfl
    · obtain ⟨a, s, has⟩ := w.exists_letters
      rw [spelling_word w items has]
      rfl
    · rfl
  | cons a r =>
    have hbegins : Tail.suggestion input ⟨a :: r, items.map Item.segment⟩ =
        ⟨input.getLast?.map (·.text), .text (String.ofList (a :: r)) :: items.map Item.segment⟩ := by
      simp [Tail.suggestion, Tail.close]
    rw [hbegins, Suggestion.narrow_text, List.map_cons, List.cons_append, behind?]
    by_cases ha : a = c
    · subst ha
      rw [if_pos rfl, if_pos rfl, Option.map_some, Tail.along_spelling, Tail.suggestion, hinput]
      rfl
    · rw [if_neg ha, if_neg (by simpa using ha)]
      rfl

theorem Sound.filterMap_narrow_complete (hn : n.Sound) (hinput : input'.getLast? = some t') :
    (n.complete input).filterMap (Suggestion.narrow t'.text c) =
      (n.chars.find? c).elim [] fun m => m.complete input' := by
  have hcomplete : ∀ (m : Node) input, m.complete input =
      m.paths.map fun q => Tail.suggestion input (Tail.along q) := by
    intro m input
    rw [complete, tails_eq, List.map_map]
    rfl
  have hbehind := hn.ordered.filterMap_paths (.more c)
  rw [hcomplete, List.filterMap_map]
  refine (List.filterMap_congr fun q hq =>
    narrow_suggestion_along hinput (hn.spelled q hq)).trans ?_
  rw [← List.map_filterMap, hbehind, child?]
  cases n.chars.find? c with
  | none => rfl
  | some m => exact (hcomplete m input').symm

end Node

theorem distinct_filterMap {f : Suggestion → Option Suggestion} {seen l : List Suggestion}
    (hf : ∀ a b r, a ∈ seen ∨ a ∈ l → b ∈ seen ∨ b ∈ l → f a = some r → f b = some r → a = b) :
    distinct (seen.filterMap f) (l.filterMap f) = (distinct seen l).filterMap f := by
  induction l generalizing seen with
  | nil => rfl
  | cons s l ih =>
    have hrest := @ih seen fun a b r ha hb =>
      hf a b r (ha.imp_right (List.mem_cons_of_mem s)) (hb.imp_right (List.mem_cons_of_mem s))
    have hnext := @ih (s :: seen) fun a b r ha hb => by
      rw [List.mem_cons, or_comm, ← or_assoc, or_comm] at ha hb
      exact hf a b r (by simpa [or_comm] using ha) (by simpa [or_comm] using hb)
    rw [distinct]
    cases hs : f s with
    | none =>
      rw [List.filterMap_cons_none hs] at hnext ⊢
      split_ifs
      · exact hrest
      · rw [hnext, List.filterMap_cons_none hs]
    | some r =>
      have hmem : r ∈ seen.filterMap f ↔ s ∈ seen := by
        rw [List.mem_filterMap]
        constructor
        · intro h
          obtain ⟨a, ha, har⟩ := h
          rwa [← hf a s r (.inl ha) (.inr List.mem_cons_self) har hs]
        · exact fun h => ⟨s, h, hs⟩
      rw [List.filterMap_cons_some hs] at hnext ⊢
      rw [distinct]
      by_cases hseen : s ∈ seen
      · rw [if_pos hseen, if_pos (hmem.2 hseen), hrest]
      · rw [if_neg hseen, if_neg (mt hmem.1 hseen), hnext, List.filterMap_cons_some hs]

namespace Dictionary
variable {d : Dictionary} {segments resolved rest : List Segment} {budget : Nat}

theorem resolveSegments_close (letters : List Char) (rest : List Segment) (budget : Nat) :
    d.resolveSegments (Tail.close ⟨letters, rest⟩) budget =
      (d.resolveSegments rest budget).map fun r => Tail.close ⟨letters, r⟩ := by
  simp only [Tail.close]
  split_ifs
  · exact (List.map_id' _).symm
  · exact resolveSegments_plain rfl _ _

theorem ne_text_of_mem_resolveSegments (hd : d.Sound)
    (h : ∀ x rest, segments ≠ .text x :: rest) (hmem : resolved ∈ d.resolveSegments segments budget)
    (x : String) (rest : List Segment) : resolved ≠ .text x :: rest := by
  intro heq
  subst heq
  obtain ⟨y, segments, rfl, hbegins⟩ := begins_of_mem_resolveSegments hd hmem
  cases hbegins
  exact h x segments rfl

theorem filterMap_narrow_resolve (hd : d.Sound) (s : Suggestion) (lookahead : Nat)
    (stem : String) : (d.resolve s lookahead).filterMap (Suggestion.narrow stem c) =
      (s.narrow stem c).elim [] fun r => d.resolve r lookahead := by
  obtain ⟨first, segments⟩ := s
  by_cases h : ∃ x rest, segments = .text x :: rest
  · obtain ⟨x, rest, rfl⟩ := h
    obtain ⟨letters, rfl⟩ : ∃ letters, x = String.ofList letters := ⟨_, String.ofList_toList.symm⟩
    rw [resolve, resolveSegments_plain rfl, List.map_map, List.filterMap_map]
    cases letters with
    | nil => simp [Suggestion.narrow, Function.comp_def]
    | cons a letters =>
      simp only [Function.comp_def, Suggestion.narrow_text]
      by_cases ha : a = c
      · simp only [if_pos ha, Option.elim_some, resolve, resolveSegments_close, List.map_map]
        exact congrFun List.filterMap_eq_map _
      · simp [if_neg ha]
  · simp only [not_exists] at h
    rw [Suggestion.narrow_eq_none h, Option.elim_none, List.filterMap_eq_nil_iff]
    intro r hr
    exact Suggestion.narrow_eq_none (ne_text_of_mem_resolveSegments hd h (mem_resolve_iff.1 hr).2)

end Dictionary
end Phrasebook
