import Mathlib.Logic.Function.Basic
import Phrasebook.Query
import Phrasebook.Proofs.Suggestion.Joining
import Phrasebook.Proofs.Trie.Spelling

/-!
Other numbers for the same scopes. Places name scopes by number, so what a dictionary answers changes
with its numbering, but only there: what is said, how it is written and how it is put together stays.
-/

namespace Phrasebook

variable {ρ : ScopeId → ScopeId}

def Placeholder.renumber (ρ : ScopeId → ScopeId) (p : Placeholder) : Placeholder :=
  { p with contexts := p.contexts.map ρ }

theorem Placeholder.renumber_id (p : Placeholder) : p.renumber id = p := by
  rw [renumber, List.map_id]

theorem Placeholder.renumber_injective (h : Function.Injective ρ) :
    Function.Injective (Placeholder.renumber ρ) := by
  intro p p' heq
  obtain ⟨name, contexts⟩ := p
  obtain ⟨name', contexts'⟩ := p'
  obtain ⟨hname, hcontexts⟩ := Placeholder.mk.inj heq
  exact congrArg₂ Placeholder.mk hname (h.list_map hcontexts)

namespace Label

def renumber (ρ : ScopeId → ScopeId) : Label → Label
  | .more c => .more c
  | .start c => .start c
  | .slot p => .slot (p.renumber ρ)

theorem renumber_id : renumber id = id := by
  funext l
  cases l <;> simp [renumber, Placeholder.renumber_id]

end Label

namespace Item

def renumber (ρ : ScopeId → ScopeId) : Item → Item
  | .word w => .word w
  | .slot p => .slot (p.renumber ρ)

theorem labels_renumber (x : Item) : (x.renumber ρ).labels = x.labels.map (Label.renumber ρ) := by
  cases x with
  | word w =>
    obtain ⟨c, s, hcs⟩ := w.exists_letters
    simp [renumber, labels, hcs, Step.spelled, Label.renumber]
  | slot p => rfl

end Item

theorem spelling_renumber (items : List Item) :
    spelling (items.map (Item.renumber ρ)) = (spelling items).map (Label.renumber ρ) := by
  rw [spelling, spelling, List.flatMap_map, List.map_flatMap]
  exact List.flatMap_congr fun x _ => x.labels_renumber

namespace Segment

def renumber (ρ : ScopeId → ScopeId) : Segment → Segment
  | .text s => .text s
  | .word s => .word s
  | .slot p => .slot (p.renumber ρ)

theorem renumber_injective (h : Function.Injective ρ) : Function.Injective (renumber ρ) := by
  intro x y heq
  cases x with
  | text s => cases y <;> simp_all [renumber]
  | word s => cases y <;> simp_all [renumber]
  | slot p =>
    cases y with
    | text s => cases heq
    | word s => cases heq
    | slot p' => rw [Placeholder.renumber_injective h (Segment.slot.inj heq)]

theorem render_renumber (x : Segment) : (x.renumber ρ).render = x.render := by
  cases x <;> rfl

end Segment

namespace Suggestion

def renumber (ρ : ScopeId → ScopeId) (s : Suggestion) : Suggestion :=
  { s with segments := s.segments.map (Segment.renumber ρ) }

theorem renumber_injective (h : Function.Injective ρ) : Function.Injective (renumber ρ) := by
  intro s t heq
  obtain ⟨stem, segments⟩ := s
  obtain ⟨stem', segments'⟩ := t
  obtain ⟨hstem, hsegments⟩ := Suggestion.mk.inj heq
  exact congrArg₂ Suggestion.mk hstem ((Segment.renumber_injective h).list_map hsegments)

theorem render_renumber (s : Suggestion) : (s.renumber ρ).render = s.render := by
  simp only [render, renumber, List.map_map, Function.comp_def, Segment.render_renumber]

theorem joinSegments_renumber (a b : List Segment) :
    joinSegments (a.map (Segment.renumber ρ)) (b.map (Segment.renumber ρ)) =
      (joinSegments a b).map (Segment.renumber ρ) := by
  induction a with
  | nil => cases b <;> rfl
  | cons x xs ih =>
    cases xs with
    | nil =>
      cases b with
      | nil => cases x <;> rfl
      | cons y b => cases x <;> cases y <;> rfl
    | cons y xs =>
      simp only [List.map_cons, joinSegments_cons_cons] at ih ⊢
      rw [ih]

theorem concat_renumber (a b : Suggestion) :
    (a.renumber ρ).concat (b.renumber ρ) = (a.concat b).renumber ρ := by
  simp only [concat, renumber, joinSegments_renumber]

end Suggestion

theorem mem_map_renumber_iff (h : Function.Injective ρ) {s : Suggestion} {l : List Suggestion} :
    s.renumber ρ ∈ l.map (Suggestion.renumber ρ) ↔ s ∈ l :=
  List.mem_map_of_injective (Suggestion.renumber_injective h)

theorem distinct_renumber (h : Function.Injective ρ) (seen l : List Suggestion) :
    distinct (seen.map (Suggestion.renumber ρ)) (l.map (Suggestion.renumber ρ)) =
      (distinct seen l).map (Suggestion.renumber ρ) := by
  induction l generalizing seen with
  | nil => rfl
  | cons s rest ih =>
    rw [List.map_cons, distinct, distinct]
    by_cases hs : s ∈ seen
    · rw [if_pos hs, if_pos ((mem_map_renumber_iff h).2 hs), ih]
    · rw [if_neg hs, if_neg (mt (mem_map_renumber_iff h).1 hs), List.map_cons, ← ih, List.map_cons]

namespace Tail

def renumber (ρ : ScopeId → ScopeId) (t : Tail) : Tail :=
  { t with segments := t.segments.map (Segment.renumber ρ) }

theorem close_renumber (t : Tail) :
    (t.renumber ρ).close = t.close.map (Segment.renumber ρ) := by
  simp only [close, renumber]
  split <;> rename_i h <;> simp [h, Segment.renumber]

theorem along_renumber (q : List Label) :
    along (q.map (Label.renumber ρ)) = (along q).renumber ρ := by
  induction q with
  | nil => rfl
  | cons l q ih =>
    cases l with
    | more c => simp [along, ih, Label.renumber, more, renumber]
    | start c => simp [along, ih, Label.renumber, start, renumber, Segment.renumber]
    | slot p =>
      simp only [List.map_cons, Label.renumber, along, ih, slot, close_renumber]
      rfl

theorem suggestion_renumber (input : List Word) (t : Tail) :
    (t.renumber ρ).suggestion input = (t.suggestion input).renumber ρ := by
  simp only [suggestion, close_renumber, Suggestion.renumber]
  rfl

end Tail
end Phrasebook
