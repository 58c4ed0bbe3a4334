import Phrasebook.Proofs.Renumbering
import Phrasebook.Proofs.Trie.Arcs

/-!
Trees that differ in their numbers only. The shape of a tree leaves out the numbers of its positions
and gives the scopes other numbers. Whatever is looked up in a tree, or stored in it, comes out in the
shape as it does in the tree, so trees of the same shape cannot be told apart.
-/

namespace Phrasebook

variable {ρ : ScopeId → ScopeId}

namespace Edges
variable {α β : Type} {f : α → β} {c : Char} {a : α} {e : Char × α} {edges rest : Edges α}

def image (f : α → β) (edges : Edges α) : Edges β := edges.map fun e => (e.1, f e.2)

theorem scan_image : scan c (edges.image f) = (scan c edges).map f := by
  induction edges with
  | nil => rfl
  | cons e rest ih =>
    rw [image, List.map_cons, scan, scan]
    split
    · rfl
    · exact ih

theorem halve_of_drop_eq_nil (h : edges.drop (edges.length / 2) = []) : halve c edges = none := by
  rw [halve]
  split <;> simp_all

theorem halve_of_drop_eq_cons (h : edges.drop (edges.length / 2) = e :: rest) :
    halve c edges = if e.1 = c then some e.2
      else if c < e.1 then halve c (edges.take (edges.length / 2)) else halve c rest := by
  rw [halve]
  split
  · simp_all
  · rename_i heq
    rw [h] at heq
    cases heq
    rfl

theorem drop_image {l : Edges α} (h : edges.drop (edges.length / 2) = l) :
    (edges.image f).drop ((edges.image f).length / 2) = l.image f := by
  rw [image, List.length_map, ← List.map_drop, h, image]

theorem halve_image : halve c (edges.image f) = (halve c edges).map f := by
  fun_induction halve c edges with
  | case1 edges hdrop => exact halve_of_drop_eq_nil (drop_image hdrop)
  | case2 edges e rest hdrop hc =>
    rw [halve_of_drop_eq_cons (drop_image hdrop), if_pos hc]
    rfl
  | case3 edges e rest hdrop hne hlt ih =>
    rw [halve_of_drop_eq_cons (drop_image hdrop), if_neg hne, if_pos hlt, ← ih]
    rw [image, image, List.length_map, List.map_take]
  | case4 edges e rest hdrop hne hlt ih =>
    rw [halve_of_drop_eq_cons (drop_image hdrop), if_neg hne, if_neg hlt, ← ih]
    rfl

theorem find?_image : (edges.image f).find? c = (edges.find? c).map f := by
  rw [find?, find?, scan_image, halve_image, image, List.length_map]
  split <;> rfl

theorem put_image : put c (f a) (edges.image f) = (put c a edges).image f := by
  induction edges with
  | nil => rfl
  | cons e rest ih =>
    simp only [image, List.map_cons, put] at ih ⊢
    rw [ih]
    split_ifs <;> rfl

end Edges

namespace Slots
variable {α β : Type} {f : α → β} {p : Placeholder} {a : α} {slots : Slots α}

def image (ρ : ScopeId → ScopeId) (f : α → β) (slots : Slots α) : Slots β :=
  slots.map fun s => (s.1.renumber ρ, f s.2)

theorem find?_image (h : Function.Injective ρ) :
    (slots.image ρ f).find? (p.renumber ρ) = (slots.find? p).map f := by
  induction slots with
  | nil => rfl
  | cons s rest ih =>
    simp only [image, List.map_cons, find?, (Placeholder.renumber_injective h).eq_iff] at ih ⊢
    split_ifs
    · rfl
    · exact ih

theorem put_image (h : Function.Injective ρ) :
    put (p.renumber ρ) (f a) (slots.image ρ f) = (put p a slots).image ρ f := by
  induction slots with
  | nil => rfl
  | cons s rest ih =>
    simp only [image, List.map_cons, put, (Placeholder.renumber_injective h).eq_iff] at ih ⊢
    rw [ih]
    have hname : ∀ p : Placeholder, (p.renumber ρ).name = p.name := fun _ => rfl
    simp only [hname]
    split_ifs <;> rfl

end Slots

namespace Node

variable {n n' m : Node} {l : Label} {path : List Label} {paths : List (List Label)}
  {next next' : Nat}

mutual

/-- The tree without its numbers, its places naming the scopes by other numbers. -/
def shape (ρ : ScopeId → ScopeId) : Node → Node
  | mk _ isEnd chars words slots =>
    mk 0 isEnd (edgeShapes ρ chars) (edgeShapes ρ words) (slotShapes ρ slots)

def edgeShapes (ρ : ScopeId → ScopeId) : List (Char × Node) → List (Char × Node)
  | [] => []
  | (c, n) :: rest => (c, n.shape ρ) :: edgeShapes ρ rest

def slotShapes (ρ : ScopeId → ScopeId) : List (Placeholder × Node) → List (Placeholder × Node)
  | [] => []
  | (p, n) :: rest => (p.renumber ρ, n.shape ρ) :: slotShapes ρ rest

end

theorem edgeShapes_eq (edges : List (Char × Node)) :
    edgeShapes ρ edges = Edges.image (shape ρ) edges := by
  induction edges with
  | nil => rfl
  | cons e rest ih => rw [edgeShapes, ih]; rfl

theorem slotShapes_eq (slots : List (Placeholder × Node)) :
    slotShapes ρ slots = Slots.image ρ (shape ρ) slots := by
  induction slots with
  | nil => rfl
  | cons s rest ih => rw [slotShapes, ih]; rfl

theorem shape_mk (number : Nat) (isEnd : Bool) (chars words : List (Char × Node))
    (slots : List (Placeholder × Node)) : (mk number isEnd chars words slots).shape ρ =
      mk 0 isEnd (Edges.image (shape ρ) chars) (Edges.image (shape ρ) words)
        (Slots.image ρ (shape ρ) slots) := by
  rw [shape, edgeShapes_eq, edgeShapes_eq, slotShapes_eq]

theorem isEnd_shape : (n.shape ρ).isEnd = n.isEnd := by
  cases n
  rw [shape_mk]
  rfl

theorem chars_shape : (n.shape ρ).chars = Edges.image (shape ρ) n.chars := by
  cases n
  rw [shape_mk]
  rfl

theorem words_shape : (n.shape ρ).words = Edges.image (shape ρ) n.words := by
  cases n
  rw [shape_mk]
  rfl

theorem slots_shape : (n.shape ρ).slots = Slots.image ρ (shape ρ) n.slots := by
  cases n
  rw [shape_mk]
  rfl

theorem isLeaf_shape : (n.shape ρ).isLeaf = n.isLeaf := by
  simp [isLeaf, chars_shape, words_shape, slots_shape, Edges.image, Slots.image]

mutual

theorem shape_shape (σ : ScopeId → ScopeId) : (n : Node) → (n.shape σ).shape ρ = n.shape (ρ ∘ σ)
  | mk number isEnd chars words slots => by
    rw [shape, shape, shape, edgeShapes_edgeShapes σ chars, edgeShapes_edgeShapes σ words,
      slotShapes_slotShapes σ slots]

theorem edgeShapes_edgeShapes (σ : ScopeId → ScopeId) : (edges : List (Char × Node)) →
    edgeShapes ρ (edgeShapes σ edges) = edgeShapes (ρ ∘ σ) edges
  | [] => rfl
  | (c, n) :: rest => by
    rw [edgeShapes, edgeShapes, edgeShapes, shape_shape σ n, edgeShapes_edgeShapes σ rest]

theorem slotShapes_slotShapes (σ : ScopeId → ScopeId) : (slots : List (Placeholder × Node)) →
    slotShapes ρ (slotShapes σ slots) = slotShapes (ρ ∘ σ) slots
  | [] => rfl
  | (p, n) :: rest => by
    rw [slotShapes, slotShapes, slotShapes, shape_shape σ n, slotShapes_slotShapes σ rest,
      Placeholder.renumber, Placeholder.renumber, Placeholder.renumber, List.map_map]

end

theorem arcs_shape : (n.shape ρ).arcs = n.arcs.map fun a => (a.1.renumber ρ, a.2.shape ρ) := by
  simp only [arcs, chars_shape, words_shape, slots_shape, Edges.image, Slots.image, List.map_append,
    List.map_map, Function.comp_def, Label.renumber]

theorem paths_shape : (n.shape ρ).paths = n.paths.map (List.map (Label.renumber ρ)) := by
  induction n using arc_induction with
  | step n ih =>
    have hbelow : ∀ a ∈ n.arcs, (a.2.shape ρ).paths.map (a.1.renumber ρ :: ·) =
        (a.2.paths.map (a.1 :: ·)).map (List.map (Label.renumber ρ)) := by
      intro a ha
      rw [ih a.1 a.2 (mem_arcs_iff.1 ha), List.map_map, List.map_map]
      rfl
    rw [paths_eq, paths_eq n, isEnd_shape, arcs_shape, List.flatMap_map, List.map_append,
      List.map_flatMap, List.flatMap_congr hbelow]
    split <;> rfl

theorem follow_shape (s : List Char) : follow s (n.shape ρ) = (follow s n).map (shape ρ) := by
  induction s generalizing n with
  | nil => rfl
  | cons c s ih =>
    rw [follow, follow, chars_shape, Edges.find?_image]
    cases n.chars.find? c with
    | none => rfl
    | some m => exact ih

theorem spell_shape (s : List Char) : spell s (n.shape ρ) = (spell s n).map (shape ρ) := by
  cases s with
  | nil => rfl
  | cons c s =>
    rw [spell, spell, words_shape, Edges.find?_image]
    cases n.words.find? c with
    | none => rfl
    | some m => exact follow_shape s

theorem child?_shape (h : Function.Injective ρ) :
    (n.shape ρ).child? (l.renumber ρ) = (n.child? l).map (shape ρ) := by
  cases l with
  | more c => rw [Label.renumber, child?, chars_shape, Edges.find?_image, child?]
  | start c => rw [Label.renumber, child?, words_shape, Edges.find?_image, child?]
  | slot p => rw [Label.renumber, child?, slots_shape, Slots.find?_image h, child?]

theorem put_shape (h : Function.Injective ρ) :
    (n.shape ρ).put (l.renumber ρ) (m.shape ρ) = (n.put l m).shape ρ := by
  obtain ⟨number, isEnd, chars, words, slots⟩ := n
  cases l with
  | more c => rw [put, shape_mk, shape_mk, Label.renumber, put, Edges.put_image]
  | start c => rw [put, shape_mk, shape_mk, Label.renumber, put, Edges.put_image]
  | slot p => rw [put, shape_mk, shape_mk, Label.renumber, put, Slots.put_image h]

theorem markEnd_shape : (n.shape ρ).markEnd = n.markEnd.shape ρ := by
  cases n
  rw [markEnd, shape_mk, shape_mk, markEnd]

def Mirrors (ρ : ScopeId → ScopeId) (n n' : Node) : Prop := n'.shape id = n.shape ρ

namespace Mirrors

theorem fresh (k k' : Nat) : (fresh k).Mirrors ρ (fresh k') := by
  rw [Mirrors, Node.fresh, Node.fresh, shape_mk, shape_mk]
  rfl

theorem trans {n'' : Node} (h : n.Mirrors id n') (h' : n'.Mirrors ρ n'') : n.Mirrors ρ n'' := by
  have hshape := congrArg (shape ρ) h
  rw [shape_shape, shape_shape] at hshape
  exact Eq.trans h' hshape

variable (hρ : Function.Injective ρ)
include hρ

theorem put {m' : Node} (h : n.Mirrors ρ n') (hm : m.Mirrors ρ m') :
    (n.put l m).Mirrors ρ (n'.put (l.renumber ρ) m') := by
  have hid := put_shape (ρ := id) (n := n') (l := l.renumber ρ) (m := m') Function.injective_id
  rw [Label.renumber_id, h, hm] at hid
  rw [Mirrors, ← put_shape hρ]
  exact hid.symm

theorem entered (h : n.Mirrors ρ n') :
    (n.entered l next).1.Mirrors ρ (n'.entered (l.renumber ρ) next').1 := by
  have hid := child?_shape (ρ := id) (n := n') (l := l.renumber ρ) Function.injective_id
  rw [Label.renumber_id, h] at hid
  have hchild := (child?_shape hρ).symm.trans hid
  rw [Node.entered, Node.entered]
  cases hl : n.child? l with
  | none =>
    rw [hl] at hchild
    rw [Option.map_eq_none_iff.1 hchild.symm]
    exact fresh _ _
  | some m =>
    rw [hl] at hchild
    obtain ⟨m', hm', heq⟩ := Option.map_eq_some_iff.1 hchild.symm
    rw [hm']
    exact heq

theorem insert (h : n.Mirrors ρ n') :
    (insert path next n).1.Mirrors ρ (insert (path.map (Label.renumber ρ)) next' n').1 := by
  induction path generalizing n n' next next' with
  | nil =>
    show n'.markEnd.shape id = n.markEnd.shape ρ
    rw [← markEnd_shape, ← markEnd_shape, h]
  | cons l path ih =>
    rw [List.map_cons, insert_cons, insert_cons]
    exact h.put hρ (ih (h.entered hρ))

theorem insertAll (h : n.Mirrors ρ n') : (insertAll paths next n).1.Mirrors ρ
    (insertAll (paths.map (List.map (Label.renumber ρ))) next' n').1 := by
  induction paths generalizing n n' next next' with
  | nil => exact h
  | cons path paths ih =>
    rw [List.map_cons, insertAll_cons, insertAll_cons]
    exact ih (h.insert hρ)

end Mirrors
end Node
end Phrasebook
