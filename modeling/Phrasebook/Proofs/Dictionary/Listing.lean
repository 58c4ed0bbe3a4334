import Mathlib.Data.Set.List
import Phrasebook.Proofs.Dictionary.Contents
import Phrasebook.Proofs.Trie.Traversal
import Phrasebook.Proofs.Walk.Reading

/-!
What a scope lists where nothing was typed. Its patterns and its suggestions are collected by two
traversals of the tree; the trees that calls build are such that the two list the same, in the same
order, and nothing twice.
-/

namespace Phrasebook

inductive Mark where
  | word (s : String)
  | lookup (l : Lookup)

namespace Mark

def elements : Mark → List Element
  | .word s => (Word.ofText s).map .word
  | .lookup l => [.lookup l]

def goOn (c : Char) : List Mark → List Mark
  | .word s :: path => .word (s.push c) :: path
  | path => path

def goBack : List Mark → List Mark
  | .word s :: path => .word (chop s) :: path
  | path => path

def behind (r : List Char × List Element) : List Mark → List Element
  | .word s :: path =>
    path.reverse.flatMap elements ++ (Word.cut (s.toList ++ r.1)).map .word ++ r.2
  | path => path.reverse.flatMap elements ++ r.2

end Mark

namespace Dictionary

variable {d : Dictionary} {id : ScopeId} {root : Node} {items : List Item}

def trail (d : Dictionary) : Trail Mark where
  goOn c path := (Mark.goOn c path, false)
  goBack _ := Mark.goBack
  word c := .word (String.singleton c)
  slot p := .lookup (.single p.name (p.contexts.filterMap d.name?))
  goBack_goOn c path := by
    rcases path with - | ⟨s | l, path⟩ <;> simp [Mark.goOn, Mark.goBack, chop_push]

def collectPatterns (d : Dictionary) (id : ScopeId) : List Pattern :=
  match d.root? id with
  | none => []
  | some root => d.trail.collect (fun path => ⟨path.reverse.flatMap Mark.elements⟩) root

def collectCompletions (d : Dictionary) (id : ScopeId) (input : List Word) : List Suggestion :=
  match d.root? id with
  | none => []
  | some root => root.collectCompletions input

-- As for segments, what a path becomes behind some steps depends on its last entry only.
theorem elements_write_trail (d : Dictionary) (path : List Mark) (q : List Label) :
    (d.trail.write path q).reverse.flatMap Mark.elements = Mark.behind (d.elementsAlong q) path := by
  induction q generalizing path with
  | nil =>
    rcases path with - | ⟨s | l, path⟩ <;>
      simp [Trail.write, elementsAlong, Mark.behind, Mark.elements, Word.ofText]
  | cons l q ih =>
    rw [Trail.write, List.foldl_cons, ← Trail.write, ih]
    cases l <;> rcases path with - | ⟨s | l, path⟩ <;>
      simp [Trail.down, trail, Mark.goOn, Mark.behind, elementsAlong, Mark.elements, Word.ofText]

theorem collectPatterns_eq (d : Dictionary) (id : ScopeId) : d.collectPatterns id = d.patterns id := by
  rw [collectPatterns, patterns]
  cases d.root? id with
  | none => rfl
  | some root =>
    simp only [Trail.collect_eq, elements_write_trail]
    rfl

theorem collectCompletions_eq (d : Dictionary) (id : ScopeId) (input : List Word) :
    d.collectCompletions id input = d.completions id input := by
  rw [collectCompletions, completions]
  cases d.root? id with
  | none => rfl
  | some root => exact root.collectCompletions_eq input

inductive Tells (d : Dictionary) : Segment → Element → Prop
  | word (w : Word) : d.Tells (.word w.text) (.word w)
  | slot {p : Placeholder} {names : List String} (h : p.contexts.map d.name? = names.map some) :
      d.Tells (.slot p) (.lookup (.single p.name names))

theorem forall₂_tells (hknown : ∀ p, Item.slot p ∈ items → ∀ i ∈ p.contexts, i < d.scopes.length) :
    List.Forall₂ d.Tells (items.map Item.segment) (items.map d.element) := by
  rw [List.forall₂_map_left_iff, List.forall₂_map_right_iff, List.forall₂_same]
  intro x hx
  cases x with
  | word w => exact .word w
  | slot p => exact .slot (map_name?_eq (hknown p hx))

/-- The suggestions where nothing was typed and the patterns are the same sequences, in the same
order and none of them twice. -/
structure ListsAlike (d : Dictionary) (id : ScopeId) : Prop where
  completions_eq : d.collectCompletions id [] = d.completions id []
  patterns_eq : d.collectPatterns id = d.patterns id
  suggest_eq : d.suggest id (Word.ofText "") 0 = d.completions id []
  tells : List.Forall₂ (fun s q => s.stem = none ∧ List.Forall₂ d.Tells s.segments q.elements)
    (d.completions id []) (d.patterns id)
  completions_nodup : (d.completions id []).Nodup
  patterns_nodup : (d.patterns id).Nodup
  whole : ∀ s ∈ d.completions id [], ∀ x ∈ s.segments, (∀ t, x ≠ .text t) ∧ x ≠ .word ""

theorem Sound.exists_listing (hd : d.Sound) (id : ScopeId) : ∃ stored : List (List Item),
    stored.Nodup ∧
    (∀ items ∈ stored, ∀ p, Item.slot p ∈ items → ∀ i ∈ p.contexts, i < d.scopes.length) ∧
    d.completions id [] = stored.map (fun items => ⟨none, items.map Item.segment⟩) ∧
    d.patterns id = stored.map (fun items => ⟨items.map d.element⟩) := by
  cases hroot : d.root? id with
  | none => exact ⟨[], .nil, by simp, by simp [completions, hroot], by simp [patterns, hroot]⟩
  | some root =>
    have htree := hd.tree hroot
    have hspelled : root.paths ∈ Set.range (List.map spelling) := by
      rw [Set.range_list_map]
      intro q hq
      obtain ⟨items, rfl⟩ := htree.boundary.spelled q hq
      exact ⟨items, rfl⟩
    obtain ⟨stored, hstored⟩ := hspelled
    refine ⟨stored, .of_map spelling (hstored ▸ htree.ordered.paths_nodup), ?_, ?_, ?_⟩
    · intro items hitems
      have hheld : root.Holds items := by
        rw [Node.Holds, ← hstored]
        exact List.mem_map_of_mem hitems
      exact (htree.fits hheld).known
    · rw [completions, hroot]
      simp only [Node.complete, Node.tails_eq, ← hstored, List.map_map]
      refine List.map_congr_left fun items _ => ?_
      simp [Tail.along_items, Tail.suggestion, Tail.close]
    · rw [patterns_eq hroot, ← hstored, List.map_map]
      exact List.map_congr_left fun items _ => shown_spelling d items

theorem distinct_eq_self {l seen : List Suggestion} (h : l.Nodup) (hseen : ∀ s ∈ l, s ∉ seen) :
    distinct seen l = l := by
  induction l generalizing seen with
  | nil => rfl
  | cons s rest ih =>
    obtain ⟨hs, hrest⟩ := List.nodup_cons.1 h
    rw [List.forall_mem_cons] at hseen
    rw [distinct, if_neg hseen.1, ih hrest]
    intro s' hs' hmem
    rcases List.mem_cons.1 hmem with rfl | hmem
    · exact hs hs'
    · exact hseen.2 s' hs' hmem

theorem suggest_nil (h : (d.completions id []).Nodup) : d.suggest id [] 0 = d.completions id [] := by
  rw [suggest, if_pos rfl, continuations, scopeWalks]
  rw [completions] at h ⊢
  cases hroot : d.root? id with
  | none => rfl
  | some root =>
    rw [hroot] at h
    dsimp only
    rw [walks_nil, List.filter_cons_of_pos rfl, List.filter_nil, List.flatMap_singleton]
    exact distinct_eq_self h fun _ _ => List.not_mem_nil

/-- Two traversals written apart list the same patterns in the same order. -/
theorem listsAlike_ofCalls (calls : List Call) (id : ScopeId) : (ofCalls calls).ListsAlike id := by
  have hd := sound_ofCalls calls
  obtain ⟨stored, hnodup, hknown, hcompletions, hpatterns⟩ := hd.exists_listing id
  have hcompletions_nodup : ((ofCalls calls).completions id []).Nodup := by
    rw [hcompletions]
    refine hnodup.map fun items items' heq => ?_
    exact List.map_injective_iff.2 Item.segment_injective (congrArg Suggestion.segments heq)
  refine ⟨collectCompletions_eq _ id [], collectPatterns_eq _ id, ?_, ?_, hcompletions_nodup,
    hd.patterns_nodup id, ?_⟩
  · rw [Word.ofText, String.toList_empty, Word.cut_nil]
    exact suggest_nil hcompletions_nodup
  · rw [hcompletions, hpatterns, List.forall₂_map_left_iff, List.forall₂_map_right_iff,
      List.forall₂_same]
    exact fun items hitems => ⟨rfl, forall₂_tells (hknown items hitems)⟩
  · intro s hs x hx
    rw [hcompletions] at hs
    obtain ⟨items, -, rfl⟩ := List.mem_map.1 hs
    obtain ⟨y, -, rfl⟩ := List.mem_map.1 hx
    cases y with
    | word w =>
      refine ⟨by simp [Item.segment], fun heq => w.ne_empty ?_⟩
      rw [Segment.word.inj heq, String.toList_empty]
    | slot p => simp [Item.segment]

/-- A letter right behind a place, as no call stores it: one traversal shows it, the other does not. -/
def stray : Node :=
  .mk 0 false [] [] [(⟨"it", [0]⟩, .mk 1 false [('x', .mk 2 true [] [] [])] [] [])]

example : stray.collectCompletions [] = [⟨none, [.slot ⟨"it", [0]⟩, .text "x"]⟩] := by cbv

example : (trail {}).collect (·.length) stray = [1] := by cbv

end Dictionary
end Phrasebook
