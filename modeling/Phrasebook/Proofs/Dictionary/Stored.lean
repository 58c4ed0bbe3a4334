import Mathlib.Data.List.Forall2
import Mathlib.Data.List.Nodup
import Phrasebook.Proofs.Dictionary.Calls

/-!
The stored patterns of a scope as sequences of items. They are told by what the scope shows of
itself: a shown lookup names its scopes, and as names are distinct it stands for one place only. So
a scope stores some items exactly if the tree of the scope holds them.
-/

namespace Phrasebook.Dictionary

variable {d : Dictionary} {id i j : ScopeId} {root : Node} {x y : Item} {items : List Item}
  {name : String}

inductive Shows (d : Dictionary) : Item → Element → Prop
  | word (w : Word) : d.Shows (.word w) (.word w)
  | slot {p : Placeholder} {names : List String} (h : p.contexts.map d.name? = names.map some) :
      d.Shows (.slot p) (.lookup (.single p.name names))

def Stores (d : Dictionary) (id : ScopeId) (items : List Item) : Prop :=
  ∃ pattern ∈ d.patterns id, List.Forall₂ d.Shows items pattern.elements

def element (d : Dictionary) : Item → Element
  | .word w => .word w
  | .slot p => .lookup (.single p.name (p.contexts.filterMap d.name?))

theorem elementsAlong_spelling (d : Dictionary) (r : List Char) (items : List Item) :
    d.elementsAlong (r.map .more ++ spelling items) = (r, items.map d.element) := by
  induction items generalizing r with
  | nil =>
    induction r with
    | nil => rfl
    | cons c r ih => simp only [List.map_cons, List.cons_append, elementsAlong, ih]
  | cons x items ih =>
    induction r with
    | nil =>
      cases x with
      | word w =>
        obtain ⟨c, s, hcs⟩ := w.exists_letters
        rw [spelling_word w items hcs]
        simp [elementsAlong, ih, ← hcs, Word.cut_letters, element]
      | slot p =>
        have hitems := ih []
        rw [List.map_nil, List.nil_append] at hitems
        simp [elementsAlong, hitems, element]
    | cons c r ihr => simp only [List.map_cons, List.cons_append, elementsAlong, ihr]

theorem name?_eq (d : Dictionary) (i : ScopeId) : d.name? i = d.names[i]? := by
  simp [name?, names]

namespace Sound

theorem name?_inj (h : d.Sound) (hi : d.name? i = some name) (hj : d.name? j = some name) :
    i = j := by
  rw [name?_eq] at hi hj
  obtain ⟨hilt, hi⟩ := List.getElem?_eq_some_iff.1 hi
  obtain ⟨hjlt, hj⟩ := List.getElem?_eq_some_iff.1 hj
  exact (h.names_nodup.getElem_inj_iff).1 (hi.trans hj.symm)

theorem contexts_inj (h : d.Sound) {ids ids' : List ScopeId} {names : List String}
    (hids : ids.map d.name? = names.map some) (hids' : ids'.map d.name? = names.map some) :
    ids = ids' := by
  induction names generalizing ids ids' with
  | nil =>
    rw [List.map_nil, List.map_eq_nil_iff] at hids hids'
    rw [hids, hids']
  | cons name names ih =>
    obtain ⟨i, ids, rfl, hi, hids⟩ := List.map_eq_cons_iff.1 hids
    obtain ⟨j, ids', rfl, hj, hids'⟩ := List.map_eq_cons_iff.1 hids'
    rw [h.name?_inj hi hj, ih hids hids']

theorem tree (h : d.Sound) (hr : d.root? id = some root) : root.Stocked d.scopes.length := by
  obtain ⟨s, hs, rfl⟩ := Option.map_eq_some_iff.1 hr
  exact h.stocked s (List.mem_of_getElem? hs)

end Sound

theorem map_name?_eq {ids : List ScopeId} (h : ∀ i ∈ ids, i < d.scopes.length) :
    ids.map d.name? = (ids.filterMap d.name?).map some := by
  induction ids with
  | nil => rfl
  | cons i ids ih =>
    have hi := h i List.mem_cons_self
    have hname : d.name? i = some d.scopes[i].name := by simp [name?, hi]
    rw [List.map_cons, ih fun j hj => h j (List.mem_cons_of_mem _ hj),
      List.filterMap_cons_some hname, List.map_cons, hname]

theorem shows_element_iff (h : d.Sound)
    (hy : ∀ p, y = .slot p → ∀ i ∈ p.contexts, i < d.scopes.length) :
    d.Shows x (d.element y) ↔ x = y := by
  constructor
  · intro hshows
    generalize he : d.element y = e at hshows
    cases hshows with
    | word w =>
      cases y with
      | word v =>
        cases he
        rfl
      | slot p => cases he
    | @slot p names hp =>
      cases y with
      | word v => cases he
      | slot p' =>
        have hp' := map_name?_eq (hy p' rfl)
        simp only [element, Element.lookup.injEq, Lookup.single, NameMap.single, Lookup.mk.injEq,
          NameMap.mk.injEq, List.cons.injEq, Prod.mk.injEq, and_true] at he
        rw [he.2] at hp'
        have hcontexts := h.contexts_inj hp hp'
        cases p
        cases p'
        simp_all
  · intro heq
    subst heq
    cases x with
    | word w => exact .word w
    | slot p => exact .slot (map_name?_eq (hy p rfl))

theorem forall₂_shows_iff (h : d.Sound) {items' : List Item}
    (hknown : ∀ p, Item.slot p ∈ items' → ∀ i ∈ p.contexts, i < d.scopes.length) :
    List.Forall₂ d.Shows items (items'.map d.element) ↔ items = items' := by
  induction items' generalizing items with
  | nil => simp
  | cons y items' ih =>
    rw [List.map_cons, List.forall₂_cons_right_iff]
    have hy : ∀ p, y = .slot p → ∀ i ∈ p.contexts, i < d.scopes.length := by
      intro p heq
      subst heq
      exact hknown p List.mem_cons_self
    have hrest := fun p hp => hknown p (List.mem_cons_of_mem y hp)
    constructor
    · intro hm
      obtain ⟨x, items, hx, hitems, rfl⟩ := hm
      rw [(shows_element_iff h hy).1 hx, (ih hrest).1 hitems]
    · intro heq
      subst heq
      exact ⟨y, items', (shows_element_iff h hy).2 rfl, (ih hrest).2 rfl, rfl⟩

theorem stores_iff (h : d.Sound) :
    d.Stores id items ↔ ∃ root, d.root? id = some root ∧ root.Holds items := by
  rw [Stores, patterns]
  cases hr : d.root? id with
  | none => simp
  | some root =>
    have hshown : ∀ items', root.Holds items' →
        (List.Forall₂ d.Shows items (d.elementsAlong (spelling items')).2 ↔ items = items') := by
      intro items' hheld
      have hsplit := elementsAlong_spelling d [] items'
      rw [List.map_nil, List.nil_append] at hsplit
      rw [hsplit]
      exact forall₂_shows_iff h ((h.tree hr).fits hheld).known
    constructor
    · intro hm
      obtain ⟨pattern, hpattern, hshows⟩ := hm
      obtain ⟨q, hq, rfl⟩ := List.mem_map.1 hpattern
      obtain ⟨items', rfl⟩ := (h.tree hr).boundary.spelled q hq
      rw [(hshown items' hq).1 hshows]
      exact ⟨root, rfl, hq⟩
    · intro hm
      obtain ⟨root', hroot, hheld⟩ := hm
      cases hroot
      exact ⟨_, List.mem_map.2 ⟨_, hheld, rfl⟩, (hshown items hheld).2 rfl⟩

theorem stores_iff_of_paths (h : d.Sound) {bodies : List (List (List Item))}
    (hpaths : d.scopes.map (·.root.paths) = bodies.map (·.map spelling)) :
    d.Stores id items ↔ ∃ stored, bodies[id]? = some stored ∧ items ∈ stored := by
  have hroot : (d.root? id).map Node.paths = bodies[id]?.map (·.map spelling) := by
    rw [← List.getElem?_map, ← hpaths, List.getElem?_map, root?, Option.map_map]
    rfl
  have hmem : ∀ stored : List (List Item), spelling items ∈ stored.map spelling ↔ items ∈ stored :=
    fun stored => List.mem_map_of_injective fun _ _ => spelling_injective
  rw [stores_iff h]
  cases hr : d.root? id with
  | none => cases hb : bodies[id]? <;> simp_all
  | some root => cases hb : bodies[id]? <;> simp_all [Node.Holds]

theorem Sound.ne_nil (h : d.Sound) (hs : d.Stores id items) : items ≠ [] := by
  obtain ⟨root, hr, hheld⟩ := (stores_iff h).1 hs
  exact ((h.tree hr).fits hheld).ne_nil

end Phrasebook.Dictionary
