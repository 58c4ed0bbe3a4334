import Mathlib.Algebra.BigOperators.Group.List.Basic
import Mathlib.Algebra.GroupWithZero.Nat
import Mathlib.Data.List.Permutation
import Phrasebook.Proofs.Dictionary.Log
import Phrasebook.Proofs.Trie.Prefixes

/-!
What a scope shows of what was put in. A run of calls that are all accepted leaves in every scope the
expansions of the patterns put into it, each once, and makes one position for every scope and for
every beginning of a stored pattern.
-/

namespace Phrasebook

/-- A word stays; of a lookup one alias is left, with its contexts. -/
inductive Element.Expands : Element → Element → Prop
  | word (w : Word) : Expands (.word w) (.word w)
  | lookup {l : Lookup} {alias_ : String} {contexts : List String}
      (h : (alias_, contexts) ∈ l.aliases.entries) :
      Expands (.lookup l) (.lookup (.single alias_ contexts))

def Pattern.Expands (p q : Pattern) : Prop := List.Forall₂ Element.Expands p.elements q.elements

/-- One step of writing a pattern down: a letter that begins a word or goes on with it, or a lookup. -/
inductive Stroke where
  | start (c : Char)
  | more (c : Char)
  | lookup (l : Lookup)
deriving DecidableEq

def Element.strokes : Element → List Stroke
  | .word w =>
    match w.letters with
    | [] => []
    | c :: s => .start c :: s.map .more
  | .lookup l => [.lookup l]

def Pattern.strokes (p : Pattern) : List Stroke := p.elements.flatMap Element.strokes

namespace Dictionary

variable {d : Dictionary} {id : ScopeId} {root : Node} {items : List Item} {name : String}

theorem filterMap_name?_of_resolveContexts {contexts : List String} {ids : List ScopeId}
    (h : resolveContexts d.resolve? name contexts = .ok ids) : ids.filterMap d.name? = contexts := by
  induction contexts generalizing ids with
  | nil =>
    cases h
    rfl
  | cons c cs ih =>
    rw [resolveContexts] at h
    split at h
    · cases h
    · rename_i id hid
      obtain ⟨ids, hids, h⟩ := bind_eq_ok_iff.1 h
      cases h
      rw [List.filterMap_cons_some (name?_of_resolve? hid), ih hids]

theorem map_of_resolveAliases {aliases : List (String × List String)} {ps : List Placeholder}
    (h : resolveAliases d.resolve? aliases = .ok ps) :
    ps.map (fun p => (p.name, p.contexts.filterMap d.name?)) = aliases := by
  induction aliases generalizing ps with
  | nil =>
    cases h
    rfl
  | cons a rest ih =>
    obtain ⟨ids, hids, h⟩ := bind_eq_ok_iff.1 h
    obtain ⟨ps, hps, h⟩ := bind_eq_ok_iff.1 h
    cases h
    rw [List.map_cons, ih hps, filterMap_name?_of_resolveContexts hids]

theorem exists_chooses_word_iff {w : Word} {y : Element} :
    (∃ x, (Step.word w).Chooses x ∧ d.element x = y) ↔ (Element.word w).Expands y := by
  constructor
  · intro hm
    obtain ⟨x, ⟨⟩, rfl⟩ := hm
    exact .word w
  · intro hm
    cases hm
    exact ⟨.word w, .word w, rfl⟩

theorem exists_chooses_places_iff {l : Lookup} {ps : List Placeholder} {y : Element}
    (h : resolveAliases d.resolve? l.aliases.entries = .ok ps) :
    (∃ x, (Step.places ps).Chooses x ∧ d.element x = y) ↔ (Element.lookup l).Expands y := by
  have hshown := map_of_resolveAliases h
  constructor
  · intro hm
    obtain ⟨x, hx, rfl⟩ := hm
    cases hx with
    | place hp =>
      refine .lookup ?_
      rw [← hshown]
      exact List.mem_map.2 ⟨_, hp, rfl⟩
  · intro hm
    cases hm with
    | lookup hmem =>
      rw [← hshown] at hmem
      obtain ⟨p, hp, heq⟩ := List.mem_map.1 hmem
      cases heq
      exact ⟨.slot p, .place hp, rfl⟩

theorem exists_chooses_cons_iff {s : Step} {steps : List Step} {y : Element} {shown : List Element} :
    (∃ items, List.Forall₂ Step.Chooses (s :: steps) items ∧ items.map d.element = y :: shown) ↔
      (∃ x, s.Chooses x ∧ d.element x = y) ∧
        ∃ items, List.Forall₂ Step.Chooses steps items ∧ items.map d.element = shown := by
  constructor
  · intro hm
    obtain ⟨items, hitems, heq⟩ := hm
    cases hitems with
    | cons hx hitems =>
      obtain ⟨hy, hshown⟩ := List.cons.inj heq
      exact ⟨⟨_, hx, hy⟩, _, hitems, hshown⟩
  · intro hm
    obtain ⟨⟨x, hx, rfl⟩, items, hitems, rfl⟩ := hm
    exact ⟨x :: items, .cons hx hitems, rfl⟩

theorem exists_chooses_iff {elements shown : List Element} {steps : List Step}
    (h : resolveElements d.resolve? elements = .ok steps) :
    (∃ items, List.Forall₂ Step.Chooses steps items ∧ items.map d.element = shown) ↔
      List.Forall₂ Element.Expands elements shown := by
  induction elements generalizing steps shown with
  | nil =>
    cases h
    simp [eq_comm]
  | cons e rest ih =>
    obtain ⟨s, steps, rfl, hs, hsteps⟩ : ∃ s steps', steps = s :: steps' ∧
        (∀ y, (∃ x, s.Chooses x ∧ d.element x = y) ↔ e.Expands y) ∧
        resolveElements d.resolve? rest = .ok steps' := by
      cases e with
      | word w =>
        obtain ⟨steps', hsteps, h⟩ := bind_eq_ok_iff.1 h
        cases h
        exact ⟨_, _, rfl, fun _ => exists_chooses_word_iff, hsteps⟩
      | lookup l =>
        obtain ⟨ps, hps, h⟩ := bind_eq_ok_iff.1 h
        obtain ⟨steps', hsteps, h⟩ := bind_eq_ok_iff.1 h
        cases h
        exact ⟨_, _, rfl, fun _ => exists_chooses_places_iff hps, hsteps⟩
    cases shown with
    | nil => simp
    | cons y shown =>
      rw [exists_chooses_cons_iff, hs, ih hsteps, List.forall₂_cons]

theorem patterns_eq_of_none (h : d.root? id = none) : d.patterns id = [] := by
  rw [patterns, h]

def shown (d : Dictionary) (q : List Label) : Pattern := ⟨(d.elementsAlong q).2⟩

theorem patterns_eq (h : d.root? id = some root) : d.patterns id = root.paths.map d.shown := by
  rw [patterns, h]
  rfl

theorem shown_spelling (d : Dictionary) (items : List Item) :
    d.shown (spelling items) = ⟨items.map d.element⟩ := by
  have hsplit := elementsAlong_spelling d [] items
  rw [List.map_nil, List.nil_append] at hsplit
  rw [shown, hsplit]

theorem mem_patterns_iff (hd : d.Sound) (h : d.root? id = some root) {q : Pattern} :
    q ∈ d.patterns id ↔ ∃ items, root.Holds items ∧ items.map d.element = q.elements := by
  rw [patterns_eq h, List.mem_map]
  constructor
  · intro hm
    obtain ⟨path, hpath, rfl⟩ := hm
    obtain ⟨items, rfl⟩ := (hd.tree h).boundary.spelled path hpath
    exact ⟨items, hpath, by rw [shown_spelling]⟩
  · intro hm
    obtain ⟨items, hheld, heq⟩ := hm
    exact ⟨spelling items, hheld, by rw [shown_spelling, heq]⟩

theorem Sound.shown_injOn (hd : d.Sound) (h : d.root? id = some root) {q q' : List Label}
    (hq : q ∈ root.paths) (hq' : q' ∈ root.paths) (heq : d.shown q = d.shown q') : q = q' := by
  obtain ⟨items, rfl⟩ := (hd.tree h).boundary.spelled q hq
  obtain ⟨items', rfl⟩ := (hd.tree h).boundary.spelled q' hq'
  rw [shown_spelling, shown_spelling] at heq
  have hshows := (forall₂_shows_iff hd ((hd.tree h).fits hq).known).2 rfl
  rw [show items.map d.element = items'.map d.element from congrArg Pattern.elements heq] at hshows
  rw [(forall₂_shows_iff hd ((hd.tree h).fits hq').known).1 hshows]

theorem Sound.patterns_nodup (hd : d.Sound) (id : ScopeId) : (d.patterns id).Nodup := by
  cases h : d.root? id with
  | none =>
    rw [patterns_eq_of_none h]
    exact .nil
  | some root =>
    rw [patterns_eq h]
    exact List.Nodup.map_on (fun q hq q' hq' => hd.shown_injOn h hq hq')
      (hd.tree h).ordered.paths_nodup

theorem Records.mem_patterns_iff {log : List (String × Pattern)} (h : d.Records log) (hd : d.Sound)
    (hid : d.resolve? name = some id) (hroot : d.root? id = some root) {q : Pattern} :
    q ∈ d.patterns id ↔ ∃ p, (name, p) ∈ log ∧ p.elements ≠ [] ∧ p.Expands q := by
  rw [Dictionary.mem_patterns_iff hd hroot]
  simp only [h.held name id root hid hroot, Offers]
  constructor
  · intro hm
    obtain ⟨items, ⟨p, hp, hne, steps, hsteps, hitems⟩, heq⟩ := hm
    exact ⟨p, hp, hne, (exists_chooses_iff hsteps).1 ⟨items, hitems, heq⟩⟩
  · intro hm
    obtain ⟨p, hp, hne, hexpands⟩ := hm
    obtain ⟨-, steps, hsteps⟩ := h.resolved _ hp
    obtain ⟨items, hitems, heq⟩ := (exists_chooses_iff hsteps).2 hexpands
    exact ⟨items, ⟨p, hp, hne, steps, hsteps, hitems⟩, heq⟩

def stroke (d : Dictionary) : Label → Stroke
  | .start c => .start c
  | .more c => .more c
  | .slot p => .lookup (.single p.name (p.contexts.filterMap d.name?))

theorem strokes_shown (d : Dictionary) (items : List Item) :
    (d.shown (spelling items)).strokes = (spelling items).map d.stroke := by
  rw [shown_spelling, Pattern.strokes, spelling, List.flatMap_map, List.map_flatMap]
  refine congrArg (fun f => items.flatMap f) (funext fun x => ?_)
  cases x with
  | word w =>
    obtain ⟨c, s, hcs⟩ := w.exists_letters
    simp [element, Element.strokes, Item.labels, hcs, Step.spelled, stroke]
  | slot p => rfl

theorem stroke_inj (hd : d.Sound) {l k : Label}
    (hk : ∀ p, k = .slot p → ∀ i ∈ p.contexts, i < d.scopes.length)
    (hl : ∀ p, l = .slot p → ∀ i ∈ p.contexts, i < d.scopes.length)
    (h : d.stroke l = d.stroke k) : l = k := by
  cases l with
  | start c => cases k <;> simp_all [stroke]
  | more c => cases k <;> simp_all [stroke]
  | slot p =>
    cases k with
    | start c => simp [stroke] at h
    | more c => simp [stroke] at h
    | slot p' =>
      have helement : d.element (.slot p) = d.element (.slot p') :=
        congrArg Element.lookup (Stroke.lookup.inj h)
      have hshows : d.Shows (.slot p) (d.element (.slot p)) := .slot (map_name?_eq (hl p rfl))
      rw [helement] at hshows
      have heq := (shows_element_iff hd fun q hq => hk q (congrArg _ (Item.slot.inj hq))).1 hshows
      rw [Item.slot.inj heq]

theorem map_stroke_inj (hd : d.Sound) {r r' : List Label}
    (hr : ∀ p, Label.slot p ∈ r → ∀ i ∈ p.contexts, i < d.scopes.length)
    (hr' : ∀ p, Label.slot p ∈ r' → ∀ i ∈ p.contexts, i < d.scopes.length)
    (h : r.map d.stroke = r'.map d.stroke) : r = r' := by
  induction r generalizing r' with
  | nil => exact (List.map_eq_nil_iff.1 h.symm).symm
  | cons l r ih =>
    obtain ⟨k, r', rfl, hlk, h⟩ := List.map_eq_cons_iff.1 h.symm
    have hhead := stroke_inj hd (fun p hp => hr' p (by simp [hp])) (fun p hp => hr p (by simp [hp]))
      hlk.symm
    rw [hhead, ih (fun p hp => hr p (List.mem_cons_of_mem _ hp))
      (fun p hp => hr' p (List.mem_cons_of_mem _ hp)) h.symm]

theorem length_dedup_prefixes (hd : d.Sound) (h : d.root? id = some root) :
    ((d.patterns id).flatMap fun q => prefixes q.strokes).dedup.length = root.routes.length := by
  have hshown : ((d.patterns id).flatMap fun q => prefixes q.strokes) =
      (root.paths.flatMap prefixes).map (List.map d.stroke) := by
    rw [patterns_eq h, List.flatMap_map, List.map_flatMap]
    refine List.flatMap_congr fun q hq => ?_
    obtain ⟨items, rfl⟩ := (hd.tree h).boundary.spelled q hq
    rw [strokes_shown, prefixes_map]
  have hknown : ∀ r ∈ root.routes, ∀ p, Label.slot p ∈ r →
      ∀ i ∈ p.contexts, i < d.scopes.length := by
    intro r hr p hp
    obtain ⟨-, q, hq, hr⟩ := Node.mem_routes_iff.1 hr
    obtain ⟨items, hfits, rfl⟩ := (hd.tree h).stored q hq
    exact hfits.known p (slot_mem_of_mem_spelling (hr.subset hp))
  rw [hshown, length_dedup_map]
  · rfl
  · intro r hr r' hr' heq
    rw [← List.mem_dedup] at hr hr'
    exact map_stroke_inj hd (hknown r hr) (hknown r' hr') heq

theorem Numbered.nodeCount_eq (h : d.Numbered) :
    d.nodeCount = d.scopes.length + (d.scopes.map fun s => s.root.routes.length).sum := by
  have hlength := h.numbers.length_eq
  rw [List.length_range, List.length_flatMap] at hlength
  have hsplit : ∀ s ∈ d.scopes, s.root.numbers.length = 1 + s.root.routes.length := by
    intro s hs
    rw [Node.length_routes (h.ordered s hs) (h.grown s hs), Node.numbers, List.length_cons,
      List.length_map, Nat.add_comm]
  rw [← hlength, List.map_congr_left hsplit, List.sum_map_add, List.map_const', List.sum_replicate]
  simp

/-- The scopes show what the log says was put in, and no position is made for anything else. -/
structure Shown (d : Dictionary) (log : List (String × Pattern)) : Prop where
  nodup : ∀ id, (d.patterns id).Nodup
  mem_iff : ∀ name id, d.resolve? name = some id → ∀ q,
    q ∈ d.patterns id ↔ ∃ p, (name, p) ∈ log ∧ p.elements ≠ [] ∧ p.Expands q
  nodeCount : d.nodeCount = d.scopes.length +
    (d.ids.map fun id => ((d.patterns id).flatMap fun q => prefixes q.strokes).dedup.length).sum

/-- After calls that succeed the scopes show what was put in and nothing else, without a superfluous node. -/
theorem shown_of_run {calls : List Call} (h : run calls {} = .ok d) :
    d.Shown (calls.flatMap Call.inserts) := by
  have hd : d.Sound := ofCalls_of_run h ▸ sound_ofCalls calls
  have hnumbered : d.Numbered := ofCalls_of_run h ▸ Numbered.ofCalls calls
  refine ⟨hd.patterns_nodup, ?_, ?_⟩
  · intro name id hid q
    have hlt := resolve?_lt hid
    have hroot : d.root? id = some d.scopes[id].root := by simp [root?, hlt]
    exact (records_of_run h).mem_patterns_iff hd hid hroot
  · rw [hnumbered.nodeCount_eq]
    congr 2
    refine List.ext_getElem (by simp [ids]) fun i hi hi' => ?_
    rw [List.length_map] at hi
    have hroot : d.root? i = some d.scopes[i].root := by simp [root?, hi]
    simp [ids, length_dedup_prefixes hd hroot]

def chores : List Call :=
  [.declare "chore", .add "chore" (.written "do <a:chore,b:chore>"), .define "day" [.written "do it"]]

theorem shown_chores : run chores {} = .ok (ofCalls chores) ∧
    (ofCalls chores).Shown (chores.flatMap Call.inserts) := by
  have hrun : run chores {} = .ok (ofCalls chores) := by cbv
  exact ⟨hrun, shown_of_run hrun⟩

end Dictionary
end Phrasebook
