import Phrasebook.Proofs.Dictionary.Arrangement
import Phrasebook.Proofs.Dictionary.Mirroring
import Phrasebook.Proofs.Grammar.Building
import Phrasebook.Proofs.NameMap
import Phrasebook.Proofs.Trie.Rebuild

/-!
A dictionary out of its grammar. The grammar of a dictionary builds without a failure, the scopes in
the order of their names. Every scope gets back the patterns it had in the order it had them, so its
tree comes out in the old shape, and the dictionary built answers as the one captured.
-/

namespace Phrasebook

variable {ρ : ScopeId → ScopeId}

namespace Dictionary

variable {d d' : Dictionary} {id : ScopeId} {root : Node} {name : String}

def storeAll (targets : List (ScopeId × List (List Label))) (d : Dictionary) : Dictionary :=
  targets.foldl (fun d t => t.2.foldl (storePath t.1) d) d

variable {targets : List (ScopeId × List (List Label))} {paths : List (List Label)}

theorem names_foldl_storePath : (paths.foldl (storePath id) d).names = d.names := by
  induction paths generalizing d with
  | nil => rfl
  | cons path rest ih => rw [List.foldl_cons, ih, names_storePath]

theorem names_storeAll : (storeAll targets d).names = d.names := by
  induction targets generalizing d with
  | nil => rfl
  | cons t rest ih => exact (ih (d := t.2.foldl (storePath t.1) d)).trans names_foldl_storePath

theorem root?_storeAll_of_not_mem (h : id ∉ targets.map Prod.fst) :
    (storeAll targets d).root? id = d.root? id := by
  induction targets generalizing d with
  | nil => rfl
  | cons t rest ih =>
    rw [List.map_cons, List.mem_cons, not_or] at h
    exact (ih h.2).trans (root?_foldl_storePath_ne h.1)

theorem root?_storeAll (hnodup : (targets.map Prod.fst).Nodup) (ht : (id, paths) ∈ targets)
    (hroot : d.root? id = some root) :
    ∃ next, (storeAll targets d).root? id = some (Node.insertAll paths next root).1 := by
  induction targets generalizing d with
  | nil => cases ht
  | cons t rest ih =>
    obtain ⟨hhead, hnodup⟩ := List.nodup_cons.1 hnodup
    rcases List.mem_cons.1 ht with heq | ht
    · subst heq
      exact ⟨_, (root?_storeAll_of_not_mem hhead).trans (root?_foldl_storePath hroot)⟩
    · have hne : id ≠ t.1 := fun heq => hhead (heq ▸ List.mem_map_of_mem ht)
      exact ih hnodup ht ((root?_foldl_storePath_ne hne).trans hroot)

variable {scopeOf : String → Option ScopeId}

structure Spelt (scopeOf : String → Option ScopeId) (p : Pattern) (path : List Label) : Prop where
  filled : p.Filled
  nonempty : p.elements ≠ []
  steps : ∃ steps, resolveElements scopeOf p.elements = .ok steps ∧ Step.paths steps = [path]

theorem add_of_spelt {p : Pattern} {path : List Label} (h : Spelt d.resolve? p path)
    (id : ScopeId) : d.add id (.built p) = .ok (storePath id d path) := by
  obtain ⟨steps, hsteps, hpaths⟩ := h.steps
  have hread : (Pattern.Form.built p).read = .ok p :=
    (Pattern.checked_eq_ok_iff p p).2 ⟨h.filled, rfl⟩
  have hne : steps.isEmpty = false := by
    simpa using mt (resolveElements_nil_iff hsteps).1 h.nonempty
  have hstore : store id d steps = storePath id d path := by
    rw [store, hne, hpaths]
    rfl
  rw [add, hread]
  simp only [hsteps]
  exact congrArg Except.ok hstore

def step (ρ : ScopeId → ScopeId) : Item → Step
  | .word w => .word w
  | .slot p => .places [p.renumber ρ]

theorem paths_map_step (items : List Item) :
    Step.paths (items.map (step ρ)) = [spelling (items.map (Item.renumber ρ))] := by
  induction items with
  | nil => rfl
  | cons x items ih =>
    have hchoices : (step ρ x).choices = [(x.renumber ρ).labels] := by cases x <;> rfl
    rw [List.map_cons, Step.paths, ih, hchoices]
    simp [spelling]

theorem resolveContexts_names {alias_ : String} {contexts : List ScopeId}
    (hscope : ∀ name i, d.name? i = some name → scopeOf name = some (ρ i))
    (hknown : ∀ i ∈ contexts, i < d.scopes.length) :
    resolveContexts scopeOf alias_ (contexts.filterMap d.name?) = .ok (contexts.map ρ) := by
  induction contexts with
  | nil => rfl
  | cons i contexts ih =>
    obtain ⟨hi, hrest⟩ := List.forall_mem_cons.1 hknown
    have hname : d.name? i = some d.scopes[i].name := by simp [name?, hi]
    rw [List.filterMap_cons_some hname, resolveContexts]
    simp only [hscope _ i hname, ih hrest]
    rfl

theorem resolveElements_shown {items : List Item}
    (hscope : ∀ name i, d.name? i = some name → scopeOf name = some (ρ i))
    (hknown : ∀ p, Item.slot p ∈ items → ∀ i ∈ p.contexts, i < d.scopes.length) :
    resolveElements scopeOf (items.map d.element) = .ok (items.map (step ρ)) := by
  induction items with
  | nil => rfl
  | cons x items ih =>
    have hrest := ih fun p hp => hknown p (List.mem_cons_of_mem x hp)
    cases x with
    | word w => exact bind_eq_ok_iff.2 ⟨_, hrest, rfl⟩
    | slot p =>
      have hcontexts : resolveContexts scopeOf p.name (p.contexts.filterMap d.name?) =
          .ok (p.contexts.map ρ) := resolveContexts_names hscope (hknown p List.mem_cons_self)
      have halias : resolveAliases scopeOf [(p.name, p.contexts.filterMap d.name?)] =
          .ok [p.renumber ρ] := bind_eq_ok_iff.2 ⟨_, hcontexts, rfl⟩
      exact bind_eq_ok_iff.2 ⟨_, halias, bind_eq_ok_iff.2 ⟨_, hrest, rfl⟩⟩

theorem spelt_shown {items : List Item} (hne : items ≠ [])
    (hscope : ∀ name i, d.name? i = some name → scopeOf name = some (ρ i))
    (hcontexts : ∀ p, Item.slot p ∈ items →
      p.contexts ≠ [] ∧ ∀ i ∈ p.contexts, i < d.scopes.length) :
    Spelt scopeOf (d.shown (spelling items)) ((spelling items).map (Label.renumber ρ)) := by
  rw [shown_spelling, ← spelling_renumber]
  refine ⟨?_, by simpa using hne, _,
    resolveElements_shown hscope fun p hp => (hcontexts p hp).2, paths_map_step items⟩
  intro e he
  obtain ⟨x, hx, rfl⟩ := List.mem_map.1 he
  cases x with
  | word w => trivial
  | slot p =>
    obtain ⟨hsome, hknown⟩ := hcontexts p hx
    refine ⟨List.cons_ne_nil _ _, fun b hb => ?_⟩
    cases List.mem_singleton.1 hb
    intro hnone
    have hmap := map_name?_eq hknown
    rw [show p.contexts.filterMap d.name? = [] from hnone, List.map_nil, List.map_eq_nil_iff] at hmap
    exact hsome hmap

end Dictionary

namespace Grammar
open Dictionary

variable {d d' : Dictionary} {id : ScopeId} {name : String} {paths : List (List Label)}
  {targets : List (ScopeId × List (List Label))} {scopeOf : String → Option ScopeId}

theorem addAll_eq {patterns : List Pattern} (hd : d.resolve? = scopeOf)
    (h : List.Forall₂ (Spelt scopeOf) patterns paths) :
    addAll id patterns d = .ok (paths.foldl (storePath id) d) := by
  induction h generalizing d with
  | nil => rfl
  | @cons p path ps paths hp _ ih =>
    subst hd
    refine bind_eq_ok_iff.2 ⟨_, add_of_spelt hp id, ih ?_⟩
    exact resolve?_of_names (names_storePath id d path)

theorem fillScopes_eq {entries : List (String × List Pattern)} (hd : d.resolve? = scopeOf)
    (h : List.Forall₂ (fun e t => scopeOf e.1 = some t.1 ∧ List.Forall₂ (Spelt scopeOf) e.2 t.2)
      entries targets) : fillScopes entries d = .ok (storeAll targets d) := by
  induction h generalizing d with
  | nil => rfl
  | @cons e t entries targets he _ ih =>
    have hfind : d.find e.1 = .ok t.1 := find_eq_ok_iff.2 (hd ▸ he.1)
    refine bind_eq_ok_iff.2 ⟨_, hfind, bind_eq_ok_iff.2 ⟨_, addAll_eq hd he.2, ih ?_⟩⟩
    exact (resolve?_of_names names_foldl_storePath).trans hd

theorem filterMap_name?_ids (d : Dictionary) : d.ids.filterMap d.name? = d.names := by
  have hnames : d.ids.map d.name? = d.names.map some := by
    refine List.ext_getElem (by simp [ids, length_names]) fun i hi hi' => ?_
    rw [List.length_map, length_names] at hi'
    simp [ids, name?_eq, names, hi']
  have hsome : d.ids.map d.name? = (d.ids.filterMap d.name?).map some :=
    map_name?_eq fun i hi => by simpa [ids] using hi
  exact List.map_injective_iff.2 (fun _ _ => Option.some.inj) (hsome.symm.trans hnames)

theorem mem_capture_iff (h : d.names.Nodup) {patterns : List Pattern} :
    (name, patterns) ∈ (capture d).scopes.entries ↔
      ∃ id, d.resolve? name = some id ∧ patterns = d.patterns id := by
  have hkeys : ((d.ids.filterMap fun id => (d.name? id).map fun name => (name, d.patterns id)).map
      Prod.fst).Nodup := by
    rw [List.map_filterMap]
    simp only [Option.map_map, Function.comp_def, Option.map_id']
    rwa [filterMap_name?_ids]
  rw [capture, NameMap.mem_ofList_iff hkeys, List.mem_filterMap]
  constructor
  · intro hm
    obtain ⟨id, -, hid⟩ := hm
    obtain ⟨name', hname, heq⟩ := Option.map_eq_some_iff.1 hid
    cases heq
    exact ⟨id, (resolve?_eq_some_iff h).2 hname, rfl⟩
  · intro hm
    obtain ⟨id, hid, rfl⟩ := hm
    refine ⟨id, by simpa [ids] using resolve?_lt hid, ?_⟩
    rw [name?_of_resolve? hid]
    rfl

theorem mem_names_capture_iff (h : d.names.Nodup) :
    name ∈ (capture d).scopes.names ↔ name ∈ d.names := by
  rw [NameMap.names, List.mem_map, mem_names_iff]
  constructor
  · intro hm
    obtain ⟨e, he, rfl⟩ := hm
    obtain ⟨id, hid, -⟩ := (mem_capture_iff h).1 he
    exact ⟨id, hid⟩
  · intro hm
    obtain ⟨id, hid⟩ := hm
    exact ⟨_, (mem_capture_iff h).2 ⟨id, hid, rfl⟩, rfl⟩

end Grammar

namespace Dictionary

variable {d d' : Dictionary} {id : ScopeId} {name : String}

def renumbering (d d' : Dictionary) (id : ScopeId) : ScopeId :=
  ((d.name? id).bind d'.resolve?).getD id

theorem renumbering_of_resolve? (hid : d.resolve? name = some id) {i : ScopeId}
    (hi : d'.resolve? name = some i) : renumbering d d' id = i := by
  rw [renumbering, name?_of_resolve? hid, Option.bind_some, hi, Option.getD_some]

section Permuted
variable (hnames : d.names.Perm d'.names)
include hnames

theorem resolve?_renumbering (name : String) :
    d'.resolve? name = (d.resolve? name).map (renumbering d d') := by
  cases hid : d.resolve? name with
  | none =>
    rw [Option.map_none, Option.eq_none_iff_forall_ne_some]
    intro i hi
    have hmem : name ∈ d.names := hnames.mem_iff.2 (mem_names_iff.2 ⟨i, hi⟩)
    obtain ⟨id, hsome⟩ := mem_names_iff.1 hmem
    rw [hid] at hsome
    cases hsome
  | some id =>
    have hmem : name ∈ d'.names := hnames.mem_iff.1 (mem_names_iff.2 ⟨id, hid⟩)
    obtain ⟨i, hi⟩ := mem_names_iff.1 hmem
    rw [Option.map_some, renumbering_of_resolve? hid hi, hi]

variable (hd : d.names.Nodup)
include hd

theorem name?_renumbering (id : ScopeId) : d'.name? (renumbering d d' id) = d.name? id := by
  cases hname : d.name? id with
  | none =>
    rw [renumbering, hname]
    rw [name?_eq, List.getElem?_eq_none_iff] at hname ⊢
    rwa [← hnames.length_eq]
  | some name =>
    have hid := (resolve?_eq_some_iff hd).2 hname
    have hi := resolve?_renumbering hnames name
    rw [hid] at hi
    exact name?_of_resolve? hi

theorem renumbering_injective : Function.Injective (renumbering d d') := by
  intro i j heq
  have hi := name?_renumbering hnames hd i
  have hj := name?_renumbering hnames hd j
  rw [← heq, hi] at hj
  cases hname : d.name? i with
  | none =>
    rw [hname] at hj
    rwa [renumbering, renumbering, hname, ← hj] at heq
  | some name =>
    rw [hname] at hj
    have hsame := (resolve?_eq_some_iff hd).2 hname
    rw [(resolve?_eq_some_iff hd).2 hj.symm] at hsame
    exact (Option.some.inj hsame).symm

end Permuted

theorem elementsAlong_renumber (hnames : ∀ i, d'.name? (ρ i) = d.name? i) (q : List Label) :
    d'.elementsAlong (q.map (Label.renumber ρ)) = d.elementsAlong q := by
  induction q with
  | nil => rfl
  | cons l q ih =>
    cases l with
    | more c => simp only [List.map_cons, Label.renumber, elementsAlong, ih]
    | start c => simp only [List.map_cons, Label.renumber, elementsAlong, ih]
    | slot p =>
      simp only [List.map_cons, Label.renumber, elementsAlong, ih, Placeholder.renumber,
        List.filterMap_map, Function.comp_def, hnames]

theorem Mirrors.patterns_eq (h : d.Mirrors ρ d') (hnames : ∀ i, d'.name? (ρ i) = d.name? i)
    (id : ScopeId) : d'.patterns (ρ id) = d.patterns id := by
  rw [patterns, patterns]
  have hroots := h.roots id
  generalize d.root? id = r, d'.root? (ρ id) = r' at hroots
  cases hroots with
  | none => rfl
  | some hroot =>
    simp only [hroot.paths_eq, List.map_map, Function.comp_def, elementsAlong_renumber hnames]

def target (ρ : ScopeId → ScopeId) (d : Dictionary) (name : String) :
    ScopeId × List (List Label) :=
  let id := (d.resolve? name).getD 0
  (ρ id, ((d.root? id).elim [] Node.paths).map (List.map (Label.renumber ρ)))

theorem target_eq {root : Node} (hid : d.resolve? name = some id) (hroot : d.root? id = some root) :
    target ρ d name = (ρ id, root.paths.map (List.map (Label.renumber ρ))) := by
  simp only [target, hid, Option.getD_some, hroot, Option.elim_some]

theorem root?_eq_none_iff : d.root? id = none ↔ d.name? id = none := by
  simp [root?, name?]

theorem name?_of_names (h : d'.names = d.names) : d'.name? = d.name? := by
  funext id
  rw [name?_eq, name?_eq, h]

theorem exists_root?_of_resolve? (hid : d.resolve? name = some id) :
    ∃ root, d.root? id = some root := by
  have hlt := resolve?_lt hid
  exact ⟨d.scopes[id].root, by simp [root?, hlt]⟩

theorem nodup_targets (hρ : Function.Injective ρ) {names : List String} (hnodup : names.Nodup)
    (hknown : ∀ name ∈ names, name ∈ d.names) : ((names.map (target ρ d)).map Prod.fst).Nodup := by
  rw [List.map_map]
  refine hnodup.map_on fun a ha b hb heq => ?_
  obtain ⟨i, hi⟩ := mem_names_iff.1 (hknown a ha)
  obtain ⟨j, hj⟩ := mem_names_iff.1 (hknown b hb)
  simp only [Function.comp_apply, target, hi, hj, Option.getD_some] at heq
  rw [hρ heq] at hi
  exact resolve?_inj hi hj

theorem mirrors_storeAll (hd : d.Sound) (hnumbered : d.Numbered) (hρ : Function.Injective ρ)
    (hnames : ∀ i, d'.name? (ρ i) = d.name? i) (hempty : ∀ s ∈ d'.scopes, ∃ k, s.root = .fresh k)
    {names : List String} (hnodup : names.Nodup) (hall : ∀ name, name ∈ names ↔ name ∈ d.names) :
    d.Mirrors ρ (storeAll (names.map (target ρ d)) d') := by
  have htargets := nodup_targets hρ hnodup fun name => (hall name).1
  refine ⟨hρ, fun id => ?_⟩
  cases hroot : d.root? id with
  | none =>
    have hnone : (storeAll (names.map (target ρ d)) d').root? (ρ id) = none := by
      rw [root?_eq_none_iff] at hroot ⊢
      rw [name?_of_names names_storeAll, hnames, hroot]
    rw [hnone]
    exact .none
  | some root =>
    obtain ⟨name, hs⟩ := root?_eq_some_iff.1 hroot
    have hname : d.name? id = some name := by rw [name?, hs, Option.map_some]
    have hid := hd.resolve?_eq_some_iff.2 hname
    have hmem : target ρ d name ∈ names.map (target ρ d) :=
      List.mem_map_of_mem ((hall name).2 (mem_names_iff.2 ⟨id, hid⟩))
    rw [target_eq hid hroot] at hmem
    have hfresh : ∃ k, d'.root? (ρ id) = some (.fresh k) := by
      have hname' := (hnames id).trans hname
      obtain ⟨s, hs, -⟩ := Option.map_eq_some_iff.1 hname'
      obtain ⟨k, hk⟩ := hempty s (List.mem_of_getElem? hs)
      exact ⟨k, by rw [root?, hs, Option.map_some, hk]⟩
    obtain ⟨k, hfresh⟩ := hfresh
    obtain ⟨next, hstored⟩ := root?_storeAll htargets hmem hfresh
    rw [hstored]
    have hscope := List.mem_of_getElem? hs
    have hself := Node.mirrors_insertAll_paths (hd.tree hroot).ordered (hnumbered.grown _ hscope) 0 0
    exact .some (hself.trans ((Node.Mirrors.fresh 0 k).insertAll hρ))

/-- The second dictionary answers as the first, its scopes under other numbers. -/
structure Alike (ρ : ScopeId → ScopeId) (d d' : Dictionary) : Prop where
  injective : Function.Injective ρ
  resolve? : ∀ name, d'.resolve? name = (d.resolve? name).map ρ
  suggest : ∀ id input lookahead,
    d'.suggest (ρ id) input lookahead = (d.suggest id input lookahead).map (Suggestion.renumber ρ)
  said : ∀ id input lookahead, (d'.suggest (ρ id) input lookahead).map (fun s => (s.stem, s.render)) =
    (d.suggest id input lookahead).map fun s => (s.stem, s.render)
  walks : ∀ id input, (d'.scopeWalks (ρ id) input).map (fun w => (w.stack.length, w.rest)) =
    (d.scopeWalks id input).map fun w => (w.stack.length, w.rest)

theorem Mirrors.alike (h : d.Mirrors ρ d')
    (hresolve : ∀ name, d'.resolve? name = (d.resolve? name).map ρ) : d.Alike ρ d' where
  injective := h.injective
  resolve? := hresolve
  suggest := h.suggest_eq
  said := by
    intro id input lookahead
    simp only [h.suggest_eq, List.map_map, Function.comp_def, Suggestion.render_renumber]
    rfl
  walks := by
    intro id input
    have hwalks := h.scopeWalks id input
    generalize d.scopeWalks id input = l, d'.scopeWalks (ρ id) input = l' at hwalks
    induction hwalks with
    | nil => rfl
    | cons hw _ ih => rw [List.map_cons, List.map_cons, ih, hw.length_stack, hw.rest]

end Dictionary

namespace Grammar
open Dictionary

variable {d d' : Dictionary}

theorem spelt_target {log : List (String × Pattern)} {scopeOf : String → Option ScopeId}
    (hd : d.Sound) (hlog : d.Records log)
    (hscope : ∀ name, scopeOf name = (d.resolve? name).map ρ) {e : String × List Pattern}
    (he : e ∈ (capture d).scopes.entries) : scopeOf e.1 = some (target ρ d e.1).1 ∧
      List.Forall₂ (Spelt scopeOf) e.2 (target ρ d e.1).2 := by
  obtain ⟨name, patterns⟩ := e
  obtain ⟨id, hid, rfl⟩ := (mem_capture_iff hd.names_nodup).1 he
  obtain ⟨root, hroot⟩ := exists_root?_of_resolve? hid
  rw [target_eq hid hroot, hscope, hid, patterns_eq hroot]
  refine ⟨rfl, ?_⟩
  rw [List.forall₂_map_left_iff, List.forall₂_map_right_iff, List.forall₂_same]
  intro q hq
  obtain ⟨items, hfits, rfl⟩ := (hd.tree hroot).stored q hq
  refine spelt_shown hfits.ne_nil ?_ fun p hp => contexts_of_holds hd hlog hroot hq hp
  intro name i hname
  rw [hscope, hd.resolve?_eq_some_iff.2 hname, Option.map_some]

theorem perm_names_capture (h : d.names.Nodup) : d.names.Perm (capture d).scopes.names :=
  (List.perm_ext_iff_of_nodup h (capture d).scopes.names_nodup).2 fun _ =>
    (mem_names_capture_iff h).symm

theorem exists_build {log : List (String × Pattern)} (hd : d.Sound) (hnumbered : d.Numbered)
    (hlog : d.Records log) : ∃ d', (capture d).build = .ok d' ∧ d.names.Perm d'.names ∧
      d.Mirrors (renumbering d d') d' := by
  have hkeys := (capture d).scopes.names_nodup
  obtain ⟨d₀, hdeclare, hnames, hroots⟩ := @declareAll_eq {} (capture d).scopes.names hkeys
  change d₀.names = (capture d).scopes.names at hnames
  have hempty : ∀ s ∈ d₀.scopes, ∃ k, s.root = .fresh k := by
    intro s hs
    exact (hroots s hs).resolve_left List.not_mem_nil
  have hperm : d.names.Perm d₀.names := hnames ▸ perm_names_capture hd.names_nodup
  have hmirrors := mirrors_storeAll hd hnumbered (renumbering_injective hperm hd.names_nodup)
    (name?_renumbering hperm hd.names_nodup) hempty hkeys
    fun name => mem_names_capture_iff hd.names_nodup
  have hfill : fillScopes (capture d).scopes.entries d₀ =
      .ok (storeAll ((capture d).scopes.names.map (target (renumbering d d₀) d)) d₀) := by
    refine fillScopes_eq rfl ?_
    rw [NameMap.names, List.map_map, List.forall₂_map_right_iff, List.forall₂_same]
    exact fun e he => spelt_target hd hlog (resolve?_renumbering hperm) he
  have hsame := @names_storeAll d₀ ((capture d).scopes.names.map (target (renumbering d d₀) d))
  generalize storeAll _ d₀ = d' at hmirrors hfill hsame
  -- Storing paths changes no name, so every scope has the number it was registered under.
  have hrenumbering : renumbering d d' = renumbering d d₀ := by
    funext id
    rw [renumbering, resolve?_of_names hsame, renumbering]
  refine ⟨d', bind_eq_ok_iff.2 ⟨d₀, hdeclare, hfill⟩, hsame ▸ hperm, ?_⟩
  rwa [hrenumbering]

theorem capture_eq_of_mirrors (hnames : d.names.Perm d'.names) (hd : d.names.Nodup)
    (h : d.Mirrors (renumbering d d') d') : capture d' = capture d := by
  have hscopes : (capture d').scopes = (capture d).scopes := by
    refine NameMap.ext_mem fun e => ?_
    obtain ⟨name, patterns⟩ := e
    rw [mem_capture_iff (hnames.nodup hd), mem_capture_iff hd, resolve?_renumbering hnames]
    simp only [Option.map_eq_some_iff]
    have hpatterns := h.patterns_eq (name?_renumbering hnames hd)
    constructor
    · intro hm
      obtain ⟨_, ⟨id, hid, rfl⟩, rfl⟩ := hm
      exact ⟨id, hid, hpatterns id⟩
    · intro hm
      obtain ⟨id, hid, rfl⟩ := hm
      exact ⟨_, ⟨id, hid, rfl⟩, (hpatterns id).symm⟩
  exact congrArg Grammar.mk hscopes

/-- The captured grammar builds, and what is built cannot be told from what was captured. -/
theorem build_capture (calls : List Call) : ∃ d' ρ, (capture (ofCalls calls)).build = .ok d' ∧
    capture d' = capture (ofCalls calls) ∧ (ofCalls calls).Alike ρ d' := by
  have hd := sound_ofCalls calls
  obtain ⟨log, hlog⟩ := exists_records calls
  obtain ⟨d', hbuild, hnames, hmirrors⟩ := exists_build hd (Numbered.ofCalls calls) hlog
  exact ⟨d', _, hbuild, capture_eq_of_mirrors hnames hd.names_nodup hmirrors,
    hmirrors.alike (resolve?_renumbering hnames)⟩

end Grammar
end Phrasebook
