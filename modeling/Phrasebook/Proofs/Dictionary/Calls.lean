import Phrasebook.Proofs.Sequencing
import Phrasebook.Proofs.Trie.Spelling

/-!
Dictionaries as they are built: from the empty one by any sequence of calls, each answered or
refused. In every such dictionary the names are distinct, every tree is in order, and what is stored
in a scope are spelled patterns that are not empty and mention registered scopes only.
-/

namespace Phrasebook

/-- What can be asked of a dictionary under construction. Scopes are called by their names. -/
inductive Call where
  | declare (name : String)
  | define (name : String) (forms : List Pattern.Form)
  | add (name : String) (form : Pattern.Form)
  | remove (name : String) (form : Pattern.Form)

namespace Call

def answer (d : Dictionary) : Call → Except ScopeError Dictionary
  | .declare name => d.declare name
  | .define name forms => d.define name forms
  | .add name form => do d.add (← d.find name) form
  | .remove name form => do d.remove (← d.find name) form

/-- A refused call leaves the dictionary as it was. -/
def apply (d : Dictionary) (c : Call) : Dictionary :=
  match c.answer d with
  | .ok d' => d'
  | .error _ => d

end Call

def Dictionary.ofCalls (calls : List Call) : Dictionary := calls.foldl Call.apply {}

structure Fits (count : Nat) (items : List Item) : Prop where
  ne_nil : items ≠ []
  known : ∀ p, Item.slot p ∈ items → ∀ id ∈ p.contexts, id < count

theorem Fits.mono {count count' : Nat} {items : List Item} (h : Fits count items)
    (hle : count ≤ count') : Fits count' items where
  ne_nil := h.ne_nil
  known := fun p hp id hid => (h.known p hp id hid).trans_le hle

/-- A tree that stores patterns only, each as its spelling. -/
structure Node.Stocked (count : Nat) (n : Node) : Prop where
  ordered : n.Ordered
  stored : ∀ q ∈ n.paths, ∃ items, Fits count items ∧ q = spelling items

namespace Node.Stocked
variable {count count' : Nat} {n : Node} {items : List Item}

theorem mono (h : n.Stocked count) (hle : count ≤ count') : n.Stocked count' where
  ordered := h.ordered
  stored := by
    intro q hq
    obtain ⟨items, hfits, rfl⟩ := h.stored q hq
    exact ⟨items, hfits.mono hle, rfl⟩

theorem boundary (h : n.Stocked count) : n.Boundary where
  ordered := h.ordered
  spelled := by
    intro q hq
    obtain ⟨items, -, rfl⟩ := h.stored q hq
    exact ⟨items, rfl⟩

theorem fits (h : n.Stocked count) (hheld : n.Holds items) : Fits count items := by
  obtain ⟨items', hfits, heq⟩ := h.stored _ hheld
  rwa [spelling_injective heq]

theorem fresh (number : Nat) : (fresh number).Stocked count where
  ordered := ordered_fresh number
  stored := by simp [Node.fresh, paths, edgePaths, slotPaths]

theorem insert (h : n.Stocked count) (hfits : Fits count items) (next : Nat) :
    (insert (spelling items) next n).1.Stocked count where
  ordered := h.ordered.insert
  stored := by
    intro q hq
    rcases (mem_paths_insert h.ordered).1 hq with rfl | hq
    · exact ⟨items, hfits, rfl⟩
    · exact h.stored q hq

end Node.Stocked

namespace Step

inductive Chooses : Step → Item → Prop
  | word (w : Word) : Chooses (.word w) (.word w)
  | place {ps : List Placeholder} {p : Placeholder} (h : p ∈ ps) : Chooses (.places ps) (.slot p)

theorem mem_choices_iff {s : Step} {q : List Label} :
    q ∈ s.choices ↔ ∃ x, s.Chooses x ∧ q = x.labels := by
  cases s with
  | word w =>
    rw [choices, List.mem_singleton]
    constructor
    · exact fun h => ⟨.word w, .word w, h⟩
    · intro hm
      obtain ⟨x, hx, rfl⟩ := hm
      cases hx
      rfl
  | places ps =>
    rw [choices, List.mem_map]
    constructor
    · intro hm
      obtain ⟨p, hp, rfl⟩ := hm
      exact ⟨.slot p, .place hp, rfl⟩
    · intro hm
      obtain ⟨x, hx, rfl⟩ := hm
      cases hx with
      | place hp => exact ⟨_, hp, rfl⟩

/-- The paths of a pattern spell its expansions, one alias chosen in every lookup. -/
theorem mem_paths_iff {steps : List Step} {q : List Label} :
    q ∈ paths steps ↔ ∃ items, List.Forall₂ Chooses steps items ∧ q = spelling items := by
  induction steps generalizing q with
  | nil =>
    rw [paths, List.mem_singleton]
    constructor
    · intro heq
      subst heq
      exact ⟨[], .nil, rfl⟩
    · intro hm
      obtain ⟨items, hitems, rfl⟩ := hm
      cases hitems
      rfl
  | cons s rest ih =>
    rw [paths, List.mem_flatMap]
    constructor
    · intro hm
      obtain ⟨head, hhead, hq⟩ := hm
      obtain ⟨x, hx, rfl⟩ := mem_choices_iff.1 hhead
      obtain ⟨path, hpath, rfl⟩ := List.mem_map.1 hq
      obtain ⟨items, hitems, rfl⟩ := ih.1 hpath
      exact ⟨x :: items, .cons hx hitems, rfl⟩
    · intro hm
      obtain ⟨items, hitems, rfl⟩ := hm
      cases hitems with
      | cons hx hitems =>
        exact ⟨_, mem_choices_iff.2 ⟨_, hx, rfl⟩, List.mem_map.2 ⟨_, ih.2 ⟨_, hitems, rfl⟩, rfl⟩⟩

def Known (count : Nat) : Step → Prop
  | .word _ => True
  | .places ps => ∀ p ∈ ps, ∀ id ∈ p.contexts, id < count

theorem fits_of_choice {count : Nat} {steps : List Step} {items : List Item}
    (hne : steps ≠ []) (hknown : ∀ s ∈ steps, s.Known count)
    (h : List.Forall₂ Chooses steps items) : Fits count items where
  ne_nil := by
    intro heq
    subst heq
    cases h
    exact hne rfl
  known := by
    intro p hp id hid
    clear hne
    induction h with
    | nil => cases hp
    | @cons s x steps items hx _ ih =>
      rcases List.mem_cons.1 hp with rfl | hp
      · cases hx with
        | place hmem => exact hknown _ List.mem_cons_self p hmem id hid
      · exact ih (fun s hs => hknown s (List.mem_cons_of_mem _ hs)) hp

end Step

namespace Dictionary
variable {d d' : Dictionary} {name : String} {id : ScopeId} {steps : List Step}

section Resolving
variable {scopeOf : String → Option ScopeId} {count : Nat}

theorem resolveContexts_known (hscope : ∀ c id, scopeOf c = some id → id < count)
    {contexts : List String} {ids : List ScopeId}
    (h : resolveContexts scopeOf name contexts = .ok ids) : ∀ id ∈ ids, id < count := by
  induction contexts generalizing ids with
  | nil =>
    cases h
    simp
  | cons c cs ih =>
    rw [resolveContexts] at h
    split at h
    · cases h
    · rename_i id hid
      obtain ⟨ids, hids, h⟩ := bind_eq_ok_iff.1 h
      cases h
      intro x hx
      rcases List.mem_cons.1 hx with rfl | hx
      · exact hscope c _ hid
      · exact ih hids x hx

theorem resolveAliases_known (hscope : ∀ c id, scopeOf c = some id → id < count)
    {aliases : List (String × List String)} {ps : List Placeholder}
    (h : resolveAliases scopeOf aliases = .ok ps) : (Step.places ps).Known count := by
  induction aliases generalizing ps with
  | nil =>
    cases h
    simp [Step.Known]
  | cons a rest ih =>
    obtain ⟨ids, hids, h⟩ := bind_eq_ok_iff.1 h
    obtain ⟨ps, hps, h⟩ := bind_eq_ok_iff.1 h
    cases h
    intro p hp
    rcases List.mem_cons.1 hp with rfl | hp
    · exact resolveContexts_known hscope hids
    · exact ih hps p hp

theorem resolveElements_known (hscope : ∀ c id, scopeOf c = some id → id < count)
    {elements : List Element} (h : resolveElements scopeOf elements = .ok steps) :
    ∀ s ∈ steps, s.Known count := by
  induction elements generalizing steps with
  | nil =>
    cases h
    simp
  | cons e rest ih =>
    cases e with
    | word w =>
      obtain ⟨steps, hsteps, h⟩ := bind_eq_ok_iff.1 h
      cases h
      intro s hs
      rcases List.mem_cons.1 hs with rfl | hs
      · trivial
      · exact ih hsteps s hs
    | lookup l =>
      obtain ⟨ps, hps, h⟩ := bind_eq_ok_iff.1 h
      obtain ⟨steps, hsteps, h⟩ := bind_eq_ok_iff.1 h
      cases h
      intro s hs
      rcases List.mem_cons.1 hs with rfl | hs
      · exact resolveAliases_known hscope hps
      · exact ih hsteps s hs

theorem resolvePatterns_known (hscope : ∀ c id, scopeOf c = some id → id < count)
    {patterns : List Pattern} {all : List (List Step)}
    (h : resolvePatterns scopeOf patterns = .ok all) :
    ∀ steps ∈ all, ∀ s ∈ steps, s.Known count := by
  induction patterns generalizing all with
  | nil =>
    cases h
    simp
  | cons p rest ih =>
    obtain ⟨steps, hsteps, h⟩ := bind_eq_ok_iff.1 h
    obtain ⟨all, hall, h⟩ := bind_eq_ok_iff.1 h
    cases h
    intro x hx
    rcases List.mem_cons.1 hx with rfl | hx
    · exact resolveElements_known hscope hsteps
    · exact ih hall x hx

end Resolving

section Met
variable {form : Pattern.Form} {forms : List Pattern.Form}

theorem find_eq_ok_iff : d.find name = .ok id ↔ d.resolve? name = some id := by
  rw [find]
  cases d.resolve? name <;> simp

theorem declare_eq_ok_iff : d.declare name = .ok d' ↔ name ∉ d.names ∧
    d' = { scopes := d.scopes ++ [⟨name, .fresh d.nodeCount⟩], nodeCount := d.nodeCount + 1 } := by
  rw [declare]
  split_ifs with h <;> simp [h, @eq_comm _ d']

theorem exists_declare_iff : (∃ d', d.declare name = .ok d') ↔ name ∉ d.names := by
  simp [declare_eq_ok_iff]

theorem add_eq_ok_iff : d.add id form = .ok d' ↔ ∃ p steps, form.read = .ok p ∧
    resolveElements d.resolve? p.elements = .ok steps ∧ d' = store id d steps := by
  rw [add]
  cases form.read with
  | error e => simp
  | ok p => simp [bind_eq_ok_iff, @eq_comm _ d']

theorem define_eq_ok_iff : d.define name forms = .ok d' ↔ ∃ patterns all declared,
    readForms forms = .ok patterns ∧ resolvePatterns (d.resolvePending name) patterns = .ok all ∧
      d.declare name = .ok declared ∧ d' = all.foldl (store d.scopes.length) declared := by
  rw [define]
  split_ifs with hname
  · simp [declare_eq_ok_iff, hname]
  · cases readForms forms with
    | error e => simp
    | ok patterns => simp [bind_eq_ok_iff, @eq_comm _ d']

theorem remove_ne_ok : d.remove id form ≠ .ok d' := by
  rw [remove]
  split <;> exact nofun

end Met

/-- What every dictionary built by calls keeps. -/
structure Sound (d : Dictionary) : Prop where
  names_nodup : d.names.Nodup
  stocked : ∀ s ∈ d.scopes, s.root.Stocked d.scopes.length

theorem sound_empty : ({} : Dictionary).Sound := ⟨.nil, by simp⟩

theorem lt_of_root? {root : Node} (hroot : d.root? id = some root) : id < d.scopes.length := by
  obtain ⟨scope, hscope, -⟩ := Option.map_eq_some_iff.1 hroot
  obtain ⟨hlt, -⟩ := List.getElem?_eq_some_iff.1 hscope
  exact hlt

theorem exists_root?_of_lt (hlt : id < d.scopes.length) : ∃ root, d.root? id = some root :=
  ⟨d.scopes[id].root, by rw [root?, List.getElem?_eq_getElem hlt, Option.map_some]⟩

theorem resolve?_lt (h : d.resolve? name = some id) : id < d.scopes.length := by
  obtain ⟨hid, -⟩ := List.findIdx?_eq_some_iff_getElem.1 h
  exact hid

theorem resolvePending_lt {context : String} (h : d.resolvePending name context = some id) :
    id < d.scopes.length + 1 := by
  rw [resolvePending] at h
  cases hc : d.resolve? context with
  | some i =>
    rw [hc] at h
    cases h
    exact Nat.lt_succ_of_lt (resolve?_lt hc)
  | none =>
    rw [hc] at h
    change (if context = name then some d.scopes.length else none) = some id at h
    split_ifs at h
    cases h
    exact Nat.lt_succ_self _

theorem length_names (d : Dictionary) : d.names.length = d.scopes.length := List.length_map _

theorem names_storePath (id : ScopeId) (d : Dictionary) (path : List Label) :
    (storePath id d path).names = d.names := by
  rw [storePath]
  split
  · rfl
  · rename_i scope hscope
    apply List.ext_getElem?
    intro i
    by_cases hi : id = i
    · subst hi
      obtain ⟨hlt, rfl⟩ := List.getElem?_eq_some_iff.1 hscope
      simp [names, hlt]
    · simp [names, List.getElem?_set_ne hi]

theorem length_storePath (id : ScopeId) (d : Dictionary) (path : List Label) :
    (storePath id d path).scopes.length = d.scopes.length := by
  rw [← length_names, ← length_names, names_storePath]

theorem names_store (id : ScopeId) (d : Dictionary) (steps : List Step) :
    (store id d steps).names = d.names := by
  rw [store]
  split
  · rfl
  · generalize Step.paths steps = paths
    induction paths generalizing d with
    | nil => rfl
    | cons path rest ih => exact (ih _).trans (names_storePath id d path)

theorem length_store (id : ScopeId) (d : Dictionary) (steps : List Step) :
    (store id d steps).scopes.length = d.scopes.length := by
  rw [← length_names, ← length_names, names_store]

namespace Sound

theorem storePath (h : d.Sound) {items : List Item} (hfits : Fits d.scopes.length items) :
    (storePath id d (spelling items)).Sound := by
  refine ⟨names_storePath id d _ ▸ h.names_nodup, ?_⟩
  rw [length_storePath, Dictionary.storePath]
  split
  · exact h.stocked
  · rename_i scope hscope
    intro s hs
    rcases List.mem_or_eq_of_mem_set hs with hs | rfl
    · exact h.stocked s hs
    · exact (h.stocked scope (List.mem_of_getElem? hscope)).insert hfits d.nodeCount

theorem foldl_storePath (h : d.Sound) {paths : List (List Label)}
    (hpaths : ∀ path ∈ paths, ∃ items, Fits d.scopes.length items ∧ path = spelling items) :
    (paths.foldl (Dictionary.storePath id) d).Sound := by
  induction paths generalizing d with
  | nil => exact h
  | cons path rest ih =>
    obtain ⟨items, hfits, rfl⟩ := hpaths path List.mem_cons_self
    apply ih (h.storePath hfits)
    intro q hq
    rw [length_storePath]
    exact hpaths q (List.mem_cons_of_mem _ hq)

theorem store (h : d.Sound) (hsteps : ∀ s ∈ steps, s.Known d.scopes.length) :
    (store id d steps).Sound := by
  rw [Dictionary.store]
  split
  · exact h
  · rename_i hne
    apply h.foldl_storePath
    intro path hpath
    obtain ⟨items, hchoice, rfl⟩ := Step.mem_paths_iff.1 hpath
    exact ⟨items, Step.fits_of_choice (by simpa using hne) hsteps hchoice, rfl⟩

theorem foldl_store (h : d.Sound) {all : List (List Step)}
    (hall : ∀ steps ∈ all, ∀ s ∈ steps, s.Known d.scopes.length) :
    (all.foldl (Dictionary.store id) d).Sound := by
  induction all generalizing d with
  | nil => exact h
  | cons steps rest ih =>
    apply ih (h.store (hall steps List.mem_cons_self))
    intro x hx
    rw [length_store]
    exact hall x (List.mem_cons_of_mem _ hx)

theorem declare (h : d.Sound) (hd : d.declare name = .ok d') :
    d'.Sound ∧ d'.scopes.length = d.scopes.length + 1 := by
  obtain ⟨hnew, rfl⟩ := declare_eq_ok_iff.1 hd
  refine ⟨⟨?_, ?_⟩, List.length_append⟩
  · rw [names, List.map_append, List.map_singleton, List.nodup_append]
    refine ⟨h.names_nodup, by simp, ?_⟩
    intro a ha b hb hab
    rw [hab, List.mem_singleton.1 hb] at ha
    exact hnew ha
  · intro s hs
    rcases List.mem_append.1 hs with hs | hs
    · exact (h.stocked s hs).mono (by simp)
    · rw [List.mem_singleton.1 hs]
      exact .fresh d.nodeCount

theorem add (h : d.Sound) {form : Pattern.Form} (hd : d.add id form = .ok d') : d'.Sound := by
  obtain ⟨p, steps, -, hsteps, rfl⟩ := add_eq_ok_iff.1 hd
  exact h.store (resolveElements_known (fun _ _ => resolve?_lt) hsteps)

theorem define (h : d.Sound) {forms : List Pattern.Form} (hd : d.define name forms = .ok d') :
    d'.Sound := by
  obtain ⟨patterns, all, declared, -, hall, hdeclared, rfl⟩ := define_eq_ok_iff.1 hd
  obtain ⟨hsound, hlength⟩ := h.declare hdeclared
  refine hsound.foldl_store (resolvePatterns_known ?_ hall)
  intro c id hid
  rw [hlength]
  exact resolvePending_lt hid

theorem apply (h : d.Sound) (c : Call) : (c.apply d).Sound := by
  rw [Call.apply]
  split
  · rename_i d' hd
    cases c with
    | declare name => exact (h.declare hd).1
    | define name forms => exact h.define hd
    | add name form =>
      obtain ⟨id, -, hd⟩ := bind_eq_ok_iff.1 hd
      exact h.add hd
    | remove name form =>
      obtain ⟨id, -, hd⟩ := bind_eq_ok_iff.1 hd
      exact absurd hd remove_ne_ok
  · exact h

end Sound

theorem sound_ofCalls (calls : List Call) : (ofCalls calls).Sound := by
  have hrun : ∀ d : Dictionary, d.Sound → (calls.foldl Call.apply d).Sound := by
    induction calls with
    | nil => exact fun d h => h
    | cons c rest ih => exact fun d h => ih _ (h.apply c)
  exact hrun {} sound_empty

end Dictionary
end Phrasebook
