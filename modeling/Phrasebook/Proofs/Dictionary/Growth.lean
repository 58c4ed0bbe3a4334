import Phrasebook.Proofs.Dictionary.Stored
import Phrasebook.Proofs.Trie.Numbering

/-!
How a dictionary grows. A call that is not refused registers a scope or stores paths in one, or both,
so what these two steps keep every dictionary has. Names keep the numbers they were given, scopes in
which nothing is stored keep their trees, and the positions are numbered in the order of their making.
-/

namespace Phrasebook

namespace Dictionary
variable {d d₁ d' : Dictionary} {name : String} {i id : ScopeId} {root : Node}
  {path : List Label} {paths : List (List Label)}

theorem storePath_eq (h : d.scopes[id]? = some ⟨name, root⟩) : storePath id d path =
    { scopes := d.scopes.set id ⟨name, (Node.insert path d.nodeCount root).1⟩
      nodeCount := (Node.insert path d.nodeCount root).2 } := by
  simp only [storePath, h]

theorem storePath_of_none (h : d.scopes[id]? = none) : storePath id d path = d := by
  simp only [storePath, h]

theorem root?_eq_some_iff :
    d.root? id = some root ↔ ∃ name, d.scopes[id]? = some ⟨name, root⟩ := by
  rw [root?, Option.map_eq_some_iff]
  constructor
  · intro h
    obtain ⟨s, hs, rfl⟩ := h
    exact ⟨s.name, hs⟩
  · intro h
    obtain ⟨name, hs⟩ := h
    exact ⟨_, hs, rfl⟩

theorem root?_storePath_ne (h : i ≠ id) : (storePath id d path).root? i = d.root? i := by
  cases hs : d.scopes[id]? with
  | none => rw [storePath_of_none hs]
  | some s => rw [storePath_eq hs, root?, root?, List.getElem?_set_ne h.symm]

theorem root?_foldl_storePath_ne (h : i ≠ id) :
    (paths.foldl (storePath id) d).root? i = d.root? i := by
  induction paths generalizing d with
  | nil => rfl
  | cons path paths ih => rw [List.foldl_cons, ih, root?_storePath_ne h]

theorem root?_storePath (h : d.root? id = some root) :
    (storePath id d path).root? id = some (Node.insert path d.nodeCount root).1 ∧
      (storePath id d path).nodeCount = (Node.insert path d.nodeCount root).2 := by
  obtain ⟨name, hs⟩ := root?_eq_some_iff.1 h
  obtain ⟨hlt, -⟩ := List.getElem?_eq_some_iff.1 hs
  rw [storePath_eq hs]
  exact ⟨by simp [root?, hlt], rfl⟩

theorem root?_foldl_storePath (h : d.root? id = some root) :
    (paths.foldl (storePath id) d).root? id = some (Node.insertAll paths d.nodeCount root).1 := by
  induction paths generalizing d root with
  | nil => exact h
  | cons path paths ih =>
    obtain ⟨hroot, hcount⟩ := @root?_storePath d id root path h
    rw [List.foldl_cons, ih hroot, hcount, Node.insertAll_cons]

theorem resolve?_eq (d : Dictionary) (name : String) :
    d.resolve? name = d.names.findIdx? fun n => n = name := by
  rw [resolve?, names, List.findIdx?_map]
  rfl

theorem resolve?_of_names (h : d'.names = d.names) : d'.resolve? = d.resolve? := by
  funext name
  rw [resolve?_eq, resolve?_eq, h]

theorem resolve?_store (id : ScopeId) (d : Dictionary) (steps : List Step) :
    (store id d steps).resolve? = d.resolve? :=
  resolve?_of_names (names_store id d steps)

theorem name?_of_resolve? (h : d.resolve? name = some id) : d.name? id = some name := by
  rw [resolve?_eq] at h
  obtain ⟨hlt, hname, -⟩ := List.findIdx?_eq_some_iff_getElem.1 h
  rw [name?_eq, List.getElem?_eq_getElem hlt]
  exact congrArg some (by simpa using hname)

theorem resolve?_inj {name' : String} (h : d.resolve? name = some id)
    (h' : d.resolve? name' = some id) : name = name' :=
  Option.some.inj ((name?_of_resolve? h).symm.trans (name?_of_resolve? h'))

theorem resolve?_eq_some_iff (h : d.names.Nodup) :
    d.resolve? name = some id ↔ d.name? id = some name := by
  constructor
  · exact name?_of_resolve?
  · intro hname
    rw [name?_eq] at hname
    obtain ⟨hlt, hget⟩ := List.getElem?_eq_some_iff.1 hname
    rw [resolve?_eq, List.findIdx?_eq_some_iff_getElem]
    refine ⟨hlt, by simpa using hget, fun j hj => ?_⟩
    have hne : d.names[j] ≠ d.names[id] := fun heq => Nat.ne_of_lt hj (h.getElem_inj_iff.1 heq)
    rw [hget] at hne
    simpa using hne

theorem Sound.resolve?_eq_some_iff (h : d.Sound) :
    d.resolve? name = some id ↔ d.name? id = some name :=
  Dictionary.resolve?_eq_some_iff h.names_nodup

theorem isSome_resolve?_iff : (d.resolve? name).isSome = true ↔ name ∈ d.names := by
  rw [resolve?_eq, List.findIdx?_isSome]
  simp

theorem mem_names_iff : name ∈ d.names ↔ ∃ id, d.resolve? name = some id := by
  rw [← isSome_resolve?_iff, Option.isSome_iff_exists]

theorem resolve?_declare (hd : d.declare name = .ok d') : d'.resolve? = d.resolvePending name := by
  obtain ⟨-, rfl⟩ := declare_eq_ok_iff.1 hd
  funext context
  have hlength : d.names.length = d.scopes.length := length_names d
  simp only [resolvePending, resolve?_eq, names, List.map_append, List.map_singleton,
    List.findIdx?_append, List.findIdx?_singleton, List.length_map]
  by_cases hc : name = context
  · simp [hc]
  · simp [hc, Ne.symm hc]

theorem names_declare (hd : d.declare name = .ok d') :
    name ∉ d.names ∧ d'.names = d.names ++ [name] := by
  obtain ⟨hnew, rfl⟩ := declare_eq_ok_iff.1 hd
  exact ⟨hnew, by simp [names]⟩

theorem resolve?_declare_self (hd : d.declare name = .ok d') :
    d'.resolve? name = some d.scopes.length := by
  have hnone : d.resolve? name = none := by
    by_contra hsome
    exact (names_declare hd).1 (mem_names_iff.2 (Option.ne_none_iff_exists'.1 hsome))
  simp [resolve?_declare hd, resolvePending, hnone]

theorem root?_declare_lt (hd : d.declare name = .ok d') (hlt : id < d.scopes.length) :
    d'.root? id = d.root? id := by
  obtain ⟨-, rfl⟩ := declare_eq_ok_iff.1 hd
  rw [root?, root?, List.getElem?_append_left hlt]

theorem root?_declare_self (hd : d.declare name = .ok d') :
    d'.root? d.scopes.length = some (.fresh d.nodeCount) := by
  obtain ⟨-, rfl⟩ := declare_eq_ok_iff.1 hd
  rw [root?, List.getElem?_concat_length]
  rfl

inductive Growth (d : Dictionary) : Dictionary → Prop
  | refl : Growth d d
  | declare {d₁ d₂ : Dictionary} {name : String} (before : Growth d d₁)
      (declared : d₁.declare name = .ok d₂) : Growth d d₂
  | storePath {d₁ : Dictionary} {id : ScopeId} {path : List Label} (before : Growth d d₁) :
      Growth d (d₁.storePath id path)

namespace Growth

theorem trans (h₁ : d.Growth d₁) (h₂ : d₁.Growth d') : d.Growth d' := by
  induction h₂ with
  | refl => exact h₁
  | declare _ declared ih => exact .declare ih declared
  | storePath _ ih => exact .storePath ih

theorem store (id : ScopeId) (d : Dictionary) (steps : List Step) :
    d.Growth (d.store id steps) := by
  have hpaths : ∀ (paths : List (List Label)) (d : Dictionary),
      d.Growth (paths.foldl (Dictionary.storePath id) d) := by
    intro paths
    induction paths with
    | nil => exact fun d => .refl
    | cons path paths ih => exact fun d => trans (.storePath .refl) (ih _)
  rw [Dictionary.store]
  split
  · exact .refl
  · exact hpaths _ d

theorem foldl_store (id : ScopeId) (all : List (List Step)) (d : Dictionary) :
    d.Growth (all.foldl (Dictionary.store id) d) := by
  induction all generalizing d with
  | nil => exact .refl
  | cons steps rest ih => exact (store id d steps).trans (ih _)

theorem answer {c : Call} (hd : c.answer d = .ok d') : d.Growth d' := by
  cases c with
  | declare name => exact .declare .refl hd
  | define name forms =>
    obtain ⟨_, all, declared, -, -, hdeclared, rfl⟩ := define_eq_ok_iff.1 hd
    exact (Growth.declare .refl hdeclared).trans (foldl_store _ _ _)
  | add name form =>
    obtain ⟨id, -, hd⟩ := bind_eq_ok_iff.1 hd
    obtain ⟨_, steps, -, -, rfl⟩ := add_eq_ok_iff.1 hd
    exact store id d steps
  | remove name form =>
    obtain ⟨id, -, hd⟩ := bind_eq_ok_iff.1 hd
    exact absurd hd remove_ne_ok

theorem apply (c : Call) (d : Dictionary) : d.Growth (c.apply d) := by
  rw [Call.apply]
  split
  · rename_i d' hd
    exact answer hd
  · exact .refl

theorem run (calls : List Call) (d : Dictionary) : d.Growth (calls.foldl Call.apply d) := by
  induction calls generalizing d with
  | nil => exact .refl
  | cons c rest ih => exact (apply c d).trans (ih _)

theorem ofCalls (calls : List Call) : ({} : Dictionary).Growth (ofCalls calls) := run calls {}

theorem ofCalls_append (calls more : List Call) :
    (Dictionary.ofCalls calls).Growth (Dictionary.ofCalls (calls ++ more)) := by
  rw [Dictionary.ofCalls, Dictionary.ofCalls, List.foldl_append]
  exact run more _

theorem resolve? (h : d.Growth d') (hid : d.resolve? name = some id) :
    d'.resolve? name = some id := by
  induction h with
  | refl => exact hid
  | declare _ declared ih =>
    rw [resolve?_declare declared, resolvePending, ih]
    rfl
  | storePath _ ih => rwa [resolve?_of_names (names_storePath _ _ _)]

end Growth

/-- The trees are ordered and grown, and all positions together bear the numbers given out so far. -/
structure Numbered (d : Dictionary) : Prop where
  ordered : ∀ s ∈ d.scopes, s.root.Ordered
  grown : ∀ s ∈ d.scopes, s.root.Grown
  numbers : (d.scopes.flatMap fun s => s.root.numbers).Perm (List.range d.nodeCount)

namespace Numbered

theorem empty : ({} : Dictionary).Numbered := ⟨by simp, by simp, .nil⟩

theorem grown_root (h : d.Numbered) {id : ScopeId} {root : Node} (hroot : d.root? id = some root) :
    root.Grown := by
  obtain ⟨s, hs, rfl⟩ := Option.map_eq_some_iff.1 hroot
  exact h.grown s (List.mem_of_getElem? hs)

theorem lt_nodeCount (h : d.Numbered) {s : Scope} (hs : s ∈ d.scopes) {i : Nat}
    (hi : i ∈ s.root.numbers) : i < d.nodeCount := by
  have hmem : i ∈ d.scopes.flatMap fun s => s.root.numbers := List.mem_flatMap.2 ⟨s, hs, hi⟩
  exact List.mem_range.1 (h.numbers.mem_iff.1 hmem)

theorem declare (h : d.Numbered) (hd : d.declare name = .ok d') : d'.Numbered := by
  obtain ⟨-, rfl⟩ := declare_eq_ok_iff.1 hd
  refine ⟨?_, ?_, ?_⟩
  · intro s hs
    rcases List.mem_append.1 hs with hs | hs
    · exact h.ordered s hs
    · rw [List.mem_singleton.1 hs]
      exact Node.ordered_fresh _
  · intro s hs
    rcases List.mem_append.1 hs with hs | hs
    · exact h.grown s hs
    · rw [List.mem_singleton.1 hs]
      exact .fresh _
  · have hfresh : (Node.fresh d.nodeCount).numbers = [d.nodeCount] := rfl
    simp only [List.flatMap_append, List.flatMap_singleton, hfresh, List.range_succ]
    exact h.numbers.append_right _

theorem storePath (h : d.Numbered) (id : ScopeId) (path : List Label) :
    (storePath id d path).Numbered := by
  cases hs : d.scopes[id]? with
  | none =>
    rw [storePath_of_none hs]
    exact h
  | some s =>
    have hmem := List.mem_of_getElem? hs
    have hordered := h.ordered s hmem
    obtain ⟨k, hk, hnumbers⟩ := @Node.numbers_insert s.root path d.nodeCount hordered
    obtain ⟨hlt, hget⟩ := List.getElem?_eq_some_iff.1 hs
    rw [storePath_eq hs]
    refine ⟨?_, ?_, ?_⟩
    · intro s' hs'
      rcases List.mem_or_eq_of_mem_set hs' with hs' | rfl
      · exact h.ordered s' hs'
      · exact hordered.insert
    · intro s' hs'
      rcases List.mem_or_eq_of_mem_set hs' with hs' | rfl
      · exact h.grown s' hs'
      · exact (h.grown s hmem).insert hordered fun i hi => h.lt_nodeCount hmem hi
    · -- Only this scope's numbers change, and they grow by the range behind the count.
      have hsplit : d.scopes = d.scopes.take id ++ s :: d.scopes.drop (id + 1) := by
        rw [← hget, List.getElem_cons_drop, List.take_append_drop]
      have hold := h.numbers
      rw [hsplit, List.flatMap_append, List.flatMap_cons] at hold
      dsimp only
      rw [List.set_eq_take_append_cons_drop, if_pos hlt, List.flatMap_append, List.flatMap_cons, hk,
        List.range_eq_range', ← List.range'_append_1, Nat.zero_add, ← List.range_eq_range']
      refine List.Perm.trans ?_ (hold.append_right _)
      simp only [List.append_assoc]
      refine ((hnumbers.append_right _).append_left _).trans ?_
      simp only [List.append_assoc]
      exact (List.perm_append_comm.append_left _).append_left _

theorem growth (h : d.Numbered) (hgrowth : d.Growth d') : d'.Numbered := by
  induction hgrowth with
  | refl => exact h
  | declare _ declared ih => exact ih.declare declared
  | storePath _ ih => exact ih.storePath _ _

theorem ofCalls (calls : List Call) : (ofCalls calls).Numbered := empty.growth (.ofCalls calls)

end Numbered
end Dictionary
end Phrasebook
