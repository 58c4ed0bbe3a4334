import Phrasebook.Proofs.Dictionary.Contents

/-!
When a pattern can be resolved: exactly if every scope it mentions is known; otherwise the first
mention of one that is not stops it. What a pattern mentions is what its expansions mention, so a
dictionary that shows all expansions of a pattern can resolve it.
-/

namespace Phrasebook

def Element.contexts : Element → List String
  | .word _ => []
  | .lookup l => l.aliases.entries.flatMap (·.2)

def Pattern.contexts (p : Pattern) : List String := p.elements.flatMap Element.contexts

def Element.mentions : Element → List (String × String)
  | .word _ => []
  | .lookup l => l.aliases.entries.flatMap fun b => b.2.map (b.1, ·)

def Pattern.mentions (p : Pattern) : List (String × String) := p.elements.flatMap Element.mentions

theorem Pattern.map_mentions (p : Pattern) : p.mentions.map Prod.snd = p.contexts := by
  rw [mentions, contexts, List.map_flatMap]
  refine List.flatMap_congr fun e _ => ?_
  cases e with
  | word w => rfl
  | lookup l => simp [Element.mentions, Element.contexts, List.map_flatMap, Function.comp_def]

theorem Pattern.forall_mentions_iff {p : Pattern} {known : String → Prop} :
    (∀ m ∈ p.mentions, known m.2) ↔ ∀ c ∈ p.contexts, known c := by
  rw [← p.map_mentions, List.forall_mem_map]

namespace Element
variable {e y : Element} {c : String}

theorem exists_expands (h : e.Filled) : ∃ y, e.Expands y := by
  cases e with
  | word w => exact ⟨_, .word w⟩
  | lookup l =>
    obtain ⟨b, hb⟩ := List.exists_mem_of_ne_nil _ h.1
    exact ⟨_, .lookup hb⟩

theorem mem_contexts_iff : c ∈ e.contexts ↔ ∃ y, e.Expands y ∧ c ∈ y.contexts := by
  constructor
  · intro hc
    cases e with
    | word w => cases hc
    | lookup l =>
      obtain ⟨b, hb, hc⟩ := List.mem_flatMap.1 hc
      exact ⟨_, .lookup hb, List.mem_flatMap.2 ⟨b, List.mem_cons_self, hc⟩⟩
  · intro hm
    obtain ⟨y, hexpands, hc⟩ := hm
    cases hexpands with
    | word w => exact hc
    | lookup hb =>
      obtain ⟨b, hb', hc⟩ := List.mem_flatMap.1 hc
      cases List.mem_singleton.1 hb'
      exact List.mem_flatMap.2 ⟨_, hb, hc⟩

end Element

namespace Pattern
variable {p : Pattern} {c : String}

theorem exists_expands (h : p.Filled) : ∃ q, p.Expands q := by
  obtain ⟨elements⟩ := p
  induction elements with
  | nil => exact ⟨⟨[]⟩, .nil⟩
  | cons e rest ih =>
    obtain ⟨he, hrest⟩ := List.forall_mem_cons.1 h
    obtain ⟨y, hy⟩ := Element.exists_expands he
    obtain ⟨q, hq⟩ := ih hrest
    exact ⟨⟨y :: q.elements⟩, .cons hy hq⟩

theorem mem_contexts_iff (h : p.Filled) :
    c ∈ p.contexts ↔ ∃ q, p.Expands q ∧ c ∈ q.contexts := by
  obtain ⟨elements⟩ := p
  induction elements with
  | nil =>
    refine iff_of_false (by simp [contexts]) ?_
    intro hm
    obtain ⟨⟨shown⟩, hq, hc⟩ := hm
    cases hq
    simp [contexts] at hc
  | cons e rest ih =>
    obtain ⟨he, hrest⟩ := List.forall_mem_cons.1 h
    rw [contexts, List.flatMap_cons, List.mem_append, Element.mem_contexts_iff]
    change _ ∨ c ∈ (⟨rest⟩ : Pattern).contexts ↔ _
    rw [ih hrest]
    constructor
    · intro hm
      rcases hm with ⟨y, hy, hc⟩ | ⟨q, hq, hc⟩
      · obtain ⟨q, hq⟩ := @exists_expands ⟨rest⟩ hrest
        exact ⟨⟨y :: q.elements⟩, .cons hy hq, List.mem_append_left _ hc⟩
      · obtain ⟨y, hy⟩ := Element.exists_expands he
        exact ⟨⟨y :: q.elements⟩, .cons hy hq, List.mem_append_right _ hc⟩
    · intro hm
      obtain ⟨⟨shown⟩, hq, hc⟩ := hm
      cases hq with
      | @cons _ y _ shown hy hq =>
        rcases List.mem_append.1 hc with hc | hc
        · exact .inl ⟨y, hy, hc⟩
        · exact .inr ⟨⟨shown⟩, hq, hc⟩

end Pattern

/-- The one thing that stops it is a mention of a scope without one of the names; it stops at the
first. -/
def StopsAtUnknown {α : Type} (names : List String) (mentions : List (String × String))
    (r : Except ScopeError α) : Prop :=
  ∀ e, r = .error e ↔
    ∃ m, mentions.find? (fun m => m.2 ∉ names) = some m ∧ e = .unknownContext m.1 m.2

namespace StopsAtUnknown
variable {α β : Type} {names : List String} {ms ms' : List (String × String)} {m : String × String}
  {r x : Except ScopeError α} {f : α → Except ScopeError β}

theorem ok (a : α) : StopsAtUnknown names [] (.ok a : Except ScopeError α) := by
  simp [StopsAtUnknown]

theorem known (hm : m.2 ∈ names) (h : StopsAtUnknown names ms r) :
    StopsAtUnknown names (m :: ms) r := by
  intro e
  rw [h e, List.find?_cons_of_neg (by simpa using hm)]

theorem unknown (hm : m.2 ∉ names) :
    StopsAtUnknown names (m :: ms) (.error (.unknownContext m.1 m.2) : Except ScopeError α) := by
  intro e
  rw [List.find?_cons_of_pos (by simpa using hm)]
  simp [eq_comm]

theorem find?_eq_none_iff (h : StopsAtUnknown names ms r) :
    ms.find? (fun m => m.2 ∉ names) = none ↔ ∃ a, r = .ok a := by
  cases r with
  | ok a =>
    refine iff_of_true (Option.eq_none_iff_forall_ne_some.2 fun m hm => ?_) ⟨a, rfl⟩
    cases (h (.unknownContext m.1 m.2)).2 ⟨m, hm, rfl⟩
  | error e =>
    obtain ⟨m, hm, -⟩ := (h e).1 rfl
    refine iff_of_false (by rw [hm]; exact nofun) nofun

theorem bind (hx : StopsAtUnknown names ms x)
    (hf : ∀ a, x = .ok a → StopsAtUnknown names ms' (f a)) :
    StopsAtUnknown names (ms ++ ms') (x >>= f) := by
  intro e
  rw [List.find?_append]
  cases x with
  | ok a =>
    rw [hx.find?_eq_none_iff.2 ⟨a, rfl⟩, Option.none_or]
    exact hf a rfl e
  | error e' =>
    obtain ⟨m, hm, rfl⟩ := (hx e').1 rfl
    rw [hm, Option.some_or]
    simp [Bind.bind, Except.bind, eq_comm]

theorem map (hx : StopsAtUnknown names ms x) (f : α → β) :
    StopsAtUnknown names ms (x >>= fun a => .ok (f a)) := by
  rw [← List.append_nil ms]
  exact hx.bind fun a _ => .ok (f a)

theorem exists_eq_ok_iff (h : StopsAtUnknown names ms r) :
    (∃ a, r = .ok a) ↔ ∀ m ∈ ms, m.2 ∈ names := by
  rw [← h.find?_eq_none_iff, List.find?_eq_none]
  simp

end StopsAtUnknown

namespace Dictionary
variable {d : Dictionary} {name : String} {id : ScopeId}

section Resolving
variable {scopeOf : String → Option ScopeId} {names : List String}

theorem stopsAtUnknown_resolveContexts (hscope : ∀ c, c ∈ names ↔ ∃ id, scopeOf c = some id)
    (name : String) (contexts : List String) :
    StopsAtUnknown names (contexts.map (name, ·)) (resolveContexts scopeOf name contexts) := by
  induction contexts with
  | nil => exact .ok []
  | cons c cs ih =>
    rw [List.map_cons, resolveContexts]
    cases hc : scopeOf c with
    | none => exact .unknown (m := (name, c)) fun hmem => by simp [hscope, hc] at hmem
    | some id => exact .known ((hscope c).2 ⟨id, hc⟩) (ih.map _)

theorem stopsAtUnknown_resolveAliases (hscope : ∀ c, c ∈ names ↔ ∃ id, scopeOf c = some id)
    (aliases : List (String × List String)) :
    StopsAtUnknown names (aliases.flatMap fun b => b.2.map (b.1, ·))
      (resolveAliases scopeOf aliases) := by
  induction aliases with
  | nil => exact .ok []
  | cons b aliases ih =>
    exact (stopsAtUnknown_resolveContexts hscope b.1 b.2).bind fun _ _ => ih.map _

theorem stopsAtUnknown_resolveElements (hscope : ∀ c, c ∈ names ↔ ∃ id, scopeOf c = some id)
    (elements : List Element) :
    StopsAtUnknown names (elements.flatMap Element.mentions) (resolveElements scopeOf elements) := by
  induction elements with
  | nil => exact .ok []
  | cons e elements ih =>
    cases e with
    | word w => exact ih.map _
    | lookup l =>
      exact (stopsAtUnknown_resolveAliases hscope l.aliases.entries).bind fun _ _ => ih.map _

theorem stopsAtUnknown_resolvePatterns (hscope : ∀ c, c ∈ names ↔ ∃ id, scopeOf c = some id)
    (patterns : List Pattern) :
    StopsAtUnknown names (patterns.flatMap Pattern.mentions) (resolvePatterns scopeOf patterns) := by
  induction patterns with
  | nil => exact .ok []
  | cons p patterns ih =>
    exact (stopsAtUnknown_resolveElements hscope p.elements).bind fun _ _ => ih.map _

theorem exists_resolvePatterns_iff (hscope : ∀ c, c ∈ names ↔ ∃ id, scopeOf c = some id)
    {patterns : List Pattern} : (∃ all, resolvePatterns scopeOf patterns = .ok all) ↔
      ∀ p ∈ patterns, ∀ c ∈ p.contexts, c ∈ names := by
  rw [(stopsAtUnknown_resolvePatterns hscope patterns).exists_eq_ok_iff, List.forall_mem_flatMap]
  exact forall₂_congr fun p _ => Pattern.forall_mentions_iff

end Resolving

theorem exists_resolve_iff {p : Pattern} :
    (∃ steps, resolveElements d.resolve? p.elements = .ok steps) ↔ ∀ c ∈ p.contexts, c ∈ d.names :=
  (stopsAtUnknown_resolveElements (fun _ => mem_names_iff) p.elements).exists_eq_ok_iff.trans
    Pattern.forall_mentions_iff

theorem stopsAtUnknown_add {p : Pattern} (hp : p.Filled) (d : Dictionary) (id : ScopeId) :
    StopsAtUnknown d.names p.mentions (d.add id (.built p)) := by
  have hread : (Pattern.Form.built p).read = .ok p := (Pattern.checked_eq_ok_iff p p).2 ⟨hp, rfl⟩
  rw [add, hread]
  exact (stopsAtUnknown_resolveElements (fun _ => mem_names_iff) p.elements).map _

theorem mem_names_of_mem_contexts {x : Item} {c : String} (hc : c ∈ (d.element x).contexts) :
    c ∈ d.names := by
  cases x with
  | word w => cases hc
  | slot p =>
    obtain ⟨b, hb, hc⟩ := List.mem_flatMap.1 hc
    cases List.mem_singleton.1 hb
    obtain ⟨i, -, hname⟩ := List.mem_filterMap.1 hc
    rw [name?_eq] at hname
    exact List.mem_of_getElem? hname

theorem mem_names_of_mem_patterns (hd : d.Sound) {q : Pattern} {c : String}
    (hq : q ∈ d.patterns id) (hc : c ∈ q.contexts) : c ∈ d.names := by
  cases hroot : d.root? id with
  | none => simp [patterns_eq_of_none hroot] at hq
  | some root =>
    obtain ⟨items, -, heq⟩ := (mem_patterns_iff hd hroot).1 hq
    rw [Pattern.contexts, ← heq] at hc
    obtain ⟨e, he, hc⟩ := List.mem_flatMap.1 hc
    obtain ⟨x, -, rfl⟩ := List.mem_map.1 he
    exact mem_names_of_mem_contexts hc

end Dictionary
end Phrasebook
