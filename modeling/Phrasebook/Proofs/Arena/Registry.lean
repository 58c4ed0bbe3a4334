import Phrasebook.Proofs.Arena.Inserting
import Phrasebook.Proofs.Dictionary.Editing
import Phrasebook.Proofs.NameMap

/-!
The scopes as they are registered: one arena with the nodes of all of them, the root and the name of
each scope by its number, and the numbers by name. Whatever is asked of the registry, it answers what
the dictionary with the same trees answers, and then the trees in its arena are the dictionary's again.
-/

namespace Phrasebook

structure Registry where
  arena : Arena := {}
  roots : List NodeId := []
  names : List String := []
  index : NameMap ScopeId := .empty

/-- Why the registry stops: it refuses what it is asked for, or it comes upon a number that was never
given out. -/
inductive Halt where
  | refused (e : ScopeError)
  | breach (b : Breach)
  | notIssued (id : ScopeId)

abbrev Enrolling := InPlace Halt Registry

open Dictionary (readForms resolveElements resolvePatterns)

namespace Registry

def resolve? (r : Registry) (name : String) : Option ScopeId := r.index.get? name

def resolvePending (r : Registry) (name : String) (context : String) : Option ScopeId :=
  r.resolve? context <|> if context = name then some r.roots.length else none

def setArena (a : Arena) (r : Registry) : Registry := { r with arena := a }

end Registry

namespace Enrolling

def refusing {α : Type} (r : Except ScopeError α) : Enrolling α := .given (r.mapError .refused)

def laying {α : Type} (work : Laying α) : Enrolling α :=
  .within Registry.arena Registry.setArena .breach work

def root (id : ScopeId) : Enrolling NodeId := do
  match (← get).roots[id]? with
  | some root => pure root
  | none => throw (.notIssued id)

def find (name : String) : Enrolling ScopeId := do
  match (← get).resolve? name with
  | some id => pure id
  | none => throw (.refused (.unknownScope name))

def declare (name : String) : Enrolling ScopeId := do
  if ((← get).resolve? name).isSome then throw (.refused (.scopeExists name))
  else
    let id := (← get).roots.length
    let root ← laying (Arena.alloc (.root id))
    modify fun r => { r with roots := r.roots ++ [root] }
    modify fun r => { r with index := r.index.insert name id }
    modify fun r => { r with names := r.names ++ [name] }
    pure id

def add (id : ScopeId) (form : Pattern.Form) : Enrolling Unit := do
  let pattern ← refusing (form.read.mapError .pattern)
  if pattern.isEmpty then pure ()
  else
    let steps ← refusing (resolveElements (← get).resolve? pattern.elements)
    laying (Arena.insert (← root id) steps)

def remove (form : Pattern.Form) : Enrolling Unit := do
  let _ ← refusing (form.read.mapError .pattern)
  throw (.refused .removalUnsupported)

def define (name : String) (forms : List Pattern.Form) : Enrolling ScopeId := do
  let r ← get
  if (r.resolve? name).isSome then throw (.refused (.scopeExists name))
  else
    let patterns ← refusing ((readForms forms).mapError .pattern)
    let _ ← refusing (resolvePatterns (r.resolvePending name) patterns)
    let id ← declare name
    patterns.forM fun p => add id (.built p)
    pure id

end Enrolling

def Call.enrol : Call → Enrolling Unit
  | .declare name => do let _ ← Enrolling.declare name
  | .define name forms => do let _ ← Enrolling.define name forms
  | .add name form => do Enrolling.add (← Enrolling.find name) form
  | .remove name form => do let _ ← Enrolling.find name; Enrolling.remove form

def Registry.ofCalls (calls : List Call) : Registry :=
  calls.foldl (fun r c => (c.enrol.outcome r).2) {}

namespace Dictionary

variable {d : Dictionary} {i j id : ScopeId} {root n m : Node} {paths : List (List Label)}

theorem nodeCount_foldl_storePath (h : d.root? id = some root) :
    (paths.foldl (storePath id) d).nodeCount = (Node.insertAll paths d.nodeCount root).2 := by
  induction paths generalizing d root with
  | nil => rfl
  | cons path paths ih =>
    obtain ⟨hroot, hcount⟩ := @root?_storePath d id root path h
    rw [List.foldl_cons, ih hroot, hcount, Node.insertAll_cons]

theorem getElem?_map_number (d : Dictionary) (i : ScopeId) :
    (d.scopes.map fun s => s.root.number)[i]? = (d.root? i).map Node.number := by
  rw [root?, List.getElem?_map, Option.map_map]
  rfl

theorem Numbered.disjoint (h : d.Numbered) (hn : d.root? i = some n) (hm : d.root? j = some m)
    (hne : i ≠ j) : n.numbers.Disjoint m.numbers := by
  have hnodup := h.numbers.nodup_iff.2 List.nodup_range
  rw [List.nodup_flatMap] at hnodup
  obtain ⟨-, hpairwise⟩ := hnodup
  obtain ⟨s, hs, rfl⟩ := Option.map_eq_some_iff.1 hn
  obtain ⟨t, ht, rfl⟩ := Option.map_eq_some_iff.1 hm
  obtain ⟨hi, rfl⟩ := List.getElem?_eq_some_iff.1 hs
  obtain ⟨hj, rfl⟩ := List.getElem?_eq_some_iff.1 ht
  rcases Nat.lt_or_gt_of_ne hne with hlt | hlt
  · exact List.pairwise_iff_getElem.1 hpairwise i j hi hj hlt
  · exact List.Disjoint.symm (List.pairwise_iff_getElem.1 hpairwise j i hj hi hlt)

end Dictionary

/-- The trees of the dictionary are those in the arena, and the scopes are known by the same names. -/
structure Registry.Represents (r : Registry) (d : Dictionary) : Prop where
  numbered : d.Numbered
  names : r.names = d.names
  resolve? : r.resolve? = d.resolve?
  roots : r.roots = d.scopes.map fun s => s.root.number
  length : r.arena.nodes.length = d.nodeCount
  carries : ∀ id root, d.root? id = some root → r.arena.Carries (.root id) root

namespace Registry.Represents

open InPlace

variable {r : Registry} {d d' : Dictionary} {id : ScopeId} {root : Node} {name : String}
  {steps : List Step}

theorem empty : ({} : Registry).Represents {} where
  numbered := .empty
  names := rfl
  resolve? := rfl
  roots := rfl
  length := rfl
  carries := by
    intro id root h
    cases h

theorem roots_length (h : r.Represents d) : r.roots.length = d.scopes.length := by
  rw [h.roots, List.length_map]

theorem root_eq (h : r.Represents d) (hroot : d.root? id = some root) :
    r.roots[id]? = some root.number := by
  rw [h.roots, Dictionary.getElem?_map_number, hroot, Option.map_some]

theorem store (h : r.Represents d) (hroot : d.root? id = some root)
    (hfilled : ∀ s ∈ steps, s.Filled) (hne : steps ≠ []) :
    ∃ a, (Arena.insert root.number steps).outcome r.arena = (.ok ⟨⟩, a) ∧
      (r.setArena a).Represents (d.store id steps) := by
  obtain ⟨a, hrun, hreshaped, hlength⟩ :=
    Arena.stores_insert hfilled hne (.root id) r.arena root (h.carries id root hroot)
  have hstore : d.store id steps = (Step.paths steps).foldl (Dictionary.storePath id) d := by
    rw [Dictionary.store, if_neg (by simpa using hne)]
  refine ⟨a, hrun, h.numbered.growth (.store id d steps), ?_, ?_, ?_, ?_, ?_⟩
  · exact h.names.trans (Dictionary.names_store id d steps).symm
  · exact h.resolve?.trans (Dictionary.resolve?_store id d steps).symm
  · refine h.roots.trans (List.ext_getElem? fun i => ?_)
    rw [Dictionary.getElem?_map_number, Dictionary.getElem?_map_number, hstore]
    by_cases hi : i = id
    · subst hi
      rw [Dictionary.root?_foldl_storePath hroot, hroot, ← h.length]
      exact congrArg some hreshaped.number_eq.symm
    · rw [Dictionary.root?_foldl_storePath_ne hi]
  · rw [hstore, Dictionary.nodeCount_foldl_storePath hroot, ← h.length]
    exact hlength
  · intro i n hn
    rw [hstore] at hn
    by_cases hi : i = id
    · subst hi
      rw [Dictionary.root?_foldl_storePath hroot, ← h.length] at hn
      cases hn
      exact hreshaped.carries
    · rw [Dictionary.root?_foldl_storePath_ne hi] at hn
      refine (h.carries i n hn).kept fun k hk => ?_
      exact hreshaped.kept k ((h.carries i n hn).lt hk)
        fun hk' => h.numbered.disjoint hn hroot hi hk hk'

theorem declare (h : r.Represents d) (hd : d.declare name = .ok d') : Registry.Represents
    { arena := ⟨r.arena.nodes ++ [.fresh (.root d.scopes.length)]⟩
      roots := r.roots ++ [d.nodeCount]
      names := r.names ++ [name]
      index := r.index.insert name d.scopes.length } d' := by
  obtain ⟨hnew, hnames⟩ := Dictionary.names_declare hd
  have hnone : d.resolve? name = none := by
    rw [Option.eq_none_iff_forall_ne_some]
    exact fun id hid => hnew (Dictionary.mem_names_iff.2 ⟨id, hid⟩)
  have hnumbered := h.numbered.declare hd
  refine ⟨hnumbered, by rw [hnames, h.names], ?_, ?_, ?_, ?_⟩
  · rw [Dictionary.resolve?_declare hd]
    funext context
    have hold : r.index.get? context = d.resolve? context := congrFun h.resolve? context
    rw [Registry.resolve?, NameMap.get?_insert, hold, Dictionary.resolvePending]
    split_ifs with hc
    · rw [hc, hnone]
      rfl
    · cases d.resolve? context <;> rfl
  · obtain ⟨-, rfl⟩ := Dictionary.declare_eq_ok_iff.1 hd
    rw [h.roots, List.map_append]
    rfl
  · obtain ⟨-, rfl⟩ := Dictionary.declare_eq_ok_iff.1 hd
    rw [List.length_append, h.length, List.length_singleton]
  · intro i n hn
    have hlt := Dictionary.lt_of_root? hn
    rw [← Dictionary.length_names, hnames, List.length_append, Dictionary.length_names,
      List.length_singleton] at hlt
    rcases Nat.lt_or_eq_of_le (Nat.le_of_lt_succ hlt) with hi | rfl
    · rw [Dictionary.root?_declare_lt hd hi] at hn
      refine (h.carries i n hn).kept fun k hk => List.getElem?_append_left ?_
      exact (h.carries i n hn).lt hk
    · rw [Dictionary.root?_declare_self hd] at hn
      cases hn
      refine .fresh ?_
      rw [← h.length]
      exact List.getElem?_concat_length

end Registry.Represents

theorem Dictionary.filled_of_resolveAliases {scopeOf : String → Option ScopeId}
    {aliases : List (String × List String)} {ps : List Placeholder} (hne : aliases ≠ [])
    (h : resolveAliases scopeOf aliases = .ok ps) : ps ≠ [] := by
  cases aliases with
  | nil => exact absurd rfl hne
  | cons b rest =>
    obtain ⟨ids, -, h⟩ := bind_eq_ok_iff.1 h
    obtain ⟨ps, -, h⟩ := bind_eq_ok_iff.1 h
    cases h
    exact List.cons_ne_nil _ _

theorem Dictionary.filled_of_resolveElements {scopeOf : String → Option ScopeId}
    {elements : List Element} {steps : List Step} (hfilled : ∀ e ∈ elements, e.Filled)
    (h : resolveElements scopeOf elements = .ok steps) : ∀ s ∈ steps, s.Filled := by
  induction elements generalizing steps with
  | nil =>
    cases h
    simp
  | cons e rest ih =>
    obtain ⟨he, hrest⟩ := List.forall_mem_cons.1 hfilled
    cases e with
    | word w =>
      obtain ⟨steps, hsteps, h⟩ := bind_eq_ok_iff.1 h
      cases h
      exact List.forall_mem_cons.2 ⟨trivial, ih hrest hsteps⟩
    | lookup l =>
      obtain ⟨ps, hps, h⟩ := bind_eq_ok_iff.1 h
      obtain ⟨steps, hsteps, h⟩ := bind_eq_ok_iff.1 h
      cases h
      exact List.forall_mem_cons.2 ⟨filled_of_resolveAliases he.1 hps, ih hrest hsteps⟩

namespace Enrolling

open InPlace

variable {α β : Type} {r : Registry} {d : Dictionary} {id : ScopeId} {name : String}
  {work : Enrolling α} {work' : Editing α} {next : α → Enrolling β} {next' : α → Editing β}

/-- The work on the registry comes to what the work on the dictionary comes to, and the registry still
represents the dictionary, also where the work is given up. -/
def Follows (work : Enrolling α) (work' : Editing α) (r : Registry) (d : Dictionary) : Prop :=
  ∃ r', work.outcome r = ((work'.outcome d).1.mapError .refused, r') ∧
    r'.Represents (work'.outcome d).2

namespace Follows

theorem pure (h : r.Represents d) (a : α) : Follows (pure a) (pure a) r d := ⟨r, rfl, h⟩

theorem refuse (h : r.Represents d) (e : ScopeError) :
    Follows (α := α) (throw (.refused e)) (throw e) r d := ⟨r, rfl, h⟩

theorem given (h : r.Represents d) (x : Except ScopeError α) :
    Follows (refusing x) (.given x) r d := ⟨r, rfl, h⟩

theorem read {next : Registry → Enrolling β} {next' : Dictionary → Editing β}
    (h : Follows (next r) (next' d) r d) : Follows (get >>= next) (get >>= next') r d := h

theorem bind (h : Follows work work' r d)
    (hnext : ∀ a r₁ d₁, work'.outcome d = (.ok a, d₁) → r₁.Represents d₁ →
      Follows (next a) (next' a) r₁ d₁) : Follows (work >>= next) (work' >>= next') r d := by
  obtain ⟨r₁, hrun, hr₁⟩ := h
  rw [Follows, outcome_bind, outcome_bind, hrun]
  rcases hout : work'.outcome d with ⟨x, d₁⟩
  rw [hout] at hr₁
  cases x with
  | ok a => exact hnext a r₁ d₁ hout hr₁
  | error e => exact ⟨r₁, rfl, hr₁⟩

end Follows

theorem follows_find (h : r.Represents d) (name : String) :
    Follows (find name) (Editing.find name) r d := by
  refine .read ?_
  rw [h.resolve?, Dictionary.find]
  cases d.resolve? name with
  | none => exact ⟨r, rfl, h⟩
  | some id => exact ⟨r, rfl, h⟩

theorem isSome_resolve?_iff (h : r.Represents d) :
    (r.resolve? name).isSome = true ↔ name ∈ d.names := by
  rw [h.resolve?, Dictionary.isSome_resolve?_iff]

theorem follows_declare (h : r.Represents d) (name : String) :
    Follows (declare name) (Editing.declare name) r d := by
  rw [Follows, Editing.outcome_declare]
  by_cases hname : name ∈ d.names
  · have hrefused : d.declare name = .error (.scopeExists name) := if_pos hname
    refine ⟨r, ?_, by rw [hrefused]; exact h⟩
    rw [hrefused, declare, outcome_bind_ok outcome_get, if_pos ((isSome_resolve?_iff h).2 hname)]
    rfl
  · obtain ⟨d', hd⟩ := Dictionary.exists_declare_iff.2 hname
    refine ⟨_, ?_, by rw [hd]; exact h.declare hd⟩
    rw [hd, declare, outcome_bind_ok outcome_get, if_neg (mt (isSome_resolve?_iff h).1 hname),
      ← h.length, ← h.roots_length]
    rfl

theorem outcome_root (h : r.Represents d) {root : Node} (hroot : d.root? id = some root) :
    (Enrolling.root id).outcome r = (.ok root.number, r) := by
  rw [Enrolling.root, outcome_bind_ok outcome_get, h.root_eq hroot]
  rfl

theorem follows_add (h : r.Represents d) (hid : id < d.scopes.length) (form : Pattern.Form) :
    Follows (add id form) (Editing.add id form) r d := by
  refine .bind (.given h _) fun p r₁ d₁ hread h => ?_
  cases hform : form.read with
  | error e =>
    rw [hform] at hread
    cases hread
  | ok p' =>
    rw [hform] at hread
    cases hread
    by_cases hempty : p.isEmpty = true
    · rw [if_pos hempty, if_pos hempty]
      exact .pure h ()
    · rw [if_neg hempty, if_neg hempty]
      refine .read ?_
      rw [h.resolve?]
      refine .bind (.given h _) fun steps r₂ d₂ hresolved h => ?_
      obtain ⟨hsteps, rfl⟩ := Prod.mk.inj hresolved
      have hfilled := Dictionary.filled_of_resolveElements (Pattern.filled_of_read hform) hsteps
      have hne : steps ≠ [] := by
        rw [Ne, Dictionary.resolveElements_nil_iff hsteps]
        simpa [Pattern.isEmpty] using hempty
      obtain ⟨root, hroot⟩ := Dictionary.exists_root?_of_lt hid
      obtain ⟨a, hrun, hstored⟩ := h.store hroot hfilled hne
      refine ⟨r₂.setArena a, ?_, ?_⟩
      · rw [outcome_bind_ok (outcome_root h hroot), outcome_forM_modify, laying, outcome_within, hrun]
        rfl
      · rw [outcome_forM_modify]
        rw [Dictionary.store, if_neg (by simpa using hne)] at hstored
        exact hstored

theorem follows_remove (h : r.Represents d) (form : Pattern.Form) :
    Follows (remove form) (Editing.remove form) r d :=
  .bind (.given h _) fun _ _ _ _ h => .refuse h _

theorem follows_forM_add (h : r.Represents d) (hid : id < d.scopes.length) (patterns : List Pattern) :
    Follows (patterns.forM fun p => add id (.built p)) (patterns.forM fun p => Editing.add id (.built p))
      r d := by
  induction patterns generalizing r d with
  | nil => exact .pure h _
  | cons p rest ih =>
    refine .bind (follows_add h hid _) fun _ r₁ d₁ hadd h => ih h ?_
    rw [Editing.outcome_add, whole_eq_ok_iff] at hadd
    obtain ⟨_, steps, -, -, rfl⟩ := Dictionary.add_eq_ok_iff.1 hadd.2
    rwa [Dictionary.length_store]

theorem follows_define (h : r.Represents d) (name : String) (forms : List Pattern.Form) :
    Follows (define name forms) (Editing.define name forms) r d := by
  refine .read ?_
  by_cases hname : name ∈ d.names
  · rw [if_pos hname, if_pos ((isSome_resolve?_iff h).2 hname)]
    exact .refuse h _
  · have hpending : r.resolvePending name = d.resolvePending name := by
      funext context
      rw [Registry.resolvePending, h.resolve?, h.roots_length, Dictionary.resolvePending]
    rw [if_neg hname, if_neg (mt (isSome_resolve?_iff h).1 hname), hpending]
    refine .bind (.given h _) fun patterns r₁ d₁ _ h => .bind (.given h _) fun _ r₂ d₂ _ h => ?_
    refine .bind (follows_declare h name) fun id r₃ d₃ hdeclare h => ?_
    refine .bind (follows_forM_add h ?_ patterns) fun _ r₄ d₄ _ h => .pure h id
    rw [Editing.outcome_declare, whole_eq_ok_iff] at hdeclare
    obtain ⟨rfl, hdeclared⟩ := hdeclare
    exact Dictionary.resolve?_lt (Dictionary.resolve?_declare_self hdeclared)

theorem follows_enrol (h : r.Represents d) (c : Call) : Follows c.enrol c.perform r d := by
  cases c with
  | declare name => exact .bind (follows_declare h name) fun _ _ _ _ h => .pure h ()
  | define name forms => exact .bind (follows_define h name forms) fun _ _ _ _ h => .pure h ()
  | add name form =>
    refine .bind (follows_find h name) fun id r₁ d₁ hfind h => follows_add h ?_ form
    obtain ⟨hfound, rfl⟩ := Prod.mk.inj hfind
    exact Dictionary.resolve?_lt (Dictionary.find_eq_ok_iff.1 hfound)
  | remove name form =>
    exact .bind (follows_find h name) fun _ _ _ _ h => follows_remove h form

end Enrolling

/-- Whatever is asked, the registry answers as the dictionary does, and never comes upon a number that
was not given out. -/
theorem Registry.Represents.enrol {r : Registry} {d : Dictionary} (h : r.Represents d) (c : Call) :
    (c.enrol.outcome r).1 = (((c.answer d).map fun _ => ()).mapError .refused) ∧
      (c.enrol.outcome r).2.Represents (c.apply d) := by
  obtain ⟨r', hrun, hr'⟩ := Enrolling.follows_enrol h c
  rw [Editing.outcome_perform] at hrun hr'
  rw [hrun, Call.apply]
  cases hanswer : c.answer d with
  | ok d' =>
    rw [hanswer] at hr'
    exact ⟨rfl, hr'⟩
  | error e =>
    rw [hanswer] at hr'
    exact ⟨rfl, hr'⟩

theorem Registry.represents_ofCalls (calls : List Call) :
    (ofCalls calls).Represents (Dictionary.ofCalls calls) := by
  have hrun : ∀ r d, Represents r d → Represents (calls.foldl (fun r c => (c.enrol.outcome r).2) r)
      (calls.foldl Call.apply d) := by
    induction calls with
    | nil => exact fun r d h => h
    | cons c rest ih => exact fun r d h => ih _ _ (h.enrol c).2
  exact hrun {} {} .empty

end Phrasebook
