import Phrasebook.Proofs.Dictionary.Resolving
import Phrasebook.Proofs.InPlace

/-!
Requests are met whole or not at all. A scope that is defined with its patterns is registered first and
filled pattern by pattern, each pattern being resolved again; its patterns were resolved before for a
scope that was still to come. Both ways to resolve agree, so nothing fails once the scope is there.
-/

namespace Phrasebook

abbrev Editing := InPlace ScopeError Dictionary

open Dictionary (storePath readForms resolveElements resolvePatterns)

namespace Editing

def find (name : String) : Editing ScopeId := do .given ((← get).find name)

def declare (name : String) : Editing ScopeId := do
  let d ← get
  if name ∈ d.names then throw (.scopeExists name)
  else
    -- The root has its number before the scope is there.
    modify fun d' => { d' with nodeCount := d'.nodeCount + 1 }
    modify fun d' => { d' with scopes := d'.scopes ++ [⟨name, .fresh d.nodeCount⟩] }
    pure d.scopes.length

def add (id : ScopeId) (form : Pattern.Form) : Editing Unit := do
  let pattern ← .given (form.read.mapError .pattern)
  if pattern.isEmpty then pure ()
  else
    let steps ← .given (resolveElements (← get).resolve? pattern.elements)
    (Step.paths steps).forM fun path => modify (storePath id · path)

def remove (form : Pattern.Form) : Editing Unit := do
  let _ ← .given (form.read.mapError .pattern)
  throw .removalUnsupported

def define (name : String) (forms : List Pattern.Form) : Editing ScopeId := do
  let d ← get
  if name ∈ d.names then throw (.scopeExists name)
  else
    let patterns ← .given ((readForms forms).mapError .pattern)
    -- Only the failure counts here: each pattern is resolved again where it is added.
    let _ ← .given (resolvePatterns (d.resolvePending name) patterns)
    let id ← declare name
    patterns.forM fun p => add id (.built p)
    pure id

end Editing

def Call.perform : Call → Editing Unit
  | .declare name => do let _ ← Editing.declare name
  | .define name forms => do let _ ← Editing.define name forms
  | .add name form => do Editing.add (← Editing.find name) form
  | .remove name form => do let _ ← Editing.find name; Editing.remove form

namespace Editing
open InPlace

variable {d d' : Dictionary} {id : ScopeId} {name : String} {patterns : List Pattern}
  {all : List (List Step)}

theorem outcome_declare (d : Dictionary) (name : String) :
    (declare name).outcome d = whole d.scopes.length d (d.declare name) := by
  simp only [declare, Dictionary.declare, outcome_bind, outcome_get]
  split_ifs with h
  · rfl
  · rfl

theorem outcome_add (d : Dictionary) (id : ScopeId) (form : Pattern.Form) :
    (add id form).outcome d = whole () d (d.add id form) := by
  rw [add, Dictionary.add, outcome_bind, outcome_given]
  cases form.read with
  | error e => rfl
  | ok p =>
    simp only [Except.mapError]
    split_ifs with hempty
    · have hnil : p.elements = [] := by simpa [Pattern.isEmpty] using hempty
      rw [hnil]
      rfl
    · have hne : p.elements ≠ [] := by simpa [Pattern.isEmpty] using hempty
      rw [outcome_bind, outcome_get]
      simp only [outcome_bind, outcome_given]
      cases hsteps : resolveElements d.resolve? p.elements with
      | error e => rfl
      | ok steps =>
        have hsteps_ne : steps.isEmpty = false := by
          rw [← Bool.not_eq_true, List.isEmpty_iff, Dictionary.resolveElements_nil_iff hsteps]
          exact hne
        have hstore : Dictionary.store id d steps = (Step.paths steps).foldl (storePath id) d := by
          rw [Dictionary.store, hsteps_ne, if_neg Bool.false_ne_true]
        change _ = (Except.ok (), Dictionary.store id d steps)
        rw [hstore]
        exact outcome_forM_modify (storePath id) (Step.paths steps) d

theorem outcome_remove (d : Dictionary) (id : ScopeId) (form : Pattern.Form) :
    (remove form).outcome d = whole () d (d.remove id form) := by
  rw [remove, Dictionary.remove, outcome_bind, outcome_given]
  cases form.read with
  | error e => rfl
  | ok p => rfl

theorem outcome_forM_add (hfilled : ∀ p ∈ patterns, p.Filled)
    (hall : resolvePatterns d.resolve? patterns = .ok all) :
    (patterns.forM fun p => add id (.built p)).outcome d =
      (.ok ⟨⟩, all.foldl (Dictionary.store id) d) := by
  induction patterns generalizing d all with
  | nil =>
    cases hall
    rfl
  | cons p rest ih =>
    obtain ⟨hp, hrest⟩ := List.forall_mem_cons.1 hfilled
    obtain ⟨steps, hsteps, hall⟩ := bind_eq_ok_iff.1 hall
    obtain ⟨all, hall', hall⟩ := bind_eq_ok_iff.1 hall
    cases hall
    have hread : (Pattern.Form.built p).read = .ok p := (Pattern.checked_eq_ok_iff p p).2 ⟨hp, rfl⟩
    have hadd : d.add id (.built p) = .ok (Dictionary.store id d steps) :=
      Dictionary.add_eq_ok_iff.2 ⟨p, steps, hread, hsteps, rfl⟩
    change (add id (.built p) >>= fun _ => rest.forM fun p => add id (.built p)).outcome d = _
    rw [outcome_bind, outcome_add, hadd]
    -- Storing registers no scope, so the rest resolves as it did before.
    rw [← Dictionary.resolve?_store id d steps] at hall'
    exact ih hrest hall'

theorem outcome_define (d : Dictionary) (name : String) (forms : List Pattern.Form) :
    (define name forms).outcome d = whole d.scopes.length d (d.define name forms) := by
  simp only [define, Dictionary.define, outcome_bind, outcome_get]
  split_ifs with hname
  · rfl
  · simp only [outcome_bind, outcome_given]
    cases hread : readForms forms with
    | error e => rfl
    | ok patterns =>
      simp only [Except.mapError]
      cases hall : resolvePatterns (d.resolvePending name) patterns with
      | error e => rfl
      | ok all =>
        obtain ⟨declared, hdeclared⟩ := Dictionary.exists_declare_iff.2 hname
        -- What was resolved for the scope to come is what the scope, once it is there, resolves to.
        rw [← Dictionary.resolve?_declare hdeclared] at hall
        have hfilled := (Dictionary.readForms_eq_ok hread).1
        simp only [outcome_declare, hdeclared, whole, outcome_forM_add hfilled hall]
        rfl

theorem outcome_perform (d : Dictionary) (c : Call) : c.perform.outcome d = whole () d (c.answer d) := by
  cases c with
  | declare name =>
    simp only [Call.perform, Call.answer, outcome_bind, outcome_declare]
    cases d.declare name <;> rfl
  | define name forms =>
    simp only [Call.perform, Call.answer, outcome_bind, outcome_define]
    cases d.define name forms <;> rfl
  | add name form =>
    simp only [Call.perform, Call.answer, outcome_bind, find, outcome_get, outcome_given]
    cases d.find name with
    | error e => rfl
    | ok id => exact outcome_add d id form
  | remove name form =>
    simp only [Call.perform, Call.answer, outcome_bind, find, outcome_get, outcome_given]
    cases d.find name with
    | error e => rfl
    | ok id => exact outcome_remove d id form

end Editing

namespace Dictionary
variable {d d' : Dictionary} {id : ScopeId} {name : String} {form : Pattern.Form}
  {forms : List Pattern.Form}

theorem exists_readForms_iff {P : Pattern → Prop} :
    (∃ patterns, readForms forms = .ok patterns ∧ ∀ p ∈ patterns, P p) ↔
      ∀ form ∈ forms, ∃ p, form.read = .ok p ∧ P p := by
  induction forms with
  | nil => simp [readForms]
  | cons form rest ih =>
    rw [List.forall_mem_cons, ← ih]
    constructor
    · intro hm
      obtain ⟨patterns, hread, hall⟩ := hm
      obtain ⟨p, hp, hread⟩ := bind_eq_ok_iff.1 hread
      obtain ⟨ps, hps, hread⟩ := bind_eq_ok_iff.1 hread
      cases hread
      obtain ⟨hfirst, hrest⟩ := List.forall_mem_cons.1 hall
      exact ⟨⟨p, hp, hfirst⟩, ps, hps, hrest⟩
    · intro hm
      obtain ⟨⟨p, hp, hfirst⟩, ps, hps, hrest⟩ := hm
      have hread : readForms (form :: rest) = .ok (p :: ps) :=
        bind_eq_ok_iff.2 ⟨p, hp, bind_eq_ok_iff.2 ⟨ps, hps, rfl⟩⟩
      exact ⟨p :: ps, hread, List.forall_mem_cons.2 ⟨hfirst, hrest⟩⟩

theorem mem_pending_iff {c : String} :
    c ∈ d.names ++ [name] ↔ ∃ id, d.resolvePending name c = some id := by
  rw [resolvePending, List.mem_append, List.mem_singleton, mem_names_iff]
  cases d.resolve? c with
  | none => simp
  | some i => simp

theorem run_adds_eq_ok_iff (hid : d.resolve? name = some id) :
    run (forms.map (.add name)) d = .ok d' ↔ ∃ patterns all, readForms forms = .ok patterns ∧
      resolvePatterns d.resolve? patterns = .ok all ∧ d' = all.foldl (store id) d := by
  induction forms generalizing d with
  | nil => simp [run, readForms, resolvePatterns, pure, Except.pure, eq_comm]
  | cons form rest ih =>
    have hanswer : (Call.add name form).answer d = d.add id form := by
      simp [Call.answer, find, hid, bind, Except.bind]
    rw [List.map_cons, run, List.foldlM_cons, hanswer, bind_eq_ok_iff]
    constructor
    · intro hm
      obtain ⟨d₁, hadd, hrest⟩ := hm
      obtain ⟨p, steps, hread, hsteps, rfl⟩ := add_eq_ok_iff.1 hadd
      rw [← resolve?_store id d steps] at hid
      obtain ⟨ps, all, hreads, hall, rfl⟩ := (ih hid).1 hrest
      rw [resolve?_store] at hall
      exact ⟨p :: ps, steps :: all, bind_eq_ok_iff.2 ⟨p, hread, bind_eq_ok_iff.2 ⟨ps, hreads, rfl⟩⟩,
        bind_eq_ok_iff.2 ⟨steps, hsteps, bind_eq_ok_iff.2 ⟨all, hall, rfl⟩⟩, rfl⟩
    · intro hm
      obtain ⟨_, _, hreads, hall, rfl⟩ := hm
      obtain ⟨p, hread, hreads⟩ := bind_eq_ok_iff.1 hreads
      obtain ⟨ps, hps, hreads⟩ := bind_eq_ok_iff.1 hreads
      cases hreads
      obtain ⟨steps, hsteps, hall⟩ := bind_eq_ok_iff.1 hall
      obtain ⟨all, hrest, hall⟩ := bind_eq_ok_iff.1 hall
      cases hall
      rw [← resolve?_store id d steps] at hid hrest
      exact ⟨_, add_eq_ok_iff.2 ⟨p, steps, hread, hsteps, rfl⟩,
        (ih hid).2 ⟨ps, all, hps, hrest, rfl⟩⟩

theorem define_eq_ok_iff_run : d.define name forms = .ok d' ↔
    run (.declare name :: forms.map (.add name)) d = .ok d' := by
  have hrun : run (.declare name :: forms.map (.add name)) d =
      d.declare name >>= run (forms.map (.add name)) := List.foldlM_cons
  rw [hrun, bind_eq_ok_iff, define_eq_ok_iff]
  constructor
  · intro hm
    obtain ⟨patterns, all, declared, hreads, hall, hdeclared, heq⟩ := hm
    rw [← resolve?_declare hdeclared] at hall
    exact ⟨declared, hdeclared, (run_adds_eq_ok_iff (resolve?_declare_self hdeclared)).2
      ⟨patterns, all, hreads, hall, heq⟩⟩
  · intro hm
    obtain ⟨declared, hdeclared, hadds⟩ := hm
    obtain ⟨patterns, all, hreads, hall, heq⟩ :=
      (run_adds_eq_ok_iff (resolve?_declare_self hdeclared)).1 hadds
    rw [resolve?_declare hdeclared] at hall
    exact ⟨patterns, all, declared, hreads, hall, hdeclared, heq⟩

theorem exists_add_iff : (∃ d', d.add id form = .ok d') ↔
    ∃ p, form.read = .ok p ∧ ∀ c ∈ p.contexts, c ∈ d.names := by
  simp only [← exists_resolve_iff]
  constructor
  · intro hm
    obtain ⟨d', hadd⟩ := hm
    obtain ⟨p, steps, hread, hsteps, -⟩ := add_eq_ok_iff.1 hadd
    exact ⟨p, hread, steps, hsteps⟩
  · intro hm
    obtain ⟨p, hread, steps, hsteps⟩ := hm
    exact ⟨_, add_eq_ok_iff.2 ⟨p, steps, hread, hsteps, rfl⟩⟩

theorem exists_define_iff : (∃ d', d.define name forms = .ok d') ↔ name ∉ d.names ∧
    ∀ form ∈ forms, ∃ p, form.read = .ok p ∧ ∀ c ∈ p.contexts, c ∈ d.names ∨ c = name := by
  simp only [← List.mem_singleton (b := name), ← List.mem_append]
  rw [← exists_readForms_iff, ← exists_declare_iff]
  constructor
  · intro hm
    obtain ⟨d', hdefine⟩ := hm
    obtain ⟨patterns, all, declared, hreads, hall, hdeclared, -⟩ := define_eq_ok_iff.1 hdefine
    exact ⟨⟨declared, hdeclared⟩, patterns, hreads,
      (exists_resolvePatterns_iff fun _ => mem_pending_iff).1 ⟨all, hall⟩⟩
  · intro hm
    obtain ⟨⟨declared, hdeclared⟩, patterns, hreads, hknown⟩ := hm
    obtain ⟨all, hall⟩ := (exists_resolvePatterns_iff fun _ => mem_pending_iff).2 hknown
    exact ⟨_, define_eq_ok_iff.2 ⟨patterns, all, declared, hreads, hall, hdeclared, rfl⟩⟩

/-- When a request is met, what it then comes to, and that otherwise nothing is changed. -/
structure AllOrNothing (d : Dictionary) : Prop where
  define_iff : ∀ name forms, (∃ d', d.define name forms = .ok d') ↔ name ∉ d.names ∧
    ∀ form ∈ forms, ∃ p, form.read = .ok p ∧ ∀ c ∈ p.contexts, c ∈ d.names ∨ c = name
  define_eq : ∀ name forms d', d.define name forms = .ok d' ↔
    run (.declare name :: forms.map (.add name)) d = .ok d'
  add_iff : ∀ id form, (∃ d', d.add id form = .ok d') ↔
    ∃ p, form.read = .ok p ∧ ∀ c ∈ p.contexts, c ∈ d.names
  /-- Made change by change, a request that is refused at any point has changed nothing. -/
  in_place : ∀ c : Call, c.perform.outcome d = InPlace.whole () d (c.answer d)

theorem allOrNothing (d : Dictionary) : d.AllOrNothing where
  define_iff := fun _ _ => exists_define_iff
  define_eq := fun _ _ _ => define_eq_ok_iff_run
  add_iff := fun _ _ => exists_add_iff
  in_place := Editing.outcome_perform d

end Dictionary
end Phrasebook
