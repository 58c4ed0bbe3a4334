import Phrasebook.Proofs.Dictionary.Growth
import Phrasebook.Proofs.Pattern.Reading

/-!
The patterns that a run of calls has stored. A scope holds exactly the choices of the patterns that
were accepted for it: what is stored elsewhere, before or after, takes nothing away and adds nothing.
-/

namespace Phrasebook

namespace Call

def inserts : Call → List (String × Pattern)
  | .declare _ => []
  | .define name forms => forms.filterMap fun form => form.read.toOption.map (name, ·)
  | .add name form => form.read.toOption.toList.map (name, ·)
  | .remove _ _ => []

end Call

namespace Dictionary
variable {d d' : Dictionary} {name : String} {id : ScopeId} {root : Node} {items : List Item}
  {steps : List Step} {p : Pattern} {log : List (String × Pattern)} {calls : List Call}

def run (calls : List Call) (d : Dictionary) : Except ScopeError Dictionary :=
  calls.foldlM Call.answer d

theorem ofCalls_of_run (h : run calls {} = .ok d) : ofCalls calls = d := by
  have hrun : ∀ d₀, run calls d₀ = .ok d → calls.foldl Call.apply d₀ = d := by
    clear h
    induction calls with
    | nil =>
      intro d₀ h
      cases h
      rfl
    | cons c rest ih =>
      intro d₀ h
      rw [run, List.foldlM_cons] at h
      obtain ⟨d₁, h₁, h⟩ := bind_eq_ok_iff.1 h
      have happly : c.apply d₀ = d₁ := by rw [Call.apply, h₁]
      rw [List.foldl_cons, happly]
      exact ih d₁ h
  exact hrun {} h

theorem exists_run (calls : List Call) :
    ∃ accepted, accepted.Sublist calls ∧ run accepted {} = .ok (ofCalls calls) := by
  have hrun : ∀ d : Dictionary, ∃ accepted, accepted.Sublist calls ∧
      run accepted d = .ok (calls.foldl Call.apply d) := by
    induction calls with
    | nil => exact fun d => ⟨[], .slnil, rfl⟩
    | cons c rest ih =>
      intro d
      obtain ⟨accepted, hsub, h⟩ := ih (c.apply d)
      cases hc : c.answer d with
      | ok d₁ =>
        have happly : c.apply d = d₁ := by rw [Call.apply, hc]
        rw [happly] at h
        refine ⟨c :: accepted, hsub.cons_cons c, ?_⟩
        rw [run, List.foldlM_cons, hc, List.foldl_cons, happly]
        exact h
      | error e =>
        have happly : c.apply d = d := by rw [Call.apply, hc]
        rw [happly] at h
        exact ⟨accepted, hsub.cons c, by rw [List.foldl_cons, happly]; exact h⟩
  exact hrun {}

section Resolving
variable {scopeOf scopeOf' : String → Option ScopeId}
  (hmore : ∀ c id, scopeOf c = some id → scopeOf' c = some id)
include hmore

theorem resolveContexts_mono {contexts : List String} {ids : List ScopeId}
    (h : resolveContexts scopeOf name contexts = .ok ids) :
    resolveContexts scopeOf' name contexts = .ok ids := by
  induction contexts generalizing ids with
  | nil => exact h
  | cons c cs ih =>
    rw [resolveContexts] at h ⊢
    cases hc : scopeOf c with
    | none => simp [hc] at h
    | some id =>
      simp only [hc] at h
      obtain ⟨ids, hids, h⟩ := bind_eq_ok_iff.1 h
      simp only [hmore c id hc]
      exact bind_eq_ok_iff.2 ⟨ids, ih hids, h⟩

theorem resolveAliases_mono {aliases : List (String × List String)} {ps : List Placeholder}
    (h : resolveAliases scopeOf aliases = .ok ps) : resolveAliases scopeOf' aliases = .ok ps := by
  induction aliases generalizing ps with
  | nil => exact h
  | cons a rest ih =>
    obtain ⟨ids, hids, h⟩ := bind_eq_ok_iff.1 h
    obtain ⟨ps, hps, h⟩ := bind_eq_ok_iff.1 h
    exact bind_eq_ok_iff.2
      ⟨ids, resolveContexts_mono hmore hids, bind_eq_ok_iff.2 ⟨ps, ih hps, h⟩⟩

theorem resolveElements_mono {elements : List Element}
    (h : resolveElements scopeOf elements = .ok steps) :
    resolveElements scopeOf' elements = .ok steps := by
  induction elements generalizing steps with
  | nil => exact h
  | cons e rest ih =>
    cases e with
    | word w =>
      obtain ⟨steps, hsteps, h⟩ := bind_eq_ok_iff.1 h
      exact bind_eq_ok_iff.2 ⟨steps, ih hsteps, h⟩
    | lookup l =>
      obtain ⟨ps, hps, h⟩ := bind_eq_ok_iff.1 h
      obtain ⟨steps, hsteps, h⟩ := bind_eq_ok_iff.1 h
      exact bind_eq_ok_iff.2
        ⟨ps, resolveAliases_mono hmore hps, bind_eq_ok_iff.2 ⟨steps, ih hsteps, h⟩⟩

end Resolving

theorem resolveElements_nil_iff {scopeOf : String → Option ScopeId} {elements : List Element}
    (h : resolveElements scopeOf elements = .ok steps) : steps = [] ↔ elements = [] := by
  cases elements with
  | nil =>
    cases h
    simp
  | cons e rest =>
    cases e with
    | word w =>
      obtain ⟨steps, -, h⟩ := bind_eq_ok_iff.1 h
      cases h
      simp
    | lookup l =>
      obtain ⟨ps, -, h⟩ := bind_eq_ok_iff.1 h
      obtain ⟨steps, -, h⟩ := bind_eq_ok_iff.1 h
      cases h
      simp

theorem contexts_ne_nil_of_resolveContexts {scopeOf : String → Option ScopeId}
    {contexts : List String} {ids : List ScopeId} (hne : contexts ≠ [])
    (h : resolveContexts scopeOf name contexts = .ok ids) : ids ≠ [] := by
  cases contexts with
  | nil => exact absurd rfl hne
  | cons c cs =>
    rw [resolveContexts] at h
    split at h
    · cases h
    · obtain ⟨ids, -, h⟩ := bind_eq_ok_iff.1 h
      cases h
      exact List.cons_ne_nil _ _

theorem contexts_ne_nil_of_resolveAliases {scopeOf : String → Option ScopeId}
    {aliases : List (String × List String)} {ps : List Placeholder} (hne : ∀ b ∈ aliases, b.2 ≠ [])
    (h : resolveAliases scopeOf aliases = .ok ps) : ∀ p ∈ ps, p.contexts ≠ [] := by
  induction aliases generalizing ps with
  | nil =>
    cases h
    simp
  | cons a rest ih =>
    obtain ⟨ids, hids, h⟩ := bind_eq_ok_iff.1 h
    obtain ⟨ps, hps, h⟩ := bind_eq_ok_iff.1 h
    cases h
    obtain ⟨ha, hrest⟩ := List.forall_mem_cons.1 hne
    exact List.forall_mem_cons.2 ⟨contexts_ne_nil_of_resolveContexts ha hids, ih hrest hps⟩

theorem contexts_ne_nil_of_chooses {scopeOf : String → Option ScopeId} {elements : List Element}
    (hfilled : ∀ e ∈ elements, e.Filled) (h : resolveElements scopeOf elements = .ok steps)
    (hitems : List.Forall₂ Step.Chooses steps items) :
    ∀ p, Item.slot p ∈ items → p.contexts ≠ [] := by
  induction elements generalizing steps items with
  | nil =>
    cases h
    cases hitems
    simp
  | cons e rest ih =>
    obtain ⟨he, hrest⟩ := List.forall_mem_cons.1 hfilled
    intro p hp
    cases e with
    | word w =>
      obtain ⟨steps, hsteps, h⟩ := bind_eq_ok_iff.1 h
      cases h
      cases hitems with
      | cons hx hitems =>
        cases hx
        exact ih hrest hsteps hitems p (by simpa using hp)
    | lookup l =>
      obtain ⟨ps, hps, h⟩ := bind_eq_ok_iff.1 h
      obtain ⟨steps, hsteps, h⟩ := bind_eq_ok_iff.1 h
      cases h
      cases hitems with
      | cons hx hitems =>
        cases hx with
        | place hmem =>
          rcases List.mem_cons.1 hp with heq | hp
          · cases heq
            exact contexts_ne_nil_of_resolveAliases he.2 hps p hmem
          · exact ih hrest hsteps hitems p hp

def Offers (d : Dictionary) (p : Pattern) (items : List Item) : Prop :=
  p.elements ≠ [] ∧ ∃ steps, resolveElements d.resolve? p.elements = .ok steps ∧
    List.Forall₂ Step.Chooses steps items

theorem offers_iff (h : resolveElements d.resolve? p.elements = .ok steps) :
    d.Offers p items ↔ steps ≠ [] ∧ List.Forall₂ Step.Chooses steps items := by
  refine and_congr (not_congr (resolveElements_nil_iff h)).symm
    ⟨?_, fun hitems => ⟨steps, h, hitems⟩⟩
  intro hm
  obtain ⟨steps', hsteps', hitems⟩ := hm
  cases h.symm.trans hsteps'
  exact hitems

theorem offers_congr (h : d'.resolve? = d.resolve?) : d'.Offers p items ↔ d.Offers p items := by
  rw [Offers, Offers, h]

theorem exists_offers_append_iff {name' : String} :
    (∃ q, (name', q) ∈ log ++ [(name, p)] ∧ d.Offers q items) ↔
      (∃ q, (name', q) ∈ log ∧ d.Offers q items) ∨ name' = name ∧ d.Offers p items := by
  simp only [List.mem_append, List.mem_singleton, Prod.mk.injEq]
  constructor
  · intro hm
    obtain ⟨q, hq | ⟨rfl, rfl⟩, hoffers⟩ := hm
    · exact .inl ⟨q, hq, hoffers⟩
    · exact .inr ⟨rfl, hoffers⟩
  · intro hm
    rcases hm with ⟨q, hq, hoffers⟩ | ⟨rfl, hoffers⟩
    · exact ⟨q, .inl hq, hoffers⟩
    · exact ⟨p, .inr ⟨rfl, rfl⟩, hoffers⟩

theorem Growth.offers_iff (hgrowth : d.Growth d')
    (h : resolveElements d.resolve? p.elements = .ok steps) :
    d'.Offers p items ↔ d.Offers p items := by
  rw [Dictionary.offers_iff h,
    Dictionary.offers_iff (resolveElements_mono (fun _ _ => hgrowth.resolve?) h)]

theorem root?_store_ne {i : ScopeId} (h : i ≠ id) : (store id d steps).root? i = d.root? i := by
  rw [store]
  split
  · rfl
  · exact root?_foldl_storePath_ne h

theorem holds_store (h : root.Ordered) (hroot : d.root? id = some root) :
    ∃ root', (store id d steps).root? id = some root' ∧ ∀ items,
      root'.Holds items ↔ root.Holds items ∨ steps ≠ [] ∧ List.Forall₂ Step.Chooses steps items := by
  rw [store]
  split
  · rename_i hnil
    exact ⟨root, hroot, by simp [List.isEmpty_iff.1 hnil]⟩
  · rename_i hne
    have hsteps : steps ≠ [] := by simpa using hne
    refine ⟨_, root?_foldl_storePath hroot, fun items => ?_⟩
    rw [Node.Holds, Node.mem_paths_insertAll h, or_comm, Step.mem_paths_iff]
    refine or_congr_right ⟨?_, fun hm => ⟨items, hm.2, rfl⟩⟩
    intro hm
    obtain ⟨items', hitems', heq⟩ := hm
    rw [spelling_injective heq]
    exact ⟨hsteps, hitems'⟩

/-- The holdings of the scopes are what the log says was stored in them. -/
structure Records (d : Dictionary) (log : List (String × Pattern)) : Prop where
  filled : ∀ e ∈ log, e.2.Filled
  resolved : ∀ e ∈ log, e.1 ∈ d.names ∧ ∃ steps, resolveElements d.resolve? e.2.elements = .ok steps
  held : ∀ name id root, d.resolve? name = some id → d.root? id = some root → ∀ items,
    root.Holds items ↔ ∃ p, (name, p) ∈ log ∧ d.Offers p items

namespace Records

theorem empty : ({} : Dictionary).Records [] where
  filled := by simp
  resolved := by simp
  held := by
    intro name id root hid
    simp [resolve?] at hid

theorem declare (h : d.Records log) (hd : d.declare name = .ok d') : d'.Records log := by
  have hgrowth : d.Growth d' := .declare .refl hd
  obtain ⟨hnew, hnames⟩ := names_declare hd
  refine ⟨h.filled, ?_, ?_⟩
  · intro e he
    obtain ⟨hname, steps, hsteps⟩ := h.resolved e he
    refine ⟨by simp [hnames, hname], steps, resolveElements_mono (fun _ _ => hgrowth.resolve?) hsteps⟩
  · intro name' id root hid hroot items
    have hoffers : (∃ p, (name', p) ∈ log ∧ d'.Offers p items) ↔
        ∃ p, (name', p) ∈ log ∧ d.Offers p items := by
      refine exists_congr fun p => and_congr_right fun hp => ?_
      obtain ⟨-, steps, hsteps⟩ := h.resolved _ hp
      exact hgrowth.offers_iff hsteps
    rw [hoffers]
    cases hold : d.resolve? name' with
    | some i =>
      cases hid.symm.trans (hgrowth.resolve? hold)
      rw [root?_declare_lt hd (resolve?_lt hold)] at hroot
      exact h.held name' id root hold hroot items
    | none =>
      have hnone : ¬ ∃ p, (name', p) ∈ log ∧ d.Offers p items := by
        intro hm
        obtain ⟨p, hp, -⟩ := hm
        obtain ⟨id', hid'⟩ := mem_names_iff.1 (h.resolved _ hp).1
        cases hold.symm.trans hid'
      rw [resolve?_declare hd, resolvePending, hold] at hid
      change (if name' = name then some d.scopes.length else none) = some id at hid
      split_ifs at hid
      cases hid
      rw [root?_declare_self hd] at hroot
      cases hroot
      refine iff_of_false ?_ hnone
      simp [Node.Holds, Node.fresh, Node.paths, Node.edgePaths, Node.slotPaths]

theorem store (h : d.Records log) (hsound : d.Sound) (hid : d.resolve? name = some id)
    (hfilled : p.Filled) (hsteps : resolveElements d.resolve? p.elements = .ok steps) :
    (store id d steps).Records (log ++ [(name, p)]) := by
  have hgrowth := Growth.store id d steps
  have hresolve := resolve?_store id d steps
  refine ⟨?_, ?_, ?_⟩
  · intro e he
    rcases List.mem_append.1 he with he | he
    · exact h.filled e he
    · rw [List.mem_singleton.1 he]
      exact hfilled
  · intro e he
    rw [names_store, hresolve]
    rcases List.mem_append.1 he with he | he
    · exact h.resolved e he
    · rw [List.mem_singleton.1 he]
      exact ⟨mem_names_iff.2 ⟨id, hid⟩, steps, hsteps⟩
  · intro name' i root hi hroot items
    rw [hresolve] at hi
    simp only [offers_congr hresolve]
    rw [exists_offers_append_iff]
    by_cases hname : name' = name
    · subst hname
      cases hi.symm.trans hid
      cases hr : d.root? id with
      | none =>
        have hlt := resolve?_lt hid
        simp [root?, hlt] at hr
      | some root₀ =>
        obtain ⟨root', hroot', hholds⟩ := @holds_store d id root₀ steps (hsound.tree hr).ordered hr
        cases hroot.symm.trans hroot'
        rw [hholds, h.held name' id root₀ hid hr, offers_iff hsteps]
        simp
    · have hne : i ≠ id := by
        intro heq
        subst heq
        exact hname (resolve?_inj hi hid)
      rw [root?_store_ne hne] at hroot
      rw [h.held name' i root hi hroot]
      simp [hname]

theorem foldl_store (h : d.Records log) (hsound : d.Sound) (hid : d.resolve? name = some id)
    {patterns : List Pattern} {all : List (List Step)} (hfilled : ∀ p ∈ patterns, p.Filled)
    (hall : resolvePatterns d.resolve? patterns = .ok all) :
    (all.foldl (Dictionary.store id) d).Records (log ++ patterns.map (name, ·)) := by
  induction patterns generalizing d log all with
  | nil =>
    cases hall
    simpa using h
  | cons p rest ih =>
    obtain ⟨steps, hsteps, hall⟩ := bind_eq_ok_iff.1 hall
    obtain ⟨all, hrest, hall⟩ := bind_eq_ok_iff.1 hall
    cases hall
    have hfirst := h.store hsound hid (hfilled p List.mem_cons_self) hsteps
    have hknown : ∀ s ∈ steps, s.Known d.scopes.length :=
      resolveElements_known (fun _ _ => resolve?_lt) hsteps
    rw [List.map_cons, List.append_cons]
    rw [← resolve?_store id d steps] at hid hrest
    exact ih hfirst (hsound.store hknown) hid (fun p hp => hfilled p (List.mem_cons_of_mem _ hp)) hrest

end Records

theorem readForms_eq_ok {forms : List Pattern.Form} {patterns : List Pattern}
    (h : readForms forms = .ok patterns) :
    (∀ p ∈ patterns, p.Filled) ∧ forms.filterMap (fun form => form.read.toOption) = patterns := by
  induction forms generalizing patterns with
  | nil =>
    cases h
    simp
  | cons form forms ih =>
    obtain ⟨p, hp, h⟩ := bind_eq_ok_iff.1 h
    obtain ⟨ps, hps, h⟩ := bind_eq_ok_iff.1 h
    cases h
    obtain ⟨hfilled, hmap⟩ := ih hps
    have hoption : form.read.toOption = some p := toOption_eq_some_iff.2 hp
    refine ⟨List.forall_mem_cons.2 ⟨Pattern.filled_of_read hp, hfilled⟩, ?_⟩
    rw [List.filterMap_cons, hoption, hmap]

namespace Records

theorem define (h : d.Records log) (hsound : d.Sound) {forms : List Pattern.Form}
    (hd : d.define name forms = .ok d') : d'.Records (log ++ (Call.define name forms).inserts) := by
  obtain ⟨patterns, all, declared, hforms, hall, hdeclared, rfl⟩ := define_eq_ok_iff.1 hd
  obtain ⟨hfilled, hread⟩ := readForms_eq_ok hforms
  have hinserts : (Call.define name forms).inserts = patterns.map (name, ·) := by
    rw [← hread, List.map_filterMap]
    rfl
  rw [← resolve?_declare hdeclared] at hall
  rw [hinserts]
  exact (h.declare hdeclared).foldl_store (hsound.declare hdeclared).1
    (resolve?_declare_self hdeclared) hfilled hall

theorem add (h : d.Records log) (hsound : d.Sound) {form : Pattern.Form}
    (hid : d.resolve? name = some id) (hd : d.add id form = .ok d') :
    d'.Records (log ++ (Call.add name form).inserts) := by
  obtain ⟨p, steps, hp, hsteps, rfl⟩ := add_eq_ok_iff.1 hd
  have hinserts : (Call.add name form).inserts = [(name, p)] := by
    simp [Call.inserts, hp, Except.toOption]
  rw [hinserts]
  exact h.store hsound hid (Pattern.filled_of_read hp) hsteps

theorem answer (h : d.Records log) (hsound : d.Sound) {c : Call} (hd : c.answer d = .ok d') :
    d'.Records (log ++ c.inserts) := by
  cases c with
  | declare name =>
    rw [Call.inserts, List.append_nil]
    exact h.declare hd
  | define name forms => exact h.define hsound hd
  | add name form =>
    obtain ⟨id, hid, hd⟩ := bind_eq_ok_iff.1 hd
    exact h.add hsound (find_eq_ok_iff.1 hid) hd
  | remove name form =>
    obtain ⟨id, -, hd⟩ := bind_eq_ok_iff.1 hd
    exact absurd hd remove_ne_ok

theorem run (h : d.Records log) (hsound : d.Sound) (hd : Dictionary.run calls d = .ok d') :
    d'.Records (log ++ calls.flatMap Call.inserts) := by
  induction calls generalizing d log with
  | nil =>
    cases hd
    simpa using h
  | cons c rest ih =>
    rw [Dictionary.run, List.foldlM_cons] at hd
    obtain ⟨d₁, h₁, hd⟩ := bind_eq_ok_iff.1 hd
    have hsound₁ : d₁.Sound := by
      have happly := hsound.apply c
      rwa [Call.apply, h₁] at happly
    rw [List.flatMap_cons, ← List.append_assoc]
    exact ih (h.answer hsound h₁) hsound₁ hd

end Records

theorem records_of_run (h : run calls {} = .ok d) : d.Records (calls.flatMap Call.inserts) :=
  Records.empty.run sound_empty h

theorem exists_records (calls : List Call) : ∃ log, (ofCalls calls).Records log := by
  obtain ⟨accepted, -, h⟩ := exists_run calls
  exact ⟨_, records_of_run h⟩

end Dictionary
end Phrasebook
