import Phrasebook.Grammar
import Phrasebook.Proofs.Dictionary.Resolving

/-!
Building a grammar is a sequence of calls: its scopes are declared in the order of their names, then
every pattern is added. So what is built is a dictionary like any other, with its scopes in that order;
and it is built if every scope mentioned is one of them, wherever the mentions lead.
-/

namespace Phrasebook

namespace Dictionary
variable {d d' : Dictionary} {id : ScopeId}

def Made (d : Dictionary) : Prop := ∃ calls, d = ofCalls calls

theorem made_empty : ({} : Dictionary).Made := ⟨[], rfl⟩

theorem Made.names_nodup (h : d.Made) : d.names.Nodup := by
  obtain ⟨calls, rfl⟩ := h
  exact (sound_ofCalls calls).names_nodup

theorem Made.answer (h : d.Made) {c : Call} (hc : c.answer d = .ok d') : d'.Made := by
  obtain ⟨calls, rfl⟩ := h
  refine ⟨calls ++ [c], ?_⟩
  rw [ofCalls, List.foldl_append, ← ofCalls, List.foldl_cons, List.foldl_nil, Call.apply, hc]

theorem names_add {form : Pattern.Form} (h : d.add id form = .ok d') : d'.names = d.names := by
  obtain ⟨_, steps, -, -, rfl⟩ := add_eq_ok_iff.1 h
  exact names_store id d steps

end Dictionary

namespace Grammar
open Dictionary (Made declare_eq_ok_iff find_eq_ok_iff mem_names_iff names_add names_declare
  stopsAtUnknown_add)

variable {g : Grammar} {d d' : Dictionary} {id : ScopeId} {name : String} {names : List String}

theorem made_of_declareAll (hd : d.Made) (h : declareAll names d = .ok d') :
    d'.Made ∧ d'.names = d.names ++ names := by
  induction names generalizing d with
  | nil =>
    cases h
    exact ⟨hd, (List.append_nil _).symm⟩
  | cons name names ih =>
    obtain ⟨d₁, hdeclare, h⟩ := bind_eq_ok_iff.1 h
    obtain ⟨hmade, hnames⟩ := ih (hd.answer (c := .declare name) hdeclare) h
    rw [(names_declare hdeclare).2, ← List.append_cons] at hnames
    exact ⟨hmade, hnames⟩

theorem names_addAll {patterns : List Pattern} (h : addAll id patterns d = .ok d') :
    d'.names = d.names := by
  induction patterns generalizing d with
  | nil =>
    cases h
    rfl
  | cons p patterns ih =>
    obtain ⟨d₁, hadd, h⟩ := bind_eq_ok_iff.1 h
    exact (ih h).trans (names_add hadd)

theorem made_of_addAll {patterns : List Pattern} (hd : d.Made) (hid : d.resolve? name = some id)
    (h : addAll id patterns d = .ok d') : d'.Made := by
  induction patterns generalizing d with
  | nil =>
    cases h
    exact hd
  | cons p patterns ih =>
    obtain ⟨d₁, hadd, h⟩ := bind_eq_ok_iff.1 h
    have hanswer : (Call.add name (.built p)).answer d = .ok d₁ :=
      bind_eq_ok_iff.2 ⟨id, find_eq_ok_iff.2 hid, hadd⟩
    exact ih (hd.answer hanswer) (by rw [Dictionary.resolve?_of_names (names_add hadd), hid]) h

theorem made_of_fillScopes {entries : List (String × List Pattern)} (hd : d.Made)
    (h : fillScopes entries d = .ok d') : d'.Made ∧ d'.names = d.names := by
  induction entries generalizing d with
  | nil =>
    cases h
    exact ⟨hd, rfl⟩
  | cons e entries ih =>
    obtain ⟨id, hfind, h⟩ := bind_eq_ok_iff.1 h
    obtain ⟨d₁, hadd, h⟩ := bind_eq_ok_iff.1 h
    have hmade := made_of_addAll hd (find_eq_ok_iff.1 hfind) hadd
    obtain ⟨hmade', hnames'⟩ := ih hmade h
    exact ⟨hmade', hnames'.trans (names_addAll hadd)⟩

theorem made_of_build (h : g.build = .ok d) : d.Made ∧ d.names = g.scopes.names := by
  obtain ⟨d₁, hdeclare, hfill⟩ := bind_eq_ok_iff.1 h
  obtain ⟨hmade₁, hnames₁⟩ := made_of_declareAll Dictionary.made_empty hdeclare
  obtain ⟨hmade, hnames⟩ := made_of_fillScopes hmade₁ hfill
  exact ⟨hmade, hnames.trans hnames₁⟩

theorem declareAll_eq (h : (d.names ++ names).Nodup) :
    ∃ d', declareAll names d = .ok d' ∧ d'.names = d.names ++ names ∧
      ∀ s ∈ d'.scopes, s ∈ d.scopes ∨ ∃ k, s.root = .fresh k := by
  induction names generalizing d with
  | nil => exact ⟨d, rfl, (List.append_nil _).symm, fun s hs => .inl hs⟩
  | cons name names ih =>
    have hnew : name ∉ d.names := by
      intro hmem
      exact (List.nodup_append.1 h).2.2 name hmem name List.mem_cons_self rfl
    have hdeclare : d.declare name = .ok { scopes := d.scopes ++ [⟨name, .fresh d.nodeCount⟩]
                                           nodeCount := d.nodeCount + 1 } :=
      declare_eq_ok_iff.2 ⟨hnew, rfl⟩
    have hnames := (names_declare hdeclare).2
    rw [List.append_cons, ← hnames] at h
    obtain ⟨d', hd', hnames', hroots⟩ := ih h
    refine ⟨d', bind_eq_ok_iff.2 ⟨_, hdeclare, hd'⟩, ?_, ?_⟩
    · rw [hnames', hnames, ← List.append_cons]
    · intro s hs
      rcases hroots s hs with hs | hs
      · rcases List.mem_append.1 hs with hs | hs
        · exact .inl hs
        · exact .inr ⟨_, congrArg Scope.root (List.mem_singleton.1 hs)⟩
      · exact .inr hs

def mentions (g : Grammar) : List (String × String) :=
  g.scopes.entries.flatMap fun s => s.2.flatMap Pattern.mentions

theorem stopsAtUnknown_addAll {patterns : List Pattern} (h : ∀ p ∈ patterns, p.Filled)
    (hnames : d.names = names) :
    StopsAtUnknown names (patterns.flatMap Pattern.mentions) (addAll id patterns d) := by
  induction patterns generalizing d with
  | nil => exact .ok d
  | cons p patterns ih =>
    obtain ⟨hp, hrest⟩ := List.forall_mem_cons.1 h
    subst hnames
    exact (stopsAtUnknown_add hp d id).bind fun d' hadd => ih hrest (names_add hadd)

theorem stopsAtUnknown_fillScopes {entries : List (String × List Pattern)}
    (h : ∀ s ∈ entries, s.1 ∈ names ∧ ∀ p ∈ s.2, p.Filled) (hnames : d.names = names) :
    StopsAtUnknown names (entries.flatMap fun s => s.2.flatMap Pattern.mentions)
      (fillScopes entries d) := by
  induction entries generalizing d with
  | nil => exact .ok d
  | cons s entries ih =>
    obtain ⟨⟨hname, hs⟩, hrest⟩ := List.forall_mem_cons.1 h
    obtain ⟨id, hid⟩ := mem_names_iff.1 (hnames ▸ hname)
    rw [fillScopes, find_eq_ok_iff.2 hid]
    refine (stopsAtUnknown_addAll hs hnames).bind fun d' hadd => ?_
    exact ih hrest ((names_addAll hadd).trans hnames)

theorem stopsAtUnknown_build (h : g.Filled) : StopsAtUnknown g.scopes.names g.mentions g.build := by
  have hnodup : (({} : Dictionary).names ++ g.scopes.names).Nodup := g.scopes.names_nodup
  obtain ⟨d, hd, hnames, -⟩ := declareAll_eq hnodup
  rw [build, hd]
  exact stopsAtUnknown_fillScopes (fun s hs => ⟨List.mem_map_of_mem hs, h s hs⟩) hnames

end Grammar
end Phrasebook
