import Phrasebook.Grammar.Json
import Phrasebook.Proofs.Json.Trees
import Phrasebook.Proofs.NameMap
import Phrasebook.Proofs.Pattern.Reading

/-!
Grammars as JSON documents. A grammar whose lookups can all be filled is read back from its document
as it was; and whatever document a grammar is read from, all its lookups can be filled.
-/

namespace Phrasebook
open Json (Fault Flaw Plain Tree depthLimit liftFlaw)
open Text (Bytes utf8)

theorem Json.Tree.mismatch_ne_ok {α : Type} (t : Tree) (expected : String) (a : α) :
    t.mismatch expected ≠ .ok a := by
  unfold mismatch
  split <;> exact nofun

namespace Lookup

variable {l : Lookup} {members : List (String × Json)}

theorem plain_contextsJson (contexts : List String) : Plain 1 (contextsJson contexts) := by
  unfold contextsJson
  split
  · exact .string _
  · refine .array fun v hv => ?_
    obtain ⟨x, -, rfl⟩ := List.mem_map.1 hv
    exact .string x

theorem plain_toJson (l : Lookup) : Plain 2 l.toJson := by
  refine .object fun m hm => ?_
  obtain ⟨b, -, rfl⟩ := List.mem_map.1 hm
  exact plain_contextsJson b.2

theorem contextsOfJson?_contextsJson (contexts : List String) :
    contextsOfJson? (contextsJson contexts) = some contexts := by
  unfold contextsJson
  split
  · rfl
  · rw [contextsOfJson?, mapM_eq_some_iff, List.map_map]
    rfl

theorem ofMembers?_eq_some_iff : ofMembers? members = some l ↔
    l.Filled ∧ ∃ bindings, l.aliases = .ofList bindings ∧
      members.map (fun m => (contextsOfJson? m.2).map (m.1, ·)) = bindings.map some := by
  simp only [ofMembers?, bind, Option.bind_eq_some_iff, mapM_eq_some_iff]
  constructor
  · intro hm
    obtain ⟨bindings, hbindings, hm⟩ := hm
    split at hm
    · rename_i hcheck
      cases hm
      exact ⟨(check_eq_ok_iff _).1 hcheck, bindings, rfl, hbindings⟩
    · cases hm
  · intro hm
    obtain ⟨hfilled, bindings, haliases, hbindings⟩ := hm
    have hl : (⟨.ofList bindings⟩ : Lookup) = l := congrArg Lookup.mk haliases.symm
    refine ⟨bindings, hbindings, ?_⟩
    simp only [hl, (check_eq_ok_iff l).2 hfilled]

theorem ofMembers?_toJson (h : l.Filled) :
    ofMembers? (l.aliases.entries.map fun b => (b.1, contextsJson b.2)) = some l := by
  refine ofMembers?_eq_some_iff.2 ⟨h, _, l.aliases.ofList_entries.symm, ?_⟩
  simp only [List.map_map, Function.comp_def, contextsOfJson?_contextsJson, Option.map_some]

end Lookup

namespace Element

theorem plain_toJson (e : Element) : Plain 2 e.toJson := by
  cases e with
  | word w => exact .string w.text
  | lookup l => exact l.plain_toJson

theorem ofJson?_toJson {e : Element} (h : e.Filled) : ofJson? e.toJson = some e := by
  cases e with
  | word w => simp only [toJson, ofJson?, Word.ofString_text]
  | lookup l => exact congrArg (Element.lookup <$> ·) (Lookup.ofMembers?_toJson h)

theorem filled_of_ofJson? {v : Json} {e : Element} (h : ofJson? v = some e) : e.Filled := by
  unfold ofJson? at h
  split at h
  · split at h <;> cases h
    trivial
  · obtain ⟨l, hl, rfl⟩ := Option.map_eq_some_iff.1 h
    exact (Lookup.ofMembers?_eq_some_iff.1 hl).1
  · cases h

end Element

namespace Pattern

theorem plain_toJson (p : Pattern) : Plain 3 p.toJson := by
  refine .array fun v hv => ?_
  obtain ⟨e, -, rfl⟩ := List.mem_map.1 hv
  exact e.plain_toJson

theorem ofJson_toJson {p : Pattern} (h : p.Filled) : ofJson p.toJson = .ok p := by
  have hitems : (p.elements.map Element.toJson).mapM Element.ofJson? = some p.elements := by
    rw [mapM_eq_some_iff, List.map_map]
    exact List.map_congr_left fun e he => Element.ofJson?_toJson (h e he)
  simp only [toJson, ofJson, hitems]

theorem filled_of_ofJson {v : Json} {p : Pattern} (h : ofJson v = .ok p) : p.Filled := by
  unfold ofJson at h
  split at h
  · split at h
    · rename_i hread
      cases h
      exact filled_of_ofText hread
    · cases h
  · split at h
    · rename_i items _ elements hitems
      cases h
      intro e he
      have hmem : some e ∈ items.map Element.ofJson? :=
        mapM_eq_some_iff.1 hitems ▸ List.mem_map_of_mem he
      obtain ⟨v, -, hv⟩ := List.mem_map.1 hmem
      exact Element.filled_of_ofJson? hv
    · cases h
  · cases h

end Pattern

namespace Grammar

variable {g : Grammar} {depth : Nat}

theorem plain_toJson (g : Grammar) : Plain 6 g.toJson := by
  refine .object fun m hm => ?_
  cases List.mem_singleton.1 hm
  refine .object fun m hm => ?_
  obtain ⟨s, -, rfl⟩ := List.mem_map.1 hm
  refine .array fun v hv => ?_
  obtain ⟨p, -, rfl⟩ := List.mem_map.1 hv
  exact p.plain_toJson

theorem exists_jsonText (g : Grammar) : ∃ inside, g.jsonText = "\x7b" ++ inside ++ "\x7d" := by
  obtain ⟨inside, hblock⟩ := Json.exists_block "\x7b" "\x7d" 0 (Json.prettyMembers 1
    [("scopes", .object (g.scopes.entries.map fun s => (s.1, .array (s.2.map Pattern.toJson))))])
  refine ⟨inside, ?_⟩
  rw [← hblock]
  rfl

theorem patternsOfTrees_ofValues {patterns : List Pattern} (h : ∀ p ∈ patterns, p.Filled)
    (hdepth : 3 ≤ depth) :
    patternsOfTrees depth (Tree.ofValues (patterns.map Pattern.toJson)) = .ok patterns := by
  induction patterns with
  | nil => rfl
  | cons p ps ih =>
    obtain ⟨hp, hps⟩ := List.forall_mem_cons.1 h
    have hvalue : liftFlaw ((Tree.ofValue p.toJson).value depth) = .ok p.toJson := by
      rw [Tree.value_ofValue p.plain_toJson hdepth]
      rfl
    exact bind_eq_ok_iff.2 ⟨_, hvalue, bind_eq_ok_iff.2 ⟨p, Pattern.ofJson_toJson hp,
      bind_eq_ok_iff.2 ⟨ps, ih hps, rfl⟩⟩⟩

theorem patternsOfTree_ofValue {patterns : List Pattern} (h : ∀ p ∈ patterns, p.Filled)
    (hdepth : 4 ≤ depth) :
    patternsOfTree depth (Tree.ofValue (.array (patterns.map Pattern.toJson))) = .ok patterns :=
  bind_eq_ok_iff.2 ⟨patterns, patternsOfTrees_ofValues h (by omega), rfl⟩

theorem scopesOfMembers_ofMembers {entries : List (String × List Pattern)}
    {m : NameMap (List Pattern)} (h : ∀ s ∈ entries, ∀ p ∈ s.2, p.Filled) (hdepth : 4 ≤ depth) :
    scopesOfMembers depth
        (Tree.ofMembers (entries.map fun s => (s.1, .array (s.2.map Pattern.toJson)))) m =
      .ok (entries.foldl (fun m s => m.insert s.1 s.2) m) := by
  induction entries generalizing m with
  | nil => rfl
  | cons s entries ih =>
    obtain ⟨hs, hentries⟩ := List.forall_mem_cons.1 h
    exact bind_eq_ok_iff.2 ⟨s.1, rfl,
      bind_eq_ok_iff.2 ⟨s.2, patternsOfTree_ofValue hs hdepth, ih hentries⟩⟩

theorem ofTree_ofValue (h : g.Filled) : ofTree depthLimit (Tree.ofValue g.toJson) = .ok g := by
  have hscopes : scopesOfTree (depthLimit - 1) (Tree.ofValue (.object
      (g.scopes.entries.map fun s => (s.1, .array (s.2.map Pattern.toJson))))) = .ok g.scopes := by
    refine bind_eq_ok_iff.2 ⟨_, scopesOfMembers_ofMembers h (by decide), ?_⟩
    exact congrArg Except.ok g.scopes.ofList_entries
  refine bind_eq_ok_iff.2 ⟨some g.scopes, ?_, rfl⟩
  exact bind_eq_ok_iff.2 ⟨"scopes", rfl, bind_eq_ok_iff.2 ⟨g.scopes, hscopes, rfl⟩⟩

theorem ofJsonBytes_eq_ok_iff {s : Bytes} : ofJsonBytes s = .ok g ↔
    ofTree depthLimit (Tree.read (Json.tokens s)).1 = .ok g ∧ (Tree.read (Json.tokens s)).2 = [] := by
  simp only [ofJsonBytes, ofTokens, bind_eq_ok_iff, ← List.isEmpty_iff]
  constructor
  · rintro ⟨g', hread, h⟩
    split_ifs at h with hrest
    cases h
    exact ⟨hread, hrest⟩
  · rintro ⟨hread, hrest⟩
    exact ⟨g, hread, if_pos hrest⟩

theorem ofJsonBytes_jsonText (h : g.Filled) : ofJsonBytes (utf8 g.jsonText) = .ok g := by
  rw [ofJsonBytes_eq_ok_iff, jsonText, Json.tokens_pretty g.plain_toJson,
    Tree.read_written g.plain_toJson]
  exact ⟨ofTree_ofValue h, rfl⟩

theorem filled_of_patternsOfTrees {ts : List Tree} {patterns : List Pattern}
    (h : patternsOfTrees depth ts = .ok patterns) : ∀ p ∈ patterns, p.Filled := by
  induction ts generalizing patterns with
  | nil =>
    cases h
    simp
  | cons t ts ih =>
    obtain ⟨v, -, h⟩ := bind_eq_ok_iff.1 h
    obtain ⟨p, hp, h⟩ := bind_eq_ok_iff.1 h
    obtain ⟨ps, hps, h⟩ := bind_eq_ok_iff.1 h
    cases h
    exact List.forall_mem_cons.2 ⟨Pattern.filled_of_ofJson hp, ih hps⟩

theorem filled_of_patternsOfTree {t : Tree} {patterns : List Pattern}
    (h : patternsOfTree depth t = .ok patterns) : ∀ p ∈ patterns, p.Filled := by
  unfold patternsOfTree at h
  split at h
  · obtain ⟨_, hread, h⟩ := bind_eq_ok_iff.1 h
    obtain ⟨-, -, h⟩ := bind_eq_ok_iff.1 h
    cases h
    exact filled_of_patternsOfTrees hread
  · exact absurd h (Tree.mismatch_ne_ok _ _ _)

variable {m m' : NameMap (List Pattern)}

theorem filled_insert {name : String} {patterns : List Pattern} (hm : Filled ⟨m⟩)
    (h : ∀ p ∈ patterns, p.Filled) : Filled ⟨m.insert name patterns⟩ := by
  intro s hs
  rcases NameMap.mem_put hs with rfl | hs
  · exact h
  · exact hm s hs

theorem filled_of_scopesOfMembers {members : List (Except Flaw String × Tree)} (hm : Filled ⟨m⟩)
    (h : scopesOfMembers depth members m = .ok m') : Filled ⟨m'⟩ := by
  induction members generalizing m with
  | nil =>
    cases h
    exact hm
  | cons t ts ih =>
    obtain ⟨name, -, h⟩ := bind_eq_ok_iff.1 h
    obtain ⟨patterns, hpatterns, h⟩ := bind_eq_ok_iff.1 h
    exact ih (filled_insert hm (filled_of_patternsOfTree hpatterns)) h

theorem filled_of_scopesOfTree {t : Tree} (h : scopesOfTree depth t = .ok m) : Filled ⟨m⟩ := by
  unfold scopesOfTree at h
  split at h
  · obtain ⟨_, hread, h⟩ := bind_eq_ok_iff.1 h
    obtain ⟨-, -, h⟩ := bind_eq_ok_iff.1 h
    cases h
    exact filled_of_scopesOfMembers (by simp [Filled, NameMap.empty]) hread
  · exact absurd h (Tree.mismatch_ne_ok _ _ _)

theorem filled_of_findScopes {members : List (Except Flaw String × Tree)}
    {found : Option (NameMap (List Pattern))} (hfound : ∀ m, found = some m → Filled ⟨m⟩)
    (h : findScopes depth members found = .ok (some m)) : Filled ⟨m⟩ := by
  induction members generalizing found with
  | nil =>
    cases h
    exact hfound m rfl
  | cons t ts ih =>
    obtain ⟨name, -, h⟩ := bind_eq_ok_iff.1 h
    split_ifs at h
    · obtain ⟨m', hm', h⟩ := bind_eq_ok_iff.1 h
      refine ih (fun m heq => ?_) h
      cases heq
      exact filled_of_scopesOfTree hm'
    · obtain ⟨-, -, h⟩ := bind_eq_ok_iff.1 h
      exact ih hfound h

theorem filled_of_ofTree {t : Tree} (h : ofTree depth t = .ok g) : g.Filled := by
  unfold ofTree at h
  split at h
  · obtain ⟨found, hfound, h⟩ := bind_eq_ok_iff.1 h
    obtain ⟨-, -, h⟩ := bind_eq_ok_iff.1 h
    split at h
    · cases h
      exact filled_of_findScopes (by simp) hfound
    · cases h
  · obtain ⟨-, -, h⟩ := bind_eq_ok_iff.1 h
    cases h
  · obtain ⟨_, hread, h⟩ := bind_eq_ok_iff.1 h
    obtain ⟨-, -, h⟩ := bind_eq_ok_iff.1 h
    cases h
    exact filled_of_scopesOfTree hread
  · exact absurd h (Tree.mismatch_ne_ok _ _ _)

theorem filled_of_ofJsonBytes {s : Bytes} (h : ofJsonBytes s = .ok g) : g.Filled :=
  filled_of_ofTree (ofJsonBytes_eq_ok_iff.1 h).1

end Grammar
end Phrasebook
