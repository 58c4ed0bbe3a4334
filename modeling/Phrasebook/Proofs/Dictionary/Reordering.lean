import Phrasebook.Proofs.Dictionary.Resolving
import Phrasebook.Proofs.Suggestion.Persistence

/-!
Patterns may be put in in any order and any number of times. The order decides how positions are
numbered and how places of the same name stand, so the dictionaries that come out are not equal. But
they store the same, and they count, show and suggest the same. What is stored already is not stored
again: then even the dictionary is the same.
-/

namespace Phrasebook

namespace Node
variable {n m : Node} {l : Label} {path : List Label} {next : Nat}

theorem insert_of_mem (h : n.Ordered) (hmem : path ∈ n.paths) : insert path next n = (n, next) := by
  induction path generalizing n with
  | nil =>
    have hend := nil_mem_paths.1 hmem
    cases n
    cases hend
    rfl
  | cons l path ih =>
    obtain ⟨m, ha, hmem⟩ := cons_mem_paths.1 hmem
    simp only [insert, (child?_eq_some_iff h).2 ha, ih (h.arc ha) hmem, put_of_arc h ha]

end Node

namespace Dictionary
variable {d d' : Dictionary} {id : ScopeId} {name : String} {root : Node} {path : List Label}
  {items : List Item} {form : Pattern.Form} {p : Pattern}

theorem storePath_of_mem (hd : d.Sound) (hroot : d.root? id = some root) (hmem : path ∈ root.paths) :
    storePath id d path = d := by
  obtain ⟨name, hs⟩ := root?_eq_some_iff.1 hroot
  obtain ⟨hlt, hget⟩ := List.getElem?_eq_some_iff.1 hs
  rw [storePath_eq hs, Node.insert_of_mem (hd.tree hroot).ordered hmem, ← hget, List.set_getElem_self]

theorem holds_of_shown (hd : d.Sound) {steps : List Step}
    (hsteps : resolveElements d.resolve? p.elements = .ok steps) (hne : steps ≠ [])
    (h : ∀ q, p.Expands q → q.elements ≠ [] → q ∈ d.patterns id)
    (hitems : List.Forall₂ Step.Chooses steps items) :
    ∃ root, d.root? id = some root ∧ root.Holds items := by
  have hexpands : p.Expands ⟨items.map d.element⟩ := (exists_chooses_iff hsteps).1 ⟨items, hitems, rfl⟩
  have hfits := Step.fits_of_choice hne (resolveElements_known (fun _ _ => resolve?_lt) hsteps) hitems
  have hshown := h _ hexpands fun hnil => hfits.ne_nil (List.map_eq_nil_iff.1 hnil)
  exact (stores_iff hd).1 ⟨_, hshown, (forall₂_shows_iff hd hfits.known).2 rfl⟩

theorem add_of_shown (hd : d.Sound) (hread : form.read = .ok p)
    (h : ∀ q, p.Expands q → q.elements ≠ [] → q ∈ d.patterns id) : d.add id form = .ok d := by
  have hknown : ∀ c ∈ p.contexts, c ∈ d.names := by
    intro c hc
    obtain ⟨q, hq, hc⟩ := (Pattern.mem_contexts_iff (Pattern.filled_of_read hread)).1 hc
    refine mem_names_of_mem_patterns hd (h q hq ?_) hc
    intro hnil
    simp [Pattern.contexts, hnil] at hc
  obtain ⟨steps, hsteps⟩ := exists_resolve_iff.2 hknown
  have hstore : store id d steps = d := by
    rw [store]
    split_ifs with hempty
    · rfl
    · refine List.foldlRecOn (motive := (· = d)) _ _ rfl ?_
      intro d₁ heq path hpath
      obtain ⟨items, hitems, rfl⟩ := Step.mem_paths_iff.1 hpath
      obtain ⟨root, hroot, hheld⟩ := holds_of_shown hd hsteps (by simpa using hempty) h hitems
      rw [heq, storePath_of_mem hd hroot hheld]
  simp only [add, hread, hsteps]
  exact congrArg Except.ok hstore

structure AnswersAs (d d' : Dictionary) : Prop where
  names : d.names = d'.names
  nodeCount : d.nodeCount = d'.nodeCount
  patterns : ∀ id q, q ∈ d.patterns id ↔ q ∈ d'.patterns id
  suggest : ∀ id tokens lookahead s,
    s ∈ d.suggest id tokens lookahead ↔ s ∈ d'.suggest id tokens lookahead

namespace Extends

theorem names_eq (h : d.Extends d') (h' : d'.Extends d) : d.names = d'.names := by
  refine List.ext_getElem? fun i => Option.ext fun name => ?_
  rw [← name?_eq, ← name?_eq]
  exact ⟨h.name? i name, h'.name? i name⟩

theorem mem_routes (h : d.Extends d') {root' : Node} {r : List Label} (hroot : d.root? id = some root)
    (hroot' : d'.root? id = some root') (hr : r ∈ root.routes) : r ∈ root'.routes := by
  obtain ⟨root₁, hroot₁, hpaths⟩ := h.root? id root hroot
  cases hroot'.symm.trans hroot₁
  obtain ⟨hne, q, hq, hr⟩ := Node.mem_routes_iff.1 hr
  exact Node.mem_routes_iff.2 ⟨hne, q, hpaths q hq, hr⟩

theorem nodeCount_eq (h : d.Extends d') (h' : d'.Extends d) (hd : d.Numbered) (hd' : d'.Numbered) :
    d.nodeCount = d'.nodeCount := by
  have hlength : d.scopes.length = d'.scopes.length := by
    rw [← length_names, ← length_names, h.names_eq h']
  rw [hd.nodeCount_eq, hd'.nodeCount_eq, hlength]
  congr 2
  refine List.ext_getElem (by simpa using hlength) fun i hi hi' => ?_
  rw [List.length_map] at hi hi'
  have hroot : d.root? i = some d.scopes[i].root := by simp [Dictionary.root?, hi]
  have hroot' : d'.root? i = some d'.scopes[i].root := by simp [Dictionary.root?, hi']
  have hperm : d.scopes[i].root.routes.Perm d'.scopes[i].root.routes := by
    refine (List.perm_ext_iff_of_nodup (Node.routes_nodup _) (Node.routes_nodup _)).2 fun r => ?_
    exact ⟨h.mem_routes hroot hroot', h'.mem_routes hroot' hroot⟩
  simp [hperm.length_eq]

theorem answersAs (h : d.Extends d') (h' : d'.Extends d) (hd : d.Sound) (hd' : d'.Sound)
    (hnumbered : d.Numbered) (hnumbered' : d'.Numbered) : d.AnswersAs d' where
  names := h.names_eq h'
  nodeCount := h.nodeCount_eq h' hnumbered hnumbered'
  patterns := fun _ _ => ⟨h.mem_patterns hd hd', h'.mem_patterns hd' hd⟩
  suggest := fun _ _ _ _ => ⟨h.mem_suggest hd hd', h'.mem_suggest hd' hd⟩

end Extends

def adding (a : String × Pattern.Form) : Call := .add a.1 a.2

theorem mem_inserts_adding {a : String × Pattern.Form} :
    (name, p) ∈ (adding a).inserts ↔ a.1 = name ∧ a.2.read = .ok p := by
  rw [adding, Call.inserts, List.mem_map]
  simp [toOption_eq_some_iff, and_comm]

theorem apply_adding (d : Dictionary) (a : String × Pattern.Form) :
    (∃ id p steps, d.resolve? a.1 = some id ∧ a.2.read = .ok p ∧
      resolveElements d.resolve? p.elements = .ok steps ∧ (adding a).apply d = store id d steps) ∨
    (adding a).apply d = d ∧
      ∀ p items, a.1 ∈ d.names → a.2.read = .ok p → ¬ d.Offers p items := by
  cases hcall : (adding a).answer d with
  | ok d' =>
    refine .inl ?_
    have happly : (adding a).apply d = d' := by rw [Call.apply, hcall]
    obtain ⟨id, hid, hadd⟩ := bind_eq_ok_iff.1 hcall
    obtain ⟨p, steps, hread, hsteps, rfl⟩ := add_eq_ok_iff.1 hadd
    exact ⟨id, p, steps, find_eq_ok_iff.1 hid, hread, hsteps, happly⟩
  | error e =>
    refine .inr ⟨by rw [Call.apply, hcall], ?_⟩
    intro p items hname hread hoffers
    obtain ⟨id, hid⟩ := mem_names_iff.1 hname
    obtain ⟨-, steps, hsteps, -⟩ := hoffers
    simp [adding, Call.answer, find, add, hid, hread, hsteps, bind, Except.bind] at hcall

theorem names_apply_adding (d : Dictionary) (a : String × Pattern.Form) :
    ((adding a).apply d).names = d.names := by
  obtain ⟨id, p, steps, -, -, -, heq⟩ | ⟨heq, -⟩ := apply_adding d a
  · rw [heq, names_store]
  · rw [heq]

theorem root?_apply_adding (hd : d.Sound) (a : String × Pattern.Form)
    (hid : d.resolve? name = some id) (hroot : d.root? id = some root) :
    ∃ root', ((adding a).apply d).root? id = some root' ∧ ∀ items, root'.Holds items ↔
      root.Holds items ∨ ∃ p, (name, p) ∈ (adding a).inserts ∧ d.Offers p items := by
  simp only [mem_inserts_adding]
  obtain ⟨i, p, steps, hi, hread, hsteps, heq⟩ | ⟨heq, hnone⟩ := apply_adding d a
  · rw [heq]
    by_cases hname : a.1 = name
    · subst hname
      cases hid.symm.trans hi
      obtain ⟨root', hroot', hholds⟩ := @holds_store d id root steps (hd.tree hroot).ordered hroot
      refine ⟨root', hroot', fun items => ?_⟩
      rw [hholds, ← offers_iff hsteps]
      simp [hread]
    · have hne : id ≠ i := by
        intro hsame
        subst hsame
        exact hname (resolve?_inj hi hid)
      exact ⟨root, (root?_store_ne hne).trans hroot, fun items => by simp [hname]⟩
  · -- A refused call leaves the tree, and it offers nothing by which the right side would grow.
    rw [heq]
    refine ⟨root, hroot, fun items => (or_iff_left ?_).symm⟩
    intro hm
    obtain ⟨p, ⟨rfl, hread⟩, hoffers⟩ := hm
    exact hnone p items (mem_names_iff.2 ⟨id, hid⟩) hread hoffers

theorem names_foldl_adding (d : Dictionary) (adds : List (String × Pattern.Form)) :
    ((adds.map adding).foldl Call.apply d).names = d.names := by
  induction adds generalizing d with
  | nil => rfl
  | cons a rest ih => exact (ih _).trans (names_apply_adding d a)

theorem root?_foldl_adding (hd : d.Sound) (adds : List (String × Pattern.Form))
    (hid : d.resolve? name = some id) (hroot : d.root? id = some root) :
    ∃ root', ((adds.map adding).foldl Call.apply d).root? id = some root' ∧ ∀ items,
      root'.Holds items ↔ root.Holds items ∨
        ∃ p, (name, p) ∈ (adds.map adding).flatMap Call.inserts ∧ d.Offers p items := by
  induction adds generalizing d root with
  | nil => exact ⟨root, hroot, fun items => by simp⟩
  | cons a rest ih =>
    have hresolve : ((adding a).apply d).resolve? = d.resolve? :=
      resolve?_of_names (names_apply_adding d a)
    obtain ⟨root₁, hroot₁, hfirst⟩ := root?_apply_adding hd a hid hroot
    obtain ⟨root', hroot', hrest⟩ := ih (hd.apply (adding a)) (hresolve ▸ hid) hroot₁
    refine ⟨root', hroot', fun items => ?_⟩
    rw [hrest, hfirst, or_assoc]
    refine or_congr_right ?_
    simp only [offers_congr hresolve, List.map_cons, List.flatMap_cons, List.mem_append, or_and_right,
      exists_or]

theorem extends_of_inserts (hd : d.Sound) {adds adds' : List (String × Pattern.Form)}
    (hd₁ : ((adds.map adding).foldl Call.apply d).Sound)
    (hsub : ∀ e ∈ (adds.map adding).flatMap Call.inserts,
      e ∈ (adds'.map adding).flatMap Call.inserts) :
    ((adds.map adding).foldl Call.apply d).Extends ((adds'.map adding).foldl Call.apply d) where
  name? := by
    intro id name hname
    rw [name?_eq, names_foldl_adding] at hname ⊢
    exact hname
  root? := by
    intro id root hroot
    have hlt : id < d.scopes.length := by
      obtain ⟨_, hs⟩ := root?_eq_some_iff.1 hroot
      obtain ⟨hlt, -⟩ := List.getElem?_eq_some_iff.1 hs
      rwa [← length_names, names_foldl_adding, length_names] at hlt
    have hid : d.resolve? d.scopes[id].name = some id :=
      hd.resolve?_eq_some_iff.2 (by simp [Dictionary.name?, hlt])
    have hroot₀ : d.root? id = some d.scopes[id].root := by simp [Dictionary.root?, hlt]
    obtain ⟨root₁, hroot₁, hholds⟩ := root?_foldl_adding hd adds hid hroot₀
    obtain ⟨root₂, hroot₂, hholds'⟩ := root?_foldl_adding hd adds' hid hroot₀
    cases hroot.symm.trans hroot₁
    refine ⟨root₂, hroot₂, fun q hq => ?_⟩
    obtain ⟨items, -, rfl⟩ := (hd₁.tree hroot).stored q hq
    rcases (hholds items).1 hq with hq | ⟨p, hp, hoffers⟩
    · exact (hholds' items).2 (.inl hq)
    · exact (hholds' items).2 (.inr ⟨p, hsub _ hp, hoffers⟩)

/-- After whatever was called before, patterns for registered scopes may be put in in any order and
repeatedly. One whose expansions are all shown is put in again without effect. -/
theorem add_in_any_order (calls : List Call) :
    (∀ adds adds' : List (String × Pattern.Form),
      (∀ e, e ∈ (adds.map adding).flatMap Call.inserts ↔ e ∈ (adds'.map adding).flatMap Call.inserts) →
      (ofCalls (calls ++ adds.map adding)).AnswersAs (ofCalls (calls ++ adds'.map adding))) ∧
    ∀ id form p, form.read = .ok p →
      (∀ q, p.Expands q → q.elements ≠ [] → q ∈ (ofCalls calls).patterns id) →
      (ofCalls calls).add id form = .ok (ofCalls calls) := by
  have hd := sound_ofCalls calls
  refine ⟨fun adds adds' hsame => ?_, fun id form p => add_of_shown hd⟩
  have hsound : ∀ adds : List (String × Pattern.Form),
      ((adds.map adding).foldl Call.apply (ofCalls calls)).Sound := by
    intro adds
    rw [ofCalls, ← List.foldl_append]
    exact sound_ofCalls _
  have hextends := extends_of_inserts hd (hsound adds) fun e => (hsame e).1
  have hextends' := extends_of_inserts hd (hsound adds') fun e => (hsame e).2
  rw [ofCalls, ← List.foldl_append, ← List.foldl_append] at hextends hextends'
  exact hextends.answersAs hextends' (sound_ofCalls _) (sound_ofCalls _) (.ofCalls _) (.ofCalls _)

def shops : List Call := [.declare "ware", .declare "order"]

def serve : Word := ⟨"serve", by decide, Word.any_isBlank_eq_false.1 (by decide)⟩

def serving : Pattern := ⟨[.word serve, .lookup ⟨.ofList [("it", ["ware"]), ("also", ["order"])]⟩]⟩

def bought : List (String × Pattern.Form) :=
  [("order", .built serving), ("ware", .written "some tea")]

def boughtAgain : List (String × Pattern.Form) :=
  [("ware", .written "some tea"), ("order", .built serving), ("ware", .written "some tea")]

theorem add_in_any_order_shops :
    ((∀ e, e ∈ (bought.map adding).flatMap Call.inserts ↔
        e ∈ (boughtAgain.map adding).flatMap Call.inserts) ∧
      (ofCalls (shops ++ bought.map adding)).AnswersAs (ofCalls (shops ++ boughtAgain.map adding))) ∧
    (∀ q, serving.Expands q → q ∈ (ofCalls (shops ++ bought.map adding)).patterns 1) ∧
    (ofCalls (shops ++ bought.map adding)).add 1 (.built serving) =
      .ok (ofCalls (shops ++ bought.map adding)) := by
  have hsame : ∀ e, e ∈ (bought.map adding).flatMap Call.inserts ↔
      e ∈ (boughtAgain.map adding).flatMap Call.inserts := by
    intro e
    simp only [bought, boughtAgain, List.map_cons, List.map_nil, List.flatMap_cons, List.flatMap_nil,
      List.mem_append, List.not_mem_nil]
    tauto
  have hread : (Pattern.Form.built serving).read = .ok serving := by cbv
  have hshown : ∀ q, serving.Expands q → q ∈ (ofCalls (shops ++ bought.map adding)).patterns 1 := by
    have hpatterns : (ofCalls (shops ++ bought.map adding)).patterns 1 =
        [⟨[.word serve, .lookup (.single "also" ["order"])]⟩,
          ⟨[.word serve, .lookup (.single "it" ["ware"])]⟩] := by cbv
    have hentries : (NameMap.ofList [("it", ["ware"]), ("also", ["order"])]).entries =
        [("also", ["order"]), ("it", ["ware"])] := by cbv
    rintro ⟨shown⟩ hq
    rw [hpatterns]
    cases hq with
    | cons hword hq =>
      cases hword
      cases hq with
      | cons hlookup hq =>
        cases hq
        cases hlookup with
        | lookup hmem =>
          rw [hentries] at hmem
          rcases List.mem_cons.1 hmem with heq | hmem
          · cases heq
            exact List.mem_cons_self
          · cases List.mem_singleton.1 hmem
            exact List.mem_cons_of_mem _ List.mem_cons_self
  refine ⟨⟨hsame, (add_in_any_order shops).1 bought boughtAgain hsame⟩, hshown, ?_⟩
  exact (add_in_any_order (shops ++ bought.map adding)).2 1 _ serving hread fun q hq _ => hshown q hq

end Dictionary
end Phrasebook
