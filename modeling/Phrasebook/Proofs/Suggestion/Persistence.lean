import Phrasebook.Proofs.Dictionary.Extension
import Phrasebook.Proofs.Lookahead.Resolution
import Phrasebook.Proofs.Walk.Finding

/-!
What is suggested stays suggested. As a dictionary grows its derivations remain, so every way to fill
a place remains within the same budget. A place that stays open because some filling was cut stays
open too: what cut the search once cuts it ever after.
-/

namespace Phrasebook.Dictionary

variable {d d' : Dictionary} {above : List ScopeId} {p : Placeholder} {id : ScopeId} {budget : Nat}
  {segments resolved : List Segment} {s : Suggestion} {tokens : List Word} {lookahead : Nat}

namespace Extends

theorem mem_fill (h : d.Extends d') (hd : d.Sound) (hd' : d'.Sound) {free free' : List ScopeId}
    {w : List Segment × Nat} (hfree : d.FreeOf free above) (hfree' : d'.FreeOf free' above)
    (hw : w ∈ (d.fill free p budget).ways) : w ∈ (d'.fill free' p budget).ways := by
  obtain ⟨id, named, hid, body, us, stored, hus, hle, rfl⟩ := affords_of_mem_fill hd hw
  have stored' := h.stores hd hd' stored
  obtain ⟨root', hroot', -⟩ := (stores_iff hd').1 stored'
  have hid' := hfree'.mem hroot' ((hfree.mem_iff id).1 hid).2
  have hloopless := h.spellsLoopless hd hd' (hus.loopless hd (hfree.erase id))
  have hspells := hloopless.spellsFrom hd' (hfree'.erase id)
  exact (mem_fill_iff hd').2 ⟨id, named, hid', body, stored', hspells.mem_fillAll hd' hle⟩

mutual

theorem cut_fill (h : d.Extends d') (hd : d.Sound) (hd' : d'.Sound) {free free' : List ScopeId}
    {above : List ScopeId} {p : Placeholder} {budget : Nat} (hfree : d.FreeOf free above)
    (hfree' : d'.FreeOf free' above) (hcut : (d'.fill free' p budget).cut = false) :
    (d.fill free p budget).cut = false := by
  refine (cut_fill_eq_false_iff hd).2 fun id named root hroot => ?_
  obtain ⟨root', hroot', -⟩ := h.root? id root hroot
  obtain ⟨hid', hbodies⟩ := (cut_fill_eq_false_iff hd').1 hcut id named root' hroot'
  have hid := hfree.mem hroot ((hfree'.mem_iff id).1 hid').2
  refine ⟨hid, fun body stored => ?_⟩
  exact cut_fillAll h hd hd' (hfree.erase id) (hfree'.erase id)
    (hbodies body (h.stores hd hd' stored))
termination_by (budget, free.length, 0)
decreasing_by exact .right _ (.left _ _ (length_erase_lt hid))

theorem cut_fillAll (h : d.Extends d') (hd : d.Sound) (hd' : d'.Sound) {free free' : List ScopeId}
    {above : List ScopeId} {items : List Item} {budget : Nat} (hfree : d.FreeOf free above)
    (hfree' : d'.FreeOf free' above)
    (hcut : (d'.fillAll free' (items.map Item.segment) budget).cut = false) :
    (d.fillAll free (items.map Item.segment) budget).cut = false := by
  match items, budget with
  | [], budget => rw [List.map_nil, fillAll_nil]
  | .word t :: items, 0 =>
    rw [List.map_cons, Item.segment, fillAll_plain_zero _ _ rfl] at hcut
    cases hcut
  | .word t :: items, left + 1 =>
    rw [List.map_cons, Item.segment, fillAll_plain_succ _ _ rfl] at hcut ⊢
    exact cut_fillAll h hd hd' (freeOf_ids d) (freeOf_ids d') hcut
  | .slot p :: items, budget =>
    rw [List.map_cons, Item.segment] at hcut ⊢
    obtain ⟨hfilled, hrests⟩ := (cut_fillAll_slot_eq_false_iff hd').1 hcut
    refine (cut_fillAll_slot_eq_false_iff hd).2 ⟨cut_fill h hd hd' hfree hfree' hfilled, ?_⟩
    intro u hu
    obtain ⟨hpos, hle⟩ := cost_of_mem_fill hd u hu
    have hless : budget - u.2 < budget := Nat.sub_lt (hpos.trans_le hle) hpos
    exact cut_fillAll h hd hd' (freeOf_ids d) (freeOf_ids d')
      (hrests u (h.mem_fill hd hd' hfree hfree' hu))
termination_by (budget, free.length, items.length)

end

variable (h : d.Extends d') (hd : d.Sound) (hd' : d'.Sound)
include h hd hd'

theorem mem_resolveSegments (hresolved : resolved ∈ d.resolveSegments segments budget) :
    resolved ∈ d'.resolveSegments segments budget := by
  induction segments generalizing resolved budget with
  | nil => exact hresolved
  | cons x segments ih =>
    cases x with
    | slot p =>
      refine (mem_resolveSegments_slot_iff hd').2 ?_
      rcases (mem_resolveSegments_slot_iff hd).1 hresolved with hfilled | ⟨hcut, heq⟩
      · obtain ⟨id, named, us, hus, hle, rest, hrest, heq⟩ := hfilled
        exact .inl ⟨id, named, us, h.looplessSentence hd hd' hus, hle, rest, ih hrest, heq⟩
      · refine .inr ⟨?_, heq⟩
        by_contra hwhole
        have hwhole := h.cut_fill hd hd' (freeOf_ids d) (freeOf_ids d') (Bool.eq_false_iff.2 hwhole)
        rw [hcut] at hwhole
        cases hwhole
    | _ =>
      obtain ⟨rest, hrest, heq⟩ := (mem_resolveSegments_cons_iff rfl).1 hresolved
      exact (mem_resolveSegments_cons_iff rfl).2 ⟨rest, ih hrest, heq⟩

theorem mem_continuations (hs : s ∈ d.continuations id tokens) :
    s ∈ d'.continuations id tokens := by
  obtain ⟨items, out, stored, hexpands, hcontinues⟩ := (mem_continuations_iff hd).1 hs
  exact (mem_continuations_iff hd').2
    ⟨items, out, h.stores hd hd' stored, h.expandsLoopless hd hd' hexpands, hcontinues⟩

theorem mem_suggest (hs : s ∈ d.suggest id tokens lookahead) :
    s ∈ d'.suggest id tokens lookahead := by
  obtain ⟨s₀, hs₀, hs⟩ := mem_suggest_iff.1 hs
  refine mem_suggest_iff.2 ⟨s₀, h.mem_continuations hd hd' hs₀, ?_⟩
  split_ifs at hs ⊢ with hzero
  · exact hs
  · obtain ⟨hstem, hsegments⟩ := mem_resolve_iff.1 hs
    exact mem_resolve_iff.2 ⟨hstem, h.mem_resolveSegments hd hd' hsegments⟩

end Extends

/-- What is suggested or shown once stays so, whatever is called later. -/
theorem suggest_persists (calls more : List Call) {name : String} {id : ScopeId}
    (hname : (ofCalls calls).resolve? name = some id) :
    (ofCalls (calls ++ more)).resolve? name = some id ∧
    (∀ tokens lookahead, ∀ s ∈ (ofCalls calls).suggest id tokens lookahead,
      s ∈ (ofCalls (calls ++ more)).suggest id tokens lookahead) ∧
    ∀ pattern ∈ (ofCalls calls).patterns id, pattern ∈ (ofCalls (calls ++ more)).patterns id := by
  have hgrowth := Growth.ofCalls_append calls more
  have hextends := hgrowth.extends (.ofCalls calls)
  have hd := sound_ofCalls calls
  have hd' := sound_ofCalls (calls ++ more)
  exact ⟨hgrowth.resolve? hname, fun tokens lookahead s => hextends.mem_suggest hd hd',
    fun pattern => hextends.mem_patterns hd hd'⟩

def humming : Word := ⟨"si", by decide, Word.any_isBlank_eq_false.1 (by decide)⟩

def songs : List Call :=
  [.define "refrain" [.written "la <more:refrain>", .written "la"],
    .define "song" [.written "sing <what:refrain> aloud"]]

def encores : List Call :=
  [.declare "song", .add "refrain" (.written "dum"), .add "song" (.written "sing <what:song>"),
    .remove "song" (.written "sing <what:refrain> aloud")]

theorem suggest_persists_songs : (ofCalls songs).resolve? "song" = some 1 ∧
    (ofCalls songs).suggest 1 [humming] 1 =
      [⟨some "si", [.text "ng", .word "la", .word "aloud"]⟩,
        ⟨some "si", [.text "ng", .slot ⟨"what", [0]⟩, .word "aloud"]⟩] ∧
    ∀ s ∈ (ofCalls songs).suggest 1 [humming] 1,
      s ∈ (ofCalls (songs ++ encores)).suggest 1 [humming] 1 := by
  have hname : (ofCalls songs).resolve? "song" = some 1 := by cbv
  exact ⟨hname, by cbv, (suggest_persists songs encores hname).2.1 [humming] 1⟩

end Phrasebook.Dictionary
