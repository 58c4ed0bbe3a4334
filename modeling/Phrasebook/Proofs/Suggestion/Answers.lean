import Mathlib.Data.List.Permutation
import Phrasebook.Proofs.Dictionary.LeftRecursion
import Phrasebook.Proofs.Walk.Finding

/-!
What a scope answers without lookahead. Every suggestion continues the typed words to an expansion
of a stored pattern, on every dictionary. Where the only left recursion is through patterns of one
element, every such continuation is suggested: the search misses only loopy derivations, and each of
these has a loopless one with the same expansion.
-/

namespace Phrasebook

theorem Continues.sentence {ws : List Word} (hne : ws ≠ []) :
    Continues ws (ws.map .word) ⟨none, []⟩ := by
  induction ws with
  | nil => exact absurd rfl hne
  | cons t ws ih =>
    cases ws with
    | nil => exact .whole t []
    | cons t' ws => exact .word (ih (List.cons_ne_nil t' ws))

namespace Dictionary

/-- With no word typed the expansion is a stored pattern itself, as no place may be filled. -/
theorem suggest_sound (calls : List Call) {id : ScopeId} {tokens : List Word} {s : Suggestion}
    (h : s ∈ (ofCalls calls).suggest id tokens 0) :
    (∃ items out, (ofCalls calls).Stores id items ∧
      (ofCalls calls).Expands tokens.length items out ∧ Continues tokens out s) ∧
    (tokens = [] → ∃ items, (ofCalls calls).Stores id items ∧
      s = ⟨none, items.map Item.segment⟩) ∧
    s.stem = match s.segments with
      | .text _ :: _ => tokens.getLast?.map (·.text)
      | _ => none := by
  obtain ⟨items, out, stored, hexpands, hcontinues⟩ :=
    (mem_continuations_iff (sound_ofCalls calls)).1 h
  refine ⟨⟨items, out, stored, hexpands.expands, hcontinues⟩, ?_, hcontinues.stem_eq⟩
  intro hnil
  subst hnil
  obtain rfl := hexpands.eq_of_zero
  cases hcontinues
  exact ⟨_, stored, rfl⟩

def go : Word := ⟨"go", by decide, Word.any_isBlank_eq_false.1 (by decide)⟩

def home : Word := ⟨"home", by decide, Word.any_isBlank_eq_false.1 (by decide)⟩

def errands : List Call :=
  [.declare "errand", .define "task" [.written "<it:errand>"],
    .add "errand" (.written "<again:task>"), .add "errand" (.written "go home")]

theorem stores_errands {id : ScopeId} {items : List Item} : (ofCalls errands).Stores id items ↔
    ∃ stored, ([[[.word go, .word home], [.slot ⟨"again", [1]⟩]], [[.slot ⟨"it", [0]⟩]]] :
      List (List (List Item)))[id]? = some stored ∧ items ∈ stored :=
  stores_iff_of_paths (sound_ofCalls errands) (by cbv)

theorem suggest_sound_errands :
    ⟨none, [.word "home"]⟩ ∈ (ofCalls errands).suggest 1 [go] 0 ∧
    ∃ items out, (ofCalls errands).Stores 1 items ∧ (ofCalls errands).Expands 1 items out ∧
      Continues [go] out ⟨none, [.word "home"]⟩ := by
  have hanswer : (ofCalls errands).suggest 1 [go] 0 = [⟨none, [.word "home"]⟩] := by cbv
  have hmem : ⟨none, [.word "home"]⟩ ∈ (ofCalls errands).suggest 1 [go] 0 := by
    rw [hanswer]
    exact List.mem_singleton_self _
  exact ⟨hmem, (suggest_sound errands hmem).1⟩

/-- Where scopes come back to themselves through patterns of one element only, nothing that may follow is left
unsaid, and a sentence is known for one. -/
theorem suggest_complete (calls : List Call) (hloops : (ofCalls calls).OnlyUnitLoops) :
    (∀ id tokens items out s, (ofCalls calls).Stores id items →
      (ofCalls calls).Expands tokens.length items out → Continues tokens out s →
      s ∈ (ofCalls calls).suggest id tokens 0) ∧
    ∀ id ws, (ofCalls calls).Sentence id ws → ⟨none, []⟩ ∈ (ofCalls calls).suggest id ws 0 := by
  have hd := sound_ofCalls calls
  have hall : ∀ id tokens items out s, (ofCalls calls).Stores id items →
      (ofCalls calls).Expands tokens.length items out → Continues tokens out s →
      s ∈ (ofCalls calls).suggest id tokens 0 := by
    intro id tokens items out s stored hexpands hcontinues
    obtain ⟨body, hbody, hloopless⟩ := hexpands.exists_loopless hloops stored
    exact (mem_continuations_iff hd).2 ⟨body, out, hbody, hloopless, hcontinues⟩
  refine ⟨hall, ?_⟩
  intro id ws hsentence
  have hne := hsentence.ne_nil hd
  obtain ⟨items, stored, hspells⟩ := hsentence
  exact hall id ws items _ _ stored (hspells.expands hd le_rfl) (.sentence hne)

theorem onlyUnitLoops_errands : (ofCalls errands).OnlyUnitLoops := by
  intro a b p rest stored _ _
  obtain ⟨bodies, hbodies, hmem⟩ := stores_errands.1 stored
  match a with
  | 0 =>
    cases hbodies
    simp_all
  | 1 =>
    cases hbodies
    simp_all
  | a + 2 => simp at hbodies

theorem suggest_complete_errands : (ofCalls errands).OnlyUnitLoops ∧
    (ofCalls errands).Sentence 1 [go, home] ∧
    ⟨none, []⟩ ∈ (ofCalls errands).suggest 1 [go, home] 0 := by
  have hinner : (ofCalls errands).Spells [.word go, .word home] [go, home] := .word (.word .nil)
  have hsentence : (ofCalls errands).Sentence 1 [go, home] :=
    ⟨[.slot ⟨"it", [0]⟩], stores_errands.2 (by simp),
      @Spells.fill _ _ 0 _ _ [go, home] [] (by simp) (stores_errands.2 (by simp)) hinner .nil⟩
  exact ⟨onlyUnitLoops_errands, hsentence,
    (suggest_complete errands onlyUnitLoops_errands).2 1 _ hsentence⟩

end Dictionary
end Phrasebook
