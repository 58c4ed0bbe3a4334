import Phrasebook.Proofs.Dictionary.Contents
import Phrasebook.Proofs.Dictionary.Derivation

/-!
What a dictionary keeps when it grows. Scopes keep their numbers and names, and what is stored stays
stored, so whatever was derived before can be derived ever after.
-/

namespace Phrasebook.Dictionary

variable {d d' : Dictionary} {above : List ScopeId} {n : Nat} {items out : List Item} {ws : List Word}
  {id : ScopeId} {root : Node} {name : String}

/-- Every scope is there under its number and its name, with all its paths. -/
structure Extends (d d' : Dictionary) : Prop where
  name? : ∀ id name, d.name? id = some name → d'.name? id = some name
  root? : ∀ id root, d.root? id = some root →
    ∃ root', d'.root? id = some root' ∧ ∀ q ∈ root.paths, q ∈ root'.paths

namespace Extends

theorem refl (d : Dictionary) : d.Extends d where
  name? := fun _ _ h => h
  root? := fun _ root h => ⟨root, h, fun _ hq => hq⟩

theorem trans {d₁ d₂ : Dictionary} (h₁ : d.Extends d₁) (h₂ : d₁.Extends d₂) : d.Extends d₂ where
  name? := fun id name h => h₂.name? id name (h₁.name? id name h)
  root? := by
    intro id root hroot
    obtain ⟨root₁, hroot₁, hpaths₁⟩ := h₁.root? id root hroot
    obtain ⟨root₂, hroot₂, hpaths₂⟩ := h₂.root? id root₁ hroot₁
    exact ⟨root₂, hroot₂, fun q hq => hpaths₂ q (hpaths₁ q hq)⟩

theorem declare (hd : d.declare name = .ok d') : d.Extends d' where
  name? := by
    intro id other h
    rw [name?_eq] at h ⊢
    obtain ⟨hlt, -⟩ := List.getElem?_eq_some_iff.1 h
    rw [(names_declare hd).2, List.getElem?_append_left hlt, h]
  root? := by
    intro id root hroot
    obtain ⟨_, hscope⟩ := root?_eq_some_iff.1 hroot
    obtain ⟨hlt, -⟩ := List.getElem?_eq_some_iff.1 hscope
    exact ⟨root, (root?_declare_lt hd hlt).trans hroot, fun _ hq => hq⟩

theorem storePath (h : d.Numbered) (id : ScopeId) (path : List Label) :
    d.Extends (storePath id d path) where
  name? := by
    intro i name hname
    rw [name?_eq] at hname ⊢
    rwa [names_storePath]
  root? := by
    intro i root hroot
    by_cases hi : i = id
    · subst hi
      obtain ⟨_, hscope⟩ := root?_eq_some_iff.1 hroot
      have hordered := h.ordered _ (List.mem_of_getElem? hscope)
      exact ⟨_, (root?_storePath hroot).1, fun q hq => (Node.mem_paths_insert hordered).2 (.inr hq)⟩
    · exact ⟨root, (root?_storePath_ne hi).trans hroot, fun _ hq => hq⟩

end Extends

theorem Growth.extends (h : d.Growth d') (hd : d.Numbered) : d.Extends d' := by
  induction h with
  | refl => exact .refl d
  | declare _ declared ih => exact ih.trans (.declare declared)
  | storePath before ih => exact ih.trans (.storePath (hd.growth before) _ _)

namespace Extends
variable (h : d.Extends d') (hd : d.Sound) (hd' : d'.Sound)
include h hd hd'

theorem stores (stored : d.Stores id items) : d'.Stores id items := by
  obtain ⟨root, hroot, hheld⟩ := (stores_iff hd).1 stored
  obtain ⟨root', hroot', hpaths⟩ := h.root? id root hroot
  exact (stores_iff hd').2 ⟨root', hroot', hpaths _ hheld⟩

theorem spellsLoopless (hspells : d.SpellsLoopless above items ws) :
    d'.SpellsLoopless above items ws := by
  induction hspells with
  | nil => exact .nil
  | word _ ih => exact .word ih
  | fill named new stored _ _ ihi ihr =>
    exact .fill named new (h.stores hd hd' stored) ihi ihr

theorem looplessSentence (hsentence : d.LooplessSentence id ws) : d'.LooplessSentence id ws := by
  obtain ⟨items, stored, hspells⟩ := hsentence
  exact ⟨items, h.stores hd hd' stored, h.spellsLoopless hd hd' hspells⟩

theorem expandsLoopless (hexpands : d.ExpandsLoopless above n items out) :
    d'.ExpandsLoopless above n items out := by
  induction hexpands with
  | nil => exact .nil
  | keep _ ih => exact .keep ih
  | fill covers named new stored _ _ ihi ihr =>
    exact .fill covers named new (h.stores hd hd' stored) ihi ihr

theorem mem_patterns {pattern : Pattern} (hpattern : pattern ∈ d.patterns id) :
    pattern ∈ d'.patterns id := by
  cases hroot : d.root? id with
  | none => simp [patterns_eq_of_none hroot] at hpattern
  | some root =>
    obtain ⟨items, hheld, hshown⟩ := (mem_patterns_iff hd hroot).1 hpattern
    obtain ⟨root', hroot', hpaths⟩ := h.root? id root hroot
    refine (mem_patterns_iff hd' hroot').2 ⟨items, hpaths _ hheld, ?_⟩
    rw [← hshown]
    refine List.map_congr_left fun x hx => ?_
    cases x with
    | word w => rfl
    | slot p =>
      have hnames : p.contexts.filterMap d'.name? = p.contexts.filterMap d.name? := by
        refine List.filterMap_congr fun i hi => ?_
        have hlt := ((hd.tree hroot).fits hheld).known p hx i hi
        have hname : d.name? i = some d.scopes[i].name := by
          rw [Dictionary.name?, List.getElem?_eq_getElem hlt, Option.map_some]
        rw [hname, h.name? i _ hname]
      rw [element, element, hnames]

end Extends
end Phrasebook.Dictionary
