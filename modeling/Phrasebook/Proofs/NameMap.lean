import Mathlib.Data.List.Induction
import Mathlib.Data.List.Nodup
import Mathlib.Data.List.Perm.Basic
import Mathlib.Tactic.SplitIfs
import Phrasebook.NameMap

/-!
Values under names. A map is told by its entries whatever their order: putting some under distinct
names together in any order gives the one map that has them.
-/

namespace Phrasebook.NameMap

variable {β : Type} {m m' : NameMap β} {name : String} {value : β} {e : String × β}
  {l : List (String × β)}

theorem mem_put_iff (h : l.Pairwise fun a b => a.1 < b.1) :
    e ∈ put name value l ↔ e = (name, value) ∨ e.1 ≠ name ∧ e ∈ l := by
  induction l with
  | nil => simp [put]
  | cons d rest ih =>
    obtain ⟨hd, hrest⟩ := List.pairwise_cons.1 h
    rw [put]
    split_ifs with hlt heq
    · have hne : ∀ x ∈ d :: rest, x.1 ≠ name := by
        intro x hx
        rcases List.mem_cons.1 hx with rfl | hx
        · exact (String.ne_of_lt hlt).symm
        · exact (String.ne_of_lt (String.lt_trans hlt (hd x hx))).symm
      rw [List.mem_cons]
      exact or_congr_right ⟨fun he => ⟨hne e he, he⟩, fun he => he.2⟩
    · subst heq
      rw [List.mem_cons, List.mem_cons]
      refine or_congr_right ⟨fun he => ⟨(String.ne_of_lt (hd e he)).symm, .inr he⟩, ?_⟩
      intro hm
      obtain ⟨hne, rfl | he⟩ := hm
      · exact absurd rfl hne
      · exact he
    · rw [List.mem_cons, ih hrest, List.mem_cons]
      constructor
      · intro hm
        rcases hm with rfl | he | he
        · exact .inr ⟨Ne.symm heq, .inl rfl⟩
        · exact .inl he
        · exact .inr ⟨he.1, .inr he.2⟩
      · intro hm
        rcases hm with he | ⟨hne, rfl | he⟩
        · exact .inr (.inl he)
        · exact .inl rfl
        · exact .inr (.inr ⟨hne, he⟩)

theorem names_nodup (m : NameMap β) : m.names.Nodup :=
  List.pairwise_map.2 (m.sorted.imp fun h => String.ne_of_lt h)

theorem entries_nodup (m : NameMap β) : m.entries.Nodup := m.names_nodup.of_map

theorem lookup_eq_some_iff (h : (l.map Prod.fst).Nodup) :
    l.lookup name = some value ↔ (name, value) ∈ l := by
  induction l with
  | nil => simp
  | cons d rest ih =>
    obtain ⟨hd, hrest⟩ := List.nodup_cons.1 h
    rw [List.lookup_cons, List.mem_cons]
    by_cases hname : name = d.1
    · subst hname
      have habsent : (d.1, value) ∉ rest := fun hmem => hd (List.mem_map.2 ⟨_, hmem, rfl⟩)
      simp [habsent, Prod.ext_iff, eq_comm]
    · rw [beq_false_of_ne hname]
      simp [ih hrest, Prod.ext_iff, hname]

theorem get?_eq_some_iff : m.get? name = some value ↔ (name, value) ∈ m.entries :=
  lookup_eq_some_iff m.names_nodup

theorem get?_insert (m : NameMap β) (name k : String) (value : β) :
    (m.insert name value).get? k = if k = name then some value else m.get? k := by
  refine Option.ext fun v => ?_
  rw [get?_eq_some_iff, insert, mem_put_iff m.sorted]
  split_ifs with hk
  · simp [hk, eq_comm]
  · simp [hk, get?_eq_some_iff]

theorem ext_mem (h : ∀ e, e ∈ m.entries ↔ e ∈ m'.entries) : m = m' := by
  have hperm : m.entries.Perm m'.entries :=
    (List.perm_ext_iff_of_nodup m.entries_nodup m'.entries_nodup).2 h
  refine NameMap.ext (hperm.eq_of_pairwise ?_ m.sorted m'.sorted)
  intro a b _ _ hab hba
  exact absurd hba (String.lt_asymm hab)

def LastOf (l : List (String × β)) (e : String × β) : Prop :=
  ∃ before after, l = before ++ e :: after ∧ e.1 ∉ after.map Prod.fst

theorem lastOf_concat_iff {d : String × β} :
    LastOf (l ++ [d]) e ↔ e = d ∨ e.1 ≠ d.1 ∧ LastOf l e := by
  constructor
  · intro h
    obtain ⟨before, after, heq, hnew⟩ := h
    rcases List.eq_nil_or_concat after with rfl | ⟨after, d', rfl⟩
    · obtain ⟨-, hd⟩ := List.append_inj' heq rfl
      exact .inl (List.singleton_inj.1 hd).symm
    · rw [List.concat_eq_append, ← List.cons_append, ← List.append_assoc] at heq
      obtain ⟨rfl, hd⟩ := List.append_inj' heq rfl
      cases hd
      simp only [List.concat_eq_append, List.map_append, List.mem_append, not_or] at hnew
      exact .inr ⟨by simpa using hnew.2, before, after, rfl, hnew.1⟩
  · intro h
    rcases h with rfl | ⟨hne, before, after, rfl, hnew⟩
    · exact ⟨l, [], rfl, List.not_mem_nil⟩
    · refine ⟨before, after ++ [d], by simp, ?_⟩
      rw [List.map_append, List.mem_append, not_or]
      exact ⟨hnew, by simpa using hne⟩

theorem mem_ofList_iff_lastOf : e ∈ (ofList l).entries ↔ LastOf l e := by
  induction l using List.reverseRecOn with
  | nil => simp [ofList, empty, LastOf]
  | append_singleton l d ih =>
    rw [lastOf_concat_iff, ← ih, ofList, List.foldl_append, ← ofList]
    exact mem_put_iff (ofList l).sorted

theorem lastOf_cons_iff {d : String × β} :
    LastOf (d :: l) e ↔ e = d ∧ e.1 ∉ l.map Prod.fst ∨ LastOf l e := by
  constructor
  · intro h
    obtain ⟨before, after, heq, hnew⟩ := h
    cases before with
    | nil =>
      obtain ⟨rfl, rfl⟩ := List.cons.inj heq
      exact .inl ⟨rfl, hnew⟩
    | cons d' before =>
      obtain ⟨rfl, rfl⟩ := List.cons.inj heq
      exact .inr ⟨before, after, rfl, hnew⟩
  · intro h
    rcases h with ⟨rfl, hnew⟩ | ⟨before, after, rfl, hnew⟩
    · exact ⟨[], l, rfl, hnew⟩
    · exact ⟨d :: before, after, rfl, hnew⟩

theorem lastOf_map_iff {γ : Type} {f : String × β → String × γ} (hf : ∀ d, (f d).1 = d.1)
    {e : String × γ} : LastOf (l.map f) e ↔ ∃ d, LastOf l d ∧ f d = e := by
  induction l with
  | nil => simp [LastOf]
  | cons d l ih =>
    have hnames : (l.map f).map Prod.fst = l.map Prod.fst := by simp [hf]
    rw [List.map_cons, lastOf_cons_iff, ih, hnames]
    constructor
    · intro h
      rcases h with ⟨rfl, hnew⟩ | ⟨d', hlast, rfl⟩
      · exact ⟨d, lastOf_cons_iff.2 (.inl ⟨rfl, hf d ▸ hnew⟩), rfl⟩
      · exact ⟨d', lastOf_cons_iff.2 (.inr hlast), rfl⟩
    · intro h
      obtain ⟨d', hlast, rfl⟩ := h
      rcases lastOf_cons_iff.1 hlast with ⟨rfl, hnew⟩ | hlast
      · exact .inl ⟨rfl, (hf d').symm ▸ hnew⟩
      · exact .inr ⟨d', hlast, rfl⟩

theorem entries_ofList_eq_nil_iff : (ofList l).entries = [] ↔ l = [] := by
  constructor
  · intro h
    rcases List.eq_nil_or_concat l with rfl | ⟨before, d, rfl⟩
    · rfl
    · rw [List.concat_eq_append] at h
      have hlast : d ∈ (ofList (before ++ [d])).entries :=
        mem_ofList_iff_lastOf.2 (lastOf_concat_iff.2 (.inl rfl))
      rw [h] at hlast
      cases hlast
  · intro h
    rw [h]
    rfl

theorem LastOf.mem (h : LastOf l e) : e ∈ l := by
  obtain ⟨before, after, rfl, -⟩ := h
  exact List.mem_append_right _ List.mem_cons_self

theorem mem_of_mem_ofList (h : e ∈ (ofList l).entries) : e ∈ l := (mem_ofList_iff_lastOf.1 h).mem

theorem mem_ofList_iff (h : (l.map Prod.fst).Nodup) : e ∈ (ofList l).entries ↔ e ∈ l := by
  refine ⟨mem_of_mem_ofList, fun he => mem_ofList_iff_lastOf.2 ?_⟩
  obtain ⟨before, after, rfl⟩ := List.append_of_mem he
  rw [List.map_append, List.map_cons] at h
  exact ⟨before, after, rfl, (List.nodup_cons.1 (List.nodup_append.1 h).2.1).1⟩

theorem length_put_le (name : String) (value : β) (l : List (String × β)) :
    (put name value l).length ≤ l.length + 1 := by
  induction l with
  | nil => exact Nat.le_refl _
  | cons d rest ih =>
    rw [put]
    split_ifs <;> simp only [List.length_cons] <;> omega

theorem length_ofList_le (l : List (String × β)) : (ofList l).entries.length ≤ l.length := by
  have hfold : ∀ m : NameMap β, (l.foldl (fun m d => m.insert d.1 d.2) m).entries.length ≤
      m.entries.length + l.length := by
    induction l with
    | nil => exact fun m => Nat.le_refl _
    | cons d rest ih =>
      intro m
      have hput : (m.insert d.1 d.2).entries.length ≤ m.entries.length + 1 := length_put_le _ _ _
      have hrest := ih (m.insert d.1 d.2)
      rw [List.foldl_cons, List.length_cons]
      omega
  exact Nat.le_trans (hfold empty) (by simp [empty])

theorem ofList_entries (m : NameMap β) : ofList m.entries = m :=
  ext_mem fun _ => mem_ofList_iff m.names_nodup

end Phrasebook.NameMap
