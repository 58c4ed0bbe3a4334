import Mathlib.Tactic.SplitIfs
import Phrasebook.Trie.Node

/-!
Looking an edge up in its list. On a list in the order of its labels the scan and the halving find
the same edge, the one that is there, and putting an edge keeps the order and replaces at most the
edge with the same label. The open places of a position are kept in the order of their names, every
place once, and obey the same laws.
-/

namespace Phrasebook

namespace Edges
variable {α : Type} {c : Char} {a b : α} {e : Char × α} {edges : Edges α}

def Sorted (edges : Edges α) : Prop := edges.Pairwise fun a b => a.1 < b.1

theorem Sorted.unique (h : Sorted edges) (ha : (c, a) ∈ edges) (hb : (c, b) ∈ edges) : a = b := by
  induction edges with
  | nil => simp at ha
  | cons e rest ih =>
    obtain ⟨he, hrest⟩ := List.pairwise_cons.1 h
    rw [List.mem_cons] at ha hb
    rcases ha with rfl | ha <;> rcases hb with hb | hb
    · exact (Prod.mk.inj hb).2.symm
    · exact absurd (he (c, b) hb) (Char.lt_irrefl c)
    · subst hb
      exact absurd (he (c, a) ha) (Char.lt_irrefl c)
    · exact ih hrest ha hb

theorem scan_eq_some_iff (h : Sorted edges) : scan c edges = some a ↔ (c, a) ∈ edges := by
  induction edges with
  | nil => simp [scan]
  | cons e rest ih =>
    obtain ⟨he, hrest⟩ := List.pairwise_cons.1 h
    by_cases hc : e.1 = c
    · have hout : (c, a) ∉ rest := fun hmem => absurd (he _ hmem) (by simp [hc])
      simp [scan, hc, hout, Prod.ext_iff, eq_comm]
    · rw [scan, if_neg hc, ih hrest, List.mem_cons]
      exact (or_iff_right fun heq => hc (by rw [← heq])).symm

theorem halve_eq_some_iff (h : Sorted edges) : halve c edges = some a ↔ (c, a) ∈ edges := by
  fun_induction halve c edges with
  | case1 edges hdrop =>
    have hlen := congrArg List.length hdrop
    rw [List.length_drop, List.length_nil] at hlen
    have hnil : edges = [] := List.eq_nil_of_length_eq_zero (by omega)
    simp [hnil]
  | case2 edges e rest hdrop hc =>
    subst hc
    have hmem : (e.1, e.2) ∈ edges := List.mem_of_mem_drop (hdrop ▸ List.mem_cons_self)
    constructor
    · intro heq
      cases heq
      exact hmem
    · intro ha
      rw [h.unique hmem ha]
  | case3 edges e rest hdrop hne hlt ih =>
    have hsplit := List.take_append_drop (edges.length / 2) edges
    rw [hdrop] at hsplit
    have hparts := h
    rw [← hsplit] at hparts
    obtain ⟨htake, hlate, -⟩ := List.pairwise_append.1 hparts
    rw [ih htake]
    constructor
    · exact List.mem_of_mem_take
    · intro ha
      rw [← hsplit, List.mem_append, List.mem_cons] at ha
      rcases ha with ha | rfl | ha
      · exact ha
      · exact absurd rfl hne
      · exact absurd ((List.pairwise_cons.1 hlate).1 _ ha) (Char.lt_asymm hlt)
  | case4 edges e rest hdrop hne hlt ih =>
    have hsplit := List.take_append_drop (edges.length / 2) edges
    rw [hdrop] at hsplit
    have hparts := h
    rw [← hsplit] at hparts
    obtain ⟨-, hlate, hacross⟩ := List.pairwise_append.1 hparts
    rw [ih (List.pairwise_cons.1 hlate).2]
    constructor
    · intro ha
      rw [← hsplit]
      simp [ha]
    · intro ha
      rw [← hsplit, List.mem_append, List.mem_cons] at ha
      rcases ha with ha | rfl | ha
      · exact absurd (hacross _ ha _ List.mem_cons_self) hlt
      · exact absurd rfl hne
      · exact ha

theorem find?_eq_some_iff (h : Sorted edges) : edges.find? c = some a ↔ (c, a) ∈ edges := by
  rw [find?]
  split_ifs
  · exact scan_eq_some_iff h
  · exact halve_eq_some_iff h

theorem mem_put_iff (h : Sorted edges) :
    e ∈ put c a edges ↔ e = (c, a) ∨ e.1 ≠ c ∧ e ∈ edges := by
  induction edges with
  | nil => simp [put]
  | cons d rest ih =>
    obtain ⟨hd, hrest⟩ := List.pairwise_cons.1 h
    rw [put]
    split_ifs with hlt heq
    · have hne : ∀ x ∈ d :: rest, x.1 ≠ c := by
        intro x hx
        rcases List.mem_cons.1 hx with rfl | hx
        · exact (Char.ne_of_lt hlt).symm
        · exact (Char.ne_of_lt (Char.lt_trans hlt (hd x hx))).symm
      rw [List.mem_cons]
      exact or_congr_right ⟨fun he => ⟨hne e he, he⟩, fun he => he.2⟩
    · subst heq
      rw [List.mem_cons, List.mem_cons]
      refine or_congr_right ⟨fun he => ⟨(Char.ne_of_lt (hd e he)).symm, .inr he⟩, ?_⟩
      intro hm
      obtain ⟨hne, rfl | he⟩ := hm
      · exact absurd rfl hne
      · exact he
    · rw [List.mem_cons, ih hrest, List.mem_cons]
      constructor
      · intro hm
        rcases hm with rfl | he | he
        · exact .inr ⟨Ne.symm heq, .inl rfl⟩
        · exact .inl he
        · exact .inr ⟨he.1, .inr he.2⟩
      · intro hm
        rcases hm with he | ⟨hne, rfl | he⟩
        · exact .inr (.inl he)
        · exact .inl rfl
        · exact .inr (.inr ⟨hne, he⟩)

theorem sorted_put (h : Sorted edges) : Sorted (put c a edges) := by
  induction edges with
  | nil => simp [put, Sorted]
  | cons d rest ih =>
    obtain ⟨hd, hrest⟩ := List.pairwise_cons.1 h
    rw [put]
    split_ifs with hlt heq
    · refine List.pairwise_cons.2 ⟨fun x hx => ?_, h⟩
      rcases List.mem_cons.1 hx with rfl | hx
      · exact hlt
      · exact Char.lt_trans hlt (hd x hx)
    · subst heq
      exact List.pairwise_cons.2 ⟨hd, hrest⟩
    · refine List.pairwise_cons.2 ⟨fun x hx => ?_, ih hrest⟩
      rcases (mem_put_iff hrest).1 hx with rfl | hx
      · exact Std.lt_of_le_of_ne (Char.not_lt.1 hlt) (Ne.symm heq)
      · exact hd x hx.2

theorem put_of_mem (h : Sorted edges) (hmem : (c, a) ∈ edges) : put c a edges = edges := by
  induction edges with
  | nil => cases hmem
  | cons e rest ih =>
    obtain ⟨he, hrest⟩ := List.pairwise_cons.1 h
    rcases List.mem_cons.1 hmem with rfl | hmem
    · rw [put, if_neg (Char.lt_irrefl c), if_pos rfl]
    · have hlt := he _ hmem
      rw [put, if_neg (Char.lt_asymm hlt), if_neg (Char.ne_of_lt hlt).symm, ih hrest hmem]

end Edges

namespace Slots
variable {α : Type} {p : Placeholder} {a b : α} {s : Placeholder × α} {slots : Slots α}

def Sorted (slots : Slots α) : Prop := slots.Pairwise fun a b => a.1.name ≤ b.1.name ∧ a.1 ≠ b.1

theorem find?_eq_some_iff (h : Sorted slots) : slots.find? p = some a ↔ (p, a) ∈ slots := by
  induction slots with
  | nil => simp [find?]
  | cons s rest ih =>
    obtain ⟨hs, hrest⟩ := List.pairwise_cons.1 h
    by_cases hp : s.1 = p
    · have hout : (p, a) ∉ rest := fun hmem => (hs _ hmem).2 hp
      simp [find?, hp, hout, Prod.ext_iff, eq_comm]
    · rw [find?, if_neg hp, ih hrest, List.mem_cons]
      exact (or_iff_right fun heq => hp (by rw [← heq])).symm

theorem Sorted.unique (h : Sorted slots) (ha : (p, a) ∈ slots) (hb : (p, b) ∈ slots) : a = b := by
  have hfound := (find?_eq_some_iff h).2 ha
  rw [(find?_eq_some_iff h).2 hb] at hfound
  exact (Option.some.inj hfound).symm

theorem mem_put_iff (h : Sorted slots) :
    s ∈ put p a slots ↔ s = (p, a) ∨ s.1 ≠ p ∧ s ∈ slots := by
  induction slots with
  | nil => simp [put]
  | cons d rest ih =>
    obtain ⟨hd, hrest⟩ := List.pairwise_cons.1 h
    rw [put]
    split_ifs with heq hlt
    · rw [List.mem_cons, List.mem_cons]
      refine or_congr_right ⟨fun hs => ⟨fun hp => (hd s hs).2 (heq.trans hp.symm), .inr hs⟩, ?_⟩
      intro hm
      obtain ⟨hne, rfl | hs⟩ := hm
      · exact absurd heq hne
      · exact hs
    · have hne : ∀ x ∈ d :: rest, x.1 ≠ p := by
        intro x hx heq
        subst heq
        rcases List.mem_cons.1 hx with rfl | hx
        · exact heq rfl
        · exact String.not_lt.2 (hd x hx).1 hlt
      rw [List.mem_cons]
      exact or_congr_right ⟨fun hs => ⟨hne s hs, hs⟩, fun hs => hs.2⟩
    · rw [List.mem_cons, ih hrest, List.mem_cons]
      constructor
      · intro hm
        rcases hm with rfl | hs | hs
        · exact .inr ⟨heq, .inl rfl⟩
        · exact .inl hs
        · exact .inr ⟨hs.1, .inr hs.2⟩
      · intro hm
        rcases hm with hs | ⟨hne, rfl | hs⟩
        · exact .inr (.inl hs)
        · exact .inl rfl
        · exact .inr (.inr ⟨hne, hs⟩)

theorem sorted_put (h : Sorted slots) : Sorted (put p a slots) := by
  induction slots with
  | nil => simp [put, Sorted]
  | cons d rest ih =>
    obtain ⟨hd, hrest⟩ := List.pairwise_cons.1 h
    rw [put]
    split_ifs with heq hlt
    · subst heq
      exact List.pairwise_cons.2 ⟨hd, hrest⟩
    · refine List.pairwise_cons.2 ⟨fun x hx => ?_, h⟩
      rcases List.mem_cons.1 hx with rfl | hx
      · exact ⟨Std.le_of_lt hlt, Ne.symm heq⟩
      · refine ⟨String.le_trans (Std.le_of_lt hlt) (hd x hx).1, ?_⟩
        intro heq
        subst heq
        exact String.not_lt.2 (hd x hx).1 hlt
    · refine List.pairwise_cons.2 ⟨fun x hx => ?_, ih hrest⟩
      rcases (mem_put_iff hrest).1 hx with rfl | hx
      · exact ⟨String.not_lt.1 hlt, heq⟩
      · exact hd x hx.2

theorem put_of_mem (h : Sorted slots) (hmem : (p, a) ∈ slots) : put p a slots = slots := by
  induction slots with
  | nil => cases hmem
  | cons s rest ih =>
    obtain ⟨hs, hrest⟩ := List.pairwise_cons.1 h
    rcases List.mem_cons.1 hmem with rfl | hmem
    · rw [put, if_pos rfl]
    · obtain ⟨hle, hne⟩ := hs _ hmem
      rw [put, if_neg hne, if_neg (String.not_lt.2 hle), ih hrest hmem]

end Slots
end Phrasebook
