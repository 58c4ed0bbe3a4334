import Phrasebook.Proofs.Grammar.Documents
import Phrasebook.Proofs.Json.Flaws

/-!
A document is read in one format only. All bytes of a JSON document are high, and where they are, what
stands for a length is longer than any document.
-/

namespace Phrasebook
open Text (Bytes utf8)
open Json (IsLow)

namespace Binary
variable {α : Type} {put : α → Bytes} {l : List α} {a : α} {P : α → Prop} {s digits : Bytes}

theorem length_putLength (n : Nat) : (putLength n).length = 8 := length_littleEnd 8 n

theorem length_le_length_putList (ha : a ∈ l) : (put a).length ≤ (putList put l).length := by
  obtain ⟨before, after, rfl⟩ := List.append_of_mem ha
  simp only [putList, List.flatMap_append, List.flatMap_cons, List.length_append]
  omega

theorem count_le_length_putList (hput : ∀ a, 0 < (put a).length) (l : List α) :
    l.length ≤ (putList put l).length := by
  have hitems : l.length ≤ (l.flatMap put).length := by
    induction l with
    | nil => exact Nat.le_refl _
    | cons a l ih =>
      have ha := hput a
      rw [List.flatMap_cons, List.length_append, List.length_cons]
      omega
  rw [putList, List.length_append]
  omega

theorem length_putText_pos (s : String) : 0 < (putText s).length := by
  rw [putText, List.length_append, length_putLength]
  omega

theorem length_putList_pos : 0 < (putList put l).length := by
  rw [putList, List.length_append, length_putLength]
  omega

theorem le_ofLittleEnd (h : ∀ b ∈ digits, ¬ IsLow b) (hne : digits ≠ []) :
    9 * 256 ^ (digits.length - 1) ≤ ofLittleEnd digits := by
  induction digits with
  | nil => exact absurd rfl hne
  | cons b digits ih =>
    obtain ⟨hb, hdigits⟩ := List.forall_mem_cons.1 h
    rw [ofLittleEnd, List.length_cons, Nat.add_sub_cancel]
    cases digits with
    | nil =>
      have hb' : 9 ≤ b.toNat := Nat.not_lt.1 hb
      simpa using Nat.le_add_right_of_le hb'
    | cons b' digits =>
      have hrest := ih hdigits (by simp)
      rw [List.length_cons, Nat.add_sub_cancel] at hrest
      rw [List.length_cons, Nat.pow_succ]
      omega

theorem length_of_high (h : ∀ b ∈ s, ¬ IsLow b) : Binary.length s = .error .short ∨
    ∃ n, 2 ^ 59 ≤ n ∧ Binary.length s = .ok (n, s.drop 8) := by
  rw [Binary.length, number, take]
  by_cases hshort : s.length < 8
  · exact .inl (by rw [if_pos hshort]; rfl)
  · have hlength : (s.take 8).length = 8 := by
      rw [List.length_take]
      omega
    have hhuge := le_ofLittleEnd (fun b hb => h b (List.mem_of_mem_take hb))
      (List.ne_nil_of_length_pos (by omega : 0 < (s.take 8).length))
    rw [hlength] at hhuge
    exact .inr ⟨_, le_trans (by decide) hhuge, by rw [if_neg hshort]; rfl⟩

theorem text_eq_short (h : ∀ b ∈ s, ¬ IsLow b) (hs : s.length < 2 ^ 59) : text s = .error .short := by
  rcases length_of_high h with hlength | ⟨n, hn, hlength⟩
  · rw [text, hlength]
    rfl
  · have hshort : (s.drop 8).length < n := by
      rw [List.length_drop]
      omega
    rw [text, hlength]
    simp only [bind, Except.bind, take, if_pos hshort]

theorem list_eq_short {item : Reader α} (h : ∀ b ∈ s, ¬ IsLow b)
    (hitem : item (s.drop 8) = .error .short) : list item s = .error .short := by
  rcases length_of_high h with hlength | ⟨n, hn, hlength⟩
  · rw [list, hlength]
    rfl
  · obtain ⟨k, rfl⟩ := Nat.exists_eq_succ_of_ne_zero (by omega : n ≠ 0)
    rw [list, hlength]
    simp only [bind, Except.bind, times, hitem]

theorem short_of_length (hput : ∀ a, 0 < (put a).length) (h : (putList put l).length < 2 ^ 64)
    (hP : ∀ a, (put a).length < 2 ^ 64 → P a) : Short P l :=
  ⟨(count_le_length_putList hput l).trans_lt h,
    fun a ha => hP a ((length_le_length_putList ha).trans_lt h)⟩

theorem shortText_of_length {x : String} (h : (putText x).length < 2 ^ 64) : ShortText x := by
  rw [putText, List.length_append] at h
  exact (Nat.le_add_left _ _).trans_lt h

end Binary

namespace Grammar
open Json (Ending Flaw Tree liftFlaw)
open Json.Tree (Flawed)

variable {g g' : Grammar} {format format' : Format} {depth : Nat} {tree : Tree} {s : Bytes}

theorem liftFlaw_eq_ok_iff {α : Type} {x : Except Flaw α} {a : α} :
    liftFlaw x = .ok a ↔ x = .ok a := by
  cases x <;> simp [liftFlaw]

theorem exists_value_of_patternsOfTrees {items : List Tree} {patterns : List Pattern}
    (h : patternsOfTrees depth items = .ok patterns) (hmem : tree ∈ items) :
    ∃ v, tree.value depth = .ok v := by
  induction items generalizing patterns with
  | nil => exact nomatch hmem
  | cons t items ih =>
    obtain ⟨v, hv, h⟩ := bind_eq_ok_iff.1 h
    obtain ⟨_, -, h⟩ := bind_eq_ok_iff.1 h
    obtain ⟨_, hitems, -⟩ := bind_eq_ok_iff.1 h
    rcases List.mem_cons.1 hmem with rfl | hmem
    · exact ⟨v, liftFlaw_eq_ok_iff.1 hv⟩
    · exact ih hitems hmem

theorem patternsOfTree_ne_ok (h : Flawed tree) (patterns : List Pattern) :
    patternsOfTree depth tree ≠ .ok patterns := by
  intro hok
  unfold patternsOfTree at hok
  split at hok
  · rename_i items ending
    obtain ⟨_, hitems, hok⟩ := bind_eq_ok_iff.1 hok
    obtain ⟨_, hending, -⟩ := bind_eq_ok_iff.1 hok
    cases h with
    | here h =>
      cases ending with
      | closed => exact h
      | stopped => cases hending
    | item hmem h =>
      obtain ⟨v, hv⟩ := exists_value_of_patternsOfTrees hitems hmem
      exact Tree.value_ne_ok h _ v hv
  · exact Tree.mismatch_ne_ok _ _ _ hok

variable {members : List (Except Flaw String × Tree)} {m : Except Flaw String × Tree}
  {scopes scopes' : NameMap (List Pattern)}

theorem exists_patternsOfTree_of_mem (h : scopesOfMembers depth members scopes = .ok scopes')
    (hmem : m ∈ members) : ∃ patterns, patternsOfTree depth m.2 = .ok patterns := by
  induction members generalizing scopes with
  | nil => exact nomatch hmem
  | cons t members ih =>
    obtain ⟨_, -, h⟩ := bind_eq_ok_iff.1 h
    obtain ⟨patterns, hpatterns, h⟩ := bind_eq_ok_iff.1 h
    rcases List.mem_cons.1 hmem with rfl | hmem
    · exact ⟨patterns, hpatterns⟩
    · exact ih h hmem

theorem scopesOfTree_ne_ok (h : Flawed tree) (scopes : NameMap (List Pattern)) :
    scopesOfTree depth tree ≠ .ok scopes := by
  intro hok
  unfold scopesOfTree at hok
  split at hok
  · rename_i members ending
    obtain ⟨_, hmembers, hok⟩ := bind_eq_ok_iff.1 hok
    obtain ⟨_, hending, -⟩ := bind_eq_ok_iff.1 hok
    cases h with
    | here h =>
      cases ending with
      | closed => exact h
      | stopped => cases hending
    | member hmem h =>
      obtain ⟨patterns, hpatterns⟩ := exists_patternsOfTree_of_mem hmembers hmem
      exact patternsOfTree_ne_ok h patterns hpatterns
  · exact Tree.mismatch_ne_ok _ _ _ hok

theorem not_flawed_of_findScopes {found found' : Option (NameMap (List Pattern))}
    (h : findScopes depth members found = .ok found') (hmem : m ∈ members) : ¬ Flawed m.2 := by
  induction members generalizing found with
  | nil => exact nomatch hmem
  | cons t members ih =>
    obtain ⟨_, -, h⟩ := bind_eq_ok_iff.1 h
    split_ifs at h
    · obtain ⟨scopes, hscopes, h⟩ := bind_eq_ok_iff.1 h
      rcases List.mem_cons.1 hmem with rfl | hmem
      · exact fun hflawed => scopesOfTree_ne_ok hflawed scopes hscopes
      · exact ih h hmem
    · obtain ⟨_, hskip, h⟩ := bind_eq_ok_iff.1 h
      rcases List.mem_cons.1 hmem with rfl | hmem
      · exact fun hflawed => Tree.skip_ne_ok hflawed (liftFlaw_eq_ok_iff.1 hskip)
      · exact ih h hmem

theorem ofTree_ne_ok (h : Flawed tree) (g : Grammar) : ofTree depth tree ≠ .ok g := by
  intro hok
  unfold ofTree at hok
  split at hok
  · rename_i members ending
    obtain ⟨_, hmembers, hok⟩ := bind_eq_ok_iff.1 hok
    obtain ⟨_, hending, -⟩ := bind_eq_ok_iff.1 hok
    cases h with
    | here h =>
      cases ending with
      | closed => exact h
      | stopped => cases hending
    | member hmem h => exact not_flawed_of_findScopes hmembers hmem h
  · obtain ⟨_, -, hok⟩ := bind_eq_ok_iff.1 hok
    cases hok
  · rename_i t rest ending
    obtain ⟨scopes, hscopes, hok⟩ := bind_eq_ok_iff.1 hok
    obtain ⟨_, hending, -⟩ := bind_eq_ok_iff.1 hok
    -- Nothing may follow the only item, so the flaw is in it.
    obtain ⟨rfl, rfl⟩ := Ending.eq_of_after (liftFlaw_eq_ok_iff.1 hending)
    cases h with
    | here h => exact h
    | item hmem h =>
      cases List.mem_singleton.1 hmem
      exact scopesOfTree_ne_ok h scopes hscopes
  · exact Tree.mismatch_ne_ok _ _ _ hok

theorem high_of_ofJsonBytes (h : ofJsonBytes s = .ok g) : ∀ b ∈ s, ¬ IsLow b := by
  intro b hb hlow
  obtain ⟨hread, hempty⟩ := ofJsonBytes_eq_ok_iff.1 h
  rcases Tree.flawed_read_of_low hlow hb with hflawed | hrest
  · exact ofTree_ne_ok hflawed g hread
  · exact hrest hempty

theorem StoredElement.length_put_pos (e : StoredElement) : 0 < e.put.length := by
  cases e <;> exact Nat.succ_pos _

theorem StoredElement.short_of_length {e : StoredElement} (h : e.put.length < 2 ^ 64) : e.Short := by
  cases e with
  | word text =>
    rw [put, List.length_append] at h
    exact Binary.shortText_of_length ((Nat.le_add_left _ _).trans_lt h)
  | lookup aliases =>
    rw [put, List.length_append] at h
    refine Binary.short_of_length (fun b => ?_) ((Nat.le_add_left _ _).trans_lt h) fun b hb => ?_
    · rw [putAlias, List.length_append]
      exact Nat.lt_of_lt_of_le (Binary.length_putText_pos b.1) (Nat.le_add_right _ _)
    · rw [putAlias, List.length_append] at hb
      refine ⟨Binary.shortText_of_length ((Nat.le_add_right _ _).trans_lt hb), ?_⟩
      exact Binary.short_of_length Binary.length_putText_pos ((Nat.le_add_left _ _).trans_lt hb)
        fun _ => Binary.shortText_of_length

theorem length_putScope_pos (s : String × List Pattern) : 0 < (putScope s).length := by
  rw [putScope, List.length_append]
  exact Nat.lt_of_lt_of_le (Binary.length_putText_pos s.1) (Nat.le_add_right _ _)

theorem short_of_length (h : g.binary.length < 2 ^ 64) : g.Short := by
  refine Binary.short_of_length length_putScope_pos h fun s hs => ?_
  rw [putScope, List.length_append] at hs
  refine ⟨Binary.shortText_of_length ((Nat.le_add_right _ _).trans_lt hs), ?_⟩
  refine Binary.short_of_length (fun _ => Binary.length_putList_pos)
    ((Nat.le_add_left _ _).trans_lt hs) fun p hp => ?_
  exact Binary.short_of_length (fun e => (StoredElement.ofElement e).length_put_pos) hp
    fun _ => StoredElement.short_of_length

theorem ofBinary_eq_short (h : ∀ b ∈ s, ¬ IsLow b) (hs : s.length < 2 ^ 59) :
    ofBinary s = .error (.layout .short) := by
  have hname : Binary.text (s.drop 8) = .error .short :=
    Binary.text_eq_short (fun b hb => h b (List.mem_of_mem_drop hb))
      (Nat.lt_of_le_of_lt (List.drop_sublist 8 s).length_le hs)
  have hread : readScopes s = .error .short := by
    refine Binary.list_eq_short h ?_
    rw [Binary.both, hname]
    rfl
  simp only [ofBinary, hread]

theorem format_unique (hs : s.length < 2 ^ 59) (h : decode format s = .ok g)
    (h' : decode format' s = .ok g') : format = format' := by
  have hboth : ∀ {g g'}, ofJsonBytes s = .ok g → ofBinary s ≠ .ok g' := by
    intro g g' hjson hbinary
    rw [ofBinary_eq_short (high_of_ofJsonBytes hjson) hs] at hbinary
    cases hbinary
  cases format <;> cases format'
  · rfl
  · exact absurd (decode_binary_eq_ok_iff.1 h') (hboth (decode_json_eq_ok_iff.1 h))
  · exact absurd (decode_binary_eq_ok_iff.1 h) (hboth (decode_json_eq_ok_iff.1 h'))
  · rfl

def Storable (g : Grammar) (format : Format) : Prop := (g.encode format).length < 2 ^ 59

theorem Storable.fits (h : g.Storable format) : g.Fits format := by
  cases format with
  | json => trivial
  | binary => exact short_of_length (Nat.lt_trans h (by decide))

theorem eq_of_decode_encode (hfilled : g.Filled) (hstorable : g.Storable format)
    (h : decode format' (g.encode format) = .ok g') : format' = format ∧ g' = g := by
  have hown := decode_encode hfilled hstorable.fits
  cases format_unique hstorable h hown
  exact ⟨rfl, Except.ok.inj (h.symm.trans hown)⟩

theorem decode_encode_iff (hfilled : g.Filled) (hstorable : g.Storable format) :
    decode format' (g.encode format) = .ok g ↔ format' = format := by
  constructor
  · exact fun h => (eq_of_decode_encode hfilled hstorable h).1
  · rintro rfl
    exact decode_encode hfilled hstorable.fits

end Grammar
end Phrasebook
