import Phrasebook.Proofs.Json.Flaws

/-!
The beginning of a text. Where a text is cut off, the token there is broken, or it is a number that may be
longer in the whole text, or nothing is missing of it. So from a beginning no value is read but the one of
the whole text, numbers apart, and only blanks come after it.
-/

namespace Phrasebook.Json
open Text (Bytes utf8)

variable {s t : Bytes} {b : UInt8}

theorem Quotation.read_append {n : Nat} {r : Bytes} (h : (read n s).rest = .ok r) (more : Bytes) :
    read n (s ++ more) = ⟨(read n s).pieces, .ok (r ++ more)⟩ := by
  fun_induction read n s with
  | case1 => cases h
  | case2 n s =>
    cases h
    rfl
  | case3 => cases h
  | case4 n a b c d s a' b' c' d' hd hc hb ha ih =>
    simp only [List.cons_append, read, ha, hb, hc, hd, ih h, cons]
  | case5 => cases h
  | case6 => cases h
  | case7 n e s hlong he b hb ih =>
    simp [read, he, hb, ih h, cons]
  | case8 => cases h
  | case9 => cases h
  | case10 n b s hquote hlone hcode hescape hcontrol ih =>
    have hback : b ≠ 0x5c := by
      rintro rfl
      cases s with
      | nil => exact hlone rfl rfl
      | cons e s => exact hescape e s rfl rfl
    simp [read, hcontrol, ih h, cons, hback]

theorem digits_append_of_eq {ds : Bytes} (h : digits s = (ds, t)) (ht : t ≠ []) (more : Bytes) :
    digits (s ++ more) = (ds, t ++ more) := by
  cases h
  have hsome : ¬ (s.dropWhile isDigit).isEmpty := mt List.isEmpty_iff.1 ht
  have hshort : ¬ (s.takeWhile isDigit).length = s.length := by
    intro heq
    have hsplit := congrArg List.length (List.takeWhile_append_dropWhile (p := isDigit) (l := s))
    rw [List.length_append, heq] at hsplit
    exact ht (List.length_eq_zero_iff.1 (Nat.add_eq_left.1 hsplit))
  simp only [digits, List.takeWhile_append, List.dropWhile_append, if_neg hshort, if_neg hsome]

theorem scanWhole_append {n : Nat} {ds : Bytes} (h : scanWhole n s = .ok ds t) (ht : t ≠ [])
    (more : Bytes) : scanWhole n (s ++ more) = .ok ds (t ++ more) := by
  have hdigits : digits s = ((digits s).1, t) := by rw [rest_scanWhole h]
  rw [scanWhole, hdigits] at h
  rw [scanWhole, digits_append_of_eq hdigits ht]
  split at h
  · exact absurd h noDigits_ne_ok
  · cases h
  · simp_all

theorem scanFraction_append {n : Nat} {ds : Option Bytes} (h : scanFraction n s = .ok ds t) (ht : t ≠ [])
    (more : Bytes) : scanFraction n (s ++ more) = .ok ds (t ++ more) := by
  rw [scanFraction.eq_def] at h
  split at h
  · rename_i s
    split at h
    · exact absurd h noDigits_ne_ok
    · rename_i ds _ hsome hds
      cases h
      obtain ⟨d, ds, rfl⟩ := List.exists_cons_of_ne_nil hsome
      rw [List.cons_append, scanFraction, digits_append_of_eq hds ht]
  · rename_i hpoint
    cases h
    obtain ⟨b, s, rfl⟩ := List.exists_cons_of_ne_nil ht
    have hb : b ≠ 0x2e := fun hb => hpoint s (hb ▸ rfl)
    simp [scanFraction, hb]

theorem scanExponent_append {n : Nat} {e : Option (Bool × Bytes)} (h : scanExponent n s = .ok e t)
    (ht : t ≠ []) (more : Bytes) : scanExponent n (s ++ more) = .ok e (t ++ more) := by
  rw [scanExponent.eq_def] at h
  split at h
  · cases h
    exact absurd rfl ht
  · rename_i c s
    rw [List.cons_append, scanExponent.eq_def]
    simp only
    split_ifs at h ⊢ with hc
    · cases h
      rfl
    · split at h
      rename_i negative n' s' hsign
      split at h
      · exact absurd h noDigits_ne_ok
      · rename_i ds _ hsome hds
        cases h
        obtain ⟨d, ds, rfl⟩ := List.exists_cons_of_ne_nil hsome
        have hmore := digits_append_of_eq hds ht more
        -- Both signs are read as such; without one the digits begin here.
        split at hsign
        · cases hsign
          simp only [List.cons_append, hmore]
        · cases hsign
          simp only [List.cons_append, hmore]
        · rename_i hminus hplus
          cases hsign
          cases s with
          | nil => cases hds
          | cons x s =>
            have hx : x ≠ 0x2d ∧ x ≠ 0x2b :=
              ⟨fun hx => hminus s (hx ▸ rfl), fun hx => hplus s (hx ▸ rfl)⟩
            rw [List.cons_append] at hmore ⊢
            simp [hx.1, hx.2, hmore]

/-- What is scanned from a beginning is a broken token, or a number up to its end, or else the first token
of any text that begins so. -/
def Cuts (f : Bytes → Token × Bytes) : Prop := ∀ s more, (f s).1.isBroken = true ∨
  (∃ n, f s = (.number n, [])) ∨ f (s ++ more) = ((f s).1, (f s).2 ++ more)

theorem cuts_quotation (n : Nat) : Cuts fun s => (Quotation.read n s).token := by
  intro s more
  cases hrest : (Quotation.read n s).rest with
  | error f =>
    left
    simp only [Quotation.token, hrest]
    rfl
  | ok rest =>
    right; right
    simp only [Quotation.token, hrest, Quotation.read_append hrest]
    rfl

theorem cuts_scanNumber (negative : Bool) : Cuts (scanNumber negative) := by
  intro s more
  cases h₀ : scanWhole negative.toNat s with
  | broken wanted skipped =>
    left
    simp only [scanNumber, h₀]
    rfl
  | ok whole s₀ =>
    cases h₁ : scanFraction (negative.toNat + (s.length - s₀.length)) s₀ with
    | broken wanted skipped =>
      left
      simp only [scanNumber, h₀, h₁]
      rfl
    | ok fraction s₁ =>
      cases h₂ : scanExponent (negative.toNat + (s.length - s₁.length)) s₁ with
      | broken wanted skipped =>
        left
        simp only [scanNumber, h₀, h₁, h₂]
        rfl
      | ok exponent s₂ =>
        right
        have hs : scanNumber negative s =
            (.number (numberOf (negative.toNat + (s.length - s₂.length)) negative whole fraction exponent),
              s₂) := by
          simp only [scanNumber, h₀, h₁, h₂]
        by_cases hend : s₂ = []
        · exact .inl ⟨_, hend ▸ hs⟩
        · have hend₁ : s₁ ≠ [] := by
            rintro rfl
            cases h₂
            exact hend rfl
          have hend₀ : s₀ ≠ [] := by
            rintro rfl
            cases h₁
            exact hend₁ rfl
          right
          rw [hs]
          -- What follows the number does not count for its width.
          simp only [scanNumber, List.length_append, Nat.add_sub_add_right, scanWhole_append h₀ hend₀,
            scanFraction_append h₁ hend₁, scanExponent_append h₂ hend]

theorem cuts_scanName {token : Token} {broken : Flaw → Token} (hbroken : ∀ f, (broken f).isBroken = true)
    (n : Nat) (name : Bytes) : Cuts (scanName n token broken name) := by
  intro s more
  fun_induction scanName n token broken name s with
  | case1 => exact .inr (.inr rfl)
  | case2 => exact .inl (hbroken _)
  | case3 n a name s ih =>
    rw [List.cons_append, scanName, if_pos rfl]
    exact ih
  | case4 => exact .inl (hbroken _)

theorem cuts_scan (b : UInt8) : Cuts (scan b) := by
  apply scan_cases (P := Cuts)
  case mark => exact fun _ _ _ _ => .inr (.inr rfl)
  case quotation => exact cuts_quotation 1
  case negative => exact cuts_scanNumber true
  case number => exact fun _ s more => cuts_scanNumber false (b :: s) more
  case null => exact cuts_scanName (fun _ => rfl) _ _
  case bool => exact fun _ _ => cuts_scanName (fun _ => rfl) _ _
  case broken => exact fun _ _ => .inl rfl

theorem tokens_eq_nil_iff : tokens s = [] ↔ ∀ b ∈ s, isSpace b = true := by
  rw [← List.dropWhile_eq_nil_iff]
  cases hs : s.dropWhile isSpace with
  | nil =>
    rw [tokens.eq_def, hs]
    simp
  | cons b s' => simp [tokens_of_dropWhile hs]

theorem tokens_append_of_blank (h : ∀ b ∈ s, isSpace b = true) (more : Bytes) :
    tokens (s ++ more) = tokens more := by
  induction s with
  | nil => rfl
  | cons b s ih =>
    obtain ⟨hb, hs⟩ := List.forall_mem_cons.1 h
    rw [List.cons_append, tokens_space hb, ih hs]

theorem tokens_append_cases (s more : Bytes) : (∃ t ∈ tokens s, t.isBroken = true) ∨
    (∃ ts n, tokens s = ts ++ [.number n]) ∨ tokens (s ++ more) = tokens s ++ tokens more := by
  induction hn : s.length using Nat.strongRecOn generalizing s with
  | ind n ih =>
    cases hs : s.dropWhile isSpace with
    | nil =>
      have hblank : ∀ b ∈ s, isSpace b = true := List.dropWhile_eq_nil_iff.1 hs
      right; right
      rw [tokens_append_of_blank hblank, tokens_eq_nil_iff.2 hblank, List.nil_append]
    | cons b s' =>
      have hlength : (scan b s').2.length < n := by
        have hscan := length_scan_le b s'
        have hsuffix := (List.dropWhile_suffix isSpace (l := s)).length_le
        rw [hs, List.length_cons] at hsuffix
        omega
      have hmore : (s ++ more).dropWhile isSpace = b :: (s' ++ more) := by
        rw [List.dropWhile_append, hs]
        rfl
      rw [tokens_of_dropWhile hs]
      rcases cuts_scan b s' more with hbroken | ⟨k, hnumber⟩ | hwhole
      · exact .inl ⟨_, List.mem_cons_self, hbroken⟩
      · rw [hnumber, tokens_nil]
        exact .inr (.inl ⟨[], k, rfl⟩)
      · rw [tokens_of_dropWhile hmore, hwhole]
        rcases ih _ hlength (scan b s').2 rfl with ⟨t, ht, hbroken⟩ | ⟨ts, k, hts⟩ | hrest
        · exact .inl ⟨t, List.mem_cons_of_mem _ ht, hbroken⟩
        · exact .inr (.inl ⟨_ :: ts, k, by rw [hts]; rfl⟩)
        · exact .inr (.inr (congrArg _ hrest))

namespace Tree

variable {stack : List Frame} {ts : List Token} {tree : Tree}

theorem flawed_cutShort (hstack : ∀ f ∈ stack.tail, f.Takes) : Flawed (cutShort stack) := by
  unfold cutShort
  split
  · exact .here trivial
  · exact within_abandon (List.forall_mem_cons.2 ⟨trivial, hstack⟩) (.here trivial)
  · exact within_abandon (List.forall_mem_cons.2 ⟨trivial, hstack⟩) (.here trivial)
  · exact flawed_stop hstack _ _

theorem readWith_append (hstack : ∀ f ∈ stack.tail, f.Takes) (more : List Token) :
    Flawed (readWith stack ts).1 ∨
      readWith stack (ts ++ more) = ((readWith stack ts).1, (readWith stack ts).2 ++ more) := by
  induction ts generalizing stack with
  | nil => exact .inl (flawed_cutShort hstack)
  | cons token ts ih =>
    have hsound := sound_move hstack token
    rw [List.cons_append, readWith_cons, readWith_cons]
    cases hmove : move stack token with
    | value t => exact .inr rfl
    | on stack' =>
      rw [hmove] at hsound
      exact ih hsound.2
    | wrong t =>
      rw [hmove] at hsound
      exact .inl hsound

theorem eq_number_of_move {n : Except Flaw Number} (h : move stack (.number n) = .value tree) :
    tree = .number n := by
  cases stack with
  | nil => exact (Move.value.inj h).symm
  | cons f stack => cases f <;> cases h

theorem readWith_number {n : Except Flaw Number} (hstack : ∀ f ∈ stack.tail, f.Takes)
    (h : (readWith stack (ts ++ [.number n])).2 = []) :
    Flawed (readWith stack (ts ++ [.number n])).1 ∨
      (readWith stack (ts ++ [.number n])).1 = .number n := by
  induction ts generalizing stack with
  | nil =>
    have hsound := sound_move hstack (.number n)
    rw [List.nil_append, readWith_cons]
    cases hmove : move stack (.number n) with
    | value t => exact .inr (eq_number_of_move hmove)
    | on stack' =>
      rw [hmove] at hsound
      exact .inl (flawed_cutShort hsound.2)
    | wrong t =>
      rw [hmove] at hsound
      exact .inl hsound
  | cons token ts ih =>
    have hsound := sound_move hstack token
    rw [List.cons_append, readWith_cons] at h ⊢
    cases hmove : move stack token with
    | value t => simp [hmove, resume] at h
    | on stack' =>
      rw [hmove] at hsound h
      exact ih hsound.2 h
    | wrong t =>
      rw [hmove] at hsound
      exact .inl hsound

/-- What is read from a beginning of a text is flawed, or not all, or a number, or it is what is read from
the whole text. -/
theorem read_append_cases (h : (read (tokens s)).2 = []) (more : Bytes) :
    Flawed (read (tokens s)).1 ∨ (∃ n, (read (tokens s)).1 = .number n) ∨
      read (tokens (s ++ more)) = ((read (tokens s)).1, tokens more) := by
  have hstack : ∀ f ∈ ([] : List Frame).tail, f.Takes := by simp
  rcases tokens_append_cases s more with hbroken | ⟨ts, n, hts⟩ | hmore
  · refine (flawed_readWith hstack hbroken).imp_right fun hrest => ?_
    obtain ⟨t, ht, -⟩ := hrest
    rw [← read, h] at ht
    exact absurd ht List.not_mem_nil
  · rw [hts] at h ⊢
    exact (readWith_number hstack h).imp_right fun heq => .inl ⟨n, heq⟩
  · refine (readWith_append hstack (tokens more)).imp_right fun heq => .inr ?_
    rw [hmore]
    exact heq.trans (congrArg _ (congrArg (· ++ tokens more) h))

end Tree
end Phrasebook.Json
