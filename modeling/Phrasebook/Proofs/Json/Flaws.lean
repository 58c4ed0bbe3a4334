import Mathlib.Data.List.TakeWhile
import Mathlib.Tactic.IntervalCases
import Phrasebook.Proofs.Json.Tokens
import Phrasebook.Proofs.Json.Trees

/-!
Texts that are no JSON. A byte below the tab belongs to no token, so a text that holds one breaks off
there at the latest. Where a text breaks off its tree shows it, and no value is read from a tree that shows it.
-/

namespace Phrasebook.Json
open Text (Bytes utf8)

variable {s t : Bytes} {b : UInt8}

def Token.isBroken : Token → Bool
  | .broken .. | .brokenNull _ | .brokenString .. => true
  | _ => false

def IsLow (b : UInt8) : Prop := b < 0x09

instance : DecidablePred IsLow := fun b => inferInstanceAs (Decidable (b < 0x09))

def Spares (low : UInt8) (s : Bytes) (r : Token × Bytes) : Prop :=
  low ∈ s → r.1.isBroken = true ∨ low ∈ r.2

section Low
variable {low : UInt8} (hlow : IsLow low)
include hlow

theorem IsLow.of_forall {P : UInt8 → Prop} (h : ∀ n < 9, P (UInt8.ofNat n)) : P low := by
  rw [← UInt8.ofNat_toNat (x := low)]
  exact h _ hlow

theorem IsLow.isDigit_eq_false : isDigit low = false :=
  hlow.of_forall (P := fun b => isDigit b = false) (by decide)

theorem IsLow.hexValue?_eq_none : hexValue? low = none :=
  hlow.of_forall (P := fun b => hexValue? b = none) (by decide)

theorem IsLow.escaped?_eq_none : escaped? low = none :=
  hlow.of_forall (P := fun b => escaped? b = none) (by decide)

theorem IsLow.isSpace_eq_false : isSpace low = false :=
  hlow.of_forall (P := fun b => isSpace b = false) (by decide)

theorem IsLow.isBroken_scan (s : Bytes) : (scan low s).1.isBroken = true := by
  refine hlow.of_forall (P := fun b => (scan b s).1.isBroken = true) fun n hn => ?_
  interval_cases n <;> rfl

theorem IsLow.ne (hb : ¬ IsLow b) : low ≠ b := fun h => hb (h ▸ hlow)

theorem IsLow.mem_of_mem_cons (hb : ¬ IsLow b) (h : low ∈ b :: s) : low ∈ s :=
  (List.mem_cons.1 h).resolve_left (hlow.ne hb)

omit hlow in
theorem mem_dropWhile_of_eq_false {p : UInt8 → Bool} (hp : p low = false) (h : low ∈ s) :
    low ∈ s.dropWhile p := by
  rw [← List.takeWhile_append_dropWhile (p := p) (l := s)] at h
  refine (List.mem_append.1 h).resolve_left fun hmem => ?_
  exact absurd (hp.symm.trans (List.mem_takeWhile_imp hmem)) (by decide)

theorem IsLow.mem_digits (h : low ∈ s) : low ∈ (digits s).2 := mem_dropWhile_of_eq_false hlow.isDigit_eq_false h

theorem IsLow.mem_scanWhole {n : Nat} {ds : Bytes} (hs : scanWhole n s = .ok ds t) (h : low ∈ s) : low ∈ t :=
  rest_scanWhole hs ▸ hlow.mem_digits h

theorem IsLow.mem_scanFraction {n : Nat} {ds : Option Bytes} (hs : scanFraction n s = .ok ds t)
    (h : low ∈ s) : low ∈ t := by
  rw [scanFraction.eq_def] at hs
  split at hs
  · rename_i s
    have hrest := hlow.mem_digits (hlow.mem_of_mem_cons (by decide) h)
    split at hs
    · exact absurd hs noDigits_ne_ok
    · rename_i hds
      cases hs
      rwa [hds] at hrest
  · cases hs
    exact h

theorem IsLow.mem_scanExponent {n : Nat} {e : Option (Bool × Bytes)} (hs : scanExponent n s = .ok e t)
    (h : low ∈ s) : low ∈ t := by
  rw [scanExponent.eq_def] at hs
  split at hs
  · exact absurd h List.not_mem_nil
  · rename_i e s
    split_ifs at hs with he
    · cases hs
      exact h
    · have he' : ¬ IsLow e := by
        have hletter : e = 0x65 ∨ e = 0x45 := by simpa [or_iff_not_imp_left] using he
        rcases hletter with rfl | rfl <;> decide
      have hmem : low ∈ s := hlow.mem_of_mem_cons he' h
      split at hs
      rename_i negative n' s' hsign
      have hmem' : low ∈ s' := by
        split at hsign <;> cases hsign
        · exact hlow.mem_of_mem_cons (by decide) hmem
        · exact hlow.mem_of_mem_cons (by decide) hmem
        · exact hmem
      have hrest := hlow.mem_digits hmem'
      split at hs
      · exact absurd hs noDigits_ne_ok
      · rename_i hds
        cases hs
        rwa [hds] at hrest

theorem IsLow.spares_scanNumber (negative : Bool) (s : Bytes) : Spares low s (scanNumber negative s) := by
  intro h
  rw [scanNumber]
  split
  · exact .inl rfl
  · rename_i whole s₀ h₀
    have hmem₀ := hlow.mem_scanWhole h₀ h
    split
    · exact .inl rfl
    · rename_i fraction s₁ h₁
      have hmem₁ := hlow.mem_scanFraction h₁ hmem₀
      split
      · exact .inl rfl
      · rename_i exponent s₂ h₂
        exact .inr (hlow.mem_scanExponent h₂ hmem₁)

theorem spares_scanName {n : Nat} {token : Token} {broken : Flaw → Token} {name : Bytes}
    (hbroken : ∀ f, (broken f).isBroken = true) (hname : ∀ b ∈ name, ¬ IsLow b) (s : Bytes) :
    Spares low s (scanName n token broken name s) := by
  intro h
  fun_induction scanName n token broken name s with
  | case1 => exact .inr h
  | case2 => exact .inl (hbroken _)
  | case3 n a name s ih =>
    obtain ⟨ha, hname⟩ := List.forall_mem_cons.1 hname
    exact ih hname (hlow.mem_of_mem_cons ha h)
  | case4 => exact .inl (hbroken _)

theorem Quotation.mem_rest_of_low {n : Nat} {r : Bytes} (hr : (read n s).rest = .ok r) (h : low ∈ s) :
    low ∈ r := by
  fun_induction read n s with
  | case1 => cases hr
  | case2 n s =>
    cases hr
    exact hlow.mem_of_mem_cons (by decide) h
  | case3 => cases hr
  | case4 n a b c d s a' b' c' d' hd hc hb ha ih =>
    have hdigit {x : UInt8} {n : Nat} (hx : hexValue? x = some n) : ¬ IsLow x :=
      fun hlow => by simp [hlow.hexValue?_eq_none] at hx
    have hmem := hlow.mem_of_mem_cons (by decide) (hlow.mem_of_mem_cons (by decide) h)
    exact ih hr (hlow.mem_of_mem_cons (hdigit hd) (hlow.mem_of_mem_cons (hdigit hc)
      (hlow.mem_of_mem_cons (hdigit hb) (hlow.mem_of_mem_cons (hdigit ha) hmem))))
  | case5 => cases hr
  | case6 => cases hr
  | case7 n e s _ _ b hb ih =>
    have he : ¬ IsLow e := fun hlow => by simp [hlow.escaped?_eq_none] at hb
    exact ih hr (hlow.mem_of_mem_cons he (hlow.mem_of_mem_cons (by decide) h))
  | case8 => cases hr
  | case9 => cases hr
  | case10 n b s _ _ _ _ hcontrol ih =>
    have hb : ¬ IsLow b := fun hb => hcontrol (UInt8.lt_trans hb (by decide))
    exact ih hr (hlow.mem_of_mem_cons hb h)

theorem spares_token (n : Nat) (s : Bytes) : Spares low s (Quotation.read n s).token := by
  intro h
  rw [Quotation.token]
  split
  · exact .inr (Quotation.mem_rest_of_low hlow ‹_› h)
  · exact .inl rfl

theorem spares_scan (b : UInt8) (s : Bytes) : Spares low (b :: s) (scan b s) := by
  intro h
  rcases List.mem_cons.1 h with rfl | hs
  · exact .inl (hlow.isBroken_scan s)
  apply scan_cases (P := fun f => (f s).1.isBroken = true ∨ low ∈ (f s).2)
  case mark => exact fun _ _ => .inr hs
  case quotation => exact spares_token hlow 1 s hs
  case negative => exact hlow.spares_scanNumber true s hs
  case number => exact fun _ => hlow.spares_scanNumber false (b :: s) h
  case null => exact spares_scanName hlow (fun _ => rfl) (by decide +kernel) s hs
  case bool =>
    have hnames : ∀ x ∈ [(true, "rue"), (false, "alse")], ∀ b ∈ utf8 x.2, ¬ IsLow b := by
      decide +kernel
    exact fun x hx => spares_scanName hlow (fun _ => rfl) (hnames x hx) s hs
  case broken => exact .inl rfl

theorem IsLow.exists_broken (h : low ∈ s) : ∃ t ∈ tokens s, t.isBroken = true := by
  induction hn : s.length using Nat.strongRecOn generalizing s with
  | ind n ih =>
    have hmem := mem_dropWhile_of_eq_false hlow.isSpace_eq_false h
    have hshort := (List.dropWhile_suffix isSpace (l := s)).length_le
    cases hs : s.dropWhile isSpace with
    | nil => simp [hs] at hmem
    | cons b s' =>
      rw [hs] at hmem hshort
      rw [tokens_of_dropWhile hs]
      rcases spares_scan hlow b s' hmem with hbroken | hrest
      · exact ⟨_, List.mem_cons_self, hbroken⟩
      · have hscan := length_scan_le b s'
        rw [List.length_cons] at hshort
        obtain ⟨t, ht, hbroken⟩ := ih _ (by omega) hrest rfl
        exact ⟨t, List.mem_cons_of_mem _ ht, hbroken⟩

end Low

namespace Tree

variable {P : Tree → Prop} {depth : Nat} {stack : List Frame} {token : Token} {ts : List Token}
  {tree : Tree}

inductive Within (P : Tree → Prop) : Tree → Prop
  | here {t : Tree} (h : P t) : Within P t
  | item {items : List Tree} {ending : Ending} {t : Tree} (mem : t ∈ items) (h : Within P t) :
      Within P (.array items ending)
  | member {members : List (Except Flaw String × Tree)} {ending : Ending} {m : Except Flaw String × Tree}
      (mem : m ∈ members) (h : Within P m.2) : Within P (.object members ending)

def BreaksOff : Tree → Prop
  | .array _ (.stopped ..) | .object _ (.stopped ..) | .broken .. => True
  | _ => False

abbrev Flawed : Tree → Prop := Within BreaksOff

def Frame.Takes : Frame → Prop
  | .members | .member _ | .memberComma _ => False
  | _ => True

theorem Frame.Takes.within {f : Frame} (hf : f.Takes) (h : Within P tree) :
    Within P ((f.add tree).close .closed) := by
  cases f with
  | members | member | memberComma => exact hf.elim
  | items | item | itemComma => exact .item (by simp [add, heldItems]) h
  | key before k | colon before k =>
    exact .member (m := (k, tree)) (by simp [heldMembers, add]) h

theorem within_abandon (hstack : ∀ f ∈ stack, f.Takes) (h : Within P tree) :
    Within P (abandon tree stack) := by
  induction stack generalizing tree with
  | nil => exact h
  | cons f stack ih =>
    obtain ⟨hf, hstack⟩ := List.forall_mem_cons.1 hstack
    exact ih hstack (hf.within h)

theorem flawed_stop {f : Frame} (hstack : ∀ f ∈ stack, f.Takes) (wanted skipped : Flaw) :
    Flawed (stop wanted skipped f stack) := by
  refine within_abandon hstack (.here ?_)
  cases f <;> trivial

/-- A broken token makes the move wrong, a wrong move leaves a flaw, and any other opens a frame only
where it is held. -/
def Move.Sound (token : Token) : Move → Prop
  | .value _ => token.isBroken = false
  | .on stack => token.isBroken = false ∧ ∀ f ∈ stack.tail, f.Takes
  | .wrong t => Flawed t

theorem sound_done (hstack : ∀ f ∈ stack.tail, f.Takes) (htoken : token.isBroken = false) (t : Tree) :
    (done t stack).Sound token := by
  cases stack with
  | nil => exact htoken
  | cons f stack => exact ⟨htoken, hstack⟩

theorem sound_startValue (hstack : ∀ f ∈ stack, f.Takes) (token : Token) :
    (startValue stack token).Sound token := by
  have htail : ∀ f ∈ stack.tail, f.Takes := fun f hf => hstack f (List.mem_of_mem_tail hf)
  cases token with
  | lbracket | lbrace => exact ⟨rfl, hstack⟩
  | null | bool | number | string => exact sound_done htail rfl _
  | broken | brokenNull | brokenString | rbrace | rbracket | comma | colon =>
    exact within_abandon hstack (.here trivial)

theorem sound_startMember {f : Frame} (hstack : ∀ f ∈ stack, f.Takes) (token : Token) :
    (startMember f stack token).Sound token := by
  cases token with
  | string => exact ⟨rfl, hstack⟩
  | _ => exact flawed_stop hstack _ _

theorem sound_move (hstack : ∀ f ∈ stack.tail, f.Takes) (token : Token) :
    (move stack token).Sound token := by
  cases stack with
  | nil => exact sound_startValue (by simp) token
  | cons f rest =>
    have hrest : ∀ f ∈ rest, f.Takes := hstack
    have htail : ∀ f ∈ rest.tail, f.Takes := fun f hf => hrest f (List.mem_of_mem_tail hf)
    have hall (f : Frame) (hf : f.Takes) : ∀ x ∈ f :: rest, x.Takes :=
      List.forall_mem_cons.2 ⟨hf, hrest⟩
    cases f with
    | items =>
      rw [move]
      split_ifs with ht
      · exact sound_done htail (ht ▸ rfl) _
      · exact sound_startValue (hall .items trivial) token
    | item before =>
      rw [move]
      split_ifs with ht ht'
      · exact sound_done htail (ht ▸ rfl) _
      · exact ⟨ht' ▸ rfl, hrest⟩
      · exact flawed_stop hrest _ _
    | itemComma before =>
      rw [move]
      split_ifs
      · exact flawed_stop hrest _ _
      · exact sound_startValue (hall (.itemComma before) trivial) token
    | members =>
      rw [move]
      split_ifs with ht
      · exact sound_done htail (ht ▸ rfl) _
      · exact sound_startMember hrest token
    | member before =>
      rw [move]
      split_ifs with ht ht'
      · exact sound_done htail (ht ▸ rfl) _
      · exact ⟨ht' ▸ rfl, hrest⟩
      · exact flawed_stop hrest _ _
    | memberComma before =>
      rw [move]
      split_ifs
      · exact flawed_stop hrest _ _
      · exact sound_startMember hrest token
    | key before k =>
      rw [move]
      split_ifs with ht
      · exact ⟨ht ▸ rfl, hrest⟩
      · exact within_abandon (hall (.key before k) trivial) (.here trivial)
    | colon before k => exact sound_startValue (hall (.colon before k) trivial) token

theorem flawed_readWith (hstack : ∀ f ∈ stack.tail, f.Takes) (h : ∃ t ∈ ts, t.isBroken = true) :
    Flawed (readWith stack ts).1 ∨ ∃ t ∈ (readWith stack ts).2, t.isBroken = true := by
  induction ts generalizing stack with
  | nil => simp at h
  | cons token ts ih =>
    have hsound := sound_move hstack token
    rw [readWith_cons]
    cases hmove : move stack token with
    | wrong t =>
      rw [hmove] at hsound
      exact .inl hsound
    | value t =>
      rw [hmove] at hsound
      obtain ⟨t', ht', hbroken⟩ := h
      have hne : t' ≠ token := by
        rintro rfl
        exact absurd (hbroken.symm.trans hsound) (by decide)
      exact .inr ⟨t', (List.mem_cons.1 ht').resolve_left hne, hbroken⟩
    | on stack' =>
      rw [hmove] at hsound
      obtain ⟨htoken, hstack'⟩ := hsound
      obtain ⟨t', ht', hbroken⟩ := h
      have hne : t' ≠ token := by
        rintro rfl
        exact absurd (hbroken.symm.trans htoken) (by decide)
      exact ih hstack' ⟨t', (List.mem_cons.1 ht').resolve_left hne, hbroken⟩

theorem flawed_read_of_low {low : UInt8} (hlow : IsLow low) (h : low ∈ s) :
    Flawed (read (tokens s)).1 ∨ (read (tokens s)).2 ≠ [] := by
  refine (flawed_readWith (by simp) (hlow.exists_broken h)).imp_right ?_
  intro hrest hnil
  obtain ⟨t, ht, -⟩ := hrest
  rw [← read, hnil] at ht
  exact nomatch ht

end Tree

theorem Ending.eq_of_after {α : Type} {rest : List α} {ending : Ending}
    (h : ending.after rest = .ok ()) : rest = [] ∧ ending = .closed := by
  unfold Ending.after at h
  split at h
  · exact ⟨rfl, rfl⟩
  all_goals cases h

namespace Tree

variable {depth : Nat} {tree : Tree}

theorem exists_value_of_mem {items : List Tree} {vs : List Json} (h : values depth items = .ok vs)
    (hmem : tree ∈ items) : ∃ v, value depth tree = .ok v := by
  induction items generalizing vs with
  | nil => exact nomatch hmem
  | cons t items ih =>
    obtain ⟨v, hv, h⟩ := bind_eq_ok_iff.1 h
    obtain ⟨vs', hvs', -⟩ := bind_eq_ok_iff.1 h
    rcases List.mem_cons.1 hmem with rfl | hmem
    · exact ⟨v, hv⟩
    · exact ih hvs' hmem

theorem exists_value_of_mem_members {members : List (Except Flaw String × Tree)}
    {vs : List (String × Json)} (h : memberValues depth members = .ok vs)
    {m : Except Flaw String × Tree} (hmem : m ∈ members) : ∃ v, value depth m.2 = .ok v := by
  induction members generalizing vs with
  | nil => exact nomatch hmem
  | cons t members ih =>
    obtain ⟨_, -, h⟩ := bind_eq_ok_iff.1 h
    obtain ⟨v, hv, h⟩ := bind_eq_ok_iff.1 h
    obtain ⟨vs', hvs', -⟩ := bind_eq_ok_iff.1 h
    rcases List.mem_cons.1 hmem with rfl | hmem
    · exact ⟨v, hv⟩
    · exact ih hvs' hmem

theorem value_ne_ok (h : Flawed tree) (depth : Nat) (v : Json) : value depth tree ≠ .ok v := by
  induction h generalizing depth v with
  | @here t ht =>
    intro hv
    cases t with
    | array items ending | object items ending =>
      cases ending with
      | closed => exact ht.elim
      | stopped =>
        cases depth with
        | zero => cases hv
        | succ depth =>
          obtain ⟨_, -, hv⟩ := bind_eq_ok_iff.1 hv
          cases hv
    | broken => cases hv
    | _ => exact ht.elim
  | item hmem _ ih =>
    intro hv
    cases depth with
    | zero => cases hv
    | succ depth =>
      obtain ⟨_, hitems, -⟩ := bind_eq_ok_iff.1 hv
      obtain ⟨v', hv'⟩ := exists_value_of_mem hitems hmem
      exact ih depth v' hv'
  | member hmem _ ih =>
    intro hv
    cases depth with
    | zero => cases hv
    | succ depth =>
      obtain ⟨_, hmembers, -⟩ := bind_eq_ok_iff.1 hv
      obtain ⟨v', hv'⟩ := exists_value_of_mem_members hmembers hmem
      exact ih depth v' hv'

theorem skip_of_mem {items : List Tree} (h : skipAll items = .ok ()) (hmem : tree ∈ items) :
    skip tree = .ok () := by
  induction items with
  | nil => exact nomatch hmem
  | cons t items ih =>
    obtain ⟨_, ht, h⟩ := bind_eq_ok_iff.1 h
    rcases List.mem_cons.1 hmem with rfl | hmem
    · exact ht
    · exact ih h hmem

theorem skip_of_mem_members {members : List (Except Flaw String × Tree)}
    (h : skipMembers members = .ok ()) {m : Except Flaw String × Tree} (hmem : m ∈ members) :
    skip m.2 = .ok () := by
  induction members with
  | nil => exact nomatch hmem
  | cons t members ih =>
    obtain ⟨_, ht, h⟩ := bind_eq_ok_iff.1 h
    rcases List.mem_cons.1 hmem with rfl | hmem
    · exact ht
    · exact ih h hmem

theorem skip_ne_ok (h : Flawed tree) : skip tree ≠ .ok () := by
  induction h with
  | @here t ht =>
    intro hskip
    cases t with
    | array items ending | object items ending =>
      cases ending with
      | closed => exact ht.elim
      | stopped =>
        obtain ⟨_, -, hskip⟩ := bind_eq_ok_iff.1 hskip
        cases hskip
    | broken => cases hskip
    | _ => exact ht.elim
  | item hmem _ ih =>
    intro hskip
    obtain ⟨_, hitems, -⟩ := bind_eq_ok_iff.1 hskip
    exact ih (skip_of_mem hitems hmem)
  | member hmem _ ih =>
    intro hskip
    obtain ⟨_, hmembers, -⟩ := bind_eq_ok_iff.1 hskip
    exact ih (skip_of_mem_members hmembers hmem)

end Tree
end Phrasebook.Json
