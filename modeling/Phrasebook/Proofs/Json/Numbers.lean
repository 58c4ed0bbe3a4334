import Phrasebook.Proofs.Json.Flaws

/-!
Whole numbers in texts. A whole number that stands in a tree is one of the tokens it was read from, and
none is larger than a machine word.
-/

namespace Phrasebook.Json
open Text (Bytes utf8)

variable {s : Bytes} {b : UInt8} {k : Int} {n : Nat}

theorem gather_lt (h : n < wordLimit) (s : Bytes) : (gather n s).1 < wordLimit := by
  fun_induction gather n s with
  | case1 => exact h
  | case2 n b s hfits ih => exact ih hfits
  | case3 => exact h

theorem lt_of_wholeNumber {negative : Bool} (h : n < wordLimit)
    (hk : wholeNumber negative n = .int k) : k < wordLimit := by
  unfold wholeNumber at hk
  split_ifs at hk <;> cases hk <;> omega

theorem floatNumber_ne {width : Nat} (x : Option Double) : floatNumber width x ≠ .ok (.int k) := by
  cases x <;> exact nofun

theorem lt_of_numberOf {width : Nat} {negative : Bool} {whole : Bytes} {fraction : Option Bytes}
    {exponent : Option (Bool × Bytes)}
    (h : numberOf width negative whole fraction exponent = .ok (.int k)) : k < wordLimit := by
  have hfits := gather_lt (by decide : 0 < wordLimit) whole
  rw [numberOf.eq_def] at h
  cases exponent with
  | none =>
    cases fraction with
    | none =>
      simp only at h
      split_ifs at h
      · exact lt_of_wholeNumber hfits (Except.ok.inj h)
      · exact absurd h (floatNumber_ne _)
    | some ds => exact absurd h (floatNumber_ne _)
  | some e =>
    simp only at h
    split at h
    · split_ifs at h
      cases h
    · exact absurd h (floatNumber_ne _)

theorem lt_of_scanNumber {negative : Bool}
    (h : (scanNumber negative s).1 = .number (.ok (.int k))) : k < wordLimit := by
  simp only [scanNumber] at h
  split at h
  · cases h
  · split at h
    · cases h
    · split at h
      · cases h
      · exact lt_of_numberOf (Token.number.inj h)

theorem fst_scanName (n : Nat) (token : Token) (broken : Flaw → Token) (name s : Bytes) :
    (scanName n token broken name s).1 = token ∨
      ∃ f, (scanName n token broken name s).1 = broken f := by
  fun_induction scanName n token broken name s with
  | case1 => exact .inl rfl
  | case2 => exact .inr ⟨_, rfl⟩
  | case3 _ _ _ _ ih => exact ih
  | case4 => exact .inr ⟨_, rfl⟩

theorem lt_of_scan (h : (scan b s).1 = .number (.ok (.int k))) : k < wordLimit := by
  revert h
  apply scan_cases (P := fun f => (f s).1 = .number (.ok (.int k)) → k < wordLimit)
  case mark => simp
  case quotation =>
    change (Quotation.read 1 s).token.1 = _ → _
    rw [Quotation.token]
    split <;> simp
  case negative => exact lt_of_scanNumber
  case number => exact fun _ => lt_of_scanNumber
  case null =>
    intro h
    rcases fst_scanName 1 .null .brokenNull (utf8 "ull") s with heq | ⟨f, heq⟩ <;>
      cases heq.symm.trans h
  case bool =>
    intro x _ h
    rcases fst_scanName 1 (.bool x.1) (fun f => .broken f f) (utf8 x.2) s with heq | ⟨f, heq⟩ <;>
      cases heq.symm.trans h
  case broken => simp

theorem lt_of_mem_tokens (h : .number (.ok (.int k)) ∈ tokens s) : k < wordLimit := by
  fun_induction tokens s with
  | case1 => exact nomatch h
  | case2 s b s' _ t rest hscan _ ih =>
    rcases List.mem_cons.1 h with rfl | h
    · exact lt_of_scan (congrArg Prod.fst hscan)
    · exact ih h
  | case3 s b s' _ t rest hscan _ =>
    cases List.mem_singleton.1 h
    exact lt_of_scan (congrArg Prod.fst hscan)

namespace Tree

variable {stack : List Frame} {token : Token} {ts : List Token} {tree : Tree} {number : Except Flaw Number}

abbrev Shows (number : Except Flaw Number) : Tree → Prop := Within (· = .number number)

def Frame.Shows (number : Except Flaw Number) (f : Frame) : Prop :=
  (∃ t ∈ f.heldItems, t.Shows number) ∨ ∃ m ∈ f.heldMembers, m.2.Shows number

def StackShows (number : Except Flaw Number) (stack : List Frame) : Prop := ∃ f ∈ stack, f.Shows number

theorem shows_array_iff {items : List Tree} {ending : Ending} :
    (array items ending).Shows number ↔ ∃ t ∈ items, t.Shows number := by
  constructor
  · intro h
    cases h with
    | here h => cases h
    | item hmem h => exact ⟨_, hmem, h⟩
  · intro h
    obtain ⟨t, hmem, h⟩ := h
    exact .item hmem h

theorem shows_object_iff {members : List (Except Flaw String × Tree)} {ending : Ending} :
    (object members ending).Shows number ↔ ∃ m ∈ members, m.2.Shows number := by
  constructor
  · intro h
    cases h with
    | here h => cases h
    | member hmem h => exact ⟨_, hmem, h⟩
  · intro h
    obtain ⟨m, hmem, h⟩ := h
    exact .member hmem h

theorem not_shows_broken {wanted skipped chosen : Flaw} :
    ¬ (broken wanted skipped chosen).Shows number := by
  intro h
  cases h with
  | here h => cases h

theorem shows_of_close {f : Frame} {ending : Ending} (h : (f.close ending).Shows number) :
    f.Shows number := by
  cases f with
  | items | item | itemComma =>
    obtain ⟨t, ht, h⟩ := shows_array_iff.1 h
    exact .inl ⟨t, List.mem_reverse.1 ht, h⟩
  | members | member | memberComma | key | colon =>
    obtain ⟨m, hm, h⟩ := shows_object_iff.1 h
    exact .inr ⟨m, List.mem_reverse.1 hm, h⟩

theorem shows_of_add {f : Frame} (h : (f.add tree).Shows number) :
    tree.Shows number ∨ f.Shows number := by
  cases f with
  | items | item | itemComma =>
    rcases h with ⟨t, ht, h⟩ | ⟨m, hm, -⟩
    · rcases List.mem_cons.1 ht with rfl | ht
      · exact .inl h
      · exact .inr (.inl ⟨t, ht, h⟩)
    · exact nomatch hm
  | key | colon =>
    rcases h with ⟨t, ht, -⟩ | ⟨m, hm, h⟩
    · exact nomatch ht
    · rcases List.mem_cons.1 hm with rfl | hm
      · exact .inl h
      · exact .inr (.inr ⟨m, hm, h⟩)
  | members | member | memberComma => exact .inr h

theorem stackShows_cons {f : Frame} :
    StackShows number (f :: stack) ↔ f.Shows number ∨ StackShows number stack := by
  simp [StackShows]

theorem shows_of_abandon (h : (abandon tree stack).Shows number) :
    tree.Shows number ∨ StackShows number stack := by
  induction stack generalizing tree with
  | nil => exact .inl h
  | cons f stack ih =>
    rw [stackShows_cons, ← or_assoc]
    exact (ih h).imp_left fun h => shows_of_add (shows_of_close h)

theorem shows_of_stop {f : Frame} {wanted skipped : Flaw}
    (h : (stop wanted skipped f stack).Shows number) : StackShows number (f :: stack) :=
  stackShows_cons.2 ((shows_of_abandon h).imp_left shows_of_close)

theorem shows_of_abandon_broken {wanted skipped chosen : Flaw}
    (h : (abandon (.broken wanted skipped chosen) stack).Shows number) : StackShows number stack :=
  (shows_of_abandon h).resolve_left not_shows_broken

def Move.Shows (number : Except Flaw Number) : Move → Prop
  | .value t | .wrong t => t.Shows number
  | .on stack => StackShows number stack

theorem shows_of_done (h : (done tree stack).Shows number) :
    tree.Shows number ∨ StackShows number stack := by
  cases stack with
  | nil => exact .inl h
  | cons f stack =>
    rw [stackShows_cons, ← or_assoc]
    exact (stackShows_cons.1 h).imp_left shows_of_add

theorem shows_of_startValue (h : (startValue stack token).Shows number) :
    token = .number number ∨ StackShows number stack := by
  cases token with
  | lbracket | lbrace =>
    refine .inr ((stackShows_cons.1 h).resolve_left fun hf => ?_)
    rcases hf with ⟨_, hmem, -⟩ | ⟨_, hmem, -⟩ <;> exact nomatch hmem
  | null | bool | string =>
    refine .inr ((shows_of_done h).resolve_left fun hscalar => ?_)
    cases hscalar with
    | here heq => cases heq
  | number n =>
    refine (shows_of_done h).imp_left fun hscalar => ?_
    cases hscalar with
    | here heq => rw [Tree.number.inj heq]
  | broken | brokenNull | brokenString | rbrace | rbracket | comma | colon =>
    exact .inr (shows_of_abandon_broken h)

theorem shows_of_startMember {f : Frame} (h : (startMember f stack token).Shows number) :
    StackShows number (f :: stack) := by
  cases token with
  | string key =>
    refine stackShows_cons.2 ((stackShows_cons.1 h).imp_left fun hf => ?_)
    exact .inr (hf.resolve_left fun ⟨_, hmem, _⟩ => nomatch hmem)
  | _ => exact shows_of_stop h

theorem shows_of_close_done {f : Frame} {ending : Ending}
    (h : (done (f.close ending) stack).Shows number) : StackShows number (f :: stack) :=
  stackShows_cons.2 ((shows_of_done h).imp_left shows_of_close)

theorem shows_of_move (h : (move stack token).Shows number) :
    token = .number number ∨ StackShows number stack := by
  cases stack with
  | nil => exact shows_of_startValue h
  | cons f rest =>
    cases f with
    | items =>
      rw [move] at h
      split_ifs at h
      · exact .inr (shows_of_close_done h)
      · exact shows_of_startValue h
    | item before =>
      rw [move] at h
      split_ifs at h
      · exact .inr (shows_of_close_done h)
      · exact .inr (stackShows_cons.2 ((stackShows_cons (f := .itemComma before)).1 h))
      · exact .inr (shows_of_stop h)
    | itemComma before =>
      rw [move] at h
      split_ifs at h
      · exact .inr (shows_of_stop h)
      · exact shows_of_startValue h
    | members =>
      rw [move] at h
      split_ifs at h
      · exact .inr (shows_of_close_done h)
      · exact .inr (shows_of_startMember h)
    | member before =>
      rw [move] at h
      split_ifs at h
      · exact .inr (shows_of_close_done h)
      · exact .inr (stackShows_cons.2 ((stackShows_cons (f := .memberComma before)).1 h))
      · exact .inr (shows_of_stop h)
    | memberComma before =>
      rw [move] at h
      split_ifs at h
      · exact .inr (shows_of_stop h)
      · exact .inr (shows_of_startMember h)
    | key before k =>
      rw [move] at h
      split_ifs at h
      · exact .inr (stackShows_cons.2 ((stackShows_cons (f := .colon before k)).1 h))
      · exact .inr (shows_of_abandon_broken h)
    | colon before k => exact shows_of_startValue h

theorem shows_of_cutShort (h : (cutShort stack).Shows number) : StackShows number stack := by
  unfold cutShort at h
  split at h
  · exact absurd h not_shows_broken
  · exact shows_of_abandon_broken h
  · exact shows_of_abandon_broken h
  · exact shows_of_stop h

theorem shows_of_readWith (h : (readWith stack ts).1.Shows number) :
    .number number ∈ ts ∨ StackShows number stack := by
  induction ts generalizing stack with
  | nil => exact .inr (shows_of_cutShort h)
  | cons token ts ih =>
    have hmove : (move stack token).Shows number ∨ .number number ∈ ts := by
      rw [readWith_cons] at h
      revert h
      cases move stack token with
      | value t | wrong t => exact .inl
      | on stack' => exact fun h => (ih h).symm
    rcases hmove with hmove | hmem
    · rcases shows_of_move hmove with rfl | hstack
      · exact .inl List.mem_cons_self
      · exact .inr hstack
    · exact .inl (List.mem_cons_of_mem token hmem)

theorem lt_of_shows (h : (read (tokens s)).1.Shows (.ok (.int k))) : k < wordLimit :=
  lt_of_mem_tokens ((shows_of_readWith h).resolve_right fun ⟨_, hmem, _⟩ => nomatch hmem)

end Tree
end Phrasebook.Json
