import Phrasebook.Proofs.Word
import Phrasebook.Shell.Tab

/-!
Where an offer goes. What the tab key offers replaces the line from the offer's start to the cursor, and
the start is counted as one byte behind the place where the last blank begins. So the replaced part is
the word before the cursor as long as that blank takes one byte. A wider blank is cut in two.
-/

namespace Phrasebook

namespace Text

variable {c : Char} {before part s t : List Char}

theorem firstBytes?_append (n : Nat) (s t : List Char) :
    firstBytes? (byteLength s + n) (s ++ t) = (s ++ ·) <$> firstBytes? n t := by
  induction s with
  | nil => simp [byteLength]
  | cons c s ih =>
    have hpos := c.utf8Size_pos
    rw [List.cons_append, byteLength, firstBytes?, if_neg (by omega), if_pos (by omega),
      Nat.add_assoc, Nat.add_sub_cancel_left, ih]
    simp [Function.comp_def]

theorem firstBytes?_inside (h : c.utf8Size ≠ 1) (before s : List Char) :
    firstBytes? (byteLength before + 1) (before ++ c :: s) = none := by
  have hpos := c.utf8Size_pos
  have hinside : firstBytes? 1 (c :: s) = none := by
    rw [firstBytes?, if_neg Nat.one_ne_zero, if_neg (by omega)]
  rw [firstBytes?_append, hinside]
  rfl

def lastBlank? (s : List Char) : Option Char := s.reverse.find? isBlank

theorem lastBlank?_eq_none_iff : lastBlank? s = none ↔ ∀ c ∈ s, isBlank c = false := by
  simp [lastBlank?]

theorem lastBlank?_eq_some_iff : lastBlank? s = some c ↔ isBlank c = true ∧
    ∃ before part, s = before ++ c :: part ∧ ∀ d ∈ part, isBlank d = false := by
  rw [lastBlank?, List.find?_eq_some_iff_append]
  refine and_congr_right fun _ => ⟨?_, ?_⟩
  · rintro ⟨later, earlier, hs, hlater⟩
    refine ⟨earlier.reverse, later.reverse, ?_, fun d hd => ?_⟩
    · simpa using congrArg List.reverse hs
    · simpa using hlater d (List.mem_reverse.1 hd)
  · rintro ⟨before, part, rfl, hpart⟩
    exact ⟨part.reverse, before.reverse, by simp, by simpa using hpart⟩

end Text

namespace Shell
open Text (isBlank byteLength firstBytes? lastBlank?)

variable {h : Tab} {o : Offer} {line : String} {cursor index start : Nat} {c : Char}
  {before part text after s t : List Char}

namespace Tab

theorem startFrom_append : startFrom index start (s ++ t) =
    startFrom (index + byteLength s) (startFrom index start s) t := by
  induction s generalizing index start with
  | nil => rfl
  | cons c s ih => rw [List.cons_append, startFrom, startFrom, ih, byteLength, Nat.add_assoc]

theorem startFrom_of_no_blank (h : ∀ c ∈ s, isBlank c = false) : startFrom index start s = start := by
  induction s generalizing index with
  | nil => rfl
  | cons c s ih =>
    obtain ⟨hc, hs⟩ := List.forall_mem_cons.1 h
    rw [startFrom, hc]
    exact ih hs

theorem startFrom_blank (hc : isBlank c = true) (hpart : ∀ d ∈ part, isBlank d = false) :
    startFrom 0 0 (before ++ c :: part) = byteLength before + 1 := by
  rw [startFrom_append, startFrom, hc, startFrom_of_no_blank hpart, Nat.zero_add]
  rfl

theorem startFrom_le (s : List Char) : startFrom 0 0 s ≤ byteLength s := by
  cases hlast : lastBlank? s with
  | none =>
    rw [startFrom_of_no_blank (Text.lastBlank?_eq_none_iff.1 hlast)]
    exact Nat.zero_le _
  | some c =>
    obtain ⟨hc, before, part, rfl, hpart⟩ := Text.lastBlank?_eq_some_iff.1 hlast
    have hpos := c.utf8Size_pos
    rw [startFrom_blank hc hpart, Text.byteLength_append, byteLength]
    omega

theorem start_offer (hword : Word.cut text ≠ []) (hsome : (h.offer text).candidates ≠ []) :
    (h.offer text).start = byteLength text ∨ (h.offer text).start = startFrom 0 0 text := by
  obtain ⟨w, ws, hcut⟩ := List.exists_cons_of_ne_nil hword
  simp only [offer, hcut, List.map_cons] at hsome ⊢
  split_ifs at hsome ⊢ with hindex
  · exact .inr rfl
  · unfold argument at hsome ⊢
    split at hsome <;> try exact .inr rfl
    · unfold afterSuggest at hsome ⊢
      split_ifs
      · exact .inl rfl
      · exact .inl rfl
      · split
        · exact .inl rfl
        · exact .inr rfl
    -- Where no names are known to go, nothing is offered, whatever the start.
    · exact absurd rfl hsome

end Tab

/-- The line falls into what is before the start of the offer, what is from there to the cursor, which
is nothing or the whole last word there, and what is after the cursor. -/
def Offer.InPlace (o : Offer) (line : String) (cursor : Nat) : Prop :=
  ∃ before part after, line.toList = before ++ part ++ after ∧ byteLength before = o.start ∧
    byteLength (before ++ part) = cursor ∧
    (part = [] ∨ ∃ w : Word, (Word.cut (before ++ part)).getLast? = some w ∧ w.letters = part)

namespace Offer

theorem inPlace_of_cursor (hline : line.toList = text ++ after) (hstart : o.start = byteLength text) :
    o.InPlace line (byteLength text) :=
  ⟨text, [], after, by rw [hline, List.append_nil], hstart.symm, by rw [List.append_nil], .inl rfl⟩

theorem inPlace_of_narrow (hline : line.toList = text ++ after) (hword : Word.cut text ≠ [])
    (hstart : o.start = Tab.startFrom 0 0 text) (hnarrow : ∀ c ∈ lastBlank? text, c.utf8Size = 1) :
    o.InPlace line (byteLength text) := by
  cases hlast : lastBlank? text with
  | none =>
    have hink := Text.lastBlank?_eq_none_iff.1 hlast
    have hne : text ≠ [] := by
      rintro rfl
      exact hword Word.cut_nil
    obtain ⟨w, hw, hcut⟩ := Word.exists_cut_of_no_blank hne hink
    refine ⟨[], text, after, hline, ?_, rfl, .inr ⟨w, ?_, hw⟩⟩
    · rw [hstart, Tab.startFrom_of_no_blank hink]
      rfl
    · rw [List.nil_append, hcut]
      rfl
  | some c =>
    obtain ⟨hc, before, part, rfl, hpart⟩ := Text.lastBlank?_eq_some_iff.1 hlast
    have hsplit : before ++ c :: part = (before ++ [c]) ++ part := by simp
    -- One byte behind the beginning of the blank is its end.
    refine ⟨before ++ [c], part, after, by rw [hline, hsplit], ?_, by rw [hsplit], ?_⟩
    · rw [hstart, Tab.startFrom_blank hc hpart, Text.byteLength_append, byteLength, byteLength,
        hnarrow c hlast]
    · refine or_iff_not_imp_left.2 fun hne => ?_
      obtain ⟨w, hw, hcut⟩ := Word.exists_cut_of_no_blank hne hpart
      refine ⟨w, ?_, hw⟩
      rw [← hsplit, Word.cut_append_blank hc, hcut, List.getLast?_append_of_ne_nil _ (by simp)]
      rfl

theorem inside_of_wide (hline : line.toList = text ++ after) (hstart : o.start = Tab.startFrom 0 0 text)
    (hwide : ∃ c ∈ lastBlank? text, c.utf8Size ≠ 1) : firstBytes? o.start line.toList = none := by
  obtain ⟨c, hlast, hsize⟩ := hwide
  obtain ⟨hc, before, part, rfl, hpart⟩ := Text.lastBlank?_eq_some_iff.1 hlast
  rw [hstart, Tab.startFrom_blank hc hpart, hline, List.append_assoc, List.cons_append]
  exact Text.firstBytes?_inside hsize before _

theorem InPlace.firstBytes? (hplace : o.InPlace line cursor) :
    ∃ before, firstBytes? o.start line.toList = some before := by
  obtain ⟨before, part, after, hline, hstart, -⟩ := hplace
  exact ⟨before, by rw [hline, ← hstart, List.append_assoc, Text.firstBytes?_byteLength]⟩

end Offer

/-- What an offer replaces is the word before the cursor, or nothing, exactly when the offer is for the
cursor itself or the last blank takes one byte. Else its start is inside of that blank. -/
theorem offer_inPlace_iff (h : Tab) (line : String) (cursor : Nat) (text : List Char) (o : Offer)
    (htext : firstBytes? cursor line.toList = some text) (hword : Word.cut text ≠ [])
    (ho : h.offerAt? line cursor = some o) (hsome : o.candidates ≠ []) :
    o.start ≤ cursor ∧
    (o.InPlace line cursor ↔ o.start = cursor ∨ ∀ c ∈ lastBlank? text, c.utf8Size = 1) ∧
    (¬ o.InPlace line cursor → firstBytes? o.start line.toList = none) := by
  obtain ⟨rfl, after, hline⟩ := Text.byteLength_of_firstBytes? htext
  obtain rfl : h.offer text = o := by
    rw [Tab.offerAt?, htext] at ho
    exact Option.some.inj ho
  rcases Tab.start_offer hword hsome with hstart | hstart
  · have hplace := Offer.inPlace_of_cursor hline.symm hstart
    exact ⟨hstart.le, iff_of_true hplace (.inl hstart), fun hnot => absurd hplace hnot⟩
  · have hle : (h.offer text).start ≤ byteLength text := hstart ▸ Tab.startFrom_le text
    by_cases hnarrow : ∀ c ∈ lastBlank? text, c.utf8Size = 1
    · have hplace := Offer.inPlace_of_narrow hline.symm hword hstart hnarrow
      exact ⟨hle, iff_of_true hplace (.inr hnarrow), fun hnot => absurd hplace hnot⟩
    · have hinside := Offer.inside_of_wide hline.symm hstart (by simpa using hnarrow)
      have hnot : ¬ (h.offer text).InPlace line (byteLength text) := by
        intro hplace
        obtain ⟨before, hbefore⟩ := hplace.firstBytes?
        exact nomatch hinside.symm.trans hbefore
      have hne : (h.offer text).start ≠ byteLength text := by
        intro heq
        exact hnot (Offer.inPlace_of_cursor hline.symm heq)
      exact ⟨hle, iff_of_false hnot (not_or.2 ⟨hne, hnarrow⟩), fun _ => hinside⟩

theorem Tab.offerAt?_help (hc : isBlank c = true) (hline : line.toList = "help".toList ++ c :: "sc".toList)
    (htext : firstBytes? cursor line.toList = some line.toList) : Word.cut line.toList ≠ [] ∧
      Tab.offerAt? {} line cursor = some ⟨5, [plain "scope", plain "scopes"]⟩ := by
  have hhelp := Word.map_text_cut (s := "help") (by decide) (by decide)
  have hsc := Word.map_text_cut (s := "sc") (by decide) (by decide)
  have hcut : (Word.cut ("help".toList ++ c :: "sc".toList)).map (·.text) = ["help", "sc"] := by
    rw [Word.cut_append_blank hc, List.map_append, hhelp, hsc]
    rfl
  have hstart : startFrom 0 0 ("help".toList ++ c :: "sc".toList) = 5 :=
    startFrom_blank hc (Word.any_isBlank_eq_false.1 (by decide))
  have hends : endsInBlank ("help".toList ++ c :: "sc".toList) = false := rfl
  have hverb : Verb.named? (Text.lowercase "help") = some .help := by decide
  have hnames : startingWith "sc" Verb.offered = ["scope", "scopes"] := by decide
  have hargument : ∀ n, Tab.argument {} ⟨n, 5, "help", ["sc"], false⟩ =
      ⟨5, [plain "scope", plain "scopes"]⟩ := by
    intro n
    have hpart : startingWith (Typed.part ⟨n, 5, "help", ["sc"], false⟩) Verb.offered = _ := hnames
    simp [argument, hverb, Typed.index, hpart]
  rw [hline]
  refine ⟨fun hnone => ?_, ?_⟩
  · rw [hnone] at hcut
    cases hcut
  · rw [offerAt?, htext, hline, Option.map_some, offer, hcut, hstart, hends]
    exact congrArg some (hargument _)

theorem offer_inPlace_help : ∃ o, Tab.offerAt? {} "help sc" 7 = some o ∧ o.start = 5 ∧
    o.candidates ≠ [] ∧ o.InPlace "help sc" 7 := by
  have htext : firstBytes? 7 "help sc".toList = some "help sc".toList := by decide
  obtain ⟨hword, ho⟩ := Tab.offerAt?_help (c := ' ') (by decide) (by decide) htext
  have hlast : lastBlank? "help sc".toList = some ' ' := by decide
  have hplace := offer_inPlace_iff {} "help sc" 7 _ _ htext hword ho (List.cons_ne_nil _ _)
  refine ⟨_, ho, rfl, List.cons_ne_nil _ _, hplace.2.1.2 (.inr fun c hc => ?_)⟩
  rw [hlast] at hc
  cases hc
  rfl

/-- The no-break space takes two bytes, and the offer starts at the second of them. -/
theorem not_offer_inPlace_help : ¬ ∀ (h : Tab) (line : String) (cursor : Nat) (text : List Char)
    (o : Offer), firstBytes? cursor line.toList = some text → Word.cut text ≠ [] →
    h.offerAt? line cursor = some o → o.candidates ≠ [] → o.InPlace line cursor := by
  intro hclaim
  have htext : firstBytes? 8 "help\u00a0sc".toList = some "help\u00a0sc".toList := by decide
  obtain ⟨hword, ho⟩ := Tab.offerAt?_help (c := '\u00a0') (by decide) (by decide) htext
  have hplace := hclaim {} "help\u00a0sc" 8 _ _ htext hword ho (List.cons_ne_nil _ _)
  obtain ⟨before, hbefore⟩ := hplace.firstBytes?
  have hinside : firstBytes? 5 "help\u00a0sc".toList = none := by decide
  exact Option.some_ne_none _ (hbefore.symm.trans hinside)

end Shell
end Phrasebook
