import Mathlib.Data.List.Permutation
import Phrasebook.Proofs.Dictionary.Grafting
import Phrasebook.Proofs.Lookahead.Resolution
import Phrasebook.Proofs.Walk.Finding
import Phrasebook.Shell.Tab

/-!
What the tab key offers of the grammar leads on. A word that finishes the one being typed, or that
comes next, may have been found inside of scopes that a search for it would enter from elsewhere; yet
with the word in its place the input can be read, and there is something to suggest. No word is
offered twice.
-/

namespace Phrasebook

theorem wordsOf_texts (ws : List Word) : wordsOf (ws.map (·.text)) = ws := by
  have hword : ∀ w : Word, Word.ofText w.text = [w] := fun w => w.cut_letters
  simp [wordsOf, List.flatMap_map, hword]

theorem Suggestion.completedWord_eq_some_iff {s : Suggestion} {c : String} : s.completedWord = some c ↔
    ∃ stem r segments, s = ⟨some stem, .text r :: segments⟩ ∧ stem ++ r = c := by
  obtain ⟨stem, segments⟩ := s
  cases stem <;> rcases segments with - | ⟨r | v | p, segments⟩ <;> simp [completedWord]

namespace Dictionary

variable {d : Dictionary} {id : ScopeId} {tokens : List Word} {t w : Word} {s : Suggestion}
  {x : Segment} {segments : List Segment} {items rest : List Item} {lookahead : Nat} {c : String}

theorem exists_continuation (hd : d.Sound) (hs : s ∈ d.suggest id tokens lookahead)
    (hx : s.segments = x :: segments) : ∃ s₀ ∈ d.continuations id tokens,
      s.stem = s₀.stem ∧ ∃ y rest, s₀.segments = y :: rest ∧ d.Begins y x := by
  obtain ⟨s₀, hs₀, hfrom⟩ := mem_suggest_iff.1 hs
  split_ifs at hfrom
  · subst hfrom
    exact ⟨s, hs₀, rfl, x, segments, hx, .stay x⟩
  · obtain ⟨hstem, hsegments⟩ := mem_resolve_iff.1 hfrom
    exact ⟨s₀, hs₀, hstem, begins_of_mem_resolveSegments hd (hx ▸ hsegments)⟩

theorem suggest_ne_nil_of_expands (hd : d.Sound) (stored : d.Stores id items)
    (hexpands : d.ExpandsLoopless [id] (tokens.length + 1) items
      (tokens.map .word ++ .word w :: rest)) : d.suggest id (tokens ++ [w]) 0 ≠ [] := by
  have hcontinues := (Continues.whole w rest).words_append (List.cons_ne_nil w []) tokens
  refine List.ne_nil_of_mem (mem_suggest_iff.2 ⟨_, (mem_continuations_iff hd).2
    ⟨items, _, stored, ?_, hcontinues⟩, (if_pos rfl).mpr rfl⟩)
  rwa [List.length_append, List.length_singleton]

theorem suggest_ne_nil_of_completedWord (hd : d.Sound)
    (hs : s ∈ d.suggest id (tokens ++ [t]) lookahead) (hc : s.completedWord = some c) :
    ∃ w : Word, w.text = c ∧ t.letters <+: w.letters ∧ w ≠ t ∧
      d.suggest id (tokens ++ [w]) 0 ≠ [] := by
  obtain ⟨stem, r, segments, rfl, rfl⟩ := Suggestion.completedWord_eq_some_iff.1 hc
  obtain ⟨s₀, hs₀, hstem, y, rest, hsegments, hbegins⟩ := exists_continuation hd hs rfl
  obtain ⟨items, out, stored, hexpands, hcontinues⟩ := (mem_continuations_iff hd).1 hs₀
  obtain ⟨later, rfl, hlater⟩ := hcontinues.of_words_append (List.cons_ne_nil t [])
  cases hbegins
  cases hlater with
  | whole t later => rcases later with - | ⟨v | p, later⟩ <;> simp_all [Item.segment]
  | @part t w r' later more begun =>
    obtain rfl : String.ofList r' = r := Segment.text.inj (List.cons.inj hsegments).1
    obtain rfl : stem = t.text := Option.some.inj hstem
    rw [List.length_append, List.length_singleton] at hexpands
    refine ⟨w, ?_, ⟨r', begun.symm⟩, ?_, suggest_ne_nil_of_expands hd stored hexpands⟩
    · rw [← w.ofList_letters, begun, String.ofList_append, t.ofList_letters]
    · intro heq
      subst heq
      exact more (List.self_eq_append_right.1 begun)

theorem Begins.exists_expands (hd : d.Sound) (h : d.Begins x (.word c))
    (hitems : items.map Item.segment = x :: segments) :
    ∃ (w : Word) (out : List Item), w.text = c ∧ d.ExpandsLoopless [] 1 items (.word w :: out) := by
  obtain ⟨y, items, rfl, rfl, -⟩ := List.map_eq_cons_iff.1 hitems
  generalize hx : y.segment = x at h
  cases h with
  | stay =>
    cases y with
    | word v => exact ⟨v, items, Segment.word.inj hx, .keep (.refl 0 items)⟩
    | slot p => cases hx
  | @fill p id w us named sentence =>
    cases y with
    | word v => cases hx
    | slot p' =>
      cases hx
      obtain ⟨body, stored, hspells⟩ := sentence
      obtain ⟨mid, hmid⟩ := hspells.exists_expands hd
      exact ⟨w, mid ++ items, rfl,
        .fill Nat.one_pos named List.not_mem_nil stored hmid (.refl _ items)⟩

theorem suggest_ne_nil_of_next (hd : d.Sound) (hs : s ∈ d.suggest id (tokens ++ [t]) lookahead)
    (hc : s.segments = .word c :: segments) :
    ∃ w : Word, w.text = c ∧ d.suggest id (tokens ++ [t] ++ [w]) 0 ≠ [] := by
  obtain ⟨s₀, hs₀, -, y, rest, hsegments, hbegins⟩ := exists_continuation hd hs hc
  obtain ⟨items, out, stored, hexpands, hcontinues⟩ := (mem_continuations_iff hd).1 hs₀
  obtain ⟨later, rfl, hlater⟩ := hcontinues.of_words_append (List.cons_ne_nil t [])
  cases hlater with
  | part later more begun =>
    obtain ⟨rfl, -⟩ := List.cons.inj hsegments
    cases hbegins
  | whole t later =>
    obtain ⟨w, out, rfl, hnext⟩ := hbegins.exists_expands hd hsegments
    have htyped : (tokens ++ [t]).map .word ++ later = tokens.map .word ++ .word t :: later := by
      simp
    have hout := hnext.words_append (tokens ++ [t])
    rw [htyped] at hout
    exact ⟨w, rfl, suggest_ne_nil_of_expands hd stored
      (hexpands.trans hcontinues.take_words (by simp) (Nat.le_succ _) hout)⟩

end Dictionary

namespace Shell.Tab
open Dictionary

variable {d : Dictionary} {name c : String} {id : ScopeId} {lookahead : Nat} {typed : List String}
  {partly : Bool}

theorem mem_distinctWords {seen l : List String} :
    c ∈ distinctWords seen l ↔ c ∈ l ∧ c ∉ seen := by
  induction l generalizing seen with
  | nil => simp [distinctWords]
  | cons x l ih =>
    rw [distinctWords]
    split_ifs with hx
    · rw [ih, List.mem_cons]
      constructor
      · exact fun h => ⟨.inr h.1, h.2⟩
      · intro h
        obtain ⟨rfl | hmem, hnew⟩ := h
        · exact absurd hx hnew
        · exact ⟨hmem, hnew⟩
    · rw [List.mem_cons, ih, List.mem_cons, List.mem_cons, not_or]
      by_cases hc : c = x
      · simp [hc, hx]
      · simp [hc]

theorem nodup_distinctWords (seen l : List String) : (distinctWords seen l).Nodup := by
  induction l generalizing seen with
  | nil => exact .nil
  | cons x l ih =>
    rw [distinctWords]
    split_ifs
    · exact ih seen
    · exact List.nodup_cons.2 ⟨fun h => (mem_distinctWords.1 h).2 List.mem_cons_self, ih _⟩

theorem mem_words_iff (hid : d.resolve? name = some id) :
    c ∈ words ⟨d, some name, lookahead⟩ typed partly ↔
      ∃ s ∈ d.suggest id (wordsOf typed) lookahead, offeredWord partly s = some c := by
  simp [words, hid, mem_distinctWords]

theorem nodup_words (h : Tab) (typed : List String) (partly : Bool) :
    (h.words typed partly).Nodup := by
  rw [words]
  split
  · exact .nil
  · exact nodup_distinctWords [] _

theorem offeredWord_false_eq_some_iff {s : Suggestion} :
    offeredWord false s = some c ↔ ∃ segments, s.segments = .word c :: segments := by
  rcases hs : s.segments with - | ⟨r | v | p, segments⟩ <;> simp [offeredWord, hs]

/-- Whatever the tab key offers goes on to a suggestion, and no word is offered twice. -/
theorem words_lead (calls : List Call) (hid : (ofCalls calls).resolve? name = some id)
    (tokens : List Word) (t : Word) (lookahead : Nat) :
    (∀ c ∈ words ⟨ofCalls calls, some name, lookahead⟩ ((tokens ++ [t]).map (·.text)) true,
      t.text.toList <+: c.toList ∧ c ≠ t.text ∧
        (ofCalls calls).suggest id (wordsOf (tokens.map (·.text) ++ [c])) 0 ≠ []) ∧
    (∀ c ∈ words ⟨ofCalls calls, some name, lookahead⟩ ((tokens ++ [t]).map (·.text)) false,
      (ofCalls calls).suggest id (wordsOf ((tokens ++ [t]).map (·.text) ++ [c])) 0 ≠ []) ∧
    ∀ partly, (words ⟨ofCalls calls, some name, lookahead⟩
      ((tokens ++ [t]).map (·.text)) partly).Nodup := by
  have hd := sound_ofCalls calls
  have hlonger : ∀ (ws : List Word) (w : Word), wordsOf (ws.map (·.text) ++ [w.text]) = ws ++ [w] :=
    fun ws w => by rw [← wordsOf_texts (ws ++ [w]), List.map_append]; rfl
  refine ⟨?_, ?_, fun partly => nodup_words _ _ partly⟩
  · intro c hc
    obtain ⟨s, hs, hoffered⟩ := (mem_words_iff hid).1 hc
    rw [wordsOf_texts] at hs
    obtain ⟨w, rfl, hbegun, hne, hfound⟩ := suggest_ne_nil_of_completedWord hd hs hoffered
    rw [hlonger]
    exact ⟨hbegun, fun heq => hne (Word.ext heq), hfound⟩
  · intro c hc
    obtain ⟨s, hs, hoffered⟩ := (mem_words_iff hid).1 hc
    rw [wordsOf_texts] at hs
    obtain ⟨segments, hsegments⟩ := offeredWord_false_eq_some_iff.1 hoffered
    obtain ⟨w, rfl, hfound⟩ := suggest_ne_nil_of_next hd hs hsegments
    rw [hlonger]
    exact hfound

def say : Word := ⟨"say", by decide, Word.any_isBlank_eq_false.1 (by decide)⟩

def an : Word := ⟨"an", by decide, Word.any_isBlank_eq_false.1 (by decide)⟩

def greetings : List Call :=
  [.define "name" [.written "ann", .written "annie"],
    .define "hail" [.written "<who:name>", .written "<first:hail> again"],
    .define "greeting" [.written "say <what:hail> now"]]

theorem words_lead_greetings : (ofCalls greetings).resolve? "greeting" = some 2 ∧
    words ⟨ofCalls greetings, some "greeting", 2⟩ ["say", "an"] true = ["ann", "annie"] ∧
    words ⟨ofCalls greetings, some "greeting", 2⟩ ["say"] false = ["ann", "annie"] ∧
    (ofCalls greetings).suggest 2 (wordsOf ["say", "ann"]) 0 ≠ [] ∧
    (ofCalls greetings).suggest 2 (wordsOf ["say", "annie"]) 0 ≠ [] := by
  have hid : (ofCalls greetings).resolve? "greeting" = some 2 := by cbv
  have hfinished : words ⟨ofCalls greetings, some "greeting", 2⟩ ["say", "an"] true =
      ["ann", "annie"] := by cbv
  have hnext : words ⟨ofCalls greetings, some "greeting", 2⟩ ["say"] false = ["ann", "annie"] := by
    cbv
  obtain ⟨hfinish, -, -⟩ := words_lead greetings hid [say] an 2
  obtain ⟨-, hfollow, -⟩ := words_lead greetings hid [] say 2
  refine ⟨hid, hfinished, hnext, hfollow "ann" ?_, (hfinish "annie" ?_).2.2⟩
  · exact hnext ▸ List.mem_cons_self
  · exact hfinished ▸ List.mem_cons_of_mem _ List.mem_cons_self

end Shell.Tab
end Phrasebook
