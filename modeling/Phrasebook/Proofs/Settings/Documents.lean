import Phrasebook.Proofs.Grammar.Formats
import Phrasebook.Proofs.Json.Numbers
import Phrasebook.Settings

/-!
Settings written and read back. Whatever settings are read from a text have counts that fit machine
words, and settings with such counts are read from their own text as they were.
-/

namespace Phrasebook.Settings
open Json (Ending Fault Flaw Plain Tree liftFlaw)
open Json.Tree (Shows)
open Text (utf8)

variable {s s' : Settings} {source : Source} {f : Field} {seen : List Field} {t : Tree}
  {members : List (Except Flaw String × Tree)}

structure Counted (s : Settings) : Prop where
  lookahead : ∀ n, s.lookahead = some n → n < Json.wordLimit
  limit : ∀ n, s.limit = some n → n < Json.wordLimit

def countJson (x : Option Nat) : Json := orNull (fun n => .int n) (do return (← x : Int))

namespace Field

def json (s : Settings) : Field → Json
  | grammarPath => orNull .string s.grammarPath
  | format => orNull (fun f => .string f.name) s.format
  | scope => orNull .string s.scope
  | lookahead => countJson s.lookahead
  | limit => countJson s.limit

def copy (s into : Settings) : Field → Settings
  | grammarPath => { into with grammarPath := s.grammarPath }
  | format => { into with format := s.format }
  | scope => { into with scope := s.scope }
  | lookahead => { into with lookahead := s.lookahead }
  | limit => { into with limit := s.limit }

end Field

theorem toJson_eq (s : Settings) : s.toJson = .object (Field.all.map fun f => (f.name, f.json s)) := rfl

theorem plain_orNull_string {α : Type} (f : α → String) (x : Option α) :
    Plain 0 (orNull (fun a => .string (f a)) x) := by
  cases x with
  | none => exact .null
  | some a => exact .string (f a)

theorem plain_countJson {x : Option Nat} (h : ∀ n, x = some n → n < Json.wordLimit) :
    Plain 0 (countJson x) := by
  cases x with
  | none => exact .null
  | some n => exact .count (h n rfl)

theorem plain_json (h : s.Counted) (f : Field) : Plain 0 (f.json s) := by
  cases f with
  | grammarPath => exact plain_orNull_string id s.grammarPath
  | format => exact plain_orNull_string Format.name s.format
  | scope => exact plain_orNull_string id s.scope
  | lookahead => exact plain_countJson h.lookahead
  | limit => exact plain_countJson h.limit

theorem plain_toJson (h : s.Counted) : Plain 1 s.toJson := by
  rw [toJson_eq]
  refine .object fun m hm => ?_
  obtain ⟨f, -, rfl⟩ := List.mem_map.1 hm
  exact plain_json h f

theorem stringOf_orNull (expected : String) (x : Option String) :
    stringOf expected (Tree.ofValue (orNull .string x)) = .ok x := by
  cases x <;> rfl

theorem formatOf_orNull (x : Option Format) :
    formatOf source (Tree.ofValue (orNull (fun f => .string f.name) x)) = .ok x := by
  cases x with
  | none => rfl
  | some f => cases f <;> rfl

theorem countOf_countJson (x : Option Nat) : countOf (Tree.ofValue (countJson x)) = .ok x := by
  cases x <;> rfl

theorem read_json (s into : Settings) (f : Field) :
    f.read source (Tree.ofValue (f.json s)) into = .ok (f.copy s into) := by
  cases f with
  | grammarPath => exact bind_eq_ok_iff.2 ⟨_, stringOf_orNull _ _, rfl⟩
  | format => exact bind_eq_ok_iff.2 ⟨_, formatOf_orNull _, rfl⟩
  | scope => exact bind_eq_ok_iff.2 ⟨_, stringOf_orNull _ _, rfl⟩
  | lookahead => exact bind_eq_ok_iff.2 ⟨_, countOf_countJson _, rfl⟩
  | limit => exact bind_eq_ok_iff.2 ⟨_, countOf_countJson _, rfl⟩

theorem named?_name (f : Field) : Field.named? f.name = some f := by
  cases f <;> rfl

theorem readMembers_json {fs : List Field} (hfs : fs.Nodup) (hseen : ∀ f ∈ fs, f ∉ seen)
    (into : Settings) :
    readMembers source seen (Tree.ofMembers (fs.map fun f => (f.name, f.json s))) into =
      .ok (fs.foldl (fun into f => f.copy s into) into) := by
  induction fs generalizing seen into with
  | nil => rfl
  | cons f fs ih =>
    obtain ⟨hf, hfs⟩ := List.nodup_cons.1 hfs
    obtain ⟨hnew, hseen⟩ := List.forall_mem_cons.1 hseen
    have hseen' : ∀ f' ∈ fs, f' ∉ f :: seen := fun f' hf' hmem =>
      (List.mem_cons.1 hmem).elim (fun heq => hf (heq ▸ hf')) (hseen f' hf')
    rw [List.map_cons, Tree.ofMembers, readMembers]
    simp only [liftFlaw, bind, Except.bind, named?_name, if_neg hnew, read_json]
    exact ih hfs hseen' _

theorem ofText_pretty (h : s.Counted) : ofText s.toJson.pretty = .ok s := by
  have hplain := plain_toJson h
  rw [ofText, Json.tokens_pretty hplain, Tree.read_written hplain, toJson_eq]
  exact bind_eq_ok_iff.2 ⟨s, bind_eq_ok_iff.2 ⟨s, readMembers_json (by decide) (by simp) {}, rfl⟩, rfl⟩

def InWords (t : Tree) : Prop := ∀ k : Int, t.Shows (.ok (.int k)) → k < Json.wordLimit

theorem lt_of_countOf (ht : InWords t) {x : Option Nat} (h : countOf t = .ok x) :
    ∀ n, x = some n → n < Json.wordLimit := by
  rintro n rfl
  unfold countOf at h
  split at h
  · cases h
  · rename_i k
    split_ifs at h with hk
    cases h
    have hlt := ht k (.here rfl)
    omega
  · exact absurd h (Tree.mismatch_ne_ok _ _ _)

theorem counted_of_read (hs : s.Counted) (ht : InWords t) (h : f.read source t s = .ok s') :
    s'.Counted := by
  cases f with
  | grammarPath | format | scope =>
    obtain ⟨_, -, h⟩ := bind_eq_ok_iff.1 h
    cases h
    exact ⟨hs.lookahead, hs.limit⟩
  | lookahead =>
    obtain ⟨_, hcount, h⟩ := bind_eq_ok_iff.1 h
    cases h
    exact ⟨lt_of_countOf ht hcount, hs.limit⟩
  | limit =>
    obtain ⟨_, hcount, h⟩ := bind_eq_ok_iff.1 h
    cases h
    exact ⟨hs.lookahead, lt_of_countOf ht hcount⟩

theorem counted_of_readMembers (hs : s.Counted) (hmembers : ∀ m ∈ members, InWords m.2)
    (h : readMembers source seen members s = .ok s') : s'.Counted := by
  induction members generalizing seen s with
  | nil =>
    cases h
    exact hs
  | cons m members ih =>
    obtain ⟨hm, hmembers⟩ := List.forall_mem_cons.1 hmembers
    obtain ⟨name, -, h⟩ := bind_eq_ok_iff.1 h
    split at h
    · obtain ⟨_, -, h⟩ := bind_eq_ok_iff.1 h
      exact ih hs hmembers h
    · split_ifs at h
      obtain ⟨s₁, hread, h⟩ := bind_eq_ok_iff.1 h
      exact ih (counted_of_read hs hm hread) hmembers h

theorem counted_of_readItems {count : Nat} {ending : Ending} {fs : List Field} {items : List Tree}
    (hs : s.Counted) (hitems : ∀ t ∈ items, InWords t)
    (h : readItems source count ending fs items s = .ok s') : s'.Counted := by
  induction fs generalizing items s with
  | nil =>
    unfold readItems at h
    split at h
    · cases h
    · obtain ⟨_, -, h⟩ := bind_eq_ok_iff.1 h
      cases h
      exact hs
  | cons f fs ih =>
    cases items with
    | nil =>
      obtain ⟨_, -, h⟩ := bind_eq_ok_iff.1 h
      cases h
      exact hs
    | cons t items =>
      obtain ⟨ht, hitems⟩ := List.forall_mem_cons.1 hitems
      obtain ⟨s₁, hread, h⟩ := bind_eq_ok_iff.1 h
      exact ih (counted_of_read hs ht hread) hitems h

theorem counted_empty : ({} : Settings).Counted := ⟨nofun, nofun⟩

theorem counted_of_ofTree (ht : InWords t) (h : ofTree source t = .ok s) : s.Counted := by
  unfold ofTree at h
  split at h
  · obtain ⟨s', hmembers, h⟩ := bind_eq_ok_iff.1 h
    obtain ⟨_, -, h⟩ := bind_eq_ok_iff.1 h
    cases h
    exact counted_of_readMembers counted_empty (fun m hm k hk => ht k (.member hm hk)) hmembers
  · exact counted_of_readItems counted_empty (fun t' ht' k hk => ht k (.item ht' hk)) h
  · exact absurd h (Tree.mismatch_ne_ok _ _ _)

theorem counted_of_ofText {text : String} (h : ofText text = .ok s) : s.Counted := by
  obtain ⟨s', hread, h⟩ := bind_eq_ok_iff.1 h
  split_ifs at h
  cases h
  exact counted_of_ofTree (fun _ => Tree.lt_of_shows) hread

end Phrasebook.Settings
