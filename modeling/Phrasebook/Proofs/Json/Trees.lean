import Phrasebook.Proofs.Json.Tokens
import Phrasebook.Proofs.Sequencing

/-!
The tree of a written value. Reading a value's tokens puts its tree where a value was awaited and goes
on behind it; a whole list or object is read item by item into its frame. So a plain value that is
written and read again is the same value.
-/

namespace Phrasebook.Json
open Text (Bytes utf8)

namespace Tree

variable {v : Json} {nesting depth : Nat} {stack : List Frame} {ts : List Token}

def resume (ts : List Token) : Move → Tree × List Token
  | .value t => (t, ts)
  | .on stack => readWith stack ts
  | .wrong t => (t, [])

theorem readWith_cons (stack : List Frame) (t : Token) (ts : List Token) :
    readWith stack (t :: ts) = resume ts (move stack t) := by
  rw [readWith]
  cases move stack t <;> rfl

def Awaits (stack : List Frame) : Prop := ∀ t, t ≠ .rbracket → move stack t = startValue stack t

theorem awaits_nil : Awaits [] := fun _ _ => rfl

theorem awaits_items : Awaits (.items :: stack) := fun _ ht => if_neg ht

theorem awaits_itemComma (before : List Tree) : Awaits (.itemComma before :: stack) :=
  fun _ ht => if_neg ht

theorem awaits_colon (before : List (Except Flaw String × Tree)) (key : Except Flaw String) :
    Awaits (.colon before key :: stack) := fun _ _ => rfl

def Reads (v : Json) : Prop := ∀ stack ts, Awaits stack →
  readWith stack (written v ++ ts) = resume ts (done (ofValue v) stack)

theorem reads_scalar {token : Token} (hwritten : written v = [token]) (hne : token ≠ .rbracket)
    (hstart : ∀ stack, startValue stack token = done (ofValue v) stack) : Reads v := by
  intro stack ts hstack
  rw [hwritten, List.singleton_append, readWith_cons, hstack _ hne, hstart]

theorem readWith_items {items : List Json} (h : ∀ v ∈ items, Reads v) (before : List Tree) :
    readWith (.item before :: stack) ((writtenItems items).flatMap (.comma :: ·) ++ .rbracket :: ts) =
      resume ts (done (.array (before.reverse ++ ofValues items) .closed) stack) := by
  induction items generalizing before with
  | nil =>
    simp only [writtenItems, List.flatMap_nil, List.nil_append, readWith_cons, ofValues,
      List.append_nil]
    rfl
  | cons v vs ih =>
    obtain ⟨hv, hvs⟩ := List.forall_mem_cons.1 h
    rw [writtenItems, List.flatMap_cons, List.cons_append, List.cons_append, readWith_cons,
      List.append_assoc]
    change readWith (.itemComma before :: stack) _ = _
    rw [hv _ _ (awaits_itemComma before)]
    change readWith (.item (ofValue v :: before) :: stack) _ = _
    rw [ih hvs, ofValues, List.reverse_cons, List.append_assoc]
    rfl

theorem readWith_members {members : List (String × Json)} (h : ∀ m ∈ members, Reads m.2)
    (before : List (Except Flaw String × Tree)) :
    readWith (.member before :: stack)
        ((writtenMembers members).flatMap (.comma :: ·) ++ .rbrace :: ts) =
      resume ts (done (.object (before.reverse ++ ofMembers members) .closed) stack) := by
  induction members generalizing before with
  | nil =>
    simp only [writtenMembers, List.flatMap_nil, List.nil_append, readWith_cons, ofMembers,
      List.append_nil]
    rfl
  | cons m ms ih =>
    obtain ⟨hm, hms⟩ := List.forall_mem_cons.1 h
    simp only [writtenMembers, List.flatMap_cons, List.cons_append, List.append_assoc]
    rw [readWith_cons]
    change readWith (.memberComma before :: stack) _ = _
    rw [readWith_cons]
    change readWith (.key before (.ok m.1) :: stack) _ = _
    rw [readWith_cons]
    change readWith (.colon before (.ok m.1) :: stack) _ = _
    rw [hm _ _ (awaits_colon before (.ok m.1))]
    change readWith (.member ((.ok m.1, ofValue m.2) :: before) :: stack) _ = _
    rw [ih hms, ofMembers, List.reverse_cons, List.append_assoc]
    rfl

theorem reads_array {items : List Json} (h : ∀ v ∈ items, Reads v) : Reads (.array items) := by
  intro stack ts hstack
  have hopen : move stack .lbracket = .on (.items :: stack) := hstack _ (by decide)
  rw [written, List.append_assoc, List.cons_append, readWith_cons, hopen]
  change readWith (.items :: stack) _ = _
  cases items with
  | nil => rfl
  | cons v vs =>
    obtain ⟨hv, hvs⟩ := List.forall_mem_cons.1 h
    -- The first item stands right behind the bracket, each of the others behind a comma.
    rw [writtenItems, commas, List.append_assoc, hv _ _ awaits_items]
    exact readWith_items hvs [ofValue v]

theorem reads_object {members : List (String × Json)} (h : ∀ m ∈ members, Reads m.2) :
    Reads (.object members) := by
  intro stack ts hstack
  have hopen : move stack .lbrace = .on (.members :: stack) := hstack _ (by decide)
  rw [written, List.append_assoc, List.cons_append, readWith_cons, hopen]
  change readWith (.members :: stack) _ = _
  cases members with
  | nil => rfl
  | cons m ms =>
    obtain ⟨hm, hms⟩ := List.forall_mem_cons.1 h
    simp only [writtenMembers, commas, List.cons_append, List.append_assoc]
    rw [readWith_cons]
    change readWith (.key [] (.ok m.1) :: stack) _ = _
    rw [readWith_cons]
    change readWith (.colon [] (.ok m.1) :: stack) _ = _
    rw [hm _ _ (awaits_colon [] (.ok m.1))]
    exact readWith_members hms [(.ok m.1, ofValue m.2)]

theorem reads_of_plain (h : Plain nesting v) : Reads v := by
  induction h with
  | null => exact reads_scalar rfl nofun fun _ => rfl
  | count => exact reads_scalar rfl nofun fun _ => rfl
  | string => exact reads_scalar rfl nofun fun _ => rfl
  | array _ ih => exact reads_array ih
  | object _ ih => exact reads_object ih

theorem read_written (h : Plain nesting v) : read (written v) = (ofValue v, []) := by
  have hread := reads_of_plain h [] [] awaits_nil
  rwa [List.append_nil] at hread

theorem values_ofValues {items : List Json} (h : ∀ v ∈ items, value depth (ofValue v) = .ok v) :
    values depth (ofValues items) = .ok items := by
  induction items with
  | nil => rfl
  | cons v vs ih =>
    obtain ⟨hv, hvs⟩ := List.forall_mem_cons.1 h
    exact bind_eq_ok_iff.2 ⟨v, hv, bind_eq_ok_iff.2 ⟨vs, ih hvs, rfl⟩⟩

theorem memberValues_ofMembers {members : List (String × Json)}
    (h : ∀ m ∈ members, value depth (ofValue m.2) = .ok m.2) :
    memberValues depth (ofMembers members) = .ok members := by
  induction members with
  | nil => rfl
  | cons m ms ih =>
    obtain ⟨hm, hms⟩ := List.forall_mem_cons.1 h
    refine bind_eq_ok_iff.2 ⟨m.1, rfl, bind_eq_ok_iff.2 ⟨m.2, hm, bind_eq_ok_iff.2 ⟨ms, ih hms, rfl⟩⟩⟩

theorem value_ofValue (h : Plain nesting v) (hle : nesting ≤ depth) :
    value depth (ofValue v) = .ok v := by
  induction h generalizing depth with
  | null | count | string => rfl
  | @array nesting items _ ih =>
    cases depth with
    | zero => omega
    | succ depth =>
      have hitems := values_ofValues fun v hv => ih v hv (Nat.le_of_succ_le_succ hle)
      exact bind_eq_ok_iff.2 ⟨items, hitems, rfl⟩
  | @object nesting members _ ih =>
    cases depth with
    | zero => omega
    | succ depth =>
      have hmembers := memberValues_ofMembers fun m hm => ih m hm (Nat.le_of_succ_le_succ hle)
      exact bind_eq_ok_iff.2 ⟨members, hmembers, rfl⟩

end Tree

end Phrasebook.Json
