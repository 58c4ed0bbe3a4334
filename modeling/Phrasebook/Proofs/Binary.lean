import Mathlib.Algebra.Group.Nat.Defs
import Mathlib.Data.List.Forall2
import Phrasebook.Binary
import Phrasebook.Proofs.Sequencing
import Phrasebook.Proofs.Text.Utf8

/-!
The binary layout read back. A reader gives the value that was put and leaves what follows it, as long
as every length fits its eight bytes and every tag its four. What is read always fits, and no reader looks
at what follows the value, so nothing is read from a part of the bytes of one.
-/

namespace Phrasebook.Binary
open Text (Bytes utf8)

variable {α β γ : Type} {n width : Nat} {bytes more : Bytes}

/-- Whatever follows the bytes, the reader takes them and no more, and gives the value. -/
def Reads (reader : Reader α) (bytes : Bytes) (a : α) : Prop :=
  ∀ rest, reader (bytes ++ rest) = .ok (a, rest)

def Short (P : α → Prop) (l : List α) : Prop := l.length < 2 ^ 64 ∧ ∀ a ∈ l, P a

def ShortText (s : String) : Prop := (utf8 s).length < 2 ^ 64

instance {P : α → Prop} [DecidablePred P] (l : List α) : Decidable (Short P l) :=
  inferInstanceAs (Decidable (_ ∧ _))

instance : DecidablePred ShortText := fun _ => inferInstanceAs (Decidable (_ < _))

theorem length_littleEnd (width n : Nat) : (littleEnd width n).length = width := by
  induction width generalizing n with
  | zero => rfl
  | succ width ih => rw [littleEnd, List.length_cons, ih]

theorem ofLittleEnd_littleEnd (h : n < 256 ^ width) : ofLittleEnd (littleEnd width n) = n := by
  induction width generalizing n with
  | zero => exact (Nat.lt_one_iff.1 h).symm
  | succ width ih =>
    have hhigh : n / 256 < 256 ^ width := Nat.div_lt_of_lt_mul (by rwa [← Nat.pow_succ'])
    have hlow : n % 256 < 256 := Nat.mod_lt _ (by decide)
    rw [littleEnd, ofLittleEnd, Text.toNat_ofNat hlow, ih hhigh, Nat.mod_add_div]

namespace Reads

theorem take (h : bytes.length = n) : Reads (Binary.take n) bytes bytes := by
  intro rest
  have hlength : ¬ (bytes ++ rest).length < n := by rw [List.length_append]; omega
  rw [Binary.take, if_neg hlength, List.take_left' h, List.drop_left' h]

theorem number (h : n < 256 ^ width) : Reads (Binary.number width) (littleEnd width n) n := by
  intro rest
  refine bind_eq_ok_iff.2 ⟨_, take (length_littleEnd width n) rest, ?_⟩
  simp only [ofLittleEnd_littleEnd h]

theorem length (h : n < 2 ^ 64) : Reads Binary.length (putLength n) n := number h

theorem tag (h : n < 2 ^ 32) : Reads Binary.tag (putTag n) n := number h

theorem text {s : String} (h : ShortText s) : Reads Binary.text (putText s) s := by
  intro rest
  rw [putText, List.append_assoc]
  refine bind_eq_ok_iff.2 ⟨_, length h _, bind_eq_ok_iff.2 ⟨_, take rfl rest, ?_⟩⟩
  simp only [utf8, Text.decode_encode, String.ofList_toList]

variable {item : Reader β} {put : α → Bytes} {f : α → β} {l : List α}

theorem times (h : ∀ a ∈ l, Reads item (put a) (f a)) :
    Reads (Binary.times item l.length) (l.flatMap put) (l.map f) := by
  intro rest
  induction l with
  | nil => rfl
  | cons a l ih =>
    obtain ⟨ha, hl⟩ := List.forall_mem_cons.1 h
    rw [List.flatMap_cons, List.append_assoc]
    exact bind_eq_ok_iff.2 ⟨_, ha _, bind_eq_ok_iff.2 ⟨_, ih hl, rfl⟩⟩

theorem list {P : α → Prop} (hl : Short P l) (h : ∀ a, P a → Reads item (put a) (f a)) :
    Reads (Binary.list item) (putList put l) (l.map f) := by
  intro rest
  rw [putList, List.append_assoc]
  exact bind_eq_ok_iff.2 ⟨_, length hl.1 _, times (fun a ha => h a (hl.2 a ha)) rest⟩

theorem both {first : Reader β} {second : Reader γ} {b : β} {c : γ} (hfirst : Reads first bytes b)
    (hsecond : Reads second more c) : Reads (Binary.both first second) (bytes ++ more) (b, c) := by
  intro rest
  rw [List.append_assoc]
  exact bind_eq_ok_iff.2 ⟨_, hfirst _, bind_eq_ok_iff.2 ⟨_, hsecond rest, rfl⟩⟩

theorem texts {l : List String} (hl : Short ShortText l) :
    Reads (Binary.list Binary.text) (putList putText l) l := by
  have hlist := list (f := id) hl fun s hs => text hs
  rwa [List.map_id] at hlist

end Reads

def Yields (reader : Reader α) (P : α → Prop) : Prop := ∀ s a rest, reader s = .ok (a, rest) → P a

theorem ofLittleEnd_lt (s : Bytes) : ofLittleEnd s < 256 ^ s.length := by
  induction s with
  | nil => decide
  | cons b s ih =>
    have hb : b.toNat < 256 := b.toNat_lt
    rw [ofLittleEnd, List.length_cons, Nat.pow_succ]
    omega

namespace Yields

theorem take (n : Nat) : Yields (Binary.take n) fun bytes => bytes.length = n := by
  intro s bytes rest h
  rw [Binary.take] at h
  split_ifs at h with hshort
  cases h
  rw [List.length_take]
  omega

theorem number (width : Nat) : Yields (Binary.number width) fun n => n < 256 ^ width := by
  intro s n rest h
  obtain ⟨⟨digits, _⟩, hdigits, h⟩ := bind_eq_ok_iff.1 h
  cases h
  rw [← take width _ _ _ hdigits]
  exact ofLittleEnd_lt digits

theorem length : Yields Binary.length fun n => n < 2 ^ 64 := number 8

theorem text : Yields Binary.text ShortText := by
  intro s x rest h
  obtain ⟨⟨n, _⟩, hn, h⟩ := bind_eq_ok_iff.1 h
  obtain ⟨⟨bytes, _⟩, hbytes, h⟩ := bind_eq_ok_iff.1 h
  simp only at hbytes h
  split at h
  · rename_i cs hcs
    cases h
    rw [ShortText, utf8, String.toList_ofList, Text.decode_eq_ok_iff.1 hcs, take n _ _ _ hbytes]
    exact length _ _ _ hn
  · cases h

variable {item : Reader α} {P : α → Prop}

theorem times (h : Yields item P) (n : Nat) :
    Yields (Binary.times item n) fun l => l.length = n ∧ ∀ a ∈ l, P a := by
  induction n with
  | zero =>
    intro s l rest hl
    cases hl
    simp
  | succ n ih =>
    intro s l rest hl
    obtain ⟨⟨a, _⟩, ha, hl⟩ := bind_eq_ok_iff.1 hl
    obtain ⟨⟨as, _⟩, has, hl⟩ := bind_eq_ok_iff.1 hl
    cases hl
    obtain ⟨hlength, hall⟩ := ih _ _ _ has
    exact ⟨congrArg Nat.succ hlength, List.forall_mem_cons.2 ⟨h _ _ _ ha, hall⟩⟩

theorem list (h : Yields item P) : Yields (Binary.list item) (Short P) := by
  intro s l rest hl
  obtain ⟨⟨n, _⟩, hn, hl⟩ := bind_eq_ok_iff.1 hl
  obtain ⟨hlength, hall⟩ := h.times n _ _ _ hl
  exact ⟨hlength ▸ length _ _ _ hn, hall⟩

theorem both {second : Reader β} {Q : β → Prop} (h : Yields item P) (h' : Yields second Q) :
    Yields (Binary.both item second) fun x => P x.1 ∧ Q x.2 := by
  intro s x rest hx
  obtain ⟨⟨a, _⟩, ha, hx⟩ := bind_eq_ok_iff.1 hx
  obtain ⟨⟨b, _⟩, hb, hx⟩ := bind_eq_ok_iff.1 hx
  cases hx
  exact ⟨h _ _ _ ha, h' _ _ _ hb⟩

end Yields

/-- More bytes behind those that are there are left as they are. -/
def Steady (reader : Reader α) : Prop :=
  ∀ s a rest more, reader s = .ok (a, rest) → reader (s ++ more) = .ok (a, rest ++ more)

namespace Steady

theorem take (n : Nat) : Steady (Binary.take n) := by
  intro s bytes rest more h
  rw [Binary.take] at h ⊢
  split_ifs at h with hshort
  cases h
  have hlong : ¬ (s ++ more).length < n := by rw [List.length_append]; omega
  rw [if_neg hlong, List.take_append_of_le_length (Nat.not_lt.1 hshort),
    List.drop_append_of_le_length (Nat.not_lt.1 hshort)]

theorem number (width : Nat) : Steady (Binary.number width) := by
  intro s n rest more h
  obtain ⟨⟨digits, _⟩, hdigits, h⟩ := bind_eq_ok_iff.1 h
  cases h
  exact bind_eq_ok_iff.2 ⟨_, take width _ _ _ more hdigits, rfl⟩

theorem length : Steady Binary.length := number 8

theorem tag : Steady Binary.tag := number 4

theorem text : Steady Binary.text := by
  intro s x rest more h
  obtain ⟨⟨n, s'⟩, hn, h⟩ := bind_eq_ok_iff.1 h
  obtain ⟨⟨bytes, s''⟩, hbytes, h⟩ := bind_eq_ok_iff.1 h
  refine bind_eq_ok_iff.2 ⟨_, length _ _ _ more hn, bind_eq_ok_iff.2
    ⟨_, take n _ _ _ more hbytes, ?_⟩⟩
  simp only at h ⊢
  split at h <;> cases h
  rfl

variable {item : Reader α}

theorem times (h : Steady item) (n : Nat) : Steady (Binary.times item n) := by
  induction n with
  | zero =>
    intro s l rest more hl
    cases hl
    rfl
  | succ n ih =>
    intro s l rest more hl
    obtain ⟨⟨a, _⟩, ha, hl⟩ := bind_eq_ok_iff.1 hl
    obtain ⟨⟨as, _⟩, has, hl⟩ := bind_eq_ok_iff.1 hl
    cases hl
    exact bind_eq_ok_iff.2 ⟨_, h _ _ _ more ha, bind_eq_ok_iff.2 ⟨_, ih _ _ _ more has, rfl⟩⟩

theorem list (h : Steady item) : Steady (Binary.list item) := by
  intro s l rest more hl
  obtain ⟨⟨n, _⟩, hn, hl⟩ := bind_eq_ok_iff.1 hl
  exact bind_eq_ok_iff.2 ⟨_, length _ _ _ more hn, h.times n _ _ _ more hl⟩

theorem both {second : Reader β} (h : Steady item) (h' : Steady second) :
    Steady (Binary.both item second) := by
  intro s x rest more hx
  obtain ⟨⟨a, _⟩, ha, hx⟩ := bind_eq_ok_iff.1 hx
  obtain ⟨⟨b, _⟩, hb, hx⟩ := bind_eq_ok_iff.1 hx
  cases hx
  exact bind_eq_ok_iff.2 ⟨_, h _ _ _ more ha, bind_eq_ok_iff.2 ⟨_, h' _ _ _ more hb, rfl⟩⟩

theorem eq_nil_of_reads {a a' : α} {s rest : Bytes} (h : Steady item) (hreads : Reads item (s ++ more) a)
    (hs : item s = .ok (a', rest)) : more = [] := by
  have hall := hreads []
  rw [List.append_nil, h _ _ _ more hs] at hall
  exact (List.append_eq_nil_iff.1 (congrArg Prod.snd (Except.ok.inj hall))).2

end Steady

theorem forall_mem_right {P : α → Prop} {Q : β → Prop} {R : α → β → Prop} {l : List α} {l' : List β}
    (h : List.Forall₂ R l l') (hl : ∀ a ∈ l, P a) (hR : ∀ a b, R a b → P a → Q b) :
    ∀ b ∈ l', Q b := by
  induction h with
  | nil => exact fun b hb => nomatch hb
  | cons hab _ ih =>
    obtain ⟨ha, hl⟩ := List.forall_mem_cons.1 hl
    exact List.forall_mem_cons.2 ⟨hR _ _ hab ha, ih hl⟩

theorem Short.forall₂ {P : α → Prop} {Q : β → Prop} {R : α → β → Prop} {l : List α} {l' : List β}
    (hl : Short P l) (h : List.Forall₂ R l l') (hR : ∀ a b, R a b → P a → Q b) : Short Q l' :=
  ⟨h.length_eq ▸ hl.1, forall_mem_right h hl.2 hR⟩

end Phrasebook.Binary
