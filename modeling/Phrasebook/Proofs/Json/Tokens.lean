import Mathlib.Data.List.Basic
import Mathlib.Data.List.Forall2
import Mathlib.Tactic.SplitIfs
import Phrasebook.Proofs.Json.Counts
import Phrasebook.Proofs.Json.Quotation

/-!
The tokens of a written value. Scanning never gives back more bytes than it was handed, so a text is
taken token by token to its end, and spaces between tokens make no difference. The text of a value, on
however many lines, has the tokens of the value.
-/

namespace Phrasebook.Json
open Text (Bytes utf8)

variable {s t : Bytes} {b : UInt8}

theorem Quotation.length_rest_le (n : Nat) (s : Bytes) {r : Bytes} (h : (read n s).rest = .ok r) :
    r.length ≤ s.length := by
  fun_induction read n s with
  | case1 => cases h
  | case2 n s =>
    cases h
    simp
  | case3 => cases h
  | case4 n a b c d s a' b' c' d' ha hb hc hd ih =>
    have hle := ih h
    simp only [List.length_cons]
    omega
  | case5 => cases h
  | case6 => cases h
  | case7 n e s _ _ _ hb ih =>
    have hle := ih h
    simp only [List.length_cons]
    omega
  | case8 => cases h
  | case9 => cases h
  | case10 n b s _ _ _ _ _ ih =>
    have hle := ih h
    simp only [List.length_cons]
    omega

theorem length_token_le (n : Nat) (s : Bytes) : (Quotation.read n s).token.2.length ≤ s.length := by
  rw [Quotation.token]
  split
  · rename_i r hr
    exact Quotation.length_rest_le n s hr
  · simp

theorem length_digits_le (s : Bytes) : (digits s).2.length ≤ s.length :=
  (List.dropWhile_suffix isDigit).length_le

theorem noDigits_ne_ok {α : Type} {n : Nat} {a : α} : noDigits n s ≠ .ok a t := by
  cases s <;> exact nofun

theorem rest_scanWhole {n : Nat} {ds : Bytes} (h : scanWhole n s = .ok ds t) : t = (digits s).2 := by
  rw [scanWhole] at h
  split at h
  · exact absurd h noDigits_ne_ok
  · cases h
  · rename_i hds
    cases h
    rw [hds]

theorem length_scanFraction_le {n : Nat} {ds : Option Bytes} (h : scanFraction n s = .ok ds t) :
    t.length ≤ s.length := by
  rw [scanFraction.eq_def] at h
  split at h
  · rename_i s
    have hle := length_digits_le s
    split at h
    · exact absurd h noDigits_ne_ok
    · rename_i hds
      cases h
      rw [hds] at hle
      exact Nat.le_succ_of_le hle
  · cases h
    exact Nat.le_refl _

theorem length_scanExponent_le {n : Nat} {e : Option (Bool × Bytes)} (h : scanExponent n s = .ok e t) :
    t.length ≤ s.length := by
  rw [scanExponent.eq_def] at h
  split at h
  · cases h
    exact Nat.le_refl _
  · rename_i e s
    split at h
    · cases h
      exact Nat.le_refl _
    · split at h
      rename_i negative n' s' hsign
      have hle : s'.length ≤ s.length := by
        split at hsign <;> cases hsign <;> simp
      have hle' := length_digits_le s'
      split at h
      · exact absurd h noDigits_ne_ok
      · rename_i hds
        cases h
        rw [hds] at hle'
        exact Nat.le_succ_of_le (Nat.le_trans hle' hle)

theorem length_scanNumber_le (negative : Bool) (s : Bytes) :
    (scanNumber negative s).2.length ≤ (digits s).2.length := by
  rw [scanNumber]
  split
  · simp
  · rename_i whole s₀ h₀
    rw [← rest_scanWhole h₀]
    split
    · simp
    · rename_i fraction s₁ h₁
      have hle₁ := length_scanFraction_le h₁
      split
      · simp
      · rename_i exponent s₂ h₂
        have hle₂ := length_scanExponent_le h₂
        exact Nat.le_trans hle₂ hle₁

theorem length_scanName_le (n : Nat) (token : Token) (broken : Flaw → Token) (name s : Bytes) :
    (scanName n token broken name s).2.length ≤ s.length := by
  fun_induction scanName n token broken name s with
  | case1 => exact Nat.le_refl _
  | case2 => simp
  | case3 n a name s ih =>
    rw [List.length_cons]
    omega
  | case4 => simp

theorem iteScanner {P : (Bytes → Token × Bytes) → Prop} {c : Prop} [Decidable c]
    {f g : Bytes → Token × Bytes} (hf : c → P f) (hg : ¬ c → P g) : P fun s => if c then f s else g s := by
  split_ifs with h
  · exact hf h
  · exact hg h

theorem scan_cases {P : (Bytes → Token × Bytes) → Prop}
    (mark : ∀ t ∈ [Token.lbrace, .rbrace, .lbracket, .rbracket, .comma, .colon], P fun s => (t, s))
    (quotation : P fun s => (Quotation.read 1 s).token) (negative : P (scanNumber true))
    (number : isDigit b = true → P fun s => scanNumber false (b :: s))
    (null : P (scanName 1 .null .brokenNull (utf8 "ull")))
    (bool : ∀ x ∈ [(true, "rue"), (false, "alse")], P (scanBool x.1 x.2))
    (broken : P fun _ => (.broken (.first .noValue) (.first .noValue), [])) : P (scan b) := by
  change P fun s => scan b s
  unfold scan
  refine iteScanner (fun _ => mark _ (by simp)) fun _ => ?_
  refine iteScanner (fun _ => mark _ (by simp)) fun _ => ?_
  refine iteScanner (fun _ => mark _ (by simp)) fun _ => ?_
  refine iteScanner (fun _ => mark _ (by simp)) fun _ => ?_
  refine iteScanner (fun _ => mark _ (by simp)) fun _ => ?_
  refine iteScanner (fun _ => mark _ (by simp)) fun _ => ?_
  refine iteScanner (fun _ => quotation) fun _ => ?_
  refine iteScanner (fun _ => negative) fun _ => ?_
  refine iteScanner number fun _ => ?_
  refine iteScanner (fun _ => null) fun _ => ?_
  refine iteScanner (fun _ => bool (true, "rue") (by simp)) fun _ => ?_
  exact iteScanner (fun _ => bool (false, "alse") (by simp)) fun _ => broken

theorem length_scan_le (b : UInt8) (s : Bytes) : (scan b s).2.length ≤ s.length := by
  apply scan_cases (P := fun f => (f s).2.length ≤ s.length)
  case mark => exact fun _ _ => Nat.le_refl _
  case quotation => exact length_token_le 1 s
  case negative => exact Nat.le_trans (length_scanNumber_le true s) (length_digits_le s)
  case number =>
    intro hb
    refine Nat.le_trans (length_scanNumber_le false (b :: s)) ?_
    rw [digits, List.dropWhile_cons_of_pos hb]
    exact (List.dropWhile_suffix isDigit).length_le
  case null => exact length_scanName_le _ _ _ _ s
  case bool => exact fun _ _ => length_scanName_le _ _ _ _ s
  case broken => exact Nat.zero_le _

theorem tokens_of_dropWhile {s' : Bytes} (h : s.dropWhile isSpace = b :: s') :
    tokens s = (scan b s').1 :: tokens (scan b s').2 := by
  have hlength : (scan b s').2.length < s.length := by
    have hscan := length_scan_le b s'
    have hsuffix := (List.dropWhile_suffix isSpace (l := s)).length_le
    rw [h, List.length_cons] at hsuffix
    omega
  rw [tokens.eq_def, h]
  exact if_pos hlength

theorem tokens_nil : tokens [] = [] := by
  rw [tokens]
  rfl

theorem tokens_space (h : isSpace b = true) : tokens (b :: s) = tokens s := by
  have hdrop : (b :: s).dropWhile isSpace = s.dropWhile isSpace := List.dropWhile_cons_of_pos h
  cases hs : s.dropWhile isSpace with
  | nil => rw [tokens.eq_def, hdrop, tokens.eq_def s, hs]
  | cons b' s' => rw [tokens_of_dropWhile (hdrop.trans hs), tokens_of_dropWhile hs]

theorem tokens_scan (h : isSpace b = false) {token : Token} {rest : Bytes}
    (hscan : scan b s = (token, rest)) : tokens (b :: s) = token :: tokens rest := by
  have hdrop : (b :: s).dropWhile isSpace = b :: s :=
    List.dropWhile_cons_of_neg (by rw [h]; decide)
  rw [tokens_of_dropWhile hdrop, hscan]

/-- Wherever the text stands, its tokens come next. -/
def Writes (text : String) (ts : List Token) : Prop := ∀ s, tokens (utf8 text ++ s) = ts ++ tokens s

def WritesItem (text : String) (ts : List Token) : Prop :=
  ∀ s, Delimited s → tokens (utf8 text ++ s) = ts ++ tokens s

namespace Writes
variable {x y : String} {ts us : List Token}

theorem item (hx : Writes x ts) : WritesItem x ts := fun s _ => hx s

theorem append (hx : Writes x ts) (hy : Writes y us) : Writes (x ++ y) (ts ++ us) := by
  intro s
  rw [Text.utf8_append, List.append_assoc, hx, hy, List.append_assoc]

theorem append_item (hx : Writes x ts) (hy : WritesItem y us) : WritesItem (x ++ y) (ts ++ us) := by
  intro s hs
  rw [Text.utf8_append, List.append_assoc, hx, hy s hs, List.append_assoc]

theorem string (x : String) : Writes (stringText x) [.string (.ok x)] := by
  intro s
  obtain ⟨t, hbytes, hscan⟩ := scan_stringText x s
  rw [hbytes, tokens_scan rfl hscan]
  rfl

theorem spaces (n : Nat) : Writes (String.ofList (List.replicate n ' ')) [] := by
  intro s
  rw [utf8, String.toList_ofList]
  induction n with
  | zero => rfl
  | succ n ih => exact (tokens_space rfl).trans ih

theorem newline : Writes "\n" [] := fun _ => tokens_space rfl

theorem comma : Writes "," [.comma] := fun _ => tokens_scan rfl rfl

theorem colon : Writes ": " [.colon] := fun _ =>
  (tokens_scan rfl rfl).trans (congrArg _ (tokens_space rfl))

theorem lbracket : Writes "[" [.lbracket] := fun _ => tokens_scan rfl rfl

theorem rbracket : Writes "]" [.rbracket] := fun _ => tokens_scan rfl rfl

theorem lbrace : Writes "\x7b" [.lbrace] := fun _ => tokens_scan rfl rfl

theorem rbrace : Writes "\x7d" [.rbrace] := fun _ => tokens_scan rfl rfl

theorem null : Writes "null" [.null] := fun _ => tokens_scan rfl rfl

end Writes

namespace WritesItem
variable {x y : String} {ts us : List Token}

theorem append (hx : WritesItem x ts) (hy : Writes y us) (hdelimited : ∀ s, Delimited (utf8 y ++ s)) :
    Writes (x ++ y) (ts ++ us) := by
  intro s
  rw [Text.utf8_append, List.append_assoc, hx _ (hdelimited s), hy, List.append_assoc]

theorem count {n : Nat} (h : n < wordLimit) : WritesItem (toString n) [.number (.ok (.int n))] := by
  intro s hs
  obtain ⟨b, t, hbytes, hspace, hscan⟩ := scan_utf8_toString h hs
  rw [hbytes, tokens_scan hspace hscan]
  rfl

end WritesItem

/-- Nulls, counts, strings, lists and objects only, nested at most `depth` deep. -/
inductive Plain : Nat → Json → Prop
  | null {depth : Nat} : Plain depth .null
  | count {depth n : Nat} (fits : n < wordLimit) : Plain depth (.int n)
  | string {depth : Nat} (x : String) : Plain depth (.string x)
  | array {depth : Nat} {items : List Json} (items_plain : ∀ v ∈ items, Plain depth v) :
      Plain (depth + 1) (.array items)
  | object {depth : Nat} {members : List (String × Json)}
      (members_plain : ∀ m ∈ members, Plain depth m.2) : Plain (depth + 1) (.object members)

def commas : List (List Token) → List Token
  | [] => []
  | ts :: rest => ts ++ rest.flatMap (.comma :: ·)

mutual

def written : Json → List Token
  | .null => [.null]
  | .number n => [.number (.ok n)]
  | .string x => [.string (.ok x)]
  | .array items => .lbracket :: commas (writtenItems items) ++ [.rbracket]
  | .object members => .lbrace :: commas (writtenMembers members) ++ [.rbrace]
  | _ => []

def writtenItems : List Json → List (List Token)
  | [] => []
  | v :: vs => written v :: writtenItems vs

def writtenMembers : List (String × Json) → List (List Token)
  | [] => []
  | (key, v) :: ms => (.string (.ok key) :: .colon :: written v) :: writtenMembers ms

end

namespace Writes
variable {first last : String} {lines : List String} {parts : List (List Token)} {open_ close : Token}

theorem indent (depth : Nat) : Writes (Json.indent depth) [] := spaces (2 * depth)

theorem intercalate {line : String} {ts : List Token} (hline : WritesItem line ts)
    (hlines : List.Forall₂ WritesItem lines parts) :
    WritesItem (String.intercalate ",\n" (line :: lines)) (ts ++ parts.flatMap (.comma :: ·)) := by
  induction hlines generalizing line ts with
  | nil =>
    rw [String.intercalate_singleton, List.flatMap_nil, List.append_nil]
    exact hline
  | @cons line' ts' lines parts hline' _ ih =>
    rw [String.intercalate_cons_cons]
    have hcomma : Writes ",\n" [.comma] := comma.append newline
    have hall := (hline.append hcomma fun _ _ hb => .inl (Option.some.inj hb).symm).append_item
      (ih hline')
    simpa using hall

theorem block (hfirst : Writes first [open_]) (hlast : Writes last [close]) (depth : Nat)
    (hlines : List.Forall₂ WritesItem lines parts) :
    Writes (Json.block first last depth lines) (open_ :: commas parts ++ [close]) := by
  cases hlines with
  | nil => exact hfirst.append hlast
  | @cons line ts lines parts hline hlines =>
    have hindented : List.Forall₂ WritesItem (lines.map (Json.indent (depth + 1) ++ ·)) parts :=
      List.forall₂_map_left_iff.2 (hlines.imp fun _ _ h => (indent (depth + 1)).append_item h)
    have hinner := intercalate ((indent (depth + 1)).append_item hline) hindented
    have hline := ((hfirst.append newline).append_item hinner).append newline
      fun _ _ hb => .inr (Option.some.inj hb).symm
    have hall := (hline.append (indent depth)).append hlast
    simpa [Json.block, commas] using hall

end Writes

theorem exists_block (first last : String) (depth : Nat) (lines : List String) :
    ∃ inside, block first last depth lines = first ++ inside ++ last := by
  rw [block]
  split
  · exact ⟨"", by rw [String.append_empty]⟩
  · exact ⟨"\n" ++ String.intercalate ",\n" (lines.map (indent (depth + 1) ++ ·)) ++ "\n" ++ indent depth,
      by simp only [String.append_assoc]⟩

theorem writes_prettyItems {items : List Json} {depth : Nat}
    (h : ∀ v ∈ items, ∀ depth, WritesItem (prettyAt depth v) (written v)) :
    List.Forall₂ WritesItem (prettyItems depth items) (writtenItems items) := by
  induction items with
  | nil => exact .nil
  | cons v vs ih =>
    obtain ⟨hv, hvs⟩ := List.forall_mem_cons.1 h
    exact .cons (hv depth) (ih hvs)

theorem writes_prettyMembers {members : List (String × Json)} {depth : Nat}
    (h : ∀ m ∈ members, ∀ depth, WritesItem (prettyAt depth m.2) (written m.2)) :
    List.Forall₂ WritesItem (prettyMembers depth members) (writtenMembers members) := by
  induction members with
  | nil => exact .nil
  | cons m ms ih =>
    obtain ⟨hm, hms⟩ := List.forall_mem_cons.1 h
    exact .cons (((Writes.string m.1).append .colon).append_item (hm depth)) (ih hms)

theorem writes_prettyAt {nesting : Nat} {v : Json} (h : Plain nesting v) (depth : Nat) :
    WritesItem (prettyAt depth v) (written v) := by
  induction h generalizing depth with
  | null => exact Writes.null.item
  | count fits => exact .count fits
  | string x => exact (Writes.string x).item
  | array _ ih => exact (Writes.block .lbracket .rbracket depth (writes_prettyItems ih)).item
  | object _ ih => exact (Writes.block .lbrace .rbrace depth (writes_prettyMembers ih)).item

theorem tokens_pretty {nesting : Nat} {v : Json} (h : Plain nesting v) :
    tokens (utf8 v.pretty) = written v := by
  have hwrites := writes_prettyAt h 0 [] nofun
  rwa [List.append_nil, tokens_nil, List.append_nil] at hwrites

end Phrasebook.Json
