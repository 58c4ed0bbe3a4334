import Mathlib.Data.List.Forall2
import Phrasebook.Terminal.Style

/-!
What is seen of a coloured text. A terminal takes the colour sequences out; what is left of a text that
was painted is the text, as long as it has no escape characters of its own.
-/

namespace Phrasebook.Terminal

variable {s on : List Char} {text painted sep : String} {colors : Colors} {style : Style}

mutual

/-- The text without its colour sequences. One starts with an escape character and a bracket. -/
def visible : List Char → List Char
  | '\x1b' :: '[' :: s => afterSequence s
  | c :: s => c :: visible s
  | [] => []

def afterSequence : List Char → List Char
  | 'm' :: s => visible s
  | _ :: s => afterSequence s
  | [] => []

end

theorem visible_append (h : '\x1b' ∉ s) (t : List Char) : visible (s ++ t) = s ++ visible t := by
  induction s with
  | nil => rfl
  | cons c s ih =>
    obtain ⟨hc, hs⟩ := List.ne_and_not_mem_of_not_mem_cons h
    rw [List.cons_append, visible, ih hs, List.cons_append]
    exact fun _ hescape => absurd hescape.symm hc

theorem afterSequence_append (h : 'm' ∉ s) (t : List Char) : afterSequence (s ++ 'm' :: t) = visible t := by
  induction s with
  | nil => rw [List.nil_append, afterSequence]
  | cons c s ih =>
    obtain ⟨hc, hs⟩ := List.ne_and_not_mem_of_not_mem_cons h
    rw [List.cons_append, afterSequence, ih hs]
    exact fun hend => absurd hend.symm hc

theorem not_mem_code (style : Style) : ∀ code ∈ style.codes, 'm' ∉ code.toList := by
  intro code hcode
  rcases List.mem_append.1 hcode with heffect | hcolor
  · obtain ⟨effect, -, rfl⟩ := List.mem_map.1 heffect
    cases effect <;> decide
  · obtain ⟨color, -, rfl⟩ := List.mem_map.1 hcolor
    cases color <;> decide

theorem not_mem_intercalate {codes : List String} (h : ∀ code ∈ codes, 'm' ∉ code.toList) :
    'm' ∉ (String.intercalate ";" codes).toList := by
  induction codes with
  | nil => simp
  | cons code codes ih =>
    obtain ⟨hcode, hcodes⟩ := List.forall_mem_cons.1 h
    cases codes with
    | nil => rwa [String.intercalate_singleton]
    | cons next codes =>
      rw [String.intercalate_cons_cons, String.toList_append, String.toList_append,
        List.mem_append, List.mem_append, not_or, not_or]
      exact ⟨⟨hcode, by decide⟩, ih hcodes⟩

theorem visible_turnOn (style : Style) (t : List Char) : visible (style.turnOn ++ t) = visible t := by
  have hcodes := not_mem_intercalate (not_mem_code style)
  rw [Style.turnOn, List.append_assoc, List.append_assoc]
  exact afterSequence_append hcodes t

theorem visible_turnOff (t : List Char) : visible (turnOff ++ t) = visible t :=
  afterSequence_append (s := ['0']) (by decide) t

theorem renew_of_not_mem (h : '\x1b' ∉ s) : renew on s = s := by
  induction s with
  | nil => rfl
  | cons c s ih =>
    obtain ⟨hc, hs⟩ := List.ne_and_not_mem_of_not_mem_cons h
    rw [renew, ih hs]
    exact fun _ hescape => absurd hescape.symm hc

def Displays (painted text : String) : Prop :=
  ∀ t, visible (painted.toList ++ t) = text.toList ++ visible t

namespace Displays

theorem visible (h : Displays painted text) : Terminal.visible painted.toList = text.toList := by
  have hall := h []
  rwa [List.append_nil, Terminal.visible, List.append_nil] at hall

theorem of_not_mem (h : '\x1b' ∉ text.toList) : Displays text text := visible_append h

theorem append {painted' text' : String} (h : Displays painted text) (h' : Displays painted' text') :
    Displays (painted ++ painted') (text ++ text') := by
  intro t
  rw [String.toList_append, String.toList_append, List.append_assoc, List.append_assoc, h, h']

theorem paint (colors : Colors) (style : Style) (h : '\x1b' ∉ text.toList) :
    Displays (paint colors style text) text := by
  cases colors with
  | false => exact of_not_mem h
  | true =>
    intro t
    rw [Terminal.paint, if_pos rfl, String.toList_ofList, renew_of_not_mem h, List.append_assoc,
      List.append_assoc, visible_turnOn, visible_append h, visible_turnOff]

theorem intercalate (hsep : Displays sep sep) {painted texts : List String}
    (h : List.Forall₂ Displays painted texts) :
    Displays (String.intercalate sep painted) (String.intercalate sep texts) := by
  induction h with
  | nil => exact fun t => rfl
  | cons hfirst hrest ih =>
    cases hrest with
    | nil => rwa [String.intercalate_singleton, String.intercalate_singleton]
    | cons _ _ =>
      rw [String.intercalate_cons_cons, String.intercalate_cons_cons]
      exact (hfirst.append hsep).append ih

end Displays
end Phrasebook.Terminal
