/-!
Coloured text for terminals. A styled text is put between a sequence that turns its style on and one
that turns all styles off; where the text itself turns styles off, its own is turned on again.
-/

namespace Phrasebook.Terminal

inductive Effect where
  | bold
  | dimmed
  | underline
deriving DecidableEq

def Effect.code : Effect → String
  | .bold => "1"
  | .dimmed => "2"
  | .underline => "4"

inductive Color where
  | red
  | green
  | yellow
  | blue
  | magenta
  | cyan
  | brightBlack
  | brightYellow
  | brightCyan
deriving DecidableEq

def Color.code : Color → String
  | .red => "31"
  | .green => "32"
  | .yellow => "33"
  | .blue => "34"
  | .magenta => "35"
  | .cyan => "36"
  | .brightBlack => "90"
  | .brightYellow => "93"
  | .brightCyan => "96"

structure Style where
  effects : List Effect := []
  color : Option Color := none

namespace Style

def plain : Style := {}

def colored (c : Color) : Style := { color := some c }

def boldColored (c : Color) : Style := { effects := [.bold], color := some c }

def bold : Style := { effects := [.bold] }

def dimmed : Style := { effects := [.dimmed] }

def title : Style := { effects := [.bold, .underline] }

def codes (s : Style) : List String := s.effects.map Effect.code ++ s.color.toList.map Color.code

def turnOn (s : Style) : List Char :=
  ['\x1b', '['] ++ (String.intercalate ";" s.codes).toList ++ ['m']

end Style

def turnOff : List Char := ['\x1b', '[', '0', 'm']

/-- Turns the style on again after every place where the text turns styles off. -/
def renew (on : List Char) : List Char → List Char
  | '\x1b' :: '[' :: '0' :: 'm' :: s => turnOff ++ on ++ renew on s
  | c :: s => c :: renew on s
  | [] => []

abbrev Colors := Bool

/-- What the surroundings say of colours: an order to show them, an order not to, a wish, and whether
the output is a terminal. The first that says something counts. -/
def Colors.wanted (force refuse wish : Option String) (terminal : Bool) : Colors :=
  if force.any (· ≠ "0") then true
  else if refuse.isSome then false
  else wish.all (· ≠ "0") && terminal

def paint (colors : Colors) (style : Style) (text : String) : String :=
  if colors then String.ofList (style.turnOn ++ renew style.turnOn text.toList ++ turnOff)
  else text

end Phrasebook.Terminal
