/-! Coloured text for terminals. -/
namespace Clausal

/-- A colour. -/
inductive Colour where
  | red
  | green
  | yellow
  | blue
deriving DecidableEq, Repr, Inhabited

/-- The number that a terminal knows a colour by. -/
def Colour.code : Colour → Nat
  | .red => 31
  | .green => 32
  | .yellow => 33
  | .blue => 34

/-- Whether a terminal shows colours: not if `NO_COLOR` is set, to whatever value, nor if it says of
itself that it cannot. -/
def showsColours (noColor term : Option String) : Bool :=
  noColor.isNone && term != some "dumb"

/-- A text in a colour, if colours are shown. -/
def paint (shown : Bool) (c : Colour) (s : String) : String :=
  if shown then s!"\x1b[{c.code}m" ++ s ++ "\x1b[0m" else s

end Clausal
