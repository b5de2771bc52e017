import Clausal.Key
/-! Labels: the tuples of keys that variables are allocated for. -/
namespace Clausal

/-- An ordered tuple of keys. Labels are ordered by the first component in which they differ, a label
before its extensions. -/
abbrev Label := List Key

namespace Label

/-- The written form of a label: its keys, with blanks between them, in parentheses. -/
def render (l : Label) : String :=
  "(" ++ " ".intercalate (l.map Key.render) ++ ")"

/-- Whether a key comes before another one or is equal to it. -/
def notAfter (a b : Key) : Bool :=
  compare a b != .gt

/-- The same keys in order, for labels whose components have no order of their own. -/
def unordered (l : Label) : Label :=
  l.mergeSort notAfter

end Label
end Clausal
