import Clausal.Yaml.Scalar
/-! How a text is written as a scalar, so that it reads back as that text: without quotes if that is
possible, a text of several lines as a block of lines if that is possible. -/
namespace Clausal.Yaml

/-- A way to write a scalar. -/
inductive Style where
  | plain
  | singleQuoted
  | doubleQuoted
  /-- The lines themselves, each indented. -/
  | block
deriving DecidableEq, Repr

/-- Whether a text starts with a sign that is no part of a plain scalar. -/
def startsWithIndicator : List Char → Bool
  | [] => false
  | c :: rest => indicators.contains c || ((c == '?' || c == ':' || c == '-') && startsGap rest)

/-- Whether there is a colon before a gap, or a number sign after one. -/
def hasInnerIndicator : List Char → Bool
  | a :: b :: rest =>
    (b == ':' && startsGap rest) || (isGap a && b == '#') || hasInnerIndicator (b :: rest)
  | _ => false

/-- Whether a character of one class stands right before one of another. -/
def hasPair (first second : Char → Bool) (cs : List Char) : Bool :=
  (cs.zip (cs.drop 1)).any fun (a, b) => first a && second b

/-- Whether a text can be a plain scalar. -/
def allowsPlain (cs : List Char) : Bool :=
  cs.all (fun c => isPrintable c && !isBreak c) && cs.head? != some ' ' &&
    cs.getLast? != some ' ' && !startsWithIndicator cs && !hasInnerIndicator cs &&
    !(['-', '-', '-'].isPrefixOf cs || ['.', '.', '.'].isPrefixOf cs)

/-- Whether a text can be between single quotes: no space may get lost at a line break. -/
def allowsSingleQuoted (cs : List Char) : Bool :=
  cs.all isPrintable && !hasPair isBreak (· == ' ') cs && !hasPair (· == ' ') isBreak cs

/-- Whether a text can be a block of lines. -/
def allowsBlock (cs : List Char) : Bool :=
  cs.all isPrintable && cs.getLast?.any (· != ' ') && !hasPair (· == ' ') isBreak cs

/-- The way a text is written. -/
def styleOf (s : String) : Style :=
  let cs := s.toList
  if cs.contains '\n' then if allowsBlock cs then .block else .doubleQuoted
  else if !meansOther s && allowsPlain cs then .plain
  else if allowsSingleQuoted cs then .singleQuoted
  else .doubleQuoted

/-- The digits of a number in base sixteen, up to a width. -/
def hexDigits (width n : Nat) : String :=
  let digits := (Nat.toDigits 16 n).map Char.toUpper
  String.ofList (List.replicate (width - digits.length) '0' ++ digits)

/-- A character between double quotes. -/
def escape (c : Char) : String :=
  match c.toNat with
  | 0x0 => "\\0"
  | 0x7 => "\\a"
  | 0x8 => "\\b"
  | 0x9 => "\\t"
  | 0xA => "\\n"
  | 0xB => "\\v"
  | 0xC => "\\f"
  | 0xD => "\\r"
  | 0x1B => "\\e"
  | 0x22 => "\\\""
  | 0x5C => "\\\\"
  | 0x85 => "\\N"
  | 0x2028 => "\\L"
  | 0x2029 => "\\P"
  | n =>
    if isPrintable c then String.singleton c
    else if n ≤ 0xFF then "\\x" ++ hexDigits 2 n
    else if n ≤ 0xFFFF then "\\u" ++ hexDigits 4 n
    else "\\U" ++ hexDigits 8 n

/-- A text whose lines are indented, but for those that are empty, and the first one only if
`atStart`. -/
def indentLines (indent : Nat) : (atStart : Bool) → List Char → List Char
  | _, [] => []
  | atStart, c :: cs =>
    if isBreak c then c :: indentLines indent true cs
    else (if atStart then List.replicate indent ' ' else []) ++ c :: indentLines indent false cs

/-- Whether a text ends in a line break. -/
def endsLine (cs : List Char) : Bool :=
  cs.getLast?.any isBreak

/-- A text between single quotes. A quote in it is written twice. -/
def singleQuoted (indent : Nat) (cs : List Char) : List Char :=
  let body := cs.flatMap fun c => if c == '\x27' then [c, c] else [c]
  '\x27' :: indentLines indent false body ++
    (if endsLine cs then List.replicate indent ' ' else []) ++ ['\x27']

/-- The head of a block: a sign for the indentation where the first line does not show it, and one for
the line breaks at the end unless there is exactly one. -/
def blockHead (cs : List Char) : List Char :=
  (if cs.head?.any fun c => c == ' ' || isBreak c then ['|', '2'] else ['|']) ++
    (if !endsLine cs then ['-'] else if cs.length = 1 || endsLine cs.dropLast then ['+'] else [])

/-- A text as a scalar and the line break after it, its further lines indented. -/
def renderText (indent : Nat) (s : String) : String :=
  let cs := s.toList
  match styleOf s with
  | .plain => s ++ "\n"
  | .singleQuoted => String.ofList (singleQuoted indent cs) ++ "\n"
  | .doubleQuoted => "\"" ++ String.join (cs.map escape) ++ "\"\n"
  | .block =>
    String.ofList (blockHead cs) ++ "\n" ++ String.ofList (indentLines indent true cs) ++
      if endsLine cs then "" else "\n"

end Clausal.Yaml
