import Clausal.Text.Number
/-! JSON values, read from text. Of numbers only whole ones are kept, and of strings and names only
those without a lone surrogate; the others are read, too, but their values are left out. -/
namespace Clausal

/-- A JSON value. -/
inductive Json where
  | null
  | bool (b : Bool)
  /-- A number, with its value if it is written as a whole number, and not as a negative zero. -/
  | number (value : Option Int)
  /-- A string, with its text if it has one. -/
  | string (text : Option String)
  | array (items : List Json)
  /-- An object, each field with its name if that has a text; fields may come more than once. -/
  | object (fields : List (Option String × Json))
deriving Inhabited

namespace Json

/-- The characters after the white space at the start. -/
def skipSpace (s : List Char) : List Char :=
  s.dropWhile fun c => c == ' ' || c == '\n' || c == '\t' || c == '\r'

/-- The digits at the start, and the rest. -/
def spanDigits (s : List Char) : List Char × List Char :=
  s.span fun c => '0' ≤ c && c ≤ '9'

/-- What follows a whole number: the characters after a fraction and an exponent, and whether there
is either. -/
def readFraction (s : List Char) : Option (Bool × List Char) := do
  let (hasPlaces, s) ← match s with
    | '.' :: rest =>
      match spanDigits rest with
      | ([], _) => none
      | (_, rest) => some (true, rest)
    | _ => some (false, s)
  match s with
  | e :: rest =>
    if e == 'e' || e == 'E' then
      let rest := match rest with
        | '+' :: r | '-' :: r => r
        | _ => rest
      match spanDigits rest with
      | ([], _) => none
      | (_, rest) => some (true, rest)
    else some (hasPlaces, s)
  | [] => some (hasPlaces, s)

/-- A number without its sign. -/
def readMagnitude (negative : Bool) (s : List Char) : Option (Json × List Char) := do
  let (digits, rest) := spanDigits s
  let n ← Text.digits? digits
  if digits.length > 1 && digits.head? == some '0' then none
  else
    let (isFraction, rest) ← readFraction rest
    let value : Option Int :=
      if isFraction || (negative && n == 0) then none
      else if negative then some (-(n : Int))
      else some n
    return (.number value, rest)

/-- The value of a hexadecimal digit. -/
def hexDigit? (c : Char) : Option Nat :=
  if '0' ≤ c && c ≤ '9' then some (c.toNat - '0'.toNat)
  else if 'a' ≤ c && c ≤ 'f' then some (c.toNat - 'a'.toNat + 10)
  else if 'A' ≤ c && c ≤ 'F' then some (c.toNat - 'A'.toNat + 10)
  else none

/-- The code unit written as four hexadecimal digits at the start, and the rest. -/
def readUnit : List Char → Option (Nat × List Char)
  | a :: b :: c :: d :: rest => do
    let n ← [a, b, c, d].foldlM (fun n c => (hexDigit? c).map (16 * n + ·)) 0
    return (n, rest)
  | _ => none

/-- One character of a string, or one half of a pair of surrogates. -/
inductive StringPart where
  | char (c : Char)
  | unit (n : Nat)
deriving DecidableEq

/-- The character that a backslash and one letter stand for. -/
def shortEscape? : Char → Option Char
  | '"' => some '"'
  | '\\' => some '\\'
  | '/' => some '/'
  | 'b' => some '\x08'
  | 'f' => some '\x0c'
  | 'n' => some '\n'
  | 'r' => some '\r'
  | 't' => some '\t'
  | _ => none

/-- Puts the characters of a string together, unless a surrogate has no partner. -/
def joinParts : List StringPart → Option (List Char)
  | [] => some []
  | .char c :: rest => (joinParts rest).map (c :: ·)
  | .unit high :: .unit low :: rest =>
    if 0xD800 ≤ high && high ≤ 0xDBFF && 0xDC00 ≤ low && low ≤ 0xDFFF then
      (joinParts rest).map (Char.ofNat (0x10000 + (high - 0xD800) * 0x400 + (low - 0xDC00)) :: ·)
    else none
  | .unit _ :: _ => none

/-- The rest of a string after its opening quote: its parts, and what follows the closing quote. -/
def readParts : (fuel : Nat) → List Char → Option (List StringPart × List Char)
  | 0, _ => none
  | fuel + 1, s =>
    match s with
    | [] => none
    | '"' :: rest => some ([], rest)
    | '\\' :: 'u' :: rest => do
      let (n, rest) ← readUnit rest
      let (parts, rest) ← readParts fuel rest
      let part := if 0xD800 ≤ n && n ≤ 0xDFFF then StringPart.unit n else .char (Char.ofNat n)
      return (part :: parts, rest)
    | '\\' :: c :: rest => do
      let c ← shortEscape? c
      let (parts, rest) ← readParts fuel rest
      return (.char c :: parts, rest)
    | c :: rest =>
      if c == '\\' || c.toNat < 0x20 then none
      else do
        let (parts, rest) ← readParts fuel rest
        return (.char c :: parts, rest)

/-- The rest of a string after its opening quote: its text, if it has one, and what follows. -/
def readString (s : List Char) : Option (Option String × List Char) := do
  let (parts, rest) ← readParts (s.length + 1) s
  return ((joinParts parts).map String.ofList, rest)

/-- The value of a word such as `true`, and what follows it. -/
def readWord (word : List Char) (value : Json) (s : List Char) : Option (Json × List Char) :=
  if word.isPrefixOf s then some (value, s.drop word.length) else none

mutual

/-- The value at the start of a text, and what follows it. Each call takes at least one character
or hands the text on once, so twice the length of the text is enough fuel. -/
def readValue : (fuel : Nat) → List Char → Option (Json × List Char)
  | 0, _ => none
  | fuel + 1, s =>
    match skipSpace s with
    | [] => none
    | '[' :: rest =>
      match skipSpace rest with
      | ']' :: rest => some (.array [], rest)
      | _ => (readItems fuel rest).map fun (items, rest) => (.array items, rest)
    | '\x7b' :: rest =>
      match skipSpace rest with
      | '\x7d' :: rest => some (.object [], rest)
      | _ => (readFields fuel rest).map fun (fields, rest) => (.object fields, rest)
    | '"' :: rest => (readString rest).map fun (text, rest) => (.string text, rest)
    | '-' :: rest => readMagnitude true rest
    | 't' :: rest => readWord ['r', 'u', 'e'] (.bool true) rest
    | 'f' :: rest => readWord ['a', 'l', 's', 'e'] (.bool false) rest
    | 'n' :: rest => readWord ['u', 'l', 'l'] .null rest
    | c :: rest => readMagnitude false (c :: rest)

/-- One or more values with commas between them, and what follows the closing bracket. -/
def readItems : (fuel : Nat) → List Char → Option (List Json × List Char)
  | 0, _ => none
  | fuel + 1, s => do
    let (item, rest) ← readValue fuel s
    match skipSpace rest with
    | ',' :: rest =>
      let (items, rest) ← readItems fuel rest
      return (item :: items, rest)
    | ']' :: rest => return ([item], rest)
    | _ => none

/-- One or more fields with commas between them, and what follows the closing brace. -/
def readFields : (fuel : Nat) → List Char → Option (List (Option String × Json) × List Char)
  | 0, _ => none
  | fuel + 1, s => do
    match skipSpace s with
    | '"' :: rest =>
      let (name, rest) ← readString rest
      match skipSpace rest with
      | ':' :: rest =>
        let (value, rest) ← readValue fuel rest
        match skipSpace rest with
        | ',' :: rest =>
          let (fields, rest) ← readFields fuel rest
          return ((name, value) :: fields, rest)
        | '\x7d' :: rest => return ([(name, value)], rest)
        | _ => none
      | _ => none
    | _ => none

end

/-- The value that a text is, with nothing but white space around it. -/
def parse? (text : String) : Option Json := do
  let s := text.toList
  let (value, rest) ← readValue (2 * s.length + 2) s
  if (skipSpace rest).isEmpty then some value else none

/-- A whole number from `low` to `high`. -/
def integer? (low high : Int) : Json → Option Int
  | .number (some n) => if low ≤ n && n ≤ high then some n else none
  | _ => none

/-- The fields of an object whose names all have a text. -/
def fields? : Json → Option (List (String × Json))
  | .object fields => fields.mapM fun (name, value) => name.map (·, value)
  | _ => none

/-- The only field of a name, if there is exactly one. -/
def only? (name : String) (fields : List (String × Json)) : Option Json :=
  match fields.filter (·.1 = name) with
  | [(_, value)] => some value
  | _ => none

/-- A bracketed list laid out over several lines, its items two blanks further in. -/
def layOut (opening closing indent : String) (items : List String) : String :=
  if items.isEmpty then opening ++ closing
  else opening ++ "\n" ++ ",\n".intercalate (items.map (indent ++ "  " ++ ·)) ++ "\n" ++ indent ++
    closing

/-- An array laid out over several lines. -/
def layOutArray (indent : String) (items : List String) : String :=
  layOut "[" "]" indent items

/-- An object laid out over several lines, its values given as text. -/
def layOutObject (indent : String) (fields : List (String × String)) : String :=
  layOut "\x7b" "\x7d" indent (fields.map fun (name, value) => "\"" ++ name ++ "\": " ++ value)

end Json
end Clausal
