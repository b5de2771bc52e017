import Clausal.Yaml.ScalarText
/-! The tokens of a document. Block collections have no signs of their own for their start and end:
these tokens come from the columns of keys and dashes. A key is known as one only by the colon after
it, so its token is put in front of it then. -/
namespace Clausal.Yaml

/-- A token of a document. -/
inductive Token where
  | documentStart
  | documentEnd
  | listStart
  | mappingStart
  /-- The end of a list or a mapping that goes by columns. -/
  | blockEnd
  | flowListStart
  | flowListEnd
  | flowMappingStart
  | flowMappingEnd
  /-- The dash before an item. -/
  | item
  /-- The comma in brackets. -/
  | separator
  | key
  | value
  | scalar (text : List Char) (isPlain : Bool)
deriving DecidableEq, Repr

/-- A token that a colon would make a key. -/
structure Candidate where
  /-- How many tokens come before it. -/
  place : Nat
  line : Nat
  column : Nat
  /-- How many bytes of the line come before it. -/
  offset : Nat
  /-- Whether nothing but a key can be at its column. -/
  isRequired : Bool
deriving Repr

/-- How far a document has been cut into tokens. -/
structure Scanner where
  cursor : Cursor
  /-- The tokens so far, latest first. -/
  tokens : List Token := []
  /-- The number of tokens so far. -/
  count : Nat := 0
  /-- The least column for what is inside the block collection at hand: one more than its own column,
  and 0 outside of all. -/
  least : Nat := 0
  /-- The same of the block collections around it. -/
  outer : List Nat := []
  /-- Whether a key may start here. -/
  allowsKey : Bool := true
  candidate : Option Candidate := none
  /-- The candidates outside of each pair of brackets that is open, innermost first. -/
  enclosing : List (Option Candidate) := []

namespace Scanner

/-- Whether the scanner is inside of brackets. -/
def inFlow (s : Scanner) : Bool :=
  !s.enclosing.isEmpty

/-- A token at the end. -/
def emit (token : Token) (s : Scanner) : Scanner :=
  { s with tokens := token :: s.tokens, count := s.count + 1 }

/-- A token before all but the first `place` tokens. -/
def insert (place : Nat) (token : Token) (s : Scanner) : Scanner :=
  let later := s.count - place
  { s with tokens := s.tokens.take later ++ token :: s.tokens.drop later, count := s.count + 1 }

/-- A token for the next `width` characters. -/
def take (width : Nat) (token : Token) (s : Scanner) : Scanner :=
  { s.emit token with cursor := s.cursor.skip width }

/-- Ends the block collections that something at a column is outside of: all that are further in, or
with `none` every one. -/
def closeBlocks (column : Option Nat) (s : Scanner) : Scanner :=
  if s.inFlow then s
  else close s.outer s.least s
where
  close : List Nat → Nat → Scanner → Scanner
    | least :: outer, current, s =>
      if column.any (current ≤ · + 1) then s
      else close outer least { s.emit .blockEnd with least, outer }
    | [], _, s => s

/-- Starts a block collection at a column, unless it goes on there. -/
def openBlock (column place : Nat) (token : Token) (s : Scanner) : Scanner :=
  if s.inFlow || column < s.least then s
  else { s.insert place token with least := column + 1, outer := s.least :: s.outer }

/-- Gives up the candidate, which cannot be where a key has to be. -/
def dropCandidate (s : Scanner) : Option Scanner :=
  if s.candidate.any (·.isRequired) then none else some { s with candidate := none }

/-- The next token may be a key, if one may start here. -/
def markCandidate (s : Scanner) : Option Scanner := do
  if !s.allowsKey then return s
  let s ← s.dropCandidate
  let ⟨_, line, column, offset⟩ := s.cursor
  let isRequired := !s.inFlow && s.least == column + 1
  return { s with candidate := some ⟨s.count, line, column, offset, isRequired⟩ }

/-- Whether a colon at a place comes too late for a candidate: on another line, or more than 1024
bytes on. -/
def isStale (p : Cursor) (c : Candidate) : Bool :=
  c.line < p.line || c.offset + 1024 < p.offset

/-- Gives up the candidates that it is too late for. -/
def dropStale (s : Scanner) : Option Scanner :=
  let live := fun (c : Option Candidate) => c.filter (!isStale s.cursor ·)
  let all := s.candidate :: s.enclosing
  if all.any fun c => c.any fun c => c.isRequired && isStale s.cursor c then none
  else some { s with candidate := live s.candidate, enclosing := s.enclosing.map live }

/-- Goes on to the next token, over blanks, comments, line breaks and byte order marks that start a
line. A key may start on a new line. A tabulator may not be where a key may start. -/
def skipSpace : (fuel : Nat) → Scanner → Scanner
  | 0, s => s
  | fuel + 1, s =>
    let takesTabs := s.inFlow || !s.allowsKey
    let p := (s.cursor.skipOrderMark.span fun c => c == ' ' || (takesTabs && c == '\t')).2
    let p := if p.rest.head? == some '#' then (p.span (!isBreak ·)).2 else p
    if p.rest.head?.any isBreak then
      skipSpace fuel { s with cursor := p.next, allowsKey := s.allowsKey || !s.inFlow }
    else { s with cursor := p }

/-- A sign for the start or the end of a document. -/
def takeMark (token : Token) (s : Scanner) : Option Scanner := do
  let s ← (s.closeBlocks none).dropCandidate
  return { s.take 3 token with allowsKey := false }

/-- An opening bracket. -/
def takeOpening (token : Token) (s : Scanner) : Option Scanner := do
  let s ← s.markCandidate
  return { s.take 1 token with
    candidate := none, enclosing := s.candidate :: s.enclosing, allowsKey := true }

/-- A closing bracket. -/
def takeClosing (token : Token) (s : Scanner) : Option Scanner := do
  let s ← s.dropCandidate
  return { s.take 1 token with
    candidate := s.enclosing.headD none, enclosing := s.enclosing.tail, allowsKey := false }

/-- A comma in brackets. -/
def takeSeparator (s : Scanner) : Option Scanner := do
  let s ← s.dropCandidate
  return { s.take 1 .separator with allowsKey := true }

/-- The dash before an item. -/
def takeDash (s : Scanner) : Option Scanner := do
  if !s.inFlow && !s.allowsKey then none
  let s ← (s.openBlock s.cursor.column s.count .listStart).dropCandidate
  return { s.take 1 .item with allowsKey := true }

/-- The question mark before a key. -/
def takeKeySign (s : Scanner) : Option Scanner := do
  if !s.inFlow && !s.allowsKey then none
  let s ← (s.openBlock s.cursor.column s.count .mappingStart).dropCandidate
  return { s.take 1 .key with allowsKey := !s.inFlow }

/-- The colon after a key. -/
def takeColon (s : Scanner) : Option Scanner :=
  match s.candidate with
  | some c =>
    let s := (s.insert c.place .key).openBlock c.column c.place .mappingStart
    some { s.take 1 .value with candidate := none, allowsKey := false }
  | none =>
    if !s.inFlow && !s.allowsKey then none
    else
      let s := s.openBlock s.cursor.column s.count .mappingStart
      some { s.take 1 .value with allowsKey := !s.inFlow }

/-- A plain scalar. -/
def takePlain (s : Scanner) : Option Scanner := do
  let s ← s.markCandidate
  let (text, isBroken, cursor) ←
    readPlain s.inFlow s.least (s.cursor.rest.length + 1) [] {} s.cursor
  return { s.emit (.scalar text true) with cursor, allowsKey := isBroken }

/-- A scalar between quotes. -/
def takeQuoted (quote : Char) (s : Scanner) : Option Scanner := do
  let s ← s.markCandidate
  let (text, cursor) ← readQuoted quote (s.cursor.rest.length + 1) [] s.cursor.next
  return { s.emit (.scalar text false) with cursor, allowsKey := false }

/-- A block of lines. -/
def takeBlock (isFolded : Bool) (s : Scanner) : Option Scanner := do
  let s ← s.dropCandidate
  let (text, cursor) ← readBlock isFolded s.least s.cursor.next
  return { s.emit (.scalar text false) with cursor, allowsKey := true }

/-- The token at a place that is no blank. Names for nodes, references to them, tags and directives
are not read. -/
def takeToken (s : Scanner) : Option Scanner :=
  let p := s.cursor
  if p.isAtMark ['-', '-', '-'] then s.takeMark .documentStart
  else if p.isAtMark ['.', '.', '.'] then s.takeMark .documentEnd
  else match p.rest with
    | '[' :: _ => s.takeOpening .flowListStart
    | '\x7b' :: _ => s.takeOpening .flowMappingStart
    | ']' :: _ => s.takeClosing .flowListEnd
    | '\x7d' :: _ => s.takeClosing .flowMappingEnd
    | ',' :: _ => s.takeSeparator
    | '\x27' :: _ => s.takeQuoted '\x27'
    | '"' :: _ => s.takeQuoted '"'
    | '|' :: _ => if s.inFlow then none else s.takeBlock false
    | '>' :: _ => if s.inFlow then none else s.takeBlock true
    | '-' :: rest =>
      if startsGap rest then s.takeDash else s.takePlain
    | '?' :: rest =>
      if s.inFlow || startsGap rest then s.takeKeySign else s.takePlain
    | ':' :: rest =>
      if s.inFlow || startsGap rest then s.takeColon else s.takePlain
    | c :: _ => if isGap c || indicators.contains c then none else s.takePlain
    | [] => none

/-- Cuts a document into tokens from where the scanner is. -/
def run : (fuel : Nat) → Scanner → Option (List Token)
  | 0, _ => none
  | fuel + 1, s => do
    let s ← (s.skipSpace (s.cursor.rest.length + 1)).dropStale
    if s.cursor.rest.isEmpty then
      let s ← (s.closeBlocks none).dropCandidate
      return s.tokens.reverse
    else
      let s ← (s.closeBlocks (some s.cursor.column)).takeToken
      run fuel s

end Scanner

/-- The tokens of a document. -/
def tokens? (text : String) : Option (List Token) :=
  let chars := normalizeBreaks text.toList
  if text.toList.all isAllowed then
    Scanner.run (chars.length + 1) { cursor := { rest := chars } }
  else none

end Clausal.Yaml
