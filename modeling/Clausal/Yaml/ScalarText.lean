import Clausal.Yaml.Cursor
/-! The texts of scalars in a document: plain ones, those between quotes, and blocks of lines. All of
them may go over several lines. -/
namespace Clausal.Yaml

/-- The signs of collections in brackets. -/
def flowSigns : List Char :=
  [',', '[', ']', '\x7b', '\x7d']

/-- The word of a plain scalar that starts a text; in brackets no colon may be before a sign of
theirs. -/
def plainWord (inFlow : Bool) : List Char → Option (List Char)
  | [] => some []
  | c :: rest =>
    if inFlow && c == ':' && rest.head?.any (('?' :: flowSigns).contains ·) then none
    else if isGap c || (c == ':' && startsGap rest) || (inFlow && flowSigns.contains c) then some []
    else (plainWord inFlow rest).map (c :: ·)

/-- The rest of a plain scalar after some pieces of text, latest first, and a gap: its text, whether
the gap at its end goes over a line break, and the place after that gap. Further lines are indented by
at least `least`, but not in brackets. -/
def readPlain (inFlow : Bool) (least : Nat) : (fuel : Nat) → (text : List (List Char)) → Gap →
    Cursor → Option (List Char × Bool × Cursor)
  | 0, _, _, _ => none
  | fuel + 1, text, gap, p => do
    let word ← if p.isAtDocument || p.rest.head? == some '#' then some []
      else plainWord inFlow p.rest
    if word.isEmpty then return (text.reverse.flatten, gap.isBroken, p)
    let text := word :: gap.fold :: text
    let p := p.skip word.length
    if hasTabIndent least p then none
    let (gap, p) := readGap p
    if !inFlow && p.column < least then return (text.reverse.flatten, gap.isBroken, p)
    readPlain inFlow least fuel text gap p

/-- The character that a backslash and one letter stand for. -/
def shortEscape? : Char → Option Char
  | '0' => some '\x00'
  | 'a' => some '\x07'
  | 'b' => some '\x08'
  | 't' | '\t' => some '\t'
  | 'n' => some '\n'
  | 'v' => some '\x0b'
  | 'f' => some '\x0c'
  | 'r' => some '\r'
  | 'e' => some '\x1b'
  | ' ' => some ' '
  | '"' => some '"'
  | '/' => some '/'
  | '\\' => some '\\'
  | 'N' => some '\u0085'
  | '_' => some '\u00a0'
  | 'L' => some '\u2028'
  | 'P' => some '\u2029'
  | _ => none

/-- How many digits follow a letter that announces the number of a character. -/
def longEscape? : Char → Option Nat
  | 'x' => some 2
  | 'u' => some 4
  | 'U' => some 8
  | _ => none

/-- The character after a backslash, and how many characters it is written with. -/
def readEscape : List Char → Option (Char × Nat)
  | [] => none
  | c :: rest =>
    match shortEscape? c, longEscape? c with
    | some escaped, _ => some (escaped, 1)
    | none, none => none
    | none, some width => do
      let n ← digitsIn? 16 (rest.take width)
      if width ≤ rest.length && n.isValidChar then some (Char.ofNat n, width + 1) else none

/-- The word of a quoted scalar at a place, whether an escaped line break ends it, and the place after
it. -/
def quotedWord (quote : Char) : (fuel : Nat) → Cursor → Option (List Char × Bool × Cursor)
  | 0, _ => none
  | fuel + 1, p =>
    match p.rest with
    | [] => some ([], false, p)
    | c :: rest =>
      let go := fun (c : Char) (width : Nat) => do
        let (word, escapesBreak, p) ← quotedWord quote fuel (p.skip width)
        return (c :: word, escapesBreak, p)
      if isGap c then some ([], false, p)
      else if c == quote then
        if quote == '\x27' && rest.head? == some quote then go quote 2 else some ([], false, p)
      else if c == '\\' && quote == '"' then
        if rest.head?.any isBreak then some ([], true, p.skip 2)
        else do
          let (escaped, width) ← readEscape rest
          go escaped (width + 1)
      else go c 1

/-- The rest of a quoted scalar after some pieces of text, latest first: its text, and the place after
the closing quote. -/
def readQuoted (quote : Char) : (fuel : Nat) → (text : List (List Char)) → Cursor →
    Option (List Char × Cursor)
  | 0, _, _ => none
  | fuel + 1, text, p => do
    if p.isAtDocument || p.rest.isEmpty then none
    let (word, escapesBreak, p) ← quotedWord quote (p.rest.length + 1) p
    if p.rest.head? == some quote then return ((word :: text).reverse.flatten, p.next)
    let (gap, p) := readGap p
    readQuoted quote fuel ((if escapesBreak then gap.breaks else gap.fold) :: word :: text) p

/-- What becomes of the line breaks at the end of a block. -/
inductive Chomping where
  | strip
  /-- One stays. -/
  | clip
  | keep
deriving DecidableEq, Repr

/-- The head of a block after its sign: the chomping, the indentation if it is given, and the place
where the first line starts. -/
def readBlockHead (p : Cursor) : Option (Chomping × Option Nat × Cursor) := do
  let chomping? : Cursor → Option (Chomping × Cursor) := fun p =>
    match p.rest.head? with
    | some '+' => some (.keep, p.next)
    | some '-' => some (.strip, p.next)
    | _ => none
  let digit? : Cursor → Option (Nat × Cursor) := fun p =>
    (p.rest.head?.bind (digitIn? 10)).map (·, p.next)
  let (chomping, indent, p) :=
    match chomping? p with
    | some (chomping, p) =>
      match digit? p with
      | some (n, p) => (chomping, some n, p)
      | none => (chomping, none, p)
    | none =>
      match digit? p with
      | none => (.clip, none, p)
      | some (n, p) =>
        match chomping? p with
        | some (chomping, p) => (chomping, some n, p)
        | none => (.clip, some n, p)
  if indent == some 0 then none
  let p := (p.span isBlank).2
  let p := if p.rest.head? == some '#' then (p.span (!isBreak ·)).2 else p
  if p.rest.head?.any (!isBreak ·) then none
  return (chomping, indent, p.next)

/-- The empty lines of a block at a place: their breaks, the largest column they reach, and the place
of the line after them. Without an `indent` all spaces belong to the indentation. -/
def readBlockBreaks (indent : Option Nat) : (fuel : Nat) → Cursor →
    Option (List Char × Nat × Cursor)
  | 0, _ => none
  | fuel + 1, p =>
    let spaces := (p.rest.takeWhile (· == ' ')).length
    let p := p.skip (match indent with
      | none => spaces
      | some n => min spaces (n - p.column))
    match p.rest with
    | [] => some ([], p.column, p)
    | c :: _ =>
      if c == '\t' && indent.all (p.column < ·) then none
      else if isBreak c then do
        let (breaks, column, next) ← readBlockBreaks indent fuel p.next
        return (c :: breaks, max p.column column, next)
      else some ([], p.column, p)

/-- The lines of a block from a place on, given what comes before them: the pieces of its text, latest
first, the last line break and the empty lines after it, and whether the line before starts with a
blank. In a folded block a line break between lines without blanks is a space. -/
def readBlockLines (isFolded : Bool) (indent : Nat) (chomping : Chomping) : (fuel : Nat) →
    (text : List (List Char)) → (lastBreak breaks : List Char) → (afterBlank : Bool) → Cursor →
    Option (List Char × Cursor)
  | 0, _, _, _, _, _ => none
  | fuel + 1, text, lastBreak, breaks, afterBlank, p => do
    if p.column ≠ indent || p.rest.isEmpty then
      let kept := match chomping with
        | .strip => []
        | .clip => lastBreak
        | .keep => lastBreak ++ breaks
      return ((kept :: text).reverse.flatten, p)
    let startsBlank := p.rest.head?.any isBlank
    let joint :=
      if isFolded && lastBreak == ['\n'] && !afterBlank && !startsBlank then
        if breaks.isEmpty then [' '] else []
      else lastBreak
    let (line, p) := p.span (!isBreak ·)
    let lastBreak := p.rest.take 1
    let (newBreaks, _, p) ← readBlockBreaks (some indent) (p.rest.length + 1) p.next
    readBlockLines isFolded indent chomping fuel (line :: breaks :: joint :: text) lastBreak newBreaks
      startsBlank p

/-- The block after its sign, and the place after it. Its lines are indented by at least `least`. -/
def readBlock (isFolded : Bool) (least : Nat) (p : Cursor) : Option (List Char × Cursor) := do
  let (chomping, given, p) ← readBlockHead p
  let indent := given.map (least - 1 + ·)
  let (breaks, column, p) ← readBlockBreaks indent (p.rest.length + 1) p
  readBlockLines isFolded (indent.getD (max 1 (max column least))) chomping (p.rest.length + 1) []
    [] breaks false p

end Clausal.Yaml
