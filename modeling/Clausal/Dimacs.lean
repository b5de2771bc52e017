import Clausal.Error
import Clausal.Text.Blank
import Clausal.Text.Number
import Clausal.Text.Utf8
/-! The DIMACS text form of formulas: one clause a line when written; read back word by word, so
that line breaks and comments between clauses do not matter. -/
namespace Clausal

/-- A literal in decimal, if it fits in 32 bits. -/
def Literal.ofText? (word : List Char) : Option Literal :=
  Text.boundedInteger? Literal.least Literal.greatest word

/-- A clause as a line: its literals and the closing 0, with blanks between them. -/
def Clause.toDimacs (c : Clause) : String :=
  String.join (c.map fun l => toString l ++ " ") ++ "0"

/-- The literals of a line up to the first 0, or `none` if a word before it is no literal. -/
def parseModel (line : List Char) : Option (List Literal) :=
  go (Text.words line)
where
  go : List (List Char) → Option (List Literal)
    | [] => some []
    | word :: rest =>
      match Literal.ofText? word with
      | none => none
      | some l => if l = 0 then some [] else (go rest).map (l :: ·)

namespace Dimacs

/-- What has been read so far: the finished clauses, latest first, and the literals of the clause
that is still open, latest first. -/
structure Reader where
  closed : List Clause := []
  pending : List Literal := []
deriving DecidableEq, Repr

namespace Reader

/-- Takes in one number: 0 closes the open clause. -/
def push (r : Reader) (l : Literal) : Reader :=
  if l = 0 then { closed := r.pending.reverse :: r.closed, pending := [] }
  else { r with pending := l :: r.pending }

/-- Takes in the words of line number `line`. -/
def readWords (line : Nat) (r : Reader) : List (List Char) → Except Error Reader
  | [] => .ok r
  | word :: rest =>
    match Literal.ofText? word with
    | none => .error (.malformed line (.notLiteral (String.ofList word)))
    | some l => readWords line (r.push l) rest

/-- The clauses read. An open clause counts if it has a literal. -/
def clauses (r : Reader) : List Clause :=
  (if r.pending.isEmpty then r.closed else r.pending.reverse :: r.closed).reverse

end Reader

/-- Whether a line holds no part of a clause: it is blank, a comment or a header. -/
def isSkipped (line : List Char) : Bool :=
  match line.dropWhile Text.isBlank with
  | [] => true
  | c :: _ => c == 'c' || c == 'p'

/-- Takes in the lines from number `line` on; `none` stands for a line that is not UTF-8. -/
def readLines (line : Nat) (r : Reader) : List (Option (List Char)) → Except Error Reader
  | [] => .ok r
  | none :: _ => .error (.malformed line (.unreadable .notText))
  | some text :: rest =>
    if isSkipped text then readLines (line + 1) r rest
    else match r.readWords line (Text.words text) with
      | .error e => .error e
      | .ok r => readLines (line + 1) r rest

/-- The clauses of a formula text. -/
def read (text : String) : Except Error (List Clause) :=
  (readLines 1 {} ((Text.lines text.toList).map some)).map Reader.clauses

/-- The clauses of a formula file's contents. -/
def readBytes (bytes : ByteArray) : Except Error (List Clause) :=
  (readLines 1 {} ((Text.pieces (· == '\n'.toUInt8) bytes.toList).map Text.decode?)).map
    Reader.clauses

/-- The clauses of the formula file at `path`, whose contents are `contents`. -/
def readFile (path : String) (contents : Except FileFault ByteArray) :
    Except Error (List Clause) :=
  match contents with
  | .ok bytes => readBytes bytes
  | .error .isDirectory => .error (.malformed 1 (.unreadable .isDirectory))
  | .error fault => .error (.file path fault)

end Dimacs

/-- The text of a file that has to be UTF-8 throughout. -/
def textOfFile (contents : Except FileFault ByteArray) : Except FileFault String := do
  let bytes ← contents
  match Text.decode? bytes.toList with
  | some text => .ok (String.ofList text)
  | none => .error .notText

end Clausal
