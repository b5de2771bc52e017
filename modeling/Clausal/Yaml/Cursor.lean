import Clausal.Text.Blank
import Clausal.Yaml.Character
/-! A place in a document, and what lies between the words there. -/
namespace Clausal.Yaml

/-- A place in a document: what follows it, and where it is. -/
structure Cursor where
  rest : List Char
  line : Nat := 0
  column : Nat := 0
  /-- How many bytes of its line come before it. -/
  offset : Nat := 0
deriving DecidableEq, Repr, Inhabited

namespace Cursor

/-- The place after the next character. -/
def next (p : Cursor) : Cursor :=
  match p.rest with
  | [] => p
  | c :: rest =>
    if isBreak c then ⟨rest, p.line + 1, 0, 0⟩
    else ⟨rest, p.line, p.column + 1, p.offset + c.utf8Size⟩

/-- The place `n` characters further on. -/
def skip (p : Cursor) : (n : Nat) → Cursor
  | 0 => p
  | n + 1 => p.next.skip n

/-- The place after a byte order mark, if one starts the line here. It counts as a column. -/
def skipOrderMark (p : Cursor) : Cursor :=
  if p.column == 0 && p.rest.head? == some '\ufeff' then p.next else p

/-- The characters up to the first that fails a test, and the place there. -/
def span (test : Char → Bool) (p : Cursor) : List Char × Cursor :=
  let run := p.rest.takeWhile test
  (run, p.skip run.length)

/-- Whether a mark of three characters for the start or the end of a document is here. -/
def isAtMark (mark : List Char) (p : Cursor) : Bool :=
  p.column == 0 && mark.isPrefixOf p.rest && startsGap (p.rest.drop 3)

/-- Whether a document starts or ends here. -/
def isAtDocument (p : Cursor) : Bool :=
  p.isAtMark ['-', '-', '-'] || p.isAtMark ['.', '.', '.']

end Cursor

/-- What lies between two words of a scalar: blanks, or line breaks with blanks around them. -/
structure Gap where
  blanks : List Char := []
  breaks : List Char := []
deriving DecidableEq, Repr

namespace Gap

/-- Whether the words are on different lines. -/
def isBroken (g : Gap) : Bool :=
  !g.breaks.isEmpty

/-- What a gap stands for. Blanks stay; one line feed is a space, and the first of several is left
out. -/
def fold (g : Gap) : List Char :=
  match g.breaks with
  | [] => g.blanks
  | ['\n'] => [' ']
  | '\n' :: more => more
  | breaks => breaks

end Gap

/-- The gap at a place, and the place after it. -/
def readGap (p : Cursor) : Gap × Cursor :=
  let (run, p) := p.span isGap
  (⟨run.takeWhile isBlank, run.filter isBreak⟩, p)

/-- Whether a gap has a tabulator among the first `least` characters of a line that it starts. -/
def hasTabIndent (least : Nat) (p : Cursor) : Bool :=
  ((Text.pieces isBreak (p.rest.takeWhile isGap)).drop 1).any fun blanks =>
    (blanks.take least).contains '\t'

end Clausal.Yaml
