import Clausal.Proofs.Text
import Clausal.Proofs.Variables
import Clausal.Solver.Report
/-! Formula texts. A reader sees nothing but the words of those lines that hold clauses, so what is
written line by line is read back whatever comments and headers stand in between. -/
namespace Clausal

/-- A clause that a formula text can hold. -/
def Clause.IsWritable (c : Clause) : Prop :=
  ∀ l ∈ c, l ≠ 0 ∧ Literal.fits l = true

theorem Clause.IsWritable.zero_not_mem {c : Clause} (h : c.IsWritable) : 0 ∉ c :=
  fun hzero => (h 0 hzero).1 rfl

/-- The variables of clauses that a text holds fit, but for that of the smallest literal. -/
theorem fits_maxVar_of_isWritable {cs : List Clause} (h : ∀ c ∈ cs, c.IsWritable)
    (hleast : ∀ c ∈ cs, Literal.least ∉ c) : Literal.fits (maxVar cs) = true := by
  refine fits_maxVar_iff.2 fun x hx => ?_
  obtain ⟨c, hc, l, hl, rfl⟩ := mem_mentioned.1 hx
  exact (Literal.fits_var_iff (h c hc l hl).2).2 fun heq => hleast c hc (heq ▸ hl)

namespace Dimacs

variable {r : Reader} {line : Nat} {words : List (List Char)} {lines : List (List Char)}
  {ls : List Literal} {c : Clause} {cs : List Clause}

/-! ## Reading -/

/-- The words of the lines that hold clauses. -/
def tokens (lines : List (List Char)) : List (List Char) :=
  (lines.filter (!isSkipped ·)).flatMap Text.words

theorem tokens_cons_of_skipped {l : List Char} (h : isSkipped l = true) :
    tokens (l :: lines) = tokens lines := by
  simp [tokens, h]

theorem tokens_cons_of_held {l : List Char} (h : isSkipped l = false) :
    tokens (l :: lines) = Text.words l ++ tokens lines := by
  simp [tokens, h]

theorem tokens_append (ls ms : List (List Char)) : tokens (ls ++ ms) = tokens ls ++ tokens ms := by
  simp [tokens]

theorem readWords_ok (h : words.map Literal.ofText? = ls.map some) :
    r.readWords line words = .ok (ls.foldl Reader.push r) := by
  induction words generalizing r ls with
  | nil =>
    obtain rfl := List.map_eq_nil_iff.1 h.symm
    rfl
  | cons word words ih =>
    cases ls with
    | nil => cases h
    | cons l ls =>
      obtain ⟨hword, hwords⟩ := List.cons.inj h
      rw [Reader.readWords, hword]
      exact ih hwords

theorem readLines_ok (h : (tokens lines).map Literal.ofText? = ls.map some) :
    readLines line r (lines.map some) = .ok (ls.foldl Reader.push r) := by
  induction lines generalizing line r ls with
  | nil =>
    obtain rfl := List.map_eq_nil_iff.1 h.symm
    rfl
  | cons l lines ih =>
    cases hskipped : isSkipped l with
    | true =>
      rw [tokens_cons_of_skipped hskipped] at h
      rw [List.map_cons, readLines, if_pos hskipped]
      exact ih h
    | false =>
      rw [tokens_cons_of_held hskipped, List.map_append, List.append_eq_map_iff] at h
      obtain ⟨first, rest, rfl, hfirst, hrest⟩ := h
      rw [List.map_cons, readLines, hskipped, readWords_ok hfirst.symm, List.foldl_append]
      exact ih hrest.symm

theorem push_pending (closed : List Clause) (pending : List Literal) (h : 0 ∉ c) :
    c.foldl Reader.push ⟨closed, pending⟩ = ⟨closed, c.reverse ++ pending⟩ := by
  induction c generalizing pending with
  | nil => rfl
  | cons l c ih =>
    rw [List.mem_cons, not_or] at h
    have hl : l ≠ 0 := fun hl => h.1 hl.symm
    rw [List.foldl_cons, Reader.push, if_neg hl, ih _ h.2, List.reverse_cons, List.append_assoc,
      List.singleton_append]

/-- Every 0 closes the clause before it. -/
theorem push_closed (closed : List Clause) (h : ∀ c ∈ cs, 0 ∉ c) :
    (cs.flatMap (· ++ [0])).foldl Reader.push ⟨closed, []⟩ = ⟨cs.reverse ++ closed, []⟩ := by
  induction cs generalizing closed with
  | nil => rfl
  | cons c cs ih =>
    rw [List.forall_mem_cons] at h
    rw [List.flatMap_cons, List.foldl_append, List.foldl_append, push_pending _ _ h.1,
      List.append_nil, List.foldl_cons, List.foldl_nil, Reader.push, if_pos rfl, ih _ h.2]
    simp

/-- What a reader holds after a text. -/
def readerOf (text : String) : Except Error Reader :=
  readLines 1 {} ((Text.lines text.toList).map some)

theorem read_eq_map (text : String) : read text = (readerOf text).map Reader.clauses := rfl

/-- A text whose last line is ended. -/
def EndsLine (text : String) : Prop :=
  text = "" ∨ ∃ body, text.toList = body ++ ['\n']

/-- The clauses of a reader that reads further clauses. The first of them goes on with the clause
that is still open. -/
def Reader.join (r : Reader) : List Clause → List Clause
  | [] => r.clauses
  | c :: cs => r.closed.reverse ++ (r.pending.reverse ++ c) :: cs

theorem Reader.join_of_closed (h : r.pending = []) (cs : List Clause) :
    r.join cs = r.clauses ++ cs := by
  cases cs with
  | nil => rw [join, List.append_nil]
  | cons c cs => simp [join, clauses, h]

theorem clauses_push_closed (h : ∀ c ∈ cs, 0 ∉ c) :
    ((cs.flatMap (· ++ [0])).foldl Reader.push r).clauses = r.join cs := by
  cases cs with
  | nil => rfl
  | cons c cs =>
    rw [List.forall_mem_cons] at h
    rw [List.flatMap_cons, List.foldl_append, List.foldl_append, push_pending _ _ h.1,
      List.foldl_cons, List.foldl_nil, Reader.push, if_pos rfl, push_closed _ h.2]
    simp [Reader.clauses, Reader.join]

theorem readLines_append (ls ms : List (Option (List Char))) :
    readLines line r (ls ++ ms) =
      readLines line r ls >>= fun r => readLines (line + ls.length) r ms := by
  induction ls generalizing line r with
  | nil => rfl
  | cons l ls ih =>
    cases l with
    | none => rfl
    | some l =>
      have hline : line + (ls.length + 1) = line + 1 + ls.length := by omega
      rw [List.cons_append, readLines, readLines, List.length_cons, hline]
      split
      · exact ih
      · split
        · rfl
        · exact ih

/-- A text is read on from where the lines before it have led. -/
theorem readerOf_append {text : String} (h : EndsLine text) (hr : readerOf text = .ok r)
    (more : String) : ∃ line,
      readerOf (text ++ more) = readLines line r ((Text.lines more.toList).map some) := by
  rcases h with rfl | ⟨body, hbody⟩
  · cases hr
    exact ⟨1, by rw [readerOf, String.toList_append]; rfl⟩
  · rw [readerOf, hbody, Text.lines_append_cons, List.map_append, readLines_append] at hr
    refine ⟨1 + ((Text.lines body).map some).length, ?_⟩
    rw [readerOf, String.toList_append, hbody, List.append_assoc, List.singleton_append,
      Text.lines_append_cons, List.map_append, readLines_append]
    cases hread : readLines 1 {} ((Text.lines body).map some) with
    | error e =>
      rw [hread] at hr
      cases hr
    | ok r' =>
      -- The end of the last line leaves an empty one behind, which is skipped.
      rw [hread] at hr
      obtain rfl : r' = r := Except.ok.inj hr
      rfl

theorem read_append_ok {text more : String} (htext : EndsLine text) (hr : readerOf text = .ok r)
    (h : more.toList = lines.flatMap (· ++ ['\n'])) (hlines : ∀ l ∈ lines, '\n' ∉ l)
    (hzero : ∀ c ∈ cs, 0 ∉ c)
    (htokens : (tokens lines).map Literal.ofText? = (cs.flatMap (· ++ [0])).map some) :
    read (text ++ more) = .ok (r.join cs) := by
  have hlast : tokens [[]] = [] := rfl
  have hall : (tokens (lines ++ [[]])).map Literal.ofText? = (cs.flatMap (· ++ [0])).map some := by
    rw [tokens_append, hlast, List.append_nil, htokens]
  obtain ⟨line, hread⟩ := readerOf_append htext hr more
  rw [read_eq_map, hread, h, Text.lines_flatMap hlines, readLines_ok hall]
  exact congrArg Except.ok (clauses_push_closed hzero)

theorem read_ok {text : String} (h : text.toList = lines.flatMap (· ++ ['\n']))
    (hlines : ∀ l ∈ lines, '\n' ∉ l) (hzero : ∀ c ∈ cs, 0 ∉ c)
    (htokens : (tokens lines).map Literal.ofText? = (cs.flatMap (· ++ [0])).map some) :
    read text = .ok cs := by
  have hread := read_append_ok (.inl rfl) rfl h hlines hzero htokens
  rwa [String.empty_append, Reader.join_of_closed rfl] at hread

/-- A reader that holds writable clauses only. -/
def Reader.IsWritable (r : Reader) : Prop :=
  (∀ c ∈ r.closed, c.IsWritable) ∧ Clause.IsWritable r.pending

theorem Reader.IsWritable.push {l : Literal} (h : r.IsWritable) (hl : Literal.fits l = true) :
    (r.push l).IsWritable := by
  rw [Reader.push]
  split
  · refine ⟨List.forall_mem_cons.2 ⟨fun x hx => h.2 x (List.mem_reverse.1 hx), h.1⟩, ?_⟩
    simp [Clause.IsWritable]
  · exact ⟨h.1, List.forall_mem_cons.2 ⟨⟨‹_›, hl⟩, h.2⟩⟩

theorem Reader.IsWritable.readWords {r' : Reader} (h : r.IsWritable)
    (hread : r.readWords line words = .ok r') : r'.IsWritable := by
  induction words generalizing r with
  | nil =>
    cases hread
    exact h
  | cons word words ih =>
    rw [Reader.readWords] at hread
    split at hread
    · cases hread
    · rename_i l hl
      exact ih (h.push (Option.filter_eq_some_iff.1 hl).2) hread

theorem Reader.IsWritable.readLines {r' : Reader} {lines : List (Option (List Char))}
    (h : r.IsWritable) (hread : Dimacs.readLines line r lines = .ok r') : r'.IsWritable := by
  induction lines generalizing line r with
  | nil =>
    cases hread
    exact h
  | cons l lines ih =>
    cases l with
    | none => cases hread
    | some text =>
      rw [Dimacs.readLines] at hread
      split at hread
      · exact ih h hread
      · split at hread
        · cases hread
        · exact ih (h.readWords ‹_›) hread

theorem Reader.IsWritable.clauses (h : r.IsWritable) : ∀ c ∈ r.clauses, c.IsWritable := by
  intro c hc
  rw [Reader.clauses, List.mem_reverse] at hc
  split at hc
  · exact h.1 c hc
  · rcases List.mem_cons.1 hc with rfl | hc
    · exact fun l hl => h.2 l (List.mem_reverse.1 hl)
    · exact h.1 c hc

theorem isWritable_of_readLines {lines : List (Option (List Char))}
    (h : (readLines line {} lines).map Reader.clauses = .ok cs) : ∀ c ∈ cs, c.IsWritable := by
  have hstart : Reader.IsWritable {} := by simp [Reader.IsWritable, Clause.IsWritable]
  cases hread : readLines line {} lines with
  | error e =>
    rw [hread] at h
    cases h
  | ok r =>
    rw [hread] at h
    cases h
    exact (hstart.readLines hread).clauses

/-- Only writable clauses are read, -/
theorem isWritable_of_read {text : String} (h : read text = .ok cs) : ∀ c ∈ cs, c.IsWritable :=
  isWritable_of_readLines h

/-- whatever the file. -/
theorem isWritable_of_readFile {path : String} {contents : Except FileFault ByteArray}
    (h : readFile path contents = .ok cs) : ∀ c ∈ cs, c.IsWritable := by
  cases contents with
  | ok bytes => exact isWritable_of_readLines h
  | error fault => cases fault <;> cases h

/-! ## Failures -/

theorem readWords_error {e : Error} (h : r.readWords line words = .error e) :
    ∃ line fault, e = .malformed line fault := by
  induction words generalizing r with
  | nil => cases h
  | cons word words ih =>
    rw [Reader.readWords] at h
    split at h
    · exact ⟨_, _, (Except.error.inj h).symm⟩
    · exact ih h

theorem readLines_error {e : Error} {lines : List (Option (List Char))}
    (h : readLines line r lines = .error e) : ∃ line fault, e = .malformed line fault := by
  induction lines generalizing line r with
  | nil => cases h
  | cons l lines ih =>
    cases l with
    | none => exact ⟨_, _, (Except.error.inj h).symm⟩
    | some text =>
      rw [readLines] at h
      split at h
      · exact ih h
      · split at h
        · rename_i hwords
          exact readWords_error (hwords.trans (congrArg _ (Except.error.inj h)))
        · exact ih h

theorem clauses_of_readLines_error {e : Error} {lines : List (Option (List Char))}
    (h : (readLines line r lines).map Reader.clauses = .error e) :
    ∃ line fault, e = .malformed line fault := by
  cases hread : readLines line r lines with
  | ok r' =>
    rw [hread] at h
    cases h
  | error e' =>
    rw [hread] at h
    obtain rfl := Except.error.inj h
    exact readLines_error hread

/-- A text that cannot be read is malformed in some line, -/
theorem read_error {text : String} {e : Error} (h : read text = .error e) :
    ∃ line fault, e = .malformed line fault :=
  clauses_of_readLines_error h

/-- and so is a file, unless it cannot be opened. -/
theorem readFile_error {path : String} {contents : Except FileFault ByteArray} {e : Error}
    (h : readFile path contents = .error e) :
    (∃ line fault, e = .malformed line fault) ∨ ∃ fault, e = .file path fault := by
  cases contents with
  | ok bytes => exact .inl (clauses_of_readLines_error h)
  | error fault =>
    cases fault with
    | isDirectory => exact .inl ⟨_, _, (Except.error.inj h).symm⟩
    | _ => exact .inr ⟨_, (Except.error.inj h).symm⟩

/-! ## Writing -/

theorem ofText?_toString {l : Literal} (h : Literal.fits l = true) :
    Literal.ofText? (toString l).toList = some l := by
  rw [Literal.ofText?, Text.boundedInteger?, Text.integer?_toString]
  exact Option.filter_some_pos h

theorem isBlank_eq_false {a : Char} (h : a.isDigit = true ∨ a = '-') : Text.isBlank a = false := by
  rcases h with h | rfl
  · rw [Char.isDigit, Bool.and_eq_true, decide_eq_true_iff, decide_eq_true_iff] at h
    have hlow : 48 ≤ a.toNat := h.1
    have hhigh : a.toNat ≤ 57 := h.2
    simp only [Text.isBlank, Bool.or_eq_false_iff, Bool.and_eq_false_iff, decide_eq_false_iff_not,
      beq_eq_false_iff_ne]
    omega
  · rfl

theorem isWord_numeral (l : Int) :
    (toString l).toList ≠ [] ∧ ∀ a ∈ (toString l).toList, Text.isBlank a = false := by
  refine ⟨fun h => ?_, fun a ha => isBlank_eq_false (Text.mem_numeral ha)⟩
  have hparse := Text.integer?_toString l
  rw [h] at hparse
  cases hparse

/-- The literals of a clause as words. -/
def numerals (c : Clause) : List (List Char) :=
  c.map fun l => (toString l).toList

theorem isWord_of_mem_numerals {w : List Char} (h : w ∈ numerals c) :
    w ≠ [] ∧ ∀ a ∈ w, Text.isBlank a = false := by
  obtain ⟨l, -, rfl⟩ := List.mem_map.1 h
  exact isWord_numeral l

theorem toList_toDimacs (c : Clause) : (Clause.toDimacs c).toList =
    (numerals c).flatMap (· ++ [' ']) ++ ['0'] := by
  simp [Clause.toDimacs, numerals, String.toList_join, List.flatMap_map]

theorem words_toDimacs (c : Clause) : Text.words (Clause.toDimacs c).toList =
    numerals c ++ [['0']] := by
  rw [toList_toDimacs]
  exact Text.words_flatMap (fun w hw => isWord_of_mem_numerals hw)
    ⟨List.cons_ne_nil _ _, by simp [Text.isBlank]⟩

theorem mem_toDimacs {a : Char} (h : a ∈ (Clause.toDimacs c).toList) :
    a.isDigit = true ∨ a = '-' ∨ a = ' ' := by
  rw [toList_toDimacs, List.mem_append, List.mem_flatMap] at h
  rcases h with ⟨w, hw, ha⟩ | h
  · obtain ⟨l, -, rfl⟩ := List.mem_map.1 hw
    rcases List.mem_append.1 ha with ha | ha
    · exact (Text.mem_numeral ha).imp_right .inl
    · exact .inr (.inr (List.mem_singleton.1 ha))
  · obtain rfl := List.mem_singleton.1 h
    exact .inl rfl

/-- A clause starts with a digit or a sign. -/
theorem exists_toDimacs_cons (c : Clause) :
    ∃ a rest, (Clause.toDimacs c).toList = a :: rest ∧ (a.isDigit = true ∨ a = '-') := by
  rw [toList_toDimacs]
  cases c with
  | nil => exact ⟨'0', [], rfl, .inl rfl⟩
  | cons l c =>
    cases hl : (toString l).toList with
    | nil => exact absurd hl (isWord_numeral l).1
    | cons a rest =>
      rw [numerals, List.map_cons, hl]
      exact ⟨a, _, rfl, Text.mem_numeral (hl ▸ List.mem_cons_self)⟩

theorem isSkipped_toDimacs (c : Clause) : isSkipped (Clause.toDimacs c).toList = false := by
  obtain ⟨a, rest, hlist, ha⟩ := exists_toDimacs_cons c
  rw [hlist, isSkipped, List.dropWhile_cons_of_neg (by rw [isBlank_eq_false ha]; decide)]
  rcases ha with ha | rfl
  · have hc : a ≠ 'c' := fun h => by
      subst h
      cases ha
    have hp : a ≠ 'p' := fun h => by
      subst h
      cases ha
    simp [hc, hp]
  · rfl

theorem newline_not_mem_toDimacs (c : Clause) : '\n' ∉ (Clause.toDimacs c).toList := by
  intro h
  rcases mem_toDimacs h with h | h | h <;> cases h

/-- The words of a clause are its literals and the 0 that closes it. -/
theorem ofText?_words (h : c.IsWritable) :
    (Text.words (Clause.toDimacs c).toList).map Literal.ofText? = (c ++ [0]).map some := by
  have hzero : Literal.ofText? ['0'] = some 0 := by decide
  rw [words_toDimacs, numerals, List.map_append, List.map_append, List.map_map, List.map_singleton, hzero]
  exact congrArg (· ++ [some 0]) (List.map_congr_left fun l hl => ofText?_toString (h l hl).2)

theorem ofText?_tokens (h : ∀ c ∈ cs, c.IsWritable) :
    (tokens (cs.map fun c => (Clause.toDimacs c).toList)).map Literal.ofText? =
      (cs.flatMap (· ++ [0])).map some := by
  induction cs with
  | nil => rfl
  | cons c cs ih =>
    rw [List.forall_mem_cons] at h
    rw [List.map_cons, tokens_cons_of_held (isSkipped_toDimacs c), List.map_append,
      ofText?_words h.1, ih h.2, List.flatMap_cons, ← List.map_append]

end Dimacs

/-- What a text of some clauses is: a header with the largest of their variables and their number,
and a line for each of them, its literals with a blank behind each and the 0 that closes it. -/
def IsFormulaText (clauses : List Clause) (text : String) : Prop :=
  ∃ greatest : Int,
    IsLargest greatest (clauses.flatMap fun c => c.map fun l => (l.natAbs : Int)) ∧
      text = "p cnf " ++ toString greatest ++ " " ++ toString clauses.length ++ "\n" ++
        String.join (clauses.map fun c => String.join (c.map fun l => toString l ++ " ") ++ "0\n")

namespace Problem

open Dimacs

theorem header_eq (p : Problem) :
    p.header = "p cnf " ++ toString p.greatestVar ++ " " ++ toString (p.clauses.length : Int) :=
  rfl

theorem toDimacs_eq (p : Problem) : p.toDimacs = "p cnf " ++ toString p.greatestVar ++ " " ++
    toString p.clauses.length ++ "\n" ++
      String.join (p.clauses.map fun c => Clause.toDimacs c ++ "\n") := by
  apply String.toList_injective
  have hlength : toString (p.clauses.length : Int) = toString p.clauses.length := rfl
  rw [toDimacs, header_eq, hlength]
  simp [String.toList_join, List.flatMap_map]

theorem ofClauses_of_fits {clauses : List Clause} (h : Literal.fits (maxVar clauses) = true) :
    ofClauses clauses = .ok ⟨maxVar clauses, clauses⟩ := by
  rw [ofClauses, if_pos h]

/-- The problem of some clauses has a text that says them. -/
theorem isFormulaText (clauses : List Clause) :
    IsFormulaText clauses (toDimacs ⟨maxVar clauses, clauses⟩) := by
  have hline : (fun c => Clause.toDimacs c ++ "\n") =
      fun c : Clause => String.join (c.map fun l => toString l ++ " ") ++ "0\n" := by
    funext c
    rw [Clause.toDimacs, String.append_assoc]
    rfl
  refine ⟨maxVar clauses, isLargest_maxVar clauses, ?_⟩
  rw [toDimacs_eq, hline]

theorem newline_not_mem_header (p : Problem) : '\n' ∉ p.header.toList := by
  have hnumeral : ∀ n : Int, '\n' ∉ (toString n).toList := fun n h => by
    rcases Text.mem_numeral h with h | h <;> cases h
  rw [header_eq]
  simp [hnumeral, -Int.toString_eq_repr]

/-- A solver that reads the text of a problem finds its clauses. -/
theorem read_toDimacs {p : Problem} (h : ∀ c ∈ p.clauses, c.IsWritable) :
    read p.toDimacs = .ok p.clauses := by
  have hheader : isSkipped p.header.toList = true := by
    rw [header_eq]
    simp [isSkipped, Text.isBlank]
  have htext : p.toDimacs.toList = (p.header.toList ::
      p.clauses.map fun c => (Clause.toDimacs c).toList).flatMap (· ++ ['\n']) := by
    simp [toDimacs, String.toList_join, List.flatMap_map]
  refine read_ok htext ?_ (fun c hc => (h c hc).zero_not_mem) ?_
  · rw [List.forall_mem_cons, List.forall_mem_map]
    exact ⟨newline_not_mem_header p, fun c _ => newline_not_mem_toDimacs c⟩
  · rw [tokens_cons_of_skipped hheader, ofText?_tokens h]

end Problem
end Clausal
