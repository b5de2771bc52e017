import Clausal.Proofs.Bytes
import Clausal.Proofs.Enumeration.Blocking
import Clausal.Proofs.Solver.Answer
/-! Models as solvers report them. What a report says is what its last written line or its value
lines say together, and the literals that were written there are read back. -/
namespace Clausal

open Dimacs (numerals)

variable {c model last : Clause} {models chunks : List Clause} {line tail : List Char}
  {lines before values : List (List Char)} {seen : Bool}

/-! ## Lines of literals -/

theorem parseModel_go_numerals (h : c.IsWritable) (rest : List (List Char)) :
    parseModel.go (numerals c ++ rest) = (parseModel.go rest).map (c ++ ·) := by
  induction c with
  | nil => exact Option.map_id_apply.symm
  | cons l c ih =>
    obtain ⟨hl, hc⟩ := List.forall_mem_cons.1 h
    change parseModel.go ((toString l).toList :: (numerals c ++ rest)) = _
    rw [parseModel.go, Dimacs.ofText?_toString hl.2]
    dsimp only
    rw [if_neg hl.1, ih hc, Option.map_map]
    rfl

/-- The words of a closed line of literals are read up to the 0. -/
theorem parseModel_toDimacs (h : c.IsWritable) :
    parseModel (Clause.toDimacs c).toList = some c := by
  have hclose : parseModel.go [['0']] = some [] := by decide
  rw [parseModel, Dimacs.words_toDimacs, parseModel_go_numerals h, hclose, Option.map_some, List.append_nil]

theorem parseModel_intercalate (h : c.IsWritable) :
    parseModel ([' '].intercalate (numerals c)) = some c := by
  have hwords : Text.words ([' '].intercalate (numerals c)) = numerals c :=
    Text.words_intercalate fun w hw => Dimacs.isWord_of_mem_numerals hw
  rw [parseModel, hwords, ← List.append_nil (numerals c), parseModel_go_numerals h, parseModel.go,
    Option.map_some, List.append_nil]

/-! ## Value lines -/

/-- Whether a line is one that reports literals. -/
def isValueLine (line : List Char) : Bool :=
  ['v', ' '].isPrefixOf line

/-- The lines that report a model of some chunks and a last one: the 0 that ends it is on the last
line, which has nothing else on it where the last chunk is empty. -/
def valueLines (chunks : List Clause) (last : Clause) : List (List Char) :=
  (chunks.map fun c => [' '].intercalate (numerals c)) ++ [(Clause.toDimacs last).toList]
    |>.map ('v' :: ' ' :: ·)

theorem parseValueLines_cons_of_not (h : isValueLine line = false) :
    parseValueLines (line :: lines) seen =
      parseValueLines lines (seen || Text.trim line == ['v']) := by
  rw [parseValueLines]
  rintro values rfl
  cases h

theorem parseValueLines_value {value : List Char} (h : parseModel value = some c) :
    parseValueLines (('v' :: ' ' :: value) :: lines) seen =
      (parseValueLines lines true).map (c ++ ·) := by
  rw [parseValueLines, h]

/-- Lines in between that report no literals do not matter, and the literals on the others count one
after the other. -/
theorem parseValueLines_of_filter (hvalues : lines.filter isValueLine = values.map ('v' :: ' ' :: ·))
    (hmodels : values.map parseModel = models.map some) (hseen : seen = true ∨ values ≠ []) :
    parseValueLines lines seen = some models.flatten := by
  induction lines generalizing values models seen with
  | nil =>
    obtain rfl := List.map_eq_nil_iff.1 hvalues.symm
    obtain rfl := List.map_eq_nil_iff.1 hmodels.symm
    rw [hseen.resolve_right (absurd rfl)]
    rfl
  | cons line lines ih =>
    cases hline : isValueLine line with
    | false =>
      rw [List.filter_cons_of_neg (by simp [hline])] at hvalues
      rw [parseValueLines_cons_of_not hline]
      exact ih hvalues hmodels (hseen.imp_left (by simp [·]))
    | true =>
      obtain ⟨value, rfl⟩ := List.isPrefixOf_iff_prefix.1 hline
      rw [List.filter_cons_of_pos hline] at hvalues
      obtain ⟨value', values, rfl, heq, hrest⟩ := List.map_eq_cons_iff.1 hvalues.symm
      obtain rfl : value = value' := by simpa using heq.symm
      obtain ⟨m, ms, rfl, hm, hms⟩ := List.map_eq_cons_iff.1 hmodels.symm
      exact (parseValueLines_value hm.symm).trans
        (congrArg _ (ih hrest.symm hms.symm (.inl rfl)))

theorem parseStream_of_filter (hlines : ∀ l ∈ lines, '\n' ∉ l)
    (hvalues : lines.filter isValueLine = valueLines chunks last)
    (hmodel : Clause.IsWritable (chunks.flatten ++ last)) :
    parseStream (['\n'].intercalate lines) = some (chunks.flatten ++ last) := by
  have hne : lines ≠ [] := by
    rintro rfl
    exact absurd (congrArg List.length hvalues) (by simp [valueLines])
  have hchunks : ∀ c ∈ chunks, c.IsWritable := fun c hc l hl =>
    hmodel l (List.mem_append_left _ (List.mem_flatten.2 ⟨c, hc, hl⟩))
  have hlast : last.IsWritable := fun l hl => hmodel l (List.mem_append_right _ hl)
  have hmodels : ((chunks.map fun c => [' '].intercalate (numerals c)) ++
      [(Clause.toDimacs last).toList]).map parseModel = (chunks ++ [last]).map some := by
    rw [List.map_append, List.map_map, List.map_append, List.map_singleton,
      parseModel_toDimacs hlast, List.map_singleton]
    exact congrArg (· ++ [some last])
      (List.map_congr_left fun c hc => parseModel_intercalate (hchunks c hc))
  rw [parseStream, Text.lines_intercalate hlines hne,
    parseValueLines_of_filter hvalues hmodels (.inr (by simp)), List.flatten_concat]

/-! ## Result files -/

theorem isWritten_toDimacs (c : List Literal) : isWritten (Clause.toDimacs c).toList = true := by
  obtain ⟨a, rest, hline, ha⟩ := Dimacs.exists_toDimacs_cons c
  rw [hline, isWritten, List.any_cons, Dimacs.isBlank_eq_false ha]
  rfl

theorem isWritten_of_blank (htail : ∀ c ∈ tail, Text.isBlank c = true)
    (hline : line ∈ Text.lines tail) : isWritten line = false := by
  rw [isWritten, List.any_eq_false]
  intro c hc
  rw [htail c (Text.mem_of_mem_pieces hline hc)]
  decide

/-- The line that counts is the last written one, whatever blank lines stand behind it. -/
theorem parseResult_of_last (hlines : ∀ l ∈ before ++ [line], '\n' ∉ l)
    (hline : isWritten line = true) (htail : ∀ c ∈ tail, Text.isBlank c = true) :
    parseResult (['\n'].intercalate (before ++ [line]) ++ '\n' :: tail) = parseModel line := by
  have hblank : (Text.lines tail).reverse.find? isWritten = none :=
    List.find?_eq_none.2 fun l hl => by
      simp [isWritten_of_blank htail (List.mem_reverse.1 hl)]
  rw [parseResult, Text.lines_append_cons, Text.lines_intercalate hlines (by simp),
    List.reverse_append, List.find?_append, hblank, Option.none_or, List.reverse_concat,
    List.find?_cons_of_pos hline]

theorem parseResult_satisfiable (hmodel : model.IsWritable)
    (htail : ∀ c ∈ tail, Text.isBlank c = true) :
    parseResult ((Outcome.satisfiable model).resultText.toList ++ tail) = some model := by
  have htext : (Outcome.satisfiable model).resultText.toList ++ tail =
      ['\n'].intercalate (["SAT".toList] ++ [(Clause.toDimacs model).toList]) ++ '\n' :: tail := by
    simp [Outcome.resultText]
  have hlines : ∀ l ∈ ["SAT".toList] ++ [(Clause.toDimacs model).toList], '\n' ∉ l := by
    simpa using Dimacs.newline_not_mem_toDimacs model
  rw [htext, parseResult_of_last hlines (isWritten_toDimacs model) htail,
    parseModel_toDimacs hmodel]

theorem parseResult_unsatisfiable (htail : ∀ c ∈ tail, Text.isBlank c = true) :
    parseResult (Outcome.unsatisfiable.resultText.toList ++ tail) = none := by
  have hlines : ∀ l ∈ [] ++ ["UNSAT".toList], '\n' ∉ l := by decide
  exact (parseResult_of_last hlines rfl htail).trans (by decide)

/-! ## The search -/

theorem isWritable_completeModel {n : Int} (hn : Literal.fits n = true) (literals : List Literal) :
    Clause.IsWritable (completeModel n literals) := by
  intro l hl
  obtain ⟨x, hx, rfl⟩ := List.mem_map.1 hl
  obtain ⟨hlow, hhigh⟩ := mem_idsUpTo.1 hx
  have hfits : ∀ y : Int, y = x ∨ y = -x → y ≠ 0 ∧ Literal.fits y = true := by
    intro y hy
    rw [Literal.fits_iff] at hn ⊢
    omega
  exact hfits _ (ite_eq_or_eq ..)

theorem isWritable_search {problem : Problem} (h : Literal.fits problem.greatestVar = true)
    (hmodel : (search problem).model? = some model) : model.IsWritable := by
  rw [search] at hmodel
  split at hmodel
  · cases hmodel
    exact isWritable_completeModel h _
  · cases hmodel

theorem parseResult_search {problem : Problem} (h : Literal.fits problem.greatestVar = true)
    (htail : ∀ c ∈ tail, Text.isBlank c = true) :
    parseResult ((search problem).resultText.toList ++ tail) = (search problem).model? := by
  cases hsearch : search problem with
  | satisfiable model =>
    exact parseResult_satisfiable (isWritable_search h (by rw [hsearch]; rfl)) htail
  | unsatisfiable => exact parseResult_unsatisfiable htail

theorem ResultFile.text_of_toUTF8 {file : ResultFile} {text : String}
    (h : file.contents = .ok text.toUTF8) : file.text = .ok text := by
  have hdecode : Text.decode? text.toUTF8.toList = some text.toList := by
    rw [Text.toList_toUTF8, Text.decode?_encode]
  have htext : textOfFile (.ok text.toUTF8) = .ok text := by
    simp only [textOfFile, bind, Except.bind, hdecode, String.ofList_toList]
  rw [ResultFile.text, h, htext]
  rfl

variable {σ : Type} {launch : Launcher (StateM σ)} {file : ResultFile} {memory : σ}
  {bytes : ByteArray} {clauses : List Clause} {path : String}

/-- The search leaves its outcome in the result file. -/
theorem solveFile_search_run (hfile : file.barrier = none)
    (hread : Dimacs.readBytes bytes = .ok clauses) (hfits : Literal.fits (maxVar clauses) = true) :
    Solver.solveFile launch path (.ok bytes) .search file memory =
      ((.ok (search ⟨maxVar clauses, clauses⟩), { file with
        contents := .ok (search ⟨maxVar clauses, clauses⟩).resultText.toUTF8 }), memory) := by
  obtain ⟨name, contents, barrier⟩ := file
  subst hfile
  rw [Solver.solveFile, Solving.onFile, Dimacs.readFile, hread]
  refine (Solving.bind_of_ok rfl).trans ?_
  rw [Problem.ofClauses_of_fits hfits]
  rfl

/-- A model that is printed in chunks on value lines, with any other lines in between, is read from
the stream, and a model that is written to a result file is read from the file. What the search
leaves in its result file is read as a model just if it found one. -/
theorem reports_exact (launch : Launcher (StateM σ)) :
    (∀ (model last : Clause) chunks lines, model.IsWritable → chunks.flatten ++ last = model →
      (∀ l ∈ lines, '\n' ∉ l) → lines.filter isValueLine = valueLines chunks last →
      parseStream (['\n'].intercalate lines) = some model) ∧
    (∀ (model : Clause) tail, model.IsWritable → (∀ c ∈ tail, Text.isBlank c = true) →
      parseResult ((Outcome.satisfiable model).resultText.toList ++ tail) = some model) ∧
    (∀ tail, (∀ c ∈ tail, Text.isBlank c = true) →
      parseResult (Outcome.unsatisfiable.resultText.toList ++ tail) = none) ∧
    ∀ path bytes clauses file memory, Dimacs.readBytes bytes = .ok clauses →
      Literal.fits (maxVar clauses) = true → file.barrier = none → ∃ outcome file',
        Solver.solveFile launch path (.ok bytes) .search file memory =
          ((.ok outcome, file'), memory) ∧
        file'.text = .ok outcome.resultText ∧
        ∀ tail, (∀ c ∈ tail, Text.isBlank c = true) →
          parseResult (outcome.resultText.toList ++ tail) = outcome.model? := by
  refine ⟨?_, fun _ _ hmodel htail => parseResult_satisfiable hmodel htail,
    fun _ htail => parseResult_unsatisfiable htail, ?_⟩
  · rintro _ last chunks lines hmodel rfl hlines hvalues
    exact parseStream_of_filter hlines hvalues hmodel
  · intro path bytes clauses file memory hread hfits hfile
    exact ⟨_, _, solveFile_search_run hfile hread hfits, ResultFile.text_of_toUTF8 rfl,
      fun _ htail => parseResult_search hfits htail⟩

theorem reports_exact_chunks :
    parseStream "c 1\nv 1 -2\nv \nv\ns OK\nv 3 0\n".toList = some [1, -2, 3] ∧
    parseResult "SAT\n1 -2 3 0\n \n".toList = some [1, -2, 3] ∧
    parseResult "UNSAT\n\n".toList = none ∧
    ∃ outcome file', Solver.solveFile (m := StateM Unit) (fun _ _ => pure (.error .notText)) "f"
      (.ok "1 0".toUTF8) .search .temporary () = ((.ok outcome, file'), ()) ∧
      file'.text = .ok outcome.resultText := by
  have hmodel : Clause.IsWritable [1, -2, 3] := by
    unfold Clause.IsWritable
    decide
  have htext : "c 1\nv 1 -2\nv \nv\ns OK\nv 3 0\n".toList = ['\n'].intercalate
      ["c 1".toList, "v 1 -2".toList, "v ".toList, "v".toList, "s OK".toList, "v 3 0".toList, []] := by
    decide
  have hread : Dimacs.readBytes "1 0".toUTF8 = .ok [[1]] := by
    rw [Dimacs.readBytes_toUTF8]
    decide
  have hreports := reports_exact (σ := Unit) fun _ _ => pure (.error .notText)
  refine ⟨?_, hreports.2.1 _ [' ', '\n'] hmodel (by simp [Text.isBlank]),
    hreports.2.2.1 ['\n'] (by simp [Text.isBlank]), ?_⟩
  · rw [htext]
    exact hreports.1 _ [3] [[1, -2], []] _ hmodel rfl (by decide) (by decide)
  · obtain ⟨outcome, file', hrun, hwritten, -⟩ :=
      hreports.2.2.2 "f" _ _ .temporary () hread (by decide) rfl
    exact ⟨outcome, file', hrun, hwritten⟩

end Clausal
