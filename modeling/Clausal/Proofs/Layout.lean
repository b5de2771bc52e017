import Clausal.Proofs.Reading
/-! Layouts of a formula text. What is read of a text is a function of its words alone, so clauses
that are written out are read back however their lines are broken, and whatever lines without words
stand in between. -/
namespace Clausal.Dimacs

variable {lines : List (List Char)} {line word : List Char} {cs : List Clause} {pending : Clause}
  {r : Reader} {n : Nat} {e : Error}

/-! ## Words -/

/-- Whether a line holds words of clauses: there is something on it, and it starts like neither a
comment nor a header. -/
def isHeld (line : List Char) : Bool :=
  match Text.trim line with
  | [] => false
  | c :: _ => c != 'c' && c != 'p'

/-- The words of the lines that hold any, in a row. -/
def heldWords (lines : List (List Char)) : List (List Char) :=
  (lines.filter isHeld).flatMap Text.words

theorem isHeld_eq (line : List Char) : isHeld line = !isSkipped line := by
  rw [isHeld, isSkipped, Text.trim]
  cases hdrop : line.dropWhile Text.isBlank with
  | nil => rfl
  | cons c rest =>
    have hc : Text.isBlank c = false := by
      have hhead := List.head_dropWhile_not Text.isBlank (l := line) (by simp [hdrop])
      simpa [hdrop] using hhead
    rw [Text.trimEnd_cons hc]
    simp [bne]

theorem heldWords_eq (lines : List (List Char)) : heldWords lines = tokens lines := by
  rw [heldWords, tokens, funext isHeld_eq]

/-! ## Clauses -/

/-- The clauses that some numbers spell: each 0 ends one, and what is behind the last 0 is one more
if there is anything. -/
def splitAtZeros (ls : List Literal) : List Clause :=
  let parts := ls.splitOn 0
  if parts.getLast? = some [] then parts.dropLast else parts

theorem splitOn_zero (hcs : ∀ c ∈ cs, 0 ∉ c) (hpending : 0 ∉ pending) :
    (cs.flatMap (· ++ [0]) ++ pending).splitOn 0 = cs ++ [pending] := by
  induction cs with
  | nil => rw [List.flatMap_nil, List.nil_append, List.splitOn_eq_singleton hpending]; rfl
  | cons c cs ih =>
    rw [List.forall_mem_cons] at hcs
    rw [List.flatMap_cons, List.append_assoc, List.append_assoc, List.singleton_append,
      List.splitOn_append_cons_self_of_not_mem hcs.1, ih hcs.2, List.cons_append]

/-- What a reader makes of some numbers is what splitting them makes. -/
theorem clauses_foldl_push_eq (ls : List Literal) :
    (ls.foldl Reader.push {}).clauses = splitAtZeros ls := by
  obtain ⟨cs, pending, rfl, hcs, hpending⟩ := exists_closed_pending ls
  rw [clauses_foldl_push_finished {} hcs hpending, Reader.join_of_closed rfl, splitAtZeros,
    splitOn_zero hcs hpending]
  simp [finished, Reader.clauses]

theorem read_eq_ok_iff (text : String) : read text = .ok cs ↔
    ∃ ls : List Literal, (heldWords (Text.lines text.toList)).map Literal.ofText? = ls.map some ∧
      splitAtZeros ls = cs := by
  rw [heldWords_eq, read_eq_map]
  constructor
  · intro h
    cases hr : readerOf text with
    | error e =>
      rw [hr] at h
      cases h
    | ok r =>
      rw [hr] at h
      cases h
      obtain ⟨ls, hls, rfl⟩ := readLines_eq_ok_iff.1 hr
      exact ⟨ls, hls, (clauses_foldl_push_eq ls).symm⟩
  · rintro ⟨ls, hls, rfl⟩
    rw [readerOf, readLines_ok hls, ← clauses_foldl_push_eq]
    rfl

/-! ## Failures -/

/-- Line `n` is the first one that holds a word which is no number, and `word` is the first of them. -/
def IsFirstGarbled (lines : List (List Char)) (n : Nat) (word : List Char) : Prop :=
  ∃ before line after, lines = before ++ line :: after ∧ n = before.length + 1 ∧
    (∀ w ∈ heldWords before, Literal.ofText? w ≠ none) ∧ isHeld line = true ∧
    ∃ good bad, Text.words line = good ++ word :: bad ∧
      (∀ w ∈ good, Literal.ofText? w ≠ none) ∧ Literal.ofText? word = none

theorem exists_first {α : Type*} {p : α → Prop} [DecidablePred p] {xs : List α}
    (h : ∃ x ∈ xs, p x) : ∃ good x bad, xs = good ++ x :: bad ∧ (∀ y ∈ good, ¬ p y) ∧ p x := by
  have hsome : (xs.find? fun x => decide (p x)).isSome = true := by
    simpa [List.find?_isSome] using h
  obtain ⟨x, hfind⟩ := Option.isSome_iff_exists.1 hsome
  obtain ⟨hp, good, bad, rfl, hgood⟩ := List.find?_eq_some_iff_append.1 hfind
  exact ⟨good, x, bad, rfl, by simpa using hgood, by simpa using hp⟩

theorem exists_isFirstGarbled (h : ∃ w ∈ heldWords lines, Literal.ofText? w = none) :
    ∃ n word, IsFirstGarbled lines n word := by
  have hline : ∃ l ∈ lines, isHeld l = true ∧ ∃ w ∈ Text.words l, Literal.ofText? w = none := by
    obtain ⟨w, hw, hnone⟩ := h
    obtain ⟨l, hl, hwl⟩ := List.mem_flatMap.1 hw
    obtain ⟨hl, hheld⟩ := List.mem_filter.1 hl
    exact ⟨l, hl, hheld, w, hwl, hnone⟩
  obtain ⟨before, line, after, rfl, hbefore, hheld, hword⟩ := exists_first hline
  obtain ⟨good, word, bad, hwords, hgood, hnone⟩ := exists_first hword
  refine ⟨_, word, before, line, after, rfl, rfl, fun w hw hbad => ?_, hheld, good, bad, hwords,
    hgood, hnone⟩
  obtain ⟨l, hl, hwl⟩ := List.mem_flatMap.1 hw
  obtain ⟨hl, hheldl⟩ := List.mem_filter.1 hl
  exact hbefore l hl ⟨hheldl, w, hwl, hbad⟩

theorem exists_numbers {ws : List (List Char)} (h : ∀ w ∈ ws, Literal.ofText? w ≠ none) :
    ∃ ls : List Literal, ws.map Literal.ofText? = ls.map some := by
  refine ⟨ws.map fun w => (Literal.ofText? w).getD 0, ?_⟩
  rw [List.map_map]
  refine List.map_congr_left fun w hw => ?_
  obtain ⟨l, hl⟩ := Option.ne_none_iff_exists'.1 (h w hw)
  simp [hl]

theorem readWords_garbled {good bad : List (List Char)}
    (hgood : ∀ w ∈ good, Literal.ofText? w ≠ none) (hword : Literal.ofText? word = none) :
    r.readWords n (good ++ word :: bad) =
      .error (.malformed n (.notLiteral (String.ofList word))) := by
  induction good generalizing r with
  | nil => rw [List.nil_append, Reader.readWords, hword]
  | cons w good ih =>
    rw [List.forall_mem_cons] at hgood
    obtain ⟨l, hl⟩ := Option.ne_none_iff_exists'.1 hgood.1
    rw [List.cons_append, Reader.readWords, hl]
    exact ih hgood.2

/-- Reading stops at the first word that is no number. -/
theorem IsFirstGarbled.read_eq {text : String}
    (h : IsFirstGarbled (Text.lines text.toList) n word) :
    read text = .error (.malformed n (.notLiteral (String.ofList word))) := by
  obtain ⟨before, line, after, hlines, rfl, hbefore, hheld, good, bad, hwords, hgood, hword⟩ := h
  obtain ⟨ls, hls⟩ := exists_numbers hbefore
  rw [heldWords_eq] at hls
  have hskipped : isSkipped line = false := by simpa [isHeld_eq] using hheld
  rw [read_eq_map, readerOf, hlines, List.map_append, readLines_append, readLines_ok hls,
    List.length_map, Nat.add_comm 1]
  change (readLines (before.length + 1) _ (some line :: after.map some)).map _ = _
  rw [readLines, hskipped, hwords, readWords_garbled hgood hword]
  rfl

theorem read_eq_error_iff (text : String) : read text = .error e ↔
    ∃ n word, IsFirstGarbled (Text.lines text.toList) n word ∧
      e = .malformed n (.notLiteral (String.ofList word)) := by
  constructor
  · intro h
    by_cases hall : ∀ w ∈ heldWords (Text.lines text.toList), Literal.ofText? w ≠ none
    · obtain ⟨ls, hls⟩ := exists_numbers hall
      rw [(read_eq_ok_iff text).2 ⟨ls, hls, rfl⟩] at h
      cases h
    · push Not at hall
      obtain ⟨n, word, hfirst⟩ := exists_isFirstGarbled hall
      rw [hfirst.read_eq] at h
      exact ⟨n, word, hfirst, (Except.error.inj h).symm⟩
  · rintro ⟨n, word, hfirst, rfl⟩
    exact hfirst.read_eq

/-! ## Layouts -/

/-- Lines on which clauses are written out: one line for each at first, then with any lines that
hold no words put in, and with lines that do broken at blanks and joined again. -/
inductive Layout (cs : List Clause) : List (List Char) → Prop
  | written : Layout cs (cs.map fun c => (Clause.toDimacs c).toList)
  | inserted {before after : List (List Char)} {line : List Char} :
      Layout cs (before ++ after) → isHeld line = false → '\n' ∉ line →
      Layout cs (before ++ line :: after)
  | broken {before after : List (List Char)} {s t : List Char} :
      Layout cs (before ++ (s ++ ' ' :: t) :: after) → isHeld (s ++ ' ' :: t) = true →
      Layout cs (before ++ s :: t :: after)
  | joined {before after : List (List Char)} {s t : List Char} :
      Layout cs (before ++ s :: t :: after) → isHeld s = true → isHeld t = true →
      Layout cs (before ++ (s ++ ' ' :: t) :: after)

theorem heldWords_append (ls ms : List (List Char)) :
    heldWords (ls ++ ms) = heldWords ls ++ heldWords ms := by
  simp [heldWords]

theorem heldWords_cons (line : List Char) (lines : List (List Char)) :
    heldWords (line :: lines) = heldWords [line] ++ heldWords lines :=
  heldWords_append [line] lines

theorem heldWords_of_held (h : isHeld line = true) : heldWords [line] = Text.words line := by
  simp [heldWords, h]

theorem heldWords_of_not_held (h : isHeld line = false) : heldWords [line] = [] := by
  simp [heldWords, h]

/-- A line of numbers holds all its words: one that is not held has none, or starts with a letter. -/
theorem heldWords_of_numbers (h : ∀ w ∈ Text.words line, Literal.ofText? w ≠ none) :
    heldWords [line] = Text.words line := by
  cases hheld : isHeld line with
  | true => exact heldWords_of_held hheld
  | false =>
    rw [heldWords_of_not_held hheld]
    rw [isHeld_eq, isSkipped] at hheld
    rw [← Text.words_dropWhile] at h ⊢
    cases hdrop : line.dropWhile Text.isBlank with
    | nil => rfl
    | cons c rest =>
      rw [hdrop] at h hheld
      have hletter : c = 'c' ∨ c = 'p' := by simpa [or_iff_not_imp_left] using hheld
      have hc : Text.isBlank c = false := by rcases hletter with rfl | rfl <;> rfl
      obtain ⟨piece, others, hwords⟩ := Text.exists_words_cons hc rest
      have hnumber := h (c :: piece) (hwords ▸ List.mem_cons_self)
      rcases hletter with rfl | rfl <;> exact absurd rfl hnumber

theorem ofText?_heldWords_written (hcs : ∀ c ∈ cs, c.IsWritable) :
    (heldWords (cs.map fun c => (Clause.toDimacs c).toList)).map Literal.ofText? =
      (cs.flatMap (· ++ [0])).map some := by
  rw [heldWords_eq, ofText?_tokens hcs]

/-- No step of a layout adds, drops or moves a word. -/
theorem Layout.heldWords_eq (hcs : ∀ c ∈ cs, c.IsWritable) (h : Layout cs lines) :
    heldWords lines = heldWords (cs.map fun c => (Clause.toDimacs c).toList) := by
  have hnumbers : ∀ w ∈ heldWords (cs.map fun c => (Clause.toDimacs c).toList),
      Literal.ofText? w ≠ none := fun w hw => by
    have hmem := List.mem_map_of_mem (f := Literal.ofText?) hw
    rw [ofText?_heldWords_written hcs] at hmem
    obtain ⟨l, -, hl⟩ := List.mem_map.1 hmem
    exact hl ▸ Option.some_ne_none l
  induction h with
  | written => rfl
  | inserted _ hheld _ ih =>
    rw [heldWords_append, heldWords_cons, heldWords_of_not_held hheld, List.nil_append,
      ← heldWords_append, ih]
  | @broken before after s t _ hheld ih =>
    have hwords : Text.words (s ++ ' ' :: t) = Text.words s ++ Text.words t :=
      Text.words_append_cons rfl s t
    rw [heldWords_append, heldWords_cons, heldWords_of_held hheld, hwords] at ih
    rw [← ih] at hnumbers
    simp only [List.forall_mem_append] at hnumbers
    rw [heldWords_append, heldWords_cons, heldWords_cons t, heldWords_of_numbers hnumbers.2.1.1,
      heldWords_of_numbers hnumbers.2.1.2, ← ih, List.append_assoc]
  | @joined before after s t _ hs ht ih =>
    have hwords : Text.words (s ++ ' ' :: t) = Text.words s ++ Text.words t :=
      Text.words_append_cons rfl s t
    rw [heldWords_append, heldWords_cons, heldWords_cons t, heldWords_of_held hs,
      heldWords_of_held ht] at ih
    rw [← ih] at hnumbers
    simp only [List.forall_mem_append] at hnumbers
    have hjoined : ∀ w ∈ Text.words (s ++ ' ' :: t), Literal.ofText? w ≠ none := by
      rw [hwords, List.forall_mem_append]
      exact ⟨hnumbers.2.1, hnumbers.2.2.1⟩
    rw [heldWords_append, heldWords_cons, heldWords_of_numbers hjoined, hwords, ← ih,
      List.append_assoc]

theorem newline_not_mem_append {s t : List Char} :
    '\n' ∉ s ++ ' ' :: t ↔ '\n' ∉ s ∧ '\n' ∉ t := by
  have hblank : '\n' ≠ ' ' := by decide
  rw [List.mem_append, List.mem_cons, or_iff_right hblank, not_or]

theorem Layout.newline_not_mem (h : Layout cs lines) : ∀ l ∈ lines, '\n' ∉ l := by
  induction h with
  | written => exact List.forall_mem_map.2 fun c _ => newline_not_mem_toDimacs c
  | inserted _ _ hnewline ih =>
    rw [List.forall_mem_append] at ih
    rw [List.forall_mem_append, List.forall_mem_cons]
    exact ⟨ih.1, hnewline, ih.2⟩
  | broken _ _ ih =>
    rw [List.forall_mem_append, List.forall_mem_cons, newline_not_mem_append] at ih
    rw [List.forall_mem_append, List.forall_mem_cons, List.forall_mem_cons]
    exact ⟨ih.1, ih.2.1.1, ih.2.1.2, ih.2.2⟩
  | joined _ _ _ ih =>
    rw [List.forall_mem_append, List.forall_mem_cons, List.forall_mem_cons] at ih
    rw [List.forall_mem_append, List.forall_mem_cons, newline_not_mem_append]
    exact ⟨ih.1, ⟨ih.2.1, ih.2.2.1⟩, ih.2.2.2⟩

theorem Layout.read_eq {text : String} (hcs : ∀ c ∈ cs, c.IsWritable) (h : Layout cs lines)
    (htext : text.toList = ['\n'].intercalate lines) : read text = .ok cs := by
  have hzero : ∀ c ∈ cs, 0 ∉ c := fun c hc => (hcs c hc).zero_not_mem
  have hlines : heldWords (Text.lines text.toList) = heldWords lines := by
    cases lines with
    | nil => rw [htext]; rfl
    | cons l ls => rw [htext, Text.lines_intercalate h.newline_not_mem (List.cons_ne_nil l ls)]
  refine (read_eq_ok_iff text).2 ⟨cs.flatMap (· ++ [0]), ?_, ?_⟩
  · rw [hlines, h.heldWords_eq hcs, ofText?_heldWords_written hcs]
  · rw [← clauses_foldl_push_eq, clauses_push_closed hzero, Reader.join_of_closed rfl]
    rfl

/-- What a text is read as depends on the words of the lines that hold any, and on nothing else.
Only the place of a word that is no number tells where the lines end. -/
theorem readBytes_exact (text : String) :
    (∀ cs, readBytes text.toUTF8 = .ok cs ↔
      ∃ ls : List Literal,
        (heldWords (Text.lines text.toList)).map Literal.ofText? = ls.map some ∧
          splitAtZeros ls = cs) ∧
    (∀ e, readBytes text.toUTF8 = .error e ↔
      ∃ n word, IsFirstGarbled (Text.lines text.toList) n word ∧
        e = .malformed n (.notLiteral (String.ofList word))) ∧
    ∀ cs lines, (∀ c ∈ cs, c.IsWritable) → Layout cs lines →
      text.toList = ['\n'].intercalate lines → readBytes text.toUTF8 = .ok cs := by
  rw [readBytes_toUTF8]
  exact ⟨fun _ => read_eq_ok_iff text, fun _ => read_eq_error_iff text,
    fun _ _ hcs hlayout htext => hlayout.read_eq hcs htext⟩

theorem layout_comment : Layout [[1, -2], []] ["1".toList, "c n".toList, "-2 0 0".toList] := by
  have hwritten : Layout [[1, -2], []] ["1 -2 0".toList, "0".toList] := .written
  have hjoined : Layout [[1, -2], []] ["1 -2 0 0".toList] :=
    @Layout.joined _ [] [] _ _ hwritten rfl rfl
  have hbroken : Layout [[1, -2], []] ["1".toList, "-2 0 0".toList] :=
    @Layout.broken _ [] [] _ _ hjoined rfl
  exact @Layout.inserted _ ["1".toList] _ _ hbroken rfl (by decide)

theorem readBytes_exact_comment :
    readBytes "1\nc n\n-2 0 0".toUTF8 = .ok [[1, -2], []] ∧
    readBytes "c\n1 x 0\ny".toUTF8 = .error (.malformed 2 (.notLiteral "x")) := by
  have hcs : ∀ c ∈ ([[1, -2], []] : List Clause), c.IsWritable := by
    unfold Clause.IsWritable
    decide
  have hgarbled : IsFirstGarbled (Text.lines "c\n1 x 0\ny".toList) 2 ['x'] := by
    refine ⟨["c".toList], "1 x 0".toList, ["y".toList], by decide, rfl, by decide, by decide,
      ["1".toList], ["0".toList], by decide, by decide, by decide⟩
  exact ⟨(readBytes_exact _).2.2 _ _ hcs layout_comment (by decide),
    ((readBytes_exact _).2.1 _).2 ⟨2, ['x'], hgarbled, rfl⟩⟩

end Clausal.Dimacs
