import Clausal.Proofs.Bytes
/-! Texts that are read one after the other. A reader takes in numbers and nothing else of a text,
and what it makes of them depends on what came before only in so far as their first clause may go on
with one that is still open. -/
namespace Clausal.Dimacs

variable {r r' : Reader} {line : Nat} {words : List (List Char)} {lines : List (List Char)}
  {ls : List Literal} {cs ds : List Clause}

/-! ## Numbers -/

/-- Words are read just if all of them are literals. -/
theorem readWords_eq_ok_iff : r.readWords line words = .ok r' ↔
    ∃ ls : List Literal, words.map Literal.ofText? = ls.map some ∧ ls.foldl Reader.push r = r' := by
  constructor
  · intro h
    induction words generalizing r with
    | nil =>
      cases h
      exact ⟨[], rfl, rfl⟩
    | cons word words ih =>
      rw [Reader.readWords] at h
      split at h
      · cases h
      · rename_i l hl
        obtain ⟨ls, hls, rfl⟩ := ih h
        exact ⟨l :: ls, by rw [List.map_cons, hl, hls, List.map_cons], rfl⟩
  · rintro ⟨ls, hls, rfl⟩
    exact readWords_ok hls

/-- Lines are read just if all words of those that hold clauses are literals. -/
theorem readLines_eq_ok_iff : readLines line r (lines.map some) = .ok r' ↔
    ∃ ls : List Literal, (tokens lines).map Literal.ofText? = ls.map some ∧
      ls.foldl Reader.push r = r' := by
  constructor
  · intro h
    induction lines generalizing line r with
    | nil =>
      cases h
      exact ⟨[], rfl, rfl⟩
    | cons l lines ih =>
      rw [List.map_cons, readLines] at h
      cases hskipped : isSkipped l with
      | true =>
        rw [if_pos hskipped] at h
        rw [tokens_cons_of_skipped hskipped]
        exact ih h
      | false =>
        rw [if_neg (by simp [hskipped])] at h
        rw [tokens_cons_of_held hskipped, List.map_append]
        split at h
        · cases h
        · rename_i r₁ hwords
          obtain ⟨first, hfirst, rfl⟩ := readWords_eq_ok_iff.1 hwords
          obtain ⟨rest, hrest, rfl⟩ := ih h
          exact ⟨first ++ rest, by rw [hfirst, hrest, List.map_append], List.foldl_append⟩
  · rintro ⟨ls, hls, rfl⟩
    exact readLines_ok hls

/-- Numbers are some closed clauses and an open one behind them. -/
theorem exists_closed_pending (ls : List Literal) : ∃ (cs : List Clause) (pending : Clause),
    ls = cs.flatMap (· ++ [0]) ++ pending ∧ (∀ c ∈ cs, 0 ∉ c) ∧ 0 ∉ pending := by
  induction ls with
  | nil => exact ⟨[], [], rfl, by simp, by simp⟩
  | cons l ls ih =>
    obtain ⟨cs, pending, rfl, hcs, hpending⟩ := ih
    by_cases hl : l = 0
    · subst hl
      exact ⟨[] :: cs, pending, rfl, by simpa using hcs, hpending⟩
    · have hl' : (0 : Literal) ≠ l := Ne.symm hl
      cases cs with
      | nil => exact ⟨[], l :: pending, rfl, by simp, by simp [hl', hpending]⟩
      | cons c cs =>
        rw [List.forall_mem_cons] at hcs
        exact ⟨(l :: c) :: cs, pending, rfl,
          List.forall_mem_cons.2 ⟨by simp [hl', hcs.1], hcs.2⟩, hpending⟩

/-- The clauses that some closed clauses and an open one are. The open one counts if it has a
literal. -/
def finished (cs : List Clause) (pending : Clause) : List Clause :=
  if pending = [] then cs else cs ++ [pending]

theorem clauses_foldl_push_finished {cs : List Clause} {pending : Clause} (r : Reader)
    (hcs : ∀ c ∈ cs, 0 ∉ c) (hpending : 0 ∉ pending) :
    ((cs.flatMap (· ++ [0]) ++ pending).foldl Reader.push r).clauses =
      r.join (finished cs pending) := by
  rw [List.foldl_append]
  cases cs with
  | nil =>
    rw [List.flatMap_nil, List.foldl_nil, push_pending _ _ hpending]
    cases pending <;> simp [finished, Reader.clauses, Reader.join]
  | cons c cs =>
    rw [List.forall_mem_cons] at hcs
    rw [List.flatMap_cons, List.foldl_append, List.foldl_append, push_pending _ _ hcs.1,
      List.foldl_cons, List.foldl_nil, Reader.push, if_pos rfl, push_closed _ hcs.2,
      push_pending _ _ hpending]
    cases pending <;> simp [finished, Reader.clauses, Reader.join]

/-- What a reader has after some numbers are the clauses that the numbers alone make, read on. -/
theorem clauses_foldl_push (r : Reader) (ls : List Literal) :
    (ls.foldl Reader.push r).clauses = r.join (ls.foldl Reader.push {}).clauses := by
  obtain ⟨cs, pending, rfl, hcs, hpending⟩ := exists_closed_pending ls
  rw [clauses_foldl_push_finished r hcs hpending, clauses_foldl_push_finished {} hcs hpending,
    Reader.join_of_closed (r := {}) rfl]
  rfl

theorem join_foldl_push (r : Reader) (ls : List Literal) (hcs : ∀ c ∈ cs, 0 ∉ c) :
    (ls.foldl Reader.push r).join cs = r.join ((ls.foldl Reader.push {}).join cs) := by
  rw [← clauses_push_closed hcs, ← clauses_push_closed hcs, ← List.foldl_append,
    ← List.foldl_append, clauses_foldl_push]

/-! ## Joints -/

/-- A clause that goes on with an open one is one with it. -/
theorem Reader.length_join (r : Reader) (cs : List Clause) : r.clauses.length + cs.length =
    (r.join cs).length + if r.pending = [] ∨ cs = [] then 0 else 1 := by
  cases cs with
  | nil => simp [join]
  | cons c cs =>
    cases hpending : r.pending with
    | nil =>
      simp [join, clauses, hpending]
    | cons l pending =>
      simp [join, clauses, hpending]
      omega

/-- Clauses that are read on stay apart from those before, unless one of these is still open. -/
theorem Reader.join_eq_append_iff : r.join cs = r.clauses ++ cs ↔ r.pending = [] ∨ cs = [] := by
  constructor
  · intro h
    by_contra hopen
    have hlength := r.length_join cs
    rw [h, if_neg hopen, List.length_append] at hlength
    omega
  · rintro (hclosed | rfl)
    · exact join_of_closed hclosed cs
    · exact (List.append_nil _).symm

/-- Two joints in a row leave all clauses apart just if each of them does. -/
theorem Reader.join_join_eq_append_iff : r.join (r'.join cs) = r.clauses ++ r'.clauses ++ cs ↔
    (r.pending = [] ∨ r'.clauses = [] ∧ cs = []) ∧ (r'.pending = [] ∨ cs = []) := by
  have hsplit : r.join (r'.join cs) = r.clauses ++ r'.clauses ++ cs ↔
      r.join (r'.join cs) = r.clauses ++ r'.join cs ∧ r'.join cs = r'.clauses ++ cs := by
    constructor
    · intro h
      -- No joint gains a clause, so none may lose one.
      have hlength := congrArg List.length h
      have houter := r.length_join (r'.join cs)
      have hinner := r'.length_join cs
      simp only [List.length_append] at hlength
      have hapart : r'.join cs = r'.clauses ++ cs :=
        join_eq_append_iff.2 (by by_contra hopen; rw [if_neg hopen] at hinner; omega)
      rw [h, hapart, List.append_assoc]
      exact ⟨rfl, rfl⟩
    · rintro ⟨houter, hinner⟩
      rw [houter, hinner, List.append_assoc]
  rw [hsplit, join_eq_append_iff, join_eq_append_iff]
  refine and_congr_left fun hinner => or_congr_right ?_
  rw [join_eq_append_iff.2 hinner, List.append_eq_nil_iff]

/-- Further numbers change nothing just if there are none, or a 0 closes the clause that is open. -/
theorem clauses_foldl_push_eq_iff : (ls.foldl Reader.push r).clauses = r.clauses ↔
    ls = [] ∨ r.pending ≠ [] ∧ ls = [0] := by
  constructor
  · intro h
    obtain ⟨cs, pending, rfl, hcs, hpending⟩ := exists_closed_pending ls
    rw [clauses_foldl_push_finished r hcs hpending] at h
    have hlength := r.length_join (finished cs pending)
    rw [h, Nat.add_left_cancel_iff] at hlength
    split at hlength
    · have hnone := List.eq_nil_of_length_eq_zero hlength
      rw [finished] at hnone
      split at hnone
      · exact .inl (by simp [hnone, ‹pending = []›])
      · simp at hnone
    · rename_i hopen
      rw [not_or] at hopen
      obtain ⟨c, hone⟩ := List.length_eq_one_iff.1 hlength
      obtain rfl : c = [] := by simpa [hone, Reader.join, Reader.clauses, hopen.1] using h
      rw [finished] at hone
      split at hone
      · exact .inr ⟨hopen.1, by simp [hone, ‹pending = []›]⟩
      · have hlast : pending = [] := by simpa using congrArg List.getLast? hone
        exact absurd hlast ‹_›
  · rintro (rfl | ⟨hopen, rfl⟩)
    · rfl
    · simp [Reader.push, Reader.clauses, hopen]

/-! ## Texts -/

theorem lines_append_of_not_mem {run : List Char} (h : '\n' ∉ run) (text : List Char) :
    Text.lines (run ++ text) = (Text.lines text).modifyHead (run ++ ·) :=
  Text.pieces_append_of_forall fun c hc => by simpa using fun heq : c = '\n' => h (heq ▸ hc)

/-- Of a comment a reader sees what is behind its first line feed. -/
theorem tokens_comment (text : List Char) :
    tokens (Text.lines ('c' :: ' ' :: text)) = tokens (Text.lines text).tail := by
  obtain ⟨first, others, hlines⟩ :=
    List.exists_cons_of_ne_nil (Text.pieces_ne_nil (· == '\n') text)
  have hmark : '\n' ∉ ['c', ' '] := by decide
  have hskipped : isSkipped (['c', ' '] ++ first) = true := rfl
  rw [show 'c' :: ' ' :: text = ['c', ' '] ++ text from rfl, lines_append_of_not_mem hmark,
    Text.lines, hlines, List.modifyHead_cons, tokens_cons_of_skipped hskipped, List.tail_cons]

/-- A line feed at the end of a text adds no words. -/
theorem tokens_append_newline (text : List Char) :
    tokens (Text.lines (text ++ ['\n'])) = tokens (Text.lines text) := by
  have hlast : tokens (Text.lines []) = [] := rfl
  rw [Text.lines_append_cons, tokens_append, hlast, List.append_nil]

/-- Behind ended lines come the words of a text by themselves. -/
theorem tokens_append_of_endsLine {text : String} (h : EndsLine text) (more : String) :
    tokens (Text.lines (text ++ more).toList) =
      tokens (Text.lines text.toList) ++ tokens (Text.lines more.toList) := by
  rcases h with rfl | ⟨body, hbody⟩
  · rw [String.empty_append]
    rfl
  · rw [String.toList_append, hbody, List.append_assoc, List.singleton_append,
      Text.lines_append_cons, tokens_append, tokens_append_newline]

/-- Clauses that are closed in the middle of some numbers are read, but the first of them may go on
with one that is open. -/
theorem mem_clauses_foldl_push {before after : List Literal} (hcs : ∀ c ∈ cs, 0 ∉ c) (r : Reader) :
    ∀ c ∈ cs.tail, c ∈ ((before ++ cs.flatMap (· ++ [0]) ++ after).foldl Reader.push r).clauses := by
  intro c hc
  cases cs with
  | nil => cases hc
  | cons first cs =>
    rw [List.forall_mem_cons] at hcs
    rw [List.foldl_append, List.foldl_append, List.flatMap_cons, List.foldl_append,
      List.foldl_append, push_pending _ _ hcs.1, List.foldl_cons, List.foldl_nil, Reader.push,
      if_pos rfl, push_closed _ hcs.2, clauses_foldl_push, Reader.join_of_closed rfl]
    have hc : c ∈ cs := hc
    exact List.mem_append_left _ (by simp [Reader.clauses, hc])

theorem mem_read_of_closed {before middle after : String} (hbefore : EndsLine before)
    (hmiddle : EndsLine (before ++ middle)) (hcs : ∀ c ∈ cs, 0 ∉ c)
    (htokens : (tokens (Text.lines middle.toList)).map Literal.ofText? =
      (cs.flatMap (· ++ [0])).map some)
    (h : read (before ++ middle ++ after) = .ok ds) : ∀ c ∈ cs.tail, c ∈ ds := by
  rw [read_eq_map] at h
  cases hr : readerOf (before ++ middle ++ after) with
  | error e =>
    rw [hr] at h
    cases h
  | ok r =>
    rw [hr] at h
    obtain rfl : r.clauses = ds := Except.ok.inj h
    obtain ⟨ls, hls, rfl⟩ := readLines_eq_ok_iff.1 hr
    rw [tokens_append_of_endsLine hmiddle, tokens_append_of_endsLine hbefore, List.map_append,
      List.map_append, htokens, eq_comm, List.map_eq_append_iff] at hls
    obtain ⟨front, last, rfl, hfront, -⟩ := hls
    obtain ⟨first, middle, rfl, -, hmiddle⟩ := List.map_eq_append_iff.1 hfront
    obtain rfl := List.map_injective_iff.2 (fun _ _ h => Option.some.inj h) hmiddle
    exact mem_clauses_foldl_push hcs {}

/-- Behind ended lines, a text is read on as numbers. -/
theorem readerOf_append_eq_ok_iff {text : String} (h : EndsLine text) (hr : readerOf text = .ok r)
    (more : String) : readerOf (text ++ more) = .ok r' ↔ ∃ ls : List Literal,
      (tokens (Text.lines more.toList)).map Literal.ofText? = ls.map some ∧
        ls.foldl Reader.push r = r' := by
  obtain ⟨line, hread⟩ := readerOf_append h hr more
  rw [hread, readLines_eq_ok_iff]

end Clausal.Dimacs
