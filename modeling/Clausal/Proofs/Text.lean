import Clausal.Dimacs
import Mathlib.Data.List.Basic
/-! Lines, words and numerals as they are written, and how they are found again. -/
namespace Clausal.Text

variable {α : Type*} {p : α → Bool} {a : α} {run s : List α}

/-! ## Pieces -/

theorem pieces_eq_splitOnP (p : α → Bool) (s : List α) : pieces p s = s.splitOnP p := by
  induction s with
  | nil => rw [pieces_nil, List.splitOnP_nil]
  | cons a s ih =>
    obtain ⟨piece, others, hpieces⟩ := List.exists_cons_of_ne_nil (pieces_ne_nil p s)
    rw [pieces_cons, List.splitOnP_cons_eq_if_modifyHead, ← ih, hpieces]
    rfl

/-- A separator ends the pieces before it. -/
theorem pieces_append_cons (ha : p a = true) (run s : List α) :
    pieces p (run ++ a :: s) = pieces p run ++ pieces p s := by
  simpa only [pieces_eq_splitOnP] using List.splitOnP_append_cons run s ha

theorem pieces_eq_singleton (hrun : ∀ b ∈ run, p b = false) : pieces p run = [run] := by
  rw [pieces_eq_splitOnP, List.splitOnP_eq_singleton hrun]

theorem mem_of_mem_pieces {piece : List α} (h : piece ∈ pieces p s) (ha : a ∈ piece) : a ∈ s := by
  induction s generalizing piece with
  | nil =>
    rw [pieces_nil, List.mem_singleton] at h
    exact h ▸ ha
  | cons b s ih =>
    obtain ⟨first, others, hpieces⟩ := List.exists_cons_of_ne_nil (pieces_ne_nil p s)
    rw [hpieces] at ih
    rw [pieces_cons, hpieces] at h
    split at h
    · rcases List.mem_cons.1 h with rfl | h
      · cases ha
      · exact List.mem_cons_of_mem _ (ih h ha)
    · rcases List.mem_cons.1 h with rfl | h
      · rcases List.mem_cons.1 ha with rfl | ha
        · exact List.mem_cons_self
        · exact List.mem_cons_of_mem _ (ih List.mem_cons_self ha)
      · exact List.mem_cons_of_mem _ (ih (List.mem_cons_of_mem _ h) ha)

theorem lines_append_cons (s t : List Char) : lines (s ++ '\n' :: t) = lines s ++ lines t :=
  pieces_append_cons rfl s t

/-- What is written with a separator behind each but the last has one between each and the next. -/
theorem flatMap_append_eq_intercalate (sep : List α) (ws : List (List α)) (last : List α) :
    ws.flatMap (· ++ sep) ++ last = sep.intercalate (ws ++ [last]) := by
  induction ws with
  | nil => rw [List.flatMap_nil, List.nil_append, List.nil_append, List.intercalate_singleton]
  | cons w ws ih =>
    rw [List.flatMap_cons, List.append_assoc, ih, List.cons_append,
      List.intercalate_cons_of_ne_nil (by simp)]

theorem lines_intercalate {ls : List (List Char)} (hls : ∀ l ∈ ls, '\n' ∉ l) (hne : ls ≠ []) :
    lines (['\n'].intercalate ls) = ls := by
  rw [lines, pieces_eq_splitOnP]
  exact List.splitOn_intercalate '\n' hls hne

/-- Lines that are written one after the other are found again, with an empty one behind them. -/
theorem lines_flatMap {ls : List (List Char)} (hls : ∀ l ∈ ls, '\n' ∉ l) :
    lines (ls.flatMap (· ++ ['\n'])) = ls ++ [[]] := by
  have htext := flatMap_append_eq_intercalate ['\n'] ls []
  rw [List.append_nil] at htext
  rw [htext, lines_intercalate (List.forall_mem_append.2 ⟨hls, by simp⟩) (by simp)]

/-! ## Words -/

theorem words_append_cons {c : Char} (hc : isBlank c = true) (s t : List Char) :
    words (s ++ c :: t) = words s ++ words t := by
  rw [words, pieces_append_cons hc, List.filter_append]
  rfl

theorem words_eq_singleton {w : List Char} (hne : w ≠ []) (hw : ∀ c ∈ w, isBlank c = false) :
    words w = [w] := by
  rw [words, pieces_eq_singleton hw]
  simp [hne]

/-- Words that are written with a blank between each and the next are found again. -/
theorem words_intercalate {ws : List (List Char)}
    (hws : ∀ w ∈ ws, w ≠ [] ∧ ∀ c ∈ w, isBlank c = false) :
    words ([' '].intercalate ws) = ws := by
  induction ws with
  | nil => rfl
  | cons w ws ih =>
    rw [List.forall_mem_cons] at hws
    have hfirst := words_eq_singleton hws.1.1 hws.1.2
    cases ws with
    | nil => rw [List.intercalate_singleton, hfirst]
    | cons w' ws =>
      rw [List.intercalate_cons_cons, List.append_assoc, List.singleton_append,
        words_append_cons rfl, hfirst, ih hws.2, List.singleton_append]

/-- Words that are written with a blank behind each but the last are found again. -/
theorem words_flatMap {ws : List (List Char)} {last : List Char}
    (hws : ∀ w ∈ ws, w ≠ [] ∧ ∀ c ∈ w, isBlank c = false)
    (hlast : last ≠ [] ∧ ∀ c ∈ last, isBlank c = false) :
    words (ws.flatMap (· ++ [' ']) ++ last) = ws ++ [last] := by
  rw [flatMap_append_eq_intercalate, words_intercalate]
  exact List.forall_mem_append.2 ⟨hws, List.forall_mem_singleton.2 hlast⟩

theorem words_dropWhile (s : List Char) : words (s.dropWhile isBlank) = words s := by
  induction s with
  | nil => rfl
  | cons c s ih =>
    cases hc : isBlank c with
    | true =>
      have hcons := words_append_cons hc [] s
      rw [List.dropWhile_cons_of_pos hc, ih]
      exact hcons.symm
    | false => rw [List.dropWhile_cons_of_neg (by simp [hc])]

theorem exists_words_cons {c : Char} (hc : isBlank c = false) (s : List Char) :
    ∃ rest others, words (c :: s) = (c :: rest) :: others := by
  obtain ⟨piece, others, hpieces⟩ := List.exists_cons_of_ne_nil (pieces_ne_nil isBlank s)
  refine ⟨piece, others.filter (!·.isEmpty), ?_⟩
  rw [words, pieces_cons, hc, hpieces]
  rfl

theorem trimEnd_cons {c : Char} (hc : isBlank c = false) (s : List Char) :
    trimEnd (c :: s) = c :: trimEnd s := by
  rw [trimEnd, trimEnd, List.reverse_cons, List.dropWhile_append]
  split
  · rename_i hempty
    rw [List.isEmpty_iff] at hempty
    simp [hempty, hc]
  · simp

/-! ## Numerals -/

theorem digit?_of_isDigit {c : Char} (h : c.isDigit = true) :
    digit? c = some (c.toNat - '0'.toNat) := by
  rw [Char.isDigit, Bool.and_eq_true, decide_eq_true_iff, decide_eq_true_iff] at h
  have hle : ('0' ≤ c && c ≤ '9') = true := by
    rw [Bool.and_eq_true, decide_eq_true_iff, decide_eq_true_iff]
    exact h
  rw [digit?, if_pos hle]

theorem digits?_of_isDigit {cs : List Char} (hne : cs ≠ []) (hcs : ∀ c ∈ cs, c.isDigit = true) :
    digits? cs = some (Nat.ofDigitChars 10 cs 0) := by
  have hfold : ∀ n, cs.foldlM (fun n d => (digit? d).map (10 * n + ·)) n =
      some (Nat.ofDigitChars 10 cs n) := by
    clear hne
    induction cs with
    | nil => simp
    | cons c cs ih =>
      rw [List.forall_mem_cons] at hcs
      intro n
      rw [List.foldlM_cons, digit?_of_isDigit hcs.1, Nat.ofDigitChars_cons]
      exact ih hcs.2 _
  cases cs with
  | nil => exact absurd rfl hne
  | cons c cs => exact hfold 0

theorem digits?_toDigits (n : Nat) : digits? (Nat.toDigits 10 n) = some n := by
  rw [digits?_of_isDigit Nat.toDigits_ne_nil
    fun c hc => Nat.isDigit_of_mem_toDigits (by decide) (by decide) hc, Nat.ofDigitChars_ten_toDigits]

theorem integer?_of_isDigit {c : Char} {cs : List Char} (h : c.isDigit = true) :
    integer? (c :: cs) = (digits? (c :: cs)).map Int.ofNat := by
  unfold integer?
  split
  · rename_i heq
    cases heq
    cases h
  · rename_i heq
    cases heq
    cases h
  · rfl

theorem integer?_toString (n : Int) : integer? (toString n).toList = some n := by
  cases n with
  | ofNat n =>
    change integer? (Nat.repr n).toList = some (Int.ofNat n)
    rw [Nat.toList_repr]
    cases hdigits : Nat.toDigits 10 n with
    | nil => exact absurd hdigits Nat.toDigits_ne_nil
    | cons c cs =>
      have hc : c ∈ Nat.toDigits 10 n := hdigits ▸ List.mem_cons_self
      rw [integer?_of_isDigit (Nat.isDigit_of_mem_toDigits (by decide) (by decide) hc), ← hdigits,
        digits?_toDigits, Option.map_some]
  | negSucc n =>
    change integer? ("-" ++ Nat.repr (n + 1)).toList = some (Int.negSucc n)
    have hsign : "-".toList = ['-'] := by decide
    rw [String.toList_append, Nat.toList_repr, hsign, List.singleton_append, integer?,
      digits?_toDigits, Int.negSucc_eq]
    rfl

/-- A numeral starts with a digit or a sign, and has no other characters. -/
theorem mem_numeral {n : Int} {c : Char} (h : c ∈ (toString n).toList) :
    c.isDigit = true ∨ c = '-' := by
  cases n with
  | ofNat n =>
    change c ∈ (Nat.repr n).toList at h
    rw [Nat.toList_repr] at h
    exact .inl (Nat.isDigit_of_mem_toDigits (by decide) (by decide) h)
  | negSucc n =>
    change c ∈ ("-" ++ Nat.repr (n + 1)).toList at h
    rw [String.toList_append, Nat.toList_repr, List.mem_append] at h
    rcases h with h | h
    · exact .inr (by simpa using h)
    · exact .inl (Nat.isDigit_of_mem_toDigits (by decide) (by decide) h)

end Clausal.Text
