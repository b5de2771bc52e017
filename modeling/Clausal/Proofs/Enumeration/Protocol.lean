import Clausal.Proofs.Enumeration.Pulling
/-! What an enumeration asks of a solver and what it gives in return, whatever the solver answers,
right or wrong. Every model is blocked in the clauses of the next question, and any other answer is
the last one that is asked for. -/
namespace Clausal

/-- Whether the literals of a clause are within the 32 bits of the format and their negations, too.
-/
def Clause.IsNegatable (c : Clause) : Prop :=
  ∀ l ∈ c, Literal.fits (Literal.var l) = true

instance (c : Clause) : Decidable c.IsNegatable :=
  inferInstanceAs (Decidable (∀ l ∈ c, Literal.fits (Literal.var l) = true))

namespace Enumeration

/-- A number of pulls, whatever they give. -/
def pullTimes {m : Type → Type} [Monad m] (pull : Puller m) :
    (pulls : Nat) → Enumeration → m (List Pull)
  | 0, _ => return []
  | pulls + 1, e => do
    let (given, e) ← pull e
    return given :: (← pullTimes pull pulls e)

/-- A solver that gives its answers in order and notes the texts it is handed. -/
def scripted (answers : Nat → Except Error Outcome) (problem : Problem) :
    StateM (List String) (Except Error Outcome) :=
  fun noted => (answers noted.length, noted ++ [problem.toDimacs])

/-! ## The protocol -/

/-- What pulls give after a number of models, and how often the solver was asked by then. They stop
there, the limit is reached, or the next answer is not a model. -/
inductive Ending (limit models : Nat) (answer : Except Error Outcome) :
    (left asked : Nat) → (rest : List Pull) → Prop
  | stopped (h : models ≤ limit) : Ending limit models answer 0 models []
  | limited {left : Nat} (h : models = limit) :
    Ending limit models answer left models (List.replicate left .done)
  | unsatisfiable {left : Nat} (h : models < limit) (hanswer : answer = .ok .unsatisfiable) :
    Ending limit models answer (left + 1) (models + 1) (List.replicate (left + 1) .done)
  | failed {left : Nat} {error : Error} (h : models < limit) (hanswer : answer = .error error) :
    Ending limit models answer (left + 1) (models + 1) (.failure error :: List.replicate left .done)

theorem Ending.asked_le {limit models left asked : Nat} {answer : Except Error Outcome}
    {rest : List Pull} (h : Ending limit models answer left asked rest) : asked ≤ limit := by
  cases h with
  | stopped h => exact h
  | limited h => exact h.le
  | unsatisfiable h => exact h
  | failed h => exact h

/-- The course of some pulls. -/
structure Course where
  /-- The models among the answers. -/
  models : List (List Literal)
  solutions : List Solution
  /-- What is given after the solutions. -/
  rest : List Pull

namespace Course

/-- All that is given. -/
def pulls (t : Course) : List Pull :=
  t.solutions.map .solution ++ t.rest

/-- The first formulas that the solver is asked about: the clauses with those that rule out the
models before, in order. -/
def formulas (t : Course) (clauses : List Clause) (o : EnumerationOptions) (asked : Nat) :
    List (List Clause) :=
  (List.range asked).map fun i => clauses ++ (t.models.take i).flatMap o.forbidding

/-- Each answer from some number on that is a model has its solution, with the true variables of the
model, and the first other answer is the last one asked for. -/
structure Follows (t : Course) (answers : Nat → Except Error Outcome)
    (limit first pulls asked : Nat) : Prop where
  isModel : ∀ i (h : i < t.models.length), answers (first + i) = .ok (.satisfiable t.models[i])
  index_eq : t.solutions.map (·.index) = List.range' (first + 1) t.models.length
  trueVars_iff : List.Forall₂ (fun model s => ∀ x, x ∈ s.trueVars ↔ x ∈ model ∧ 0 < x)
    t.models t.solutions
  ending : ∃ left, pulls = t.models.length + left ∧
    Ending limit (first + t.models.length) (answers (first + t.models.length)) left
      (first + asked) t.rest

/-- The course with a model in front. -/
def cons (t : Course) (model : List Literal) (s : Solution) : Course :=
  ⟨model :: t.models, s :: t.solutions, t.rest⟩

variable {t : Course} {answers : Nat → Except Error Outcome} {model : List Literal} {s : Solution}

theorem formulas_one {clauses : List Clause} {o : EnumerationOptions} (h : t.models = []) :
    t.formulas clauses o 1 = [clauses] := by
  simp [formulas, h]

theorem formulas_cons (t : Course) (model : List Literal) (s : Solution) (clauses : List Clause)
    (o : EnumerationOptions) (asked : Nat) : (t.cons model s).formulas clauses o (asked + 1) =
      clauses :: t.formulas (clauses ++ o.forbidding model) o asked := by
  simp [formulas, cons, List.range_succ_eq_map]

theorem Follows.cons {limit first pulls asked : Nat}
    (h : t.Follows answers limit (first + 1) pulls asked)
    (hanswer : answers first = .ok (.satisfiable model)) (hindex : s.index = first + 1)
    (htrue : ∀ x, x ∈ s.trueVars ↔ x ∈ model ∧ 0 < x) :
    (t.cons model s).Follows answers limit first (pulls + 1) (asked + 1) where
  isModel i hi := by
    cases i with
    | zero => exact hanswer
    | succ i =>
      have hmodel := h.isModel i (Nat.lt_of_succ_lt_succ hi)
      rwa [Nat.add_right_comm] at hmodel
  index_eq := by
    simp only [Course.cons, List.map_cons, List.length_cons, List.range'_succ, h.index_eq, hindex]
  trueVars_iff := .cons htrue h.trueVars_iff
  ending := by
    obtain ⟨left, hpulls, hending⟩ := h.ending
    rw [Nat.add_right_comm, Nat.add_right_comm first 1] at hending
    refine ⟨left, ?_, hending⟩
    simp only [Course.cons, List.length_cons]
    omega

end Course

variable {answers : Nat → Except Error Outcome} {e : Enumeration} {model : List Literal}
  {noted : List String} {pulls : Nat}

theorem isNegatable_block (hclauses : ∀ c ∈ e.clauses, c.IsNegatable)
    (hmodel : Clause.IsNegatable model) : ∀ c ∈ (e.block model).clauses, c.IsNegatable := by
  refine List.forall_mem_append.2 ⟨hclauses, fun c hc l hl => ?_⟩
  rw [← Literal.var_neg]
  exact hmodel _ (EnumerationOptions.neg_mem_of_blocking hc hl)

theorem receive_model (hmodel : Clause.IsNegatable model) :
    e.receive (.ok (.satisfiable model)) = (.solution (e.solutionOf model), e.block model) := by
  rw [receive, if_pos (List.all_eq_true.2 fun l hl => (Literal.fits_of_var (hmodel l hl)).2)]

theorem next_scripted (hclauses : ∀ c ∈ e.clauses, c.IsNegatable) (hover : e.isOver = false) :
    ∃ text, IsFormulaText e.clauses text ∧ next (scripted answers) e noted =
      (e.receive (answers noted.length), noted ++ [text]) := by
  have hfits : Literal.fits (maxVar e.clauses) = true := by
    refine fits_maxVar_iff.2 fun x hx => ?_
    obtain ⟨c, hc, l, hl, rfl⟩ := mem_mentioned.1 hx
    exact hclauses c hc l hl
  exact ⟨_, Problem.isFormulaText e.clauses, by rw [next_asks hover hfits, scripted]⟩

theorem pullTimes_succ {σ : Type} {pull : Puller (StateM σ)} {given : Pull} {e' : Enumeration}
    {memory memory' : σ} (h : pull e memory = ((given, e'), memory')) :
    pullTimes pull (pulls + 1) e memory =
      ((given :: (pullTimes pull pulls e' memory').1), (pullTimes pull pulls e' memory').2) := by
  simp only [pullTimes, bind, StateT.bind, h]
  rfl

theorem pullTimes_over {σ : Type} {solve : Problem → StateM σ (Except Error Outcome)}
    (h : e.isOver = true) (pulls : Nat) (memory : σ) :
    pullTimes (next solve) pulls e memory = (List.replicate pulls .done, memory) := by
  induction pulls with
  | zero => rfl
  | succ pulls ih => rw [pullTimes_succ (next_over h memory), ih, List.replicate_succ]

/-- A pull whose answer is not a model is the last one that asks. -/
theorem pullTimes_final {given : Pull} (hclauses : ∀ c ∈ e.clauses, c.IsNegatable)
    (hover : e.isOver = false)
    (hreceive : e.receive (answers noted.length) = (given, { e with finished := true }))
    (pulls : Nat) : ∃ text, IsFormulaText e.clauses text ∧
      pullTimes (next (scripted answers)) (pulls + 1) e noted =
        (given :: List.replicate pulls .done, noted ++ [text]) := by
  obtain ⟨text, htext, hnext⟩ := next_scripted hclauses hover
  rw [hreceive] at hnext
  refine ⟨text, htext, ?_⟩
  rw [pullTimes_succ hnext, pullTimes_over rfl]

/-- From some number of models on, pulls follow the protocol. -/
theorem pullTimes_run (hanswers : ∀ i model, answers i = .ok (.satisfiable model) →
      Clause.IsNegatable model)
    (hclauses : ∀ c ∈ e.clauses, c.IsNegatable) (hfinished : e.finished = false)
    (hfound : e.found ≤ e.options.limit) (hnoted : noted.length = e.found) (pulls : Nat) :
    ∃ (t : Course) (asked : Nat) (texts : List String),
      t.Follows answers e.options.limit e.found pulls asked ∧
        List.Forall₂ IsFormulaText (t.formulas e.clauses e.options asked) texts ∧
          pullTimes (next (scripted answers)) pulls e noted = (t.pulls, noted ++ texts) := by
  induction pulls generalizing e noted with
  | zero =>
    refine ⟨⟨[], [], []⟩, 0, [], ⟨by simp, rfl, .nil, 0, rfl, .stopped hfound⟩, .nil, ?_⟩
    rw [List.append_nil]
    rfl
  | succ pulls ih =>
    by_cases hroom : e.found < e.options.limit
    · have hover : e.isOver = false := by simpa [isOver, hfinished] using hroom
      cases hanswer : answers e.found with
      | error error =>
        obtain ⟨text, htext, hrun⟩ := pullTimes_final hclauses hover
          (show e.receive (answers noted.length) = _ by rw [hnoted, hanswer]; rfl) pulls
        refine ⟨⟨[], [], .failure error :: List.replicate pulls .done⟩, 1, [text],
          ⟨by simp, rfl, .nil, pulls + 1, (Nat.zero_add _).symm, .failed hroom hanswer⟩, ?_, hrun⟩
        rw [Course.formulas_one rfl]
        exact .cons htext .nil
      | ok outcome =>
        cases outcome with
        | satisfiable model =>
          have hmodel := hanswers _ _ hanswer
          obtain ⟨text, htext, hnext⟩ : ∃ text, IsFormulaText e.clauses text ∧
              next (scripted answers) e noted =
                (e.receive (answers noted.length), noted ++ [text]) := next_scripted hclauses hover
          rw [hnoted, hanswer, receive_model hmodel] at hnext
          have hlength : (noted ++ [text]).length = (e.block model).found := by
            simp [hnoted, Enumeration.block]
          obtain ⟨t, asked, texts, hfollows, htexts, hrun⟩ :=
            ih (isNegatable_block hclauses hmodel) hfinished hroom hlength
          refine ⟨t.cons model (e.solutionOf model), asked + 1, text :: texts,
            hfollows.cons hanswer rfl ?_, ?_, ?_⟩
          · simp [solutionOf, VarSet.mem_ofList]
          · rw [Course.formulas_cons, ← EnumerationOptions.blocking_eq]
            exact .cons htext htexts
          · rw [pullTimes_succ hnext, hrun, List.append_assoc]
            rfl
        | unsatisfiable =>
          obtain ⟨text, htext, hrun⟩ := pullTimes_final hclauses hover
            (show e.receive (answers noted.length) = _ by rw [hnoted, hanswer]; rfl) pulls
          refine ⟨⟨[], [], List.replicate (pulls + 1) .done⟩, 1, [text], ⟨by simp, rfl, .nil,
            pulls + 1, (Nat.zero_add _).symm, .unsatisfiable hroom hanswer⟩, ?_, hrun⟩
          rw [Course.formulas_one rfl]
          exact .cons htext .nil
    · have hover : e.isOver = true := by simpa [isOver] using .inr (by omega)
      refine ⟨⟨[], [], List.replicate (pulls + 1) .done⟩, 0, [],
        ⟨by simp, rfl, .nil, pulls + 1, (Nat.zero_add _).symm, .limited (by simp; omega)⟩, .nil, ?_⟩
      rw [pullTimes_over hover, List.append_nil]
      rfl

/-- Whatever a solver answers, it is handed the texts of the clauses with those that rule out the
models before, it is asked again only after a model and at most as often as the limit allows, and
each model has its solution. After an error or an answer that there is no model, and after the
limit, there is nothing more. -/
theorem pullTimes_protocol {formula : List Clause} {o : EnumerationOptions}
    (hformula : ∀ c ∈ formula, c.IsNegatable)
    (hanswers : ∀ i model, answers i = .ok (.satisfiable model) → Clause.IsNegatable model)
    (pulls : Nat) :
    ∃ (t : Course) (asked : Nat) (texts : List String),
      t.Follows answers o.limit 0 pulls asked ∧ asked ≤ o.limit ∧
        List.Forall₂ IsFormulaText (t.formulas formula o asked) texts ∧
          pullTimes (next (scripted answers)) pulls { clauses := formula, options := o } [] =
            (t.pulls, texts) := by
  have hlength : ([] : List String).length = 0 := rfl
  obtain ⟨t, asked, texts, hfollows, htexts, hrun⟩ := pullTimes_run hanswers
    (e := { clauses := formula, options := o }) hformula rfl (Nat.zero_le _) hlength pulls
  obtain ⟨left, -, hending⟩ := hfollows.ending
  have hasked := hending.asked_le
  rw [Nat.zero_add] at hasked
  exact ⟨t, asked, texts, hfollows, hasked, htexts, hrun⟩

/-- A solver that answers with a wrong model first, with the same one again and then with an error.
Two of the variables tell solutions apart, and what is true of them is forbidden one by one, too.
There are two solutions, and the error comes once. -/
theorem pullTimes_protocol_failing :
    let answers : Nat → Except Error Outcome := fun i =>
      if i < 2 then .ok (.satisfiable [1, -2, 3]) else .error .overflow
    let o : EnumerationOptions :=
      { limit := 4, interesting := some (.ofList [1, 2]), aggressive := true }
    let texts := ["p cnf 3 1\n-1 3 0\n", "p cnf 3 3\n-1 3 0\n-1 2 0\n-1 0\n",
      "p cnf 3 5\n-1 3 0\n-1 2 0\n-1 0\n-1 2 0\n-1 0\n"]
    ∃ t : Course, t.Follows answers 4 0 6 3 ∧
      List.Forall₂ IsFormulaText (t.formulas [[-1, 3]] o 3) texts ∧
        pullTimes (next (scripted answers)) 6 { clauses := [[-1, 3]], options := o } [] =
          (t.pulls, texts) ∧
            t.pulls.count (.failure .overflow) = 1 ∧ t.pulls.drop 3 = List.replicate 3 .done := by
  intro answers o texts
  have hformula : ∀ c ∈ ([[-1, 3]] : List Clause), c.IsNegatable := by decide
  have hanswers : ∀ i model, answers i = .ok (.satisfiable model) → Clause.IsNegatable model := by
    intro i model hmodel
    by_cases hi : i < 2
    · have hfirst : answers i = .ok (.satisfiable [1, -2, 3]) := if_pos hi
      cases hfirst.symm.trans hmodel
      decide
    · have hlast : answers i = .error .overflow := if_neg hi
      cases hlast.symm.trans hmodel
  obtain ⟨t, asked, handed, hfollows, -, htexts, hrun⟩ :=
    pullTimes_protocol hformula hanswers 6 (o := o)
  have hpulls : _ = t.pulls := congrArg Prod.fst hrun
  obtain rfl : texts = handed := .trans (by decide +kernel) (congrArg Prod.snd hrun)
  obtain rfl : asked = 3 := by simpa [Course.formulas, texts] using htexts.length_eq
  refine ⟨t, hfollows, htexts, hrun, ?_, ?_⟩
  · rw [← hpulls]
    decide +kernel
  · rw [← hpulls]
    decide +kernel

end Enumeration
end Clausal
