import Clausal.Constraint.First
import Clausal.Proofs.Constraint.Cnf
import Clausal.Proofs.Variables
/-! How constraints are handed over. One over literals that can be negated hands over all its clauses,
whichever of them are made together or as soon as it is stated. -/
namespace Clausal

variable {vars : List Int} {cs : List Clause}

namespace Draws

theorem one_of_fits {c : Clause} (h : Clause.fits c = true) : one c = .ok c :=
  if_pos h

theorem singly_of_fits (h : ∀ c ∈ cs, Clause.fits c = true) : singly cs = cs.map .ok :=
  List.map_congr_left fun c hc => one_of_fits (h c hc)

theorem together_of_fits (h : ∀ c ∈ cs, Clause.fits c = true) : together cs = cs.map .ok :=
  if_pos (List.all_eq_true.2 h)

theorem after_of_fits {draws : Draws} (h : ∀ c ∈ cs, Clause.fits c = true) :
    after cs draws = draws :=
  if_pos (List.all_eq_true.2 h)

theorem flatMap_together_of_fits {parts : List (List Clause)}
    (h : ∀ c ∈ parts.flatten, Clause.fits c = true) :
    parts.flatMap together = parts.flatten.map .ok := by
  rw [List.map_flatten, List.flatMap_def]
  congr 1
  refine List.map_congr_left fun part hpart => ?_
  exact together_of_fits fun c hc => h c (List.mem_flatten_of_mem hpart hc)

theorem ofExcept_map_singly {made : Except Error (List Clause)}
    (h : ∀ cs, made = .ok cs → ∀ c ∈ cs, Clause.fits c = true) :
    ofExcept (made.map singly) = ofExcept (made.map (·.map .ok)) := by
  cases made with
  | error e => rfl
  | ok cs => exact singly_of_fits (h cs rfl)

theorem collect_map_ok (cs : List Clause) : collect (cs.map .ok) = .ok cs := by
  induction cs with
  | nil => rfl
  | cons c cs ih =>
    simp only [collect] at *
    rw [List.map_cons, List.mapM_cons, ih]
    rfl

end Draws

theorem IsOver.fits (h : IsOver vars cs) (hvars : ∀ x ∈ vars, Literal.fits x = true) :
    ∀ c ∈ cs, Clause.fits c = true :=
  fun c hc => List.all_eq_true.2 fun l hl => (Literal.fits_of_var (hvars _ (h c hc l hl))).1

theorem Constraint.fits_cnf {c : Constraint} (h : c.cnf = .ok cs)
    (hfits : ∀ l ∈ c.literals, Literal.fits (Literal.var l) = true) :
    ∀ d ∈ cs, Clause.fits d = true :=
  (isOver_cnf h fun _ hl => List.mem_map_of_mem hl).fits (List.forall_mem_map.2 hfits)

/-- A constraint over literals that can be negated is handed over whole. -/
theorem Constraint.draws_eq_cnf {c : Constraint}
    (hfits : ∀ l ∈ c.literals, Literal.fits (Literal.var l) = true) :
    c.draws = Draws.ofExcept (c.cnf.map (·.map .ok)) := by
  induction c with
  | window cells low high =>
    rw [draws, cnf]
    split
    case isTrue => rfl
    case isFalse h =>
      have hcnf : (window cells low high).cnf = .ok (Clausal.window cells low high) := if_neg h
      exact Draws.singly_of_fits (fits_cnf hcnf hfits)
  | maybe cells n => exact Draws.singly_of_fits (fits_cnf rfl hfits)
  | link cells =>
    obtain ⟨hsteps, hclosing⟩ := List.forall_mem_append.1 (fits_cnf rfl hfits)
    rw [draws, Draws.after_of_fits hclosing, Draws.flatMap_together_of_fits hsteps,
      Draws.singly_of_fits hclosing, ← List.map_append]
    rfl
  | oneOrThree a b c => exact Draws.together_of_fits (fits_cnf rfl hfits)
  | oneSetTrue sets => exact Draws.singly_of_fits (fits_cnf rfl hfits)
  | xnor a b => exact Draws.together_of_fits (fits_cnf rfl hfits)
  | ifThen a b => exact Draws.together_of_fits (fits_cnf rfl hfits)
  | ifGen a b modeA modeB both =>
    have hall := fits_cnf rfl hfits
    refine (Draws.after_of_fits fun c hc => hall c ?_).trans (Draws.singly_of_fits hall)
    -- what is negated first is the clause of an implication from all to any
    refine List.mem_append.2 ((List.mem_append.1 hc).imp (fun hc => ?_) fun hc => ?_)
    · cases modeA <;> cases modeB <;> simp_all
    · cases both <;> cases modeA <;> cases modeB <;> simp_all
  | guarded guard clauses => exact Draws.singly_of_fits (fits_cnf rfl hfits)
  | guardedBy guard inner ih =>
    rw [draws, ih fun l hl => hfits l (List.mem_cons_of_mem guard hl)]
    cases hinner : inner.cnf with
    | error e => simp [cnf, hinner, Draws.ofExcept, Draws.underGuard, Except.map, Except.bind]
    | ok ds =>
      have hcnf : (guardedBy guard inner).cnf = .ok (Clausal.guarded guard ds) := by
        simp [cnf, hinner, Except.map]
      have hguarded := List.forall_mem_map.1 (fits_cnf hcnf hfits)
      rw [hcnf]
      change (ds.map Except.ok).map (Draws.underGuard guard) = (Clausal.guarded guard ds).map .ok
      rw [Clausal.guarded, List.map_map, List.map_map]
      exact List.map_congr_left fun d hd => Draws.one_of_fits (hguarded d hd)
  | addition a b c => exact Draws.flatMap_together_of_fits (fits_cnf rfl hfits)
  | ordered a b =>
    exact Draws.ofExcept_map_singly fun _ h => fits_cnf (c := .ordered a b) h hfits
  | consecutive a b circular =>
    rw [draws, cnf, Clausal.consecutive]
    cases hcheck : checkPositions "consecutive" a b with
    | error e => rfl
    | ok _ =>
      have hcnf : (consecutive a b circular).cnf =
          .ok ((consecutiveSteps a b).flatten ++ consecutiveClosing a b circular) := by
        rw [cnf, Clausal.consecutive, hcheck]
        rfl
      obtain ⟨hsteps, hclosing⟩ := List.forall_mem_append.1 (fits_cnf hcnf hfits)
      change Draws.after _ _ = List.map _ _
      rw [Draws.after_of_fits hclosing, Draws.flatMap_together_of_fits hsteps,
        Draws.singly_of_fits hclosing, ← List.map_append]
  | adjacent a b circular =>
    exact Draws.ofExcept_map_singly fun _ h => fits_cnf (c := .adjacent a b circular) h hfits
  | notAdjacent a b circular =>
    exact Draws.ofExcept_map_singly fun _ h => fits_cnf (c := .notAdjacent a b circular) h hfits

theorem Constraint.draws_of_cnf {c : Constraint} (h : c.cnf = .ok cs)
    (hleast : ∀ l ∈ c.literals, Literal.fits l = true ∧ l ≠ Literal.least) :
    c.draws = cs.map .ok := by
  rw [draws_eq_cnf fun l hl => (Literal.fits_var_iff (hleast l hl).1).2 (hleast l hl).2, h]
  rfl

/-- A constraint comes to some clauses and hands over all of them. -/
structure Constraint.Yields (c : Constraint) (cs : List Clause) : Prop where
  cnf : c.cnf = .ok cs
  draws : c.draws = cs.map .ok

theorem Constraint.yields_of_cnf {c : Constraint} (h : c.cnf = .ok cs)
    (hleast : ∀ l ∈ c.literals, Literal.fits l = true ∧ l ≠ Literal.least) : c.Yields cs :=
  ⟨h, draws_of_cnf h hleast⟩

/-- The clauses of a constraint can be had all at once unless it is refused or has too many. -/
theorem Constraint.clauses_eq {c : Constraint}
    (hfits : ∀ l ∈ c.literals, Literal.fits (Literal.var l) = true) :
    c.clauses = c.cnf.bind fun cs =>
      if maxListed ≤ c.drawCount then .error .overflow else .ok cs := by
  rw [clauses, firstDraws_eq_take, draws_eq_cnf hfits]
  cases c.cnf with
  | error e => rfl
  | ok cs =>
    simp only [Draws.ofExcept, Except.map, Except.bind, ← List.map_take, Draws.collect_map_ok]
    split <;> rfl

end Clausal
