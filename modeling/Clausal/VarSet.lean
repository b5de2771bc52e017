import Std.Data.ExtTreeSet
/-! Finite sets of variables. -/
namespace Clausal

/-- A finite set of variables. Sets with the same members are equal. -/
abbrev VarSet := Std.ExtTreeSet Int

namespace VarSet

/-- The set of the members of a list. -/
def ofList (xs : List Int) : VarSet :=
  Std.ExtTreeSet.ofList xs

theorem mem_ofList {xs : List Int} {x : Int} : x ∈ ofList xs ↔ x ∈ xs := by
  simp [ofList]

/-- The members of a set that also belong to `t`. -/
def inter (s t : VarSet) : VarSet :=
  s.filter (· ∈ t)

end VarSet
end Clausal
