/-! Allocation modes. -/
namespace Clausal

/-- Whether labels may be created, used again, or both. -/
inductive Mode where
  | readWrite
  /-- Only labels that exist may be used. -/
  | readOnly
  /-- Every label used must be new. -/
  | writeOnly
deriving DecidableEq, Repr, Inhabited

namespace Mode

/-- Whether known labels may be used. -/
def canRead : Mode → Bool
  | .writeOnly => false
  | _ => true

/-- Whether new labels may be created. -/
def canWrite : Mode → Bool
  | .readOnly => false
  | _ => true

/-- The written form of a mode. -/
def render : Mode → String
  | .readWrite => "read-write"
  | .readOnly => "read-only"
  | .writeOnly => "write-only"

end Mode
end Clausal
