import Clausal.Error
/-! Why a command failed: a message, and the messages of what caused it. -/
namespace Clausal

/-- Why a command failed. -/
inductive Failure where
  /-- The messages, from what was tried to its last cause. -/
  | because (message : String) (causes : List String)
  /-- A number left its range. -/
  | overflow
deriving DecidableEq, Repr, Inhabited

namespace Failure

/-- The failure that an error is. -/
def ofError : Error → Failure
  | .overflow => .overflow
  | e => .because e.message e.source?.toList

/-- The failure to do something with a file. -/
def ofFile (message : String) (fault : FileFault) : Failure :=
  .because message [fault.message]

/-- The failure of something that was tried for the sake of something else. -/
def within (message : String) : Failure → Failure
  | .because cause causes => .because message (cause :: causes)
  | .overflow => .overflow

/-- Does something for the sake of something else, which a failure is then a failure of. -/
def during {m : Type → Type} [Monad m] {α : Type} (message : String)
    (action : ExceptT Failure m α) : ExceptT Failure m α :=
  ExceptT.mk do return (← action.run).mapError (within message)

/-- The messages in one line. -/
def line : Failure → String
  | .because message causes => ": ".intercalate (message :: causes)
  | .overflow => Error.overflow.message

/-- A cause in a list of causes, with its number if there are several. -/
def renderCause (isOnly : Bool) (number : Nat) (cause : String) : String :=
  let (start, next) :=
    if isOnly then ("    ", "    ")
    else ("    " ++ toString number ++ ": ", "       ")
  start ++ cause.replace "\n" ("\n" ++ next)

/-- The messages on lines of their own. -/
def render : Failure → String
  | .because message [] => "Error: " ++ message ++ "\n"
  | .because message causes =>
    "Error: " ++ message ++ "\n\nCaused by:\n" ++
      String.join (causes.zipIdx.map fun (cause, i) =>
        renderCause (causes.length = 1) i cause ++ "\n")
  | .overflow => Error.overflow.message ++ "\n"

end Failure
end Clausal
