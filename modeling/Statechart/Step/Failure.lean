/-
# Statechart.Step.Failure -- why a call has no result

A call fails when a guard gives no answer, when the configuration passed in is refused, or when the
events that the machine raises itself would take more microsteps than allowed. A failed call has no
other effect.
-/

import Statechart.Active.Resolution

namespace Statechart

/-- Why a call has no result. -/
inductive Failure where
  | guardEvaluation (guard state event : String) (cause : GuardError)
  | invalidConfiguration (cause : ConfigurationError)
  | microstepLimit (limit : Nat)
  deriving DecidableEq

namespace Failure

/-- The text of a failure. -/
def message : Failure → String
  | guardEvaluation guard state event cause =>
    "Guard '" ++ guard ++ "' on '" ++ state ++ "' failed while handling '" ++ event ++ "': " ++
      cause.message
  | invalidConfiguration cause => "Invalid configuration: " ++ cause.message
  | microstepLimit limit =>
    "Exceeded " ++ Nat.repr limit ++ " microsteps while processing internal events"

/-- Whether a guard is to blame. -/
def isGuardFailure : Failure → Bool
  | guardEvaluation .. => true
  | invalidConfiguration _ | microstepLimit _ => false

end Failure

end Statechart
