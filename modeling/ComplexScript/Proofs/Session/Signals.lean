import ComplexScript.Proofs.Machine.Signals
import ComplexScript.Proofs.Session.Calls
set_option autoImplicit false

/-!
# The signals of a session

What the law of signals asks for is so in every session: a function comes into the environment by a
step whose check found no mistakes in its definition (`Reachable.functions_accepted`).  So no entry
of a session ends in a break, a continue or a return (`Reachable.noSignal`).
-/

namespace ComplexScript.Session

open ComplexScript.Machine

variable {s : Session} {fuel : Nat}

/-- A step keeps the functions as they are, or adds one without mistakes. -/
theorem Consistent.functions_accepted (h : Consistent s) (before : s.environment.Accepted)
    (finished : (s.step fuel).1 ≠ .unfinished) : (s.step fuel).2.environment.Accepted := by
  cases h.redefinition finished with
  | none _ same =>
    rw [Environment.Accepted, same]
    exact before
  | @one accepted name params body node _ functions =>
    have isAccepted : Function.Accepted ⟨params, body⟩ := by
      refine ⟨name, s.scope, ?_⟩
      rw [← node]
      exact accepted.right
    rw [Environment.Accepted, functions]
    intro x f found
    rw [Table.getElem?_insert] at found
    split at found
    · cases found
      exact isAccepted
    · exact before x f found

/-- Every function of a session was checked and has no mistakes. -/
theorem Reachable.functions_accepted (reachable : Reachable s) : s.environment.Accepted := by
  induction reachable with
  | start feed options sink =>
    intro name f found
    simp [Session.start, Session.environment] at found
  | step fuel before finished ih => exact before.consistent.functions_accepted ih finished

/-- The run of an entry ends in no signal. -/
theorem Reachable.noSignal (reachable : Reachable s) (accepted : s.Accepted) {flow : Flow}
    {t : State} (run : evaluate s.options.callDepth fuel s.entry.node s.state = .ok flow t) :
    flow.isSignal = false :=
  (reachable.functions_accepted.placed.ends (Scope.placed_of_clean accepted.right) run).noSignal

end ComplexScript.Session
