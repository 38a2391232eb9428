import ComplexScript.Proofs.Entry.Statements
import ComplexScript.Proofs.Machine.Bound
import ComplexScript.Proofs.Session.Arity
set_option autoImplicit false

/-!
# No variable that is not bound

The check of an entry follows its text, so it can take a variable for known that the run does not
come to assign.  If that is all that goes wrong, no run comes to a variable that is not bound: in a
session without failures, in which no accepted entry brings in a variable where a run may pass by
(`Scope.tentative`) and no function gets another number of parameters (`Session.Orderly`), what the
check knows is there whenever an entry is run (`ReachableBy.ready`), and no step ends in a fault
over a variable (`no_unbound_variable`).
-/

namespace ComplexScript.Session

open ComplexScript.Machine
open ComplexScript.Program

variable {s : Session} {fuel : Nat}

/-- The next entry, if it is accepted, brings in no variable where a run may pass by. -/
def Certain (s : Session) : Prop := s.Accepted → Scope.tentative {} {} s.entry.node s.scope = []

/-- A step that does not fail, on an entry that brings in no variable where a run may pass by and
gives no function another number of parameters. -/
structure Orderly (s : Session) (fuel : Nat) : Prop where
  done : ∃ outcome, (s.step fuel).1 = .done outcome
  certain : s.Certain
  arity : s.KeepsArity

theorem Orderly.finished (h : s.Orderly fuel) : (s.step fuel).1 ≠ .unfinished := by
  obtain ⟨outcome, done⟩ := h.done
  rw [done]
  exact nofun

theorem ReachableBy.next (before : ReachableBy Orderly s) (orderly : s.Orderly fuel) :
    ReachableBy Orderly (s.step fuel).2 := .step fuel before orderly.finished orderly

/-- Whether a step with an outcome is orderly can be computed from its entry. -/
theorem orderly_of_done (outcome : Outcome) (done : (s.step fuel).1 = .done outcome)
    (h : ((Scope.tentative {} {} s.entry.node s.scope).isEmpty && s.keepsSignature) = true) :
    s.Orderly fuel := by
  obtain ⟨certain, arity⟩ := Bool.and_eq_true_iff.mp h
  exact ⟨⟨outcome, done⟩, fun _ => List.isEmpty_iff.mp certain, keepsArity_of_signature arity⟩

/-- The tree of an accepted entry is sure. -/
theorem Accepted.sure (accepted : s.Accepted) (certain : s.Certain) :
    Scope.Sure {} {} s.entry.node s.scope :=
  ⟨accepted.right, certain accepted⟩

/-- The tree of an accepted entry is a statement or a function. -/
theorem Consistent.isItem (h : Consistent s) (accepted : s.Accepted) : s.entry.node.IsItem :=
  Entry.next_isItem s.options.limits h.sane accepted.clean

/-- The run of an accepted entry leaves what its check knows ready. -/
theorem Consistent.ready_of_run (h : Consistent s) (ready : Ready s.scope s.environment)
    (accepted : s.Accepted) (certain : s.Certain) (arity : s.KeepsArity) {flow : Flow} {t : State}
    (run : evaluate s.options.callDepth fuel s.entry.node s.state = .ok flow t) :
    Ready s.checked.1 t.environment := by
  have sure := accepted.sure certain
  have item := h.isItem accepted
  rcases (h.isEntry accepted.toExamined).plain_or with
    plain | ⟨name, params, body, node, free, plain⟩
  · have safe := Task.safe s.options.callDepth fuel (.tree s.entry.node) (item.isStatement plain)
      plain (.tree sure) ready
    exact (safe.1 flow t run).topLevel
  · have known := fun f found => arity name params body f accepted node found
    rw [node] at sure item run
    have clean : s.checked.1 = s.scope.define name params.length := by
      rw [checked, Scope.checkEntry, node, Scope.check_definition plain, if_pos sure.clean]
    cases fuel with
    | zero => cases run
    | succ fuel =>
      cases run
      rw [clean]
      exact ready.define free item plain sure known

/-- An orderly step keeps what the check knows ready. -/
theorem Orderly.ready (orderly : s.Orderly fuel) (h : Consistent s)
    (noCalls : s.environment.calls = []) (ready : Ready s.scope s.environment) :
    Ready (s.step fuel).2.scope (s.step fuel).2.environment := by
  obtain ⟨outcome, done⟩ := orderly.done
  have notFailed : ¬ ∃ failure, (s.step fuel).1 = .failed failure := by
    rintro ⟨failure, failed⟩
    rw [done] at failed
    cases failed
  cases step_effect fuel s with
  | untouched session =>
    obtain ⟨sink, session⟩ := session
    rw [session]
    exact ready
  | mistaken _ _ failed => exact absurd failed notFailed
  | ran _ _ _ ended =>
    obtain ⟨shown, evaluated⟩ := ended.resolve_right notFailed
    obtain ⟨accepted, flow, t, run, sink, session⟩ := run_of_evaluated evaluated
    have after := h.ready_of_run ready accepted orderly.certain orderly.arity run
    rw [session]
    exact after
  | undone session =>
    obtain ⟨sink, session⟩ := session
    rw [session, topLevel_eq_self noCalls]
    exact ready
  | unfinished unfinished => exact absurd unfinished orderly.finished

theorem ReachableBy.ready (orderly : ReachableBy Orderly s) : Ready s.scope s.environment := by
  induction orderly with
  | start feed options sink =>
    refine ⟨fun x mem => ?_, fun name k known => ?_, fun name f found => ?_, fun name f found => ?_⟩
    · simp [Session.start] at mem
    · simp [Session.start] at known
    · simp [Session.start, Session.environment] at found
    · simp [Session.start, Session.environment] at found
  | step fuel before finished orderly ih =>
    exact orderly.ready before.reachable.consistent before.reachable.calls_eq_nil ih

/-- In a session whose steps do not fail, in which no accepted entry makes the check know a variable
inside a block of a conditional or inside the round or the step of a loop, apart from a loop's own
variable by its start, and in which no function gets another number of parameters, no step ends in
a fault over a variable that is not bound. -/
theorem no_unbound_variable (orderly : ReachableBy Orderly s) (certain : s.Certain) (fuel : Nat)
    (x : String) : (s.step fuel).1 ≠ .done (.faulted (.unboundVariable x)) := by
  intro faulted
  have consistent := orderly.reachable.consistent
  obtain ⟨accepted, t, run⟩ := run_of_faulted faulted
  have plain := consistent.plain_of_fault accepted run
  have safe := Task.safe s.options.callDepth fuel (.tree s.entry.node)
    ((consistent.isItem accepted).isStatement plain) plain (.tree (accepted.sure certain))
    orderly.ready
  exact safe.2 _ t run x rfl

/-- A session that has defined a function which calls itself and has bound a variable, before a loop
that calls the function, goes on early and is left early. -/
def looping : Session :=
  ((Session.start ⟨[.line "fun f(n) { if (n) { return f(n - 1) } return 7 }\n", .line "a = 0\n",
    .line "for (i = 0; i < 3; i = i + 1) { if (i) { break } a = f(2); continue }\n"],
    []⟩).step 9).2.step 9 |>.2

theorem looping_binds_variables :
    (looping.step 99).1 = .done (.evaluated none) ∧
      ∀ x, (looping.step 99).1 ≠ .done (.faulted (.unboundVariable x)) := by
  have reachable : ReachableBy Orderly looping :=
    .next (.next (.start _ _ _)
      (orderly_of_done (.evaluated none) (by decide +kernel) (by decide +kernel)))
      (orderly_of_done (.evaluated none) (by decide +kernel) (by decide +kernel))
  have certain : looping.Certain := fun _ => by decide +kernel
  exact ⟨by decide +kernel, no_unbound_variable reachable certain 99⟩

end ComplexScript.Session
