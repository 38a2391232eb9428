import ComplexScript.Proofs.Session.Steps
set_option autoImplicit false

/-!
# What the outcome of a step tells

An entry is looked into if it could be read, has no complaints and is neither the end nor empty
(`Session.Examined`), and it is run if no mistakes are found in it then (`Session.Accepted`).  Only
a run can end in the outcomes `evaluated` and `faulted`, and the outcome tells how the run ended:
`step_done` reads a step backwards from its outcome.
-/

namespace ComplexScript.Session

open ComplexScript.Machine
open ComplexScript.Program

variable {s : Session} {fuel : Nat}

/-- The next entry is checked. -/
structure Examined (s : Session) : Prop where
  readable : (Entry.next s.options.limits s.reader).2.cursor.takeFailure.1 = none
  notEnd : s.entry.isEnd = false
  clean : s.entry.diagnostics = []
  notEmpty : s.entry.node.isNoOp = false

/-- The next entry is checked, and it has no mistakes. -/
structure Accepted (s : Session) : Prop extends Examined s where
  right : s.checked.2 = []

theorem step_of_examined (h : s.Examined) :
    s.step fuel = process fuel s.entry.node s.advanced := by
  have notEnd : (Entry.next s.options.limits s.reader).1.isEnd = false := h.notEnd
  have clean : (Entry.next s.options.limits s.reader).1.diagnostics = [] := h.clean
  have notEmpty : (Entry.next s.options.limits s.reader).1.node.isNoOp = false := h.notEmpty
  unfold step
  simp only [h.readable, notEnd, clean, notEmpty, List.isEmpty_nil, Bool.not_true,
    Bool.false_eq_true, if_false]
  rfl

/-- An accepted entry is run in the scope that its check gives. -/
theorem step_of_accepted (h : s.Accepted) :
    s.step fuel = run fuel s.entry.node s.advanced { s.advanced with scope := s.checked.1 } := by
  have right : (s.advanced.scope.checkEntry s.entry.node).2 = [] := h.right
  rw [step_of_examined h.toExamined]
  unfold process
  simp only [right, List.isEmpty_nil, if_true]
  rfl

/-- The mistakes in an entry are reported in the scope that its check gives, and the scope before
it comes back when that is done. -/
theorem step_of_mistaken (h : s.Examined) (wrong : s.checked.2 ≠ []) :
    s.step fuel =
      let w := { s.advanced with scope := s.checked.1 }.writeLines (s.checked.2.map Mistake.message)
      match w.1 with
      | none => { w.2 with scope := s.scope }.conclude .rejected
      | some cause => (.failed (.output cause), w.2) := by
  have wrong : (s.advanced.scope.checkEntry s.entry.node).2.isEmpty = false :=
    List.isEmpty_eq_false_iff.mpr wrong
  rw [step_of_examined h]
  unfold process
  simp only [wrong, Bool.false_eq_true, if_false]
  rfl

/-! ## From outcomes back -/

/-- What a step has done that ended with an outcome. -/
inductive Done (fuel : Nat) (s : Session) : Outcome → Prop where
  | finished : Done fuel s .finished
  | empty : Done fuel s .empty
  | rejected : Done fuel s .rejected
  | evaluated {flow : Flow} {t : State} (accepted : s.Accepted)
    (run : evaluate s.options.callDepth fuel s.entry.node s.state = .ok flow t)
    (session : ∃ sink, (s.step fuel).2 =
      { s.advanced with scope := s.checked.1, state := t }.withSink sink) :
    Done fuel s (.evaluated flow.printable?)
  | faulted {f : Fault} {t : State} (accepted : s.Accepted)
    (run : evaluate s.options.callDepth fuel s.entry.node s.state = .error (.fault f) t) :
    Done fuel s (.faulted f)

/-- A step that is about to end with an outcome ends with no other. -/
theorem eq_of_conclude {outcome other : Outcome}
    (h : (s.conclude outcome).1 = .done other) : other = outcome := by
  rcases (conclude_eq outcome s).2 with done | ⟨failure, failed⟩
  · rw [done] at h
    cases h
    rfl
  · rw [failed] at h
    cases h

/-- A step that is about to end with an outcome, once its lines are written, ends with no other. -/
theorem eq_of_report (next : Session → Session) {lines : List String} {outcome other : Outcome}
    (h : (match (s.writeLines lines).1 with
      | none => (next (s.writeLines lines).2).conclude outcome
      | some cause => (.failed (.output cause), (s.writeLines lines).2)).1 = .done other) :
    other = outcome := by
  split at h
  · exact eq_of_conclude h
  · cases h

/-- A run that ends with a result leaves its state behind, and no outcome but that result. -/
theorem run_of_ok (before : Session) {node : Node} {flow : Flow} {t : State}
    (evaluated : evaluate s.options.callDepth fuel node s.state = .ok flow t) :
    (∃ sink, (run fuel node before s).2 = { s with state := t }.withSink sink) ∧
      ∀ outcome, (run fuel node before s).1 = .done outcome →
        outcome = .evaluated flow.printable? := by
  unfold run
  rw [evaluated]
  dsimp only
  cases flow.printable? with
  | none => exact ⟨(conclude_eq _ _).1, fun outcome h => eq_of_conclude h⟩
  | some z =>
    refine ⟨?_, fun outcome h => eq_of_report id h⟩
    dsimp only
    split
    · exact (conclude_eq _ _).1
    · exact ⟨_, rfl⟩

/-- A run that is cut short has no outcome but its fault. -/
theorem run_of_error {before : Session} {node : Node} {halt : Halt} {t : State} {outcome : Outcome}
    (evaluated : evaluate s.options.callDepth fuel node s.state = .error halt t)
    (h : (run fuel node before s).1 = .done outcome) :
    ∃ f, halt = .fault f ∧ outcome = .faulted f := by
  unfold run at h
  rw [evaluated] at h
  split at h
  · next same => cases same
  · cases h
  · cases h
  · next f u _ same =>
    cases same
    exact ⟨f, rfl, eq_of_report id h⟩

theorem done_of_accepted (accepted : s.Accepted) {outcome : Outcome}
    (h : (s.step fuel).1 = .done outcome) : Done fuel s outcome := by
  let checked : Session := { s.advanced with scope := s.checked.1 }
  have here : s.step fuel = run fuel s.entry.node s.advanced checked := step_of_accepted accepted
  rw [here] at h
  cases evaluated : evaluate s.options.callDepth fuel s.entry.node s.state with
  | ok flow t =>
    have evaluated' : evaluate checked.options.callDepth fuel s.entry.node checked.state =
        .ok flow t := evaluated
    obtain ⟨session, only⟩ := run_of_ok s.advanced evaluated'
    rw [only outcome h]
    refine .evaluated accepted evaluated ?_
    rw [here]
    exact session
  | error halt t =>
    have evaluated' : evaluate checked.options.callDepth fuel s.entry.node checked.state =
        .error halt t := evaluated
    obtain ⟨f, rfl, rfl⟩ := run_of_error evaluated' h
    exact .faulted accepted evaluated

/-! ## Entries that are not run -/

/-- A step that has run nothing. -/
def Unrun (fuel : Nat) (s : Session) (r : Step × Session) : Prop :=
  r.2.environment = s.environment ∧ ∀ outcome, r.1 = .done outcome → Done fuel s outcome

theorem Unrun.conclude (t : Session) (same : t.environment = s.environment) {outcome : Outcome}
    (done : Done fuel s outcome) : Unrun fuel s (t.conclude outcome) := by
  obtain ⟨sink, session⟩ := (conclude_eq outcome t).1
  refine ⟨?_, fun other h => ?_⟩
  · rw [session]
    exact same
  · rw [eq_of_conclude h]
    exact done

/-- Lines are written, and then the step ends with an outcome unless they are refused. -/
theorem Unrun.report (t : Session) (lines : List String) (same : t.environment = s.environment)
    (next : Session → Session) (kept : ∀ t, (next t).environment = t.environment)
    {outcome : Outcome}
    (done : Done fuel s outcome) :
    Unrun fuel s (match (t.writeLines lines).1 with
      | none => (next (t.writeLines lines).2).conclude outcome
      | some cause => (.failed (.output cause), (t.writeLines lines).2)) := by
  have written : (t.writeLines lines).2.environment = s.environment := same
  split
  · exact .conclude _ ((kept _).trans written) done
  · exact ⟨same, fun _ h => nomatch h⟩

/-- An entry with mistakes is reported and not run. -/
theorem unrun_of_mistaken (examined : s.Examined) (wrong : s.checked.2 ≠ []) :
    Unrun fuel s (s.step fuel) := by
  rw [step_of_mistaken examined wrong]
  let checked : Session := { s.advanced with scope := s.checked.1 }
  have same : checked.environment = s.environment := rfl
  exact .report checked _ same (fun t => { t with scope := s.scope }) (fun _ => rfl) .rejected

theorem unrun_or_examined (fuel : Nat) (s : Session) :
    Unrun fuel s (s.step fuel) ∨ s.Examined := by
  have same : s.advanced.environment = s.environment := rfl
  unfold step
  dsimp only
  split
  · exact .inl ⟨rfl, fun _ h => nomatch h⟩
  · next readable =>
    split
    · exact .inl (.conclude s.advanced same .finished)
    · next notEnd =>
      split
      · exact .inl (.report s.advanced _ same id (fun _ => rfl) .rejected)
      · next clean =>
        split
        · exact .inl (.conclude s.advanced same .empty)
        · next notEmpty =>
          refine .inr ⟨readable, ?_, ?_, ?_⟩
          · simpa [entry] using notEnd
          · simpa [entry] using clean
          · simpa [entry] using notEmpty

/-- A step runs nothing, or it runs an accepted entry. -/
theorem unrun_or_accepted (fuel : Nat) (s : Session) :
    Unrun fuel s (s.step fuel) ∨ s.Accepted := by
  rcases unrun_or_examined fuel s with unrun | examined
  · exact .inl unrun
  · by_cases right : s.checked.2 = []
    · exact .inr ⟨examined, right⟩
    · exact .inl (unrun_of_mistaken examined right)

/-- An outcome tells what the step has done. -/
theorem step_done {outcome : Outcome} (h : (s.step fuel).1 = .done outcome) :
    Done fuel s outcome := by
  rcases unrun_or_accepted fuel s with unrun | accepted
  · exact unrun.2 outcome h
  · exact done_of_accepted accepted h

/-- Only an accepted entry is evaluated, and its run leaves its state behind. -/
theorem run_of_evaluated {shown : Option Number}
    (h : (s.step fuel).1 = .done (.evaluated shown)) :
    s.Accepted ∧ ∃ flow t, evaluate s.options.callDepth fuel s.entry.node s.state = .ok flow t ∧
      ∃ sink, (s.step fuel).2 =
        { s.advanced with scope := s.checked.1, state := t }.withSink sink := by
  generalize same : Outcome.evaluated shown = outcome at h
  cases step_done h with
  | evaluated accepted run session => exact ⟨accepted, _, _, run, session⟩
  | _ => cases same

/-- Only an accepted entry runs into a fault. -/
theorem run_of_faulted {f : Fault} (h : (s.step fuel).1 = .done (.faulted f)) :
    s.Accepted ∧
      ∃ t, evaluate s.options.callDepth fuel s.entry.node s.state = .error (.fault f) t := by
  cases step_done h with
  | faulted accepted run => exact ⟨accepted, _, run⟩

end ComplexScript.Session
