import ComplexScript.Proofs.Entry.Budget
import ComplexScript.Proofs.Machine.Sinks
import ComplexScript.Proofs.Session.Responses
set_option autoImplicit false

/-!
# Limits matter only when they are met

Three limits bound a session: how deep a text may be nested, how long its chains may be, and how
many calls may be in progress.  A session in which no entry is given up and no run is cut short over
them goes on in the same way under greater limits (`greater_limits_same_session`).  Reading is
compared by two readers of which the second is lost where the first gives up (`next_of_greater`),
and running by `evaluate_of_greater`; the rest of a step does not look at the limits.

That a run was cut short over its calls shows in how its step ends, unless the output refuses to
take the report on it.  Where it refuses nothing (`Sink.RefusesNothing`) that cannot be.
-/

namespace ComplexScript

open ComplexScript.Machine
open ComplexScript.Program

namespace Entry

open Read

/-- Each of the limits is at least as great. -/
def Limits.Le (limits limits' : Limits) : Prop :=
  limits.nesting ≤ limits'.nesting ∧ limits.chain ≤ limits'.chain

instance (limits limits' : Limits) : Decidable (limits.Le limits') :=
  inferInstanceAs (Decidable (_ ∧ _))

/-- An entry that is not given up is read in the same way under greater limits. -/
theorem next_of_greater {limits limits' : Limits} (le : limits.Le limits') {r : Reader}
    (sane : r.Sane) (sound : r.cursor.Sound)
    (shallow : ∀ d ∈ (next limits r).1.diagnostics, d.cause ≠ .nestingTooDeep) :
    next limits' r = next limits r := by
  obtain ⟨node, t, run, read, _⟩ := next_read limits sound
  have start : Reader.Candid { r with abandoned := false } := ⟨sane, nofun⟩
  have sim := invariant_candid.lossy
  have admits : Admits
      (fun r o => r.Candid ∧ (o = some r ∨ o = none ∧ r.abandoned = true))
      { limits := limits } { limits := limits' } :=
    ⟨rfl, rfl, rfl, .inr ⟨le.1, le.2, fun r _ h abandoned => ⟨h.1, .inr ⟨rfl, abandoned⟩⟩⟩⟩
  obtain ⟨_, _, ⟨candid, kept⟩, same⟩ :=
    entry_sim sim (Nat.le_refl (budget r)) admits _ _ ⟨start, .inl rfl⟩ node t run
  rw [read] at shallow
  rcases kept with rfl | ⟨_, abandoned⟩
  · obtain ⟨_, ⟨⟩, run'⟩ := same t rfl
    rw [read, next_of_entry run']
  · obtain ⟨d, mem, tooDeep⟩ := candid.gaveUp abandoned
    exact absurd tooDeep (shallow d mem)

end Entry

namespace Session

variable {s : Session} {fuel : Nat}

/-! ## Steps and what they read -/

/-- Each of the limits is at least as great. -/
def Options.Le (options options' : Options) : Prop :=
  options.callDepth ≤ options'.callDepth ∧ options.limits.Le options'.limits

instance (options options' : Options) : Decidable (options.Le options') :=
  inferInstanceAs (Decidable (_ ∧ _))

/-- The session under other limits. -/
def withOptions (options : Options) (s : Session) : Session := { s with options := options }

/-- The end of a step under other limits. -/
def underOptions (options : Options) (r : Step × Session) : Step × Session :=
  (r.1, r.2.withOptions options)

/-! ## Steps that meet no limit -/

/-- A step meets none of the limits of its session. -/
structure Unlimited (fuel : Nat) (s : Session) : Prop where
  /-- its entry is not given up as nested too deep -/
  shallow : ∀ d ∈ s.entry.diagnostics, d.cause ≠ .nestingTooDeep
  /-- it does not end in a fault over the depth of calls -/
  notFaulted : ∀ n, (s.step fuel).1 ≠ .done (.faulted (.callDepthExceeded n))

/-- A step does not fail because the output refuses to take the report on a fault over the depth of
calls. -/
def Tells (fuel : Nat) (s : Session) : Prop :=
  s.Accepted → ∀ failure, (s.step fuel).1 = .failed failure →
    ∀ n t, evaluate s.options.callDepth fuel s.entry.node s.state ≠
      .error (.fault (.callDepthExceeded n)) t

/-- A run that is cut short by a fault ends its step with the fault, unless the output refuses. -/
theorem run_of_fault (before : Session) {node : Node} {f : Fault} {t : State}
    (notOutput : ∀ cause, f ≠ .output cause)
    (evaluated : evaluate s.options.callDepth fuel node s.state = .error (.fault f) t) :
    (run fuel node before s).1 = .done (.faulted f) ∨
      ∃ failure, (run fuel node before s).1 = .failed failure := by
  unfold run
  rw [evaluated]
  split
  · next same => cases same
  · next same => cases same
  · next cause _ same =>
    cases same
    exact absurd rfl (notOutput cause)
  · next same =>
    cases same
    dsimp only
    split
    · exact (conclude_eq _ _).2
    · exact .inr ⟨_, rfl⟩

theorem Unlimited.unhit (unlimited : Unlimited fuel s) (tells : Tells fuel s)
    (accepted : s.Accepted) (n : Nat) (t : State) :
    evaluate s.options.callDepth fuel s.entry.node s.state ≠
      .error (.fault (.callDepthExceeded n)) t := by
  intro evaluated
  have ended := run_of_fault (s := { s.advanced with scope := s.checked.1 }) s.advanced
    (f := .callDepthExceeded n) nofun evaluated
  rw [← step_of_accepted accepted] at ended
  rcases ended with faulted | ⟨failure, failed⟩
  · exact unlimited.notFaulted n faulted
  · exact tells accepted failure failed n t evaluated

/-- A step that meets no limit is the same under greater ones. -/
theorem step_withOptions {options : Options} (le : s.options.Le options) (sane : s.reader.Sane)
    (sound : s.reader.cursor.Sound) (unlimited : Unlimited fuel s) (tells : Tells fuel s) :
    (s.withOptions options).step fuel = underOptions options (s.step fuel) := by
  have read : Entry.next options.limits s.reader = Entry.next s.options.limits s.reader :=
    Entry.next_of_greater le.2 sane sound unlimited.shallow
  have entry : (s.withOptions options).entry = s.entry := congrArg Prod.fst read
  have cut : (s.withOptions options).interruption? = s.interruption? :=
    congrArg (fun next => next.2.cursor.failure) read
  have advanced : (s.withOptions options).advanced =
      s.advanced.inSetting options s.advanced.reader :=
    congrArg (fun next : Entry × Entry.Reader =>
      { s with options := options,
               reader := { next.2 with cursor := next.2.cursor.takeFailure.2 } }) read
  rw [step_inSetting entry cut advanced fun accepted =>
    evaluate_of_greater le.1 (unlimited.unhit tells accepted s.options.callDepth)]
  have kept : (s.step fuel).2.reader = s.advanced.reader := (step_keeps fuel s).2
  rw [endInSetting, ← kept]
  rfl

/-! ## Output that refuses nothing -/

theorem conclude_refusesNothing (nothing : s.sink.RefusesNothing) (outcome : Outcome) :
    (s.conclude outcome).1 = .done outcome ∧ (s.conclude outcome).2.sink.RefusesNothing := by
  obtain ⟨taken, after⟩ := nothing.flush
  unfold conclude
  dsimp only
  rw [taken]
  exact ⟨rfl, after⟩

theorem writeLines_refusesNothing (nothing : s.sink.RefusesNothing) (lines : List String) :
    (s.writeLines lines).1 = none ∧ (s.writeLines lines).2.sink.RefusesNothing :=
  nothing.writeAll _

/-- Lines are written, and the step goes on. -/
theorem report_refusesNothing (nothing : s.sink.RefusesNothing) (lines : List String)
    (next : Session → Session)
    (kept : ∀ t : Session, t.sink.RefusesNothing → (next t).sink.RefusesNothing)
    (outcome : Outcome) :
    let r : Step × Session := match (s.writeLines lines).1 with
      | none => (next (s.writeLines lines).2).conclude outcome
      | some cause => (.failed (.output cause), (s.writeLines lines).2)
    r.1 = .done outcome ∧ r.2.sink.RefusesNothing := by
  obtain ⟨taken, after⟩ := writeLines_refusesNothing nothing lines
  dsimp only
  rw [taken]
  exact conclude_refusesNothing (kept _ after) outcome

/-- Every fault but one of the output is the outcome of a run that it cuts short. -/
theorem run_refusesNothing (nothing : s.sink.RefusesNothing) (fuel : Nat) (node : Node)
    (before : Session) :
    (run fuel node before s).2.sink.RefusesNothing ∧
      ∀ f t, (∀ cause, f ≠ .output cause) →
        evaluate s.options.callDepth fuel node s.state = .error (.fault f) t →
        (run fuel node before s).1 = .done (.faulted f) := by
  have after : ((evaluate s.options.callDepth fuel node).after s.state).sink.RefusesNothing :=
    evaluate_refusesNothing nothing
  unfold run
  split
  · next flow t evaluated =>
    rw [Eval.after_of_ok evaluated] at after
    refine ⟨?_, fun f t _ same => nomatch evaluated.symm.trans same⟩
    dsimp only
    split
    · exact (conclude_refusesNothing (s := { s with state := t }) after _).2
    · exact (report_refusesNothing (s := { s with state := t }) after _ id (fun _ h => h) _).2
  · next t evaluated =>
    rw [Eval.after_of_error evaluated] at after
    exact ⟨after, fun f t _ same => nomatch evaluated.symm.trans same⟩
  · next cause t evaluated =>
    rw [Eval.after_of_error evaluated] at after
    refine ⟨after, fun f u other same => ?_⟩
    cases evaluated.symm.trans same
    exact absurd rfl (other cause)
  · next fault t notOutput evaluated =>
    rw [Eval.after_of_error evaluated] at after
    let undone : Session := { s with
      scope := before.scope, state := { t with environment := before.environment.topLevel } }
    obtain ⟨done, after⟩ := report_refusesNothing (s := undone) after
      ["Runtime error: " ++ fault.message] id (fun _ h => h) (.faulted fault)
    refine ⟨after, fun f u _ same => ?_⟩
    cases evaluated.symm.trans same
    exact done

theorem step_refusesNothing (nothing : s.sink.RefusesNothing) (fuel : Nat) :
    (s.step fuel).2.sink.RefusesNothing := by
  have advanced : s.advanced.sink.RefusesNothing := nothing
  unfold step
  dsimp only
  split
  · exact nothing
  split
  · exact (conclude_refusesNothing (s := s.advanced) advanced _).2
  split
  · exact (report_refusesNothing (s := s.advanced) advanced _ id (fun _ h => h) .rejected).2
  split
  · exact (conclude_refusesNothing (s := s.advanced) advanced _).2
  let checked : Session := { s.advanced with scope := s.checked.1 }
  have nothing : checked.sink.RefusesNothing := nothing
  unfold process
  dsimp only
  split
  · exact (run_refusesNothing (s := checked) nothing fuel _ s.advanced).1
  · exact (report_refusesNothing nothing _ (fun t => { t with scope := s.scope }) (fun _ h => h)
      .rejected).2

/-- Where the output refuses nothing, each fault over the depth of calls is told. -/
theorem tells_of_refusesNothing (nothing : s.sink.RefusesNothing) : Tells fuel s := by
  intro accepted failure failed n t evaluated
  rw [step_of_accepted accepted] at failed
  have checked : Sink.RefusesNothing { s.advanced with scope := s.checked.1 }.sink := nothing
  have faulted := (run_refusesNothing checked fuel s.entry.node s.advanced).2
    (.callDepthExceeded n) t nofun evaluated
  cases failed.symm.trans faulted

theorem after_refusesNothing {feed : Text.Feed} {options : Options} {sink : Sink}
    (nothing : sink.RefusesNothing) (fuel : Nat → Nat) (n : Nat) :
    ((start feed options sink).after fuel n).sink.RefusesNothing := by
  induction n with
  | zero => exact nothing
  | succ n ih => exact step_refusesNothing ih (fuel n)

/-! ## Sessions -/

/-- A session in which no step meets a limit makes the same steps under greater limits, and is the
same after each of them but for its limits.  Its output refuses nothing, or at least no report on a
fault over the depth of calls. -/
theorem greater_limits_same_session (feed : Text.Feed) (sink : Sink) {options options' : Options}
    (le : options.Le options') (fuel : Nat → Nat) (n : Nat)
    (unlimited : ∀ m < n, Unlimited (fuel m) ((start feed options sink).after fuel m))
    (tells : sink.RefusesNothing ∨
      ∀ m < n, Tells (fuel m) ((start feed options sink).after fuel m)) :
    (∀ m < n, (((start feed options' sink).after fuel m).step (fuel m)).1 =
      (((start feed options sink).after fuel m).step (fuel m)).1) ∧
    ∀ m ≤ n, (start feed options' sink).after fuel m =
      ((start feed options sink).after fuel m).withOptions options' := by
  have sameStep : ∀ m < n,
      (((start feed options sink).after fuel m).withOptions options').step (fuel m) =
        underOptions options' (((start feed options sink).after fuel m).step (fuel m)) := by
    intro m less
    obtain ⟨kept, sane, sound⟩ := after_readable feed options sink fuel m
    have told : Tells (fuel m) ((start feed options sink).after fuel m) :=
      tells.elim (fun nothing => tells_of_refusesNothing (after_refusesNothing nothing fuel m))
        fun tells => tells m less
    exact step_withOptions (by rw [kept]; exact le) sane sound (unlimited m less) told
  have sameSession : ∀ m ≤ n, (start feed options' sink).after fuel m =
      ((start feed options sink).after fuel m).withOptions options' := by
    intro m
    induction m with
    | zero => exact fun _ => rfl
    | succ m ih =>
      intro less
      rw [Session.after, ih (Nat.le_of_lt less), sameStep m less]
      rfl
  refine ⟨fun m less => ?_, sameSession⟩
  rw [sameSession m (Nat.le_of_lt less), sameStep m less]
  rfl

/-- A step that ends with an outcome other than a fault over the depth of calls, and whose entry is
not too deep, meets no limit. -/
theorem unlimited_of_done (outcome : Outcome) (done : (s.step fuel).1 = .done outcome)
    (other : ∀ n, outcome ≠ .faulted (.callDepthExceeded n))
    (shallow : ∀ d ∈ s.entry.diagnostics, d.cause ≠ .nestingTooDeep) : Unlimited fuel s where
  shallow := shallow
  notFaulted n faulted := by
    rw [done] at faulted
    cases faulted
    exact other n rfl

/-- Limits that the text below just keeps. -/
def tight : Options := { callDepth := 3, limits := { nesting := 2, chain := 1 } }

/-- A function that calls itself with a smaller argument, a use of it that does so until three calls
are in progress, a group without its end, and a division by zero. -/
def withinLimits : Text.Feed :=
  ⟨[.line "fun f(n) { if (n) { return f(n - 1) } return 7 }\n", .line "a = f(2)\n",
    .line "((a\n", .line "a / 0\n"], []⟩

theorem withinLimits_same_session :
    (((start withinLimits).after (fun _ => 99) 3).step 99).1 =
      (((start withinLimits tight).after (fun _ => 99) 3).step 99).1 ∧
    (start withinLimits).after (fun _ => 99) 4 =
      ((start withinLimits tight).after (fun _ => 99) 4).withOptions {} := by
  have le : tight.Le {} := by decide
  have unlimited : ∀ m < 4,
      Unlimited 99 ((start withinLimits tight).after (fun _ => 99) m) := by
    intro m less
    match m with
    | 0 | 1 =>
      exact unlimited_of_done (.evaluated none) (by decide +kernel) nofun (by decide +kernel)
    | 2 => exact unlimited_of_done .rejected (by decide +kernel) nofun (by decide +kernel)
    | 3 =>
      exact unlimited_of_done (.faulted (.arithmetic .divisionByZero)) (by decide +kernel) nofun
        (by decide +kernel)
  have nothing : Sink.RefusesNothing {} := ⟨fun _ => rfl, fun _ => rfl⟩
  obtain ⟨steps, sessions⟩ :=
    greater_limits_same_session withinLimits {} le (fun _ => 99) 4 unlimited (.inl nothing)
  exact ⟨steps 3 (by decide), sessions 4 (Nat.le_refl 4)⟩

end Session

end ComplexScript
