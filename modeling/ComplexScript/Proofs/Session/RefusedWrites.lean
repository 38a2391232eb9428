import ComplexScript.Proofs.Session.Consistency
set_option autoImplicit false

/-!
# Writes that are refused

A step gives up when the output refuses a line of the report on an entry's mistakes, or a write of
the entry's own run (`Session.Refused`).  It leaves the functions and the signatures as they were
and every variable that the entry does not assign (`refused_write_leaves_unassigned`), but not all
that was before: a variable that the check has come to know stays known, and one that the run has
bound stays bound (`refused_write_leaves_changes`).
-/

namespace ComplexScript.Session

open ComplexScript.Machine
open ComplexScript.Program

variable {s t : Session} {fuel : Nat} {cause : String}

/-- The step comes to a write that the output refuses: of the report on the mistakes in its entry,
or in the run of the entry. -/
inductive Refused (fuel : Nat) (s : Session) (cause : String) : Prop where
  | report (examined : s.Examined) (wrong : s.checked.2 ≠ [])
    (refused : (s.writeLines (s.checked.2.map Mistake.message)).1 = some cause)
  | print (accepted : s.Accepted) {u : State}
    (run : evaluate s.options.callDepth fuel s.entry.node s.state =
      .error (.fault (.output cause)) u)

/-! ## All but some variables -/

/-- Two sessions know and hold the same, as far as it is not about some variables. -/
structure SameBut (names : List String) (s t : Session) : Prop where
  functions : t.environment.functions = s.environment.functions
  calls : t.environment.calls = s.environment.calls
  signatures : t.scope.signatures = s.scope.signatures
  globals : ∀ x : String, x ∉ names → t.environment.globals[x]? = s.environment.globals[x]?
  initialized : ∀ x, x ∉ names → t.scope.isInitialized x = s.scope.isInitialized x

/-- Sessions that are the same but for some variables are the same if these are. -/
theorem SameBut.eq_iff {names : List String} (same : SameBut names s t) :
    (t.environment = s.environment ∧ t.scope = s.scope) ↔
      ∀ x ∈ names, t.environment.globals[x]? = s.environment.globals[x]? ∧
        t.scope.isInitialized x = s.scope.isInitialized x := by
  constructor
  · rintro ⟨environment, scope⟩ x _
    rw [environment, scope]
    exact ⟨rfl, rfl⟩
  · intro h
    have globals : t.environment.globals = s.environment.globals := by
      apply Std.ExtTreeMap.ext_getElem?
      intro x
      by_cases mem : x ∈ names
      · exact (h x mem).1
      · exact same.globals x mem
    have initialized : t.scope.initialized = s.scope.initialized := by
      apply Std.ExtTreeSet.ext_contains
      intro x
      by_cases mem : x ∈ names
      · exact (h x mem).2
      · exact same.initialized x mem
    exact ⟨Environment.ext same.functions globals same.calls, Scope.ext initialized same.signatures⟩

/-- A run at the top level and a check, as far as either comes, change nothing but what the entry
assigns, apart from functions and signatures. -/
theorem SameBut.of_within (noCalls : s.environment.calls = []) (scope : t.scope = s.checked.1)
    (within : Environment.Within s.entry.node.assigned s.entry.node.Plain s.environment
      t.environment)
    (functions : t.environment.functions = s.environment.functions)
    (signatures : s.checked.1.signatures = s.scope.signatures) :
    SameBut s.entry.node.assigned s t := by
  have calls : t.environment.calls = [] := by
    apply List.length_eq_zero_iff.mp
    rw [within.depth, noCalls, List.length_nil]
  refine ⟨functions, calls.trans noCalls.symm, by rw [scope, signatures], fun x other => ?_,
    fun x other => ?_⟩
  · have same := within.others x other
    rw [Environment.get?, Environment.get?, Environment.active, Environment.active, calls,
      noCalls] at same
    exact same
  · rw [scope, Bool.eq_iff_iff, Scope.isInitialized_iff, Scope.isInitialized_iff]
    exact ⟨fun h => (Scope.mem_of_mem_check h).resolve_right other, Scope.mem_check_of_mem⟩

/-! ## Steps that come to a refused write -/

/-- A step whose report is refused has run nothing, and it keeps the scope that the check gave. -/
theorem step_of_unreported (fuel : Nat) (examined : s.Examined) (wrong : s.checked.2 ≠ [])
    (refused : (s.writeLines (s.checked.2.map Mistake.message)).1 = some cause) :
    (s.step fuel).1 = .failed (.output cause) ∧ (s.step fuel).2.scope = s.checked.1 ∧
      (s.step fuel).2.environment = s.environment := by
  have refused : ({ s.advanced with scope := s.checked.1 }.writeLines
      (s.checked.2.map Mistake.message)).1 = some cause := refused
  rw [step_of_mistaken examined wrong]
  simp only [refused, true_and]
  exact ⟨rfl, rfl⟩

/-- A step whose run is refused a write keeps all that the run has done. -/
theorem step_of_unprinted (accepted : s.Accepted) {u : State}
    (run : evaluate s.options.callDepth fuel s.entry.node s.state =
      .error (.fault (.output cause)) u) :
    (s.step fuel).1 = .failed (.output cause) ∧ (s.step fuel).2.scope = s.checked.1 ∧
      (s.step fuel).2.environment = u.environment := by
  have run : evaluate s.advanced.options.callDepth fuel s.entry.node s.advanced.state =
      .error (.fault (.output cause)) u := run
  rw [step_of_accepted accepted]
  unfold Session.run
  rw [run]
  exact ⟨rfl, rfl, rfl⟩

/-- The check of an entry with mistakes registers no function. -/
theorem Consistent.signatures_of_mistaken (h : Consistent s) (examined : s.Examined)
    (wrong : s.checked.2 ≠ []) : s.checked.1.signatures = s.scope.signatures := by
  rw [checked, Scope.checkEntry] at wrong ⊢
  rcases (h.isEntry examined).plain_or with plain | ⟨name, params, body, node, _, plain⟩
  · exact Scope.check_signatures plain
  · rw [node] at wrong ⊢
    rw [Scope.check_definition plain, if_neg wrong]

/-- A step that comes to a refused write fails for it, in the scope that the check gave.  Functions
and signatures stay as they were, and so does every variable that the entry does not assign; so
nothing is changed exactly if the variables that it assigns are neither bound otherwise nor newly
known.  If it is the report on mistakes that is refused, nothing at all is bound otherwise. -/
theorem refused_write_leaves_unassigned (reachable : Reachable s)
    (refused : Refused fuel s cause) :
    (s.step fuel).1 = .failed (.output cause) ∧ (s.step fuel).2.scope = s.checked.1 ∧
      (s.checked.2 ≠ [] → (s.step fuel).2.environment = s.environment) ∧
      SameBut s.entry.node.assigned s (s.step fuel).2 ∧
      ((s.step fuel).2.environment = s.environment ∧ (s.step fuel).2.scope = s.scope ↔
        ∀ x ∈ s.entry.node.assigned,
          (s.step fuel).2.environment.globals[x]? = s.environment.globals[x]? ∧
            (s.step fuel).2.scope.isInitialized x = s.scope.isInitialized x) := by
  have consistent := reachable.consistent
  have noCalls := reachable.calls_eq_nil
  suffices (s.step fuel).1 = .failed (.output cause) ∧ (s.step fuel).2.scope = s.checked.1 ∧
      (s.checked.2 ≠ [] → (s.step fuel).2.environment = s.environment) ∧
      SameBut s.entry.node.assigned s (s.step fuel).2 by
    obtain ⟨failed, scope, unrun, same⟩ := this
    exact ⟨failed, scope, unrun, same, same.eq_iff⟩
  cases refused with
  | report examined wrong refused =>
    obtain ⟨failed, scope, same⟩ := step_of_unreported fuel examined wrong refused
    exact ⟨failed, scope, fun _ => same, .of_within noCalls scope (.of_eq same) (congrArg _ same)
      (consistent.signatures_of_mistaken examined wrong)⟩
  | print accepted run =>
    obtain ⟨failed, scope, environment⟩ := step_of_unprinted accepted run
    have plain := consistent.plain_of_fault accepted run
    have within := Task.within s.options.callDepth fuel (.tree s.entry.node) s.state
    have after : ((Task.tree s.entry.node).run s.options.callDepth fuel).after s.state = _ :=
      Eval.after_of_error run
    rw [after, ← environment] at within
    exact ⟨failed, scope, fun wrong => absurd accepted.right wrong, .of_within noCalls scope within
      (within.functions plain consistent.agree.plain) (Scope.check_signatures plain)⟩

/-- The cause for which a write is refused in the run of the next entry. -/
def refusal? (fuel : Nat) (s : Session) : Option String :=
  match evaluate s.options.callDepth fuel s.entry.node s.state with
  | .error (.fault (.output cause)) _ => some cause
  | _ => none

theorem refused_of_refusal? (accepted : s.Accepted) (h : s.refusal? fuel = some cause) :
    Refused fuel s cause := by
  unfold refusal? at h
  split at h
  · next c u run =>
    cases h
    exact .print accepted run
  · cases h

/-- A session that has bound a variable, before an entry that shows it to an output which refuses
every write. -/
def silenced : Session :=
  ((Session.start ⟨[.line "x = 1\n", .line "print(x)\n"], []⟩ {}
    { writeRefusal := fun _ => some "full" }).step 9).2

theorem silenced_leaves_unassigned :
    (silenced.step 99).1 = .failed (.output "full") ∧
      (silenced.step 99).2.environment = silenced.environment ∧
      (silenced.step 99).2.scope = silenced.scope := by
  have reachable : Reachable silenced := .step 9 (.start _ _ _) (by decide +kernel)
  have examined : silenced.Examined :=
    ⟨by decide +kernel, by decide +kernel, by decide +kernel, by decide +kernel⟩
  have accepted : silenced.Accepted := ⟨examined, by decide +kernel⟩
  have refused : Refused 99 silenced "full" := refused_of_refusal? accepted (by decide +kernel)
  obtain ⟨failed, _, _, _, same⟩ := refused_write_leaves_unassigned reachable refused
  have assigned : silenced.entry.node.assigned = [] := by decide +kernel
  rw [assigned] at same
  exact ⟨failed, same.mpr fun x mem => absurd mem List.not_mem_nil⟩

/-- A session before an entry that uses a variable which is not known, and whose output refuses
every write. -/
def unreported : Session :=
  Session.start ⟨[.line "y = z\n"], []⟩ {} { writeRefusal := fun _ => some "full" }

/-- A session that has bound a variable, before an entry that binds it again and then shows it to an
output which refuses every write. -/
def interrupted : Session :=
  ((Session.start ⟨[.line "x = 1\n", .line "if (1) { x = 2; print(x) }\n"], []⟩ {}
    { writeRefusal := fun _ => some "full" }).step 9).2

/-- What a refused write leaves behind: a variable known that nothing has assigned, and a variable
bound to what the entry had come to bind it to. -/
theorem refused_write_leaves_changes :
    (Reachable unreported ∧ Refused 99 unreported "full" ∧
        (unreported.step 99).1 = .failed (.output "full") ∧
        unreported.scope.isInitialized "y" = false ∧
        (unreported.step 99).2.scope.isInitialized "y" = true ∧
        (unreported.step 99).2.environment.globals["y"]? = none) ∧
      Reachable interrupted ∧ Refused 99 interrupted "full" ∧
        (interrupted.step 99).1 = .failed (.output "full") ∧
        interrupted.environment.globals["x"]? = some .one ∧
        (interrupted.step 99).2.environment.globals["x"]?.map (·.render) = some "2.0" := by
  have examined : unreported.Examined :=
    ⟨by decide +kernel, by decide +kernel, by decide +kernel, by decide +kernel⟩
  have examined' : interrupted.Examined :=
    ⟨by decide +kernel, by decide +kernel, by decide +kernel, by decide +kernel⟩
  have accepted : interrupted.Accepted := ⟨examined', by decide +kernel⟩
  refine ⟨⟨.start _ _ _, .report examined (by decide +kernel) (by decide +kernel),
    by decide +kernel, by decide +kernel, by decide +kernel, by decide +kernel⟩, ?_⟩
  exact ⟨.step 9 (.start _ _ _) (by decide +kernel),
    refused_of_refusal? accepted (by decide +kernel), by decide +kernel, by decide +kernel,
    by decide +kernel⟩

end ComplexScript.Session
