import ComplexScript.Proofs.Entry.Trees
import ComplexScript.Proofs.Scope.Checking
import ComplexScript.Proofs.Session.Outcomes
set_option autoImplicit false

/-!
# The scope and the environment agree

What the check of an entry takes for known is what running the entries so far has come to: the same
functions with the same numbers of parameters, and at least the variables that are bound.  The check
follows the text and the run follows the values, so the two are tied together by what they have in
common, the variables that a tree assigns (`Node.assigned`): a run binds no others, and a check
without mistakes knows them all.  `Session.Consistent` is the invariant, `Reachable.consistent` the
law.
-/

namespace ComplexScript.Session

open ComplexScript.Machine
open ComplexScript.Program

variable {s : Session} {fuel : Nat}

/-- The names known and the names defined and bound are the same, as far as both are kept. -/
structure Agree (scope : Scope) (e : Environment) : Prop where
  signatures : ∀ name : String,
    scope.signatures[name]? = e.functions[name]?.map (·.params.length)
  free : ∀ (name : String) (f : Function), e.functions[name]? = some f →
    Builtin.ofName? name = none
  plain : e.Plain
  bound : ∀ x, e.get? x ≠ none → x ∈ scope.initialized

/-- What is true of a session between steps. -/
structure Consistent (s : Session) : Prop where
  sane : s.reader.Sane
  agree : Agree s.scope s.environment

/-! ## Entries that are checked -/

/-- The tree of an entry that is checked is a plain one or a function. -/
theorem Consistent.isEntry (h : Consistent s) (examined : s.Examined) : s.entry.node.IsEntry :=
  (Entry.next_sane s.options.limits h.sane).2.1 examined.clean

/-- Only the run of a plain entry can end in a fault: a definition has none. -/
theorem Consistent.plain_of_fault (h : Consistent s) (accepted : s.Accepted) {f : Fault} {u : State}
    (run : evaluate s.options.callDepth fuel s.entry.node s.state = .error (.fault f) u) :
    s.entry.node.Plain := by
  rcases (h.isEntry accepted.toExamined).plain_or with plain | ⟨_, _, _, node, _⟩
  · exact plain
  · rw [node] at run
    cases fuel <;> cases run

/-- Checking an entry that is not run, because it has mistakes, defines nothing. -/
theorem Agree.of_mistaken {scope : Scope} {e : Environment} (agree : Agree scope e) {node : Node}
    (accepted : node.IsEntry) (wrong : (scope.checkEntry node).2 ≠ []) :
    Agree (scope.checkEntry node).1 e := by
  cases accepted with
  | plain plain =>
    have same : (scope.checkEntry node).1.signatures = scope.signatures :=
      Scope.check_signatures plain
    refine ⟨?_, agree.free, agree.plain, fun x h => Scope.mem_check_of_mem (agree.bound x h)⟩
    rw [same]
    exact agree.signatures
  | @definition name params body free plain =>
    have result : (scope.checkEntry (.definition name params body)).1 =
        if (scope.checkEntry (.definition name params body)).2 = [] then
          scope.define name params.length
        else scope := Scope.check_definition plain
    rw [if_neg wrong] at result
    rw [result]
    exact agree

/-! ## Entries that are run -/

/-- Running a plain tree without mistakes binds only what its check knows. -/
theorem Agree.of_plain {scope : Scope} {e e' : Environment} (agree : Agree scope e) {node : Node}
    (plain : node.Plain) (right : (scope.checkEntry node).2 = [])
    (within : Environment.Within node.assigned node.Plain e e') :
    Agree (scope.checkEntry node).1 e' := by
  have sameSignatures : (scope.checkEntry node).1.signatures = scope.signatures :=
    Scope.check_signatures plain
  have sameFunctions : e'.functions = e.functions := within.functions plain agree.plain
  refine ⟨?_, ?_, ?_, ?_⟩
  · rw [sameSignatures, sameFunctions]
    exact agree.signatures
  · rw [sameFunctions]
    exact agree.free
  · intro name f found
    rw [sameFunctions] at found
    exact agree.plain name f found
  · intro x bound
    by_cases assigned : x ∈ node.assigned
    · exact Scope.mem_check_of_assigned right assigned
    · rw [within.others x assigned] at bound
      exact Scope.mem_check_of_mem (agree.bound x bound)

/-- Defining a function without mistakes adds it on both sides. -/
theorem Agree.of_definition {scope : Scope} {e : Environment} (agree : Agree scope e)
    {name : String} {params : List String} {body : Node} (free : Builtin.ofName? name = none)
    (plain : body.Plain) (right : (scope.checkEntry (.definition name params body)).2 = []) :
    Agree (scope.checkEntry (.definition name params body)).1 (e.define name ⟨params, body⟩) := by
  have result : (scope.checkEntry (.definition name params body)).1 =
      if (scope.checkEntry (.definition name params body)).2 = [] then
        scope.define name params.length
      else scope := Scope.check_definition plain
  rw [if_pos right] at result
  rw [result]
  refine ⟨fun x => ?_, fun x f found => ?_, fun x f found => ?_, agree.bound⟩
  · rw [Scope.define, Environment.define, Std.ExtTreeMap.getElem?_insert,
      Std.ExtTreeMap.getElem?_insert]
    split
    · rfl
    · exact agree.signatures x
  · rw [Environment.define, Std.ExtTreeMap.getElem?_insert] at found
    split at found
    · next same => rw [← Std.LawfulEqCmp.eq_of_compare same, free]
    · exact agree.free x f found
  · rw [Environment.define, Std.ExtTreeMap.getElem?_insert] at found
    split at found
    · cases found
      exact plain
    · exact agree.plain x f found

/-- Running an entry without mistakes keeps scope and environment together, also when it ends early
because the output refuses a write. -/
theorem Agree.of_run {scope : Scope} {state : State} (agree : Agree scope state.environment)
    {node : Node} (accepted : node.IsEntry) (right : (scope.checkEntry node).2 = [])
    {limit fuel : Nat} (finished : ∀ t, evaluate limit fuel node state ≠ .error .outOfFuel t) :
    Agree (scope.checkEntry node).1 ((evaluate limit fuel node).after state).environment := by
  cases accepted with
  | plain plain => exact agree.of_plain plain right (Task.within limit fuel (.tree node) state)
  | definition free plain =>
    cases fuel with
    | zero => exact absurd rfl (finished state)
    | succ fuel => exact agree.of_definition free plain right

/-! ## Reachable sessions -/

theorem Consistent.start (feed : Text.Feed) (options : Options) (sink : Sink) :
    Consistent (Session.start feed options sink) where
  sane := fun _ found => nomatch found
  agree :=
    { signatures := fun name => by
        simp [Session.start, Session.environment]
      free := fun name f found => by
        simp [Session.start, Session.environment] at found
      plain := fun name f found => by
        simp [Session.start, Session.environment] at found
      bound := fun x found => by
        simp [Session.start, Session.environment, Environment.get?, Environment.active] at found }

/-- Every step keeps a session consistent, whatever it ends with. -/
theorem Consistent.step (h : Consistent s) (noCalls : s.environment.calls = [])
    (finished : (s.step fuel).1 ≠ .unfinished) : Consistent (s.step fuel).2 := by
  obtain ⟨sane, clean, _⟩ := Entry.next_sane s.options.limits h.sane
  have sane : s.advanced.reader.Sane := sane
  cases step_effect fuel s with
  | untouched session =>
    obtain ⟨sink, session⟩ := session
    rw [session]
    exact ⟨sane, h.agree⟩
  | mistaken noComplaints wrong failed session =>
    obtain ⟨sink, session⟩ := session
    rw [session]
    exact ⟨sane, h.agree.of_mistaken (clean noComplaints) wrong⟩
  | ran noComplaints right ended result session =>
    obtain ⟨sink, session⟩ := session
    rw [session]
    exact ⟨sane, h.agree.of_run (clean noComplaints) right ended⟩
  | undone session =>
    obtain ⟨sink, session⟩ := session
    rw [session, topLevel_eq_self noCalls]
    exact ⟨sane, h.agree⟩
  | unfinished unfinished => exact absurd unfinished finished

theorem Reachable.consistent (reachable : Reachable s) : Consistent s := by
  induction reachable with
  | start feed options sink => exact .start feed options sink
  | step fuel before finished ih => exact ih.step before.calls_eq_nil finished

/-- In every reachable session no call is left in progress; a name other than that of a built-in
function has the arity `k` in the scope if and only if a function with `k` parameters is defined
under it; no function has the name of a built-in one; and every top-level variable that is bound
is known to be initialized. -/
theorem scope_agrees_with_environment (reachable : Reachable s) :
    s.environment.calls = [] ∧
      (∀ name, Builtin.ofName? name = none → ∀ k, s.scope.arity? name = some k ↔
        ∃ f, s.environment.functions[name]? = some f ∧ f.params.length = k) ∧
      (∀ b : Builtin, s.environment.functions[b.name]? = none) ∧
      ∀ x, s.environment.globals[x]? ≠ none → s.scope.isInitialized x = true := by
  have noCalls := reachable.calls_eq_nil
  obtain ⟨_, agree⟩ := reachable.consistent
  refine ⟨noCalls, fun name free k => ?_, fun b => ?_, fun x bound => ?_⟩
  · rw [Scope.arity?, free, agree.signatures name]
    simp
  · cases found : s.environment.functions[b.name]? with
    | none => rfl
    | some f =>
      have free := agree.free b.name f found
      rw [Builtin.ofName?_name] at free
      cases free
  · refine agree.bound x ?_
    rw [Environment.get?, Environment.active, noCalls]
    exact bound

/-- A session that has defined a function of one parameter, and then could not report that a
variable is not initialized. -/
def unheard : Session :=
  ((Session.start ⟨[.line "fun f(a) { a }\n", .line "x\n"], []⟩ {}
    { writeRefusal := fun _ => some "full" }).step 9).2.step 9 |>.2

theorem function_known_when_unheard :
    ∃ f, unheard.environment.functions["f"]? = some f ∧ f.params.length = 1 := by
  have reachable : Reachable unheard :=
    .step 9 (.step 9 (.start _ _ _) (by decide +kernel)) (by decide +kernel)
  exact ((scope_agrees_with_environment reachable).2.1 "f" (by decide) 1).mp (by decide +kernel)

end ComplexScript.Session
