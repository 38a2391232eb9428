import ComplexScript.Proofs.Machine.Parts
import ComplexScript.Proofs.Session.Consistency
import ComplexScript.Proofs.Session.Outcomes
set_option autoImplicit false

/-!
# Calls find their functions

The check of an entry looks at the calls in its text once.  By the time that a body is run, its
functions may have been defined again, and an entry between may have been rejected or undone.  The
calls in the bodies of all functions are of defined functions all the same (`Session.Linked`),
because no step takes a name out of the functions; so no call that a run comes to is of a function
that does not exist (`calls_find_functions`).
-/

namespace ComplexScript.Session

open ComplexScript.Machine
open ComplexScript.Program

variable {s : Session} {fuel : Nat}

/-- A known signature is that of a function. -/
theorem Agree.function_of_signature {scope : Scope} {e : Environment} (agree : Agree scope e)
    {name : String} {k : Nat} (known : scope.signatures[name]? = some k) :
    ∃ f, e.functions[name]? = some f ∧ f.params.length = k := by
  rw [agree.signatures] at known
  exact Option.map_eq_some_iff.mp known

/-! ## What a step does to the functions -/

/-- What a step does to the functions: it runs an accepted definition, or it leaves them as they
are. -/
inductive Redefinition (fuel : Nat) (s : Session) : Prop where
  | none (notDefined : s.Accepted → s.entry.node.Plain)
    (same : (s.step fuel).2.environment.functions = s.environment.functions)
  | one (accepted : s.Accepted) {name : String} {params : List String} {body : Node}
    (node : s.entry.node = .definition name params body) (plain : body.Plain)
    (functions : (s.step fuel).2.environment.functions =
      s.environment.functions.insert name ⟨params, body⟩)

/-- An accepted definition is defined, whatever becomes of the step. -/
theorem functions_of_definition (accepted : s.Accepted) {name : String} {params : List String}
    {body : Node} (node : s.entry.node = .definition name params body)
    (finished : (s.step fuel).1 ≠ .unfinished) :
    (s.step fuel).2.environment.functions = s.environment.functions.insert name ⟨params, body⟩ := by
  rw [step_of_accepted accepted, node] at finished ⊢
  cases fuel with
  | zero => exact absurd rfl finished
  | succ fuel =>
    let checked : Session := { s.advanced with scope := s.checked.1 }
    have evaluated : evaluate checked.options.callDepth (fuel + 1) (.definition name params body)
        checked.state = .ok .nothing
          { s.state with environment := s.environment.define name ⟨params, body⟩ } := rfl
    obtain ⟨⟨sink, session⟩, _⟩ := run_of_ok s.advanced evaluated
    rw [session]
    rfl

/-- A plain entry defines nothing, however its step ends. -/
theorem Consistent.functions_of_plain (h : Consistent s) (plain : s.entry.node.Plain)
    (finished : (s.step fuel).1 ≠ .unfinished) :
    (s.step fuel).2.environment.functions = s.environment.functions := by
  cases step_effect fuel s with
  | untouched session | mistaken _ _ _ session | undone session =>
    obtain ⟨sink, session⟩ := session
    rw [session]
    rfl
  | ran _ _ _ _ session =>
    obtain ⟨sink, session⟩ := session
    have within := Task.within s.options.callDepth fuel (.tree s.entry.node) s.state
    rw [session]
    exact within.functions plain h.agree.plain
  | unfinished unfinished => exact absurd unfinished finished

theorem Consistent.redefinition (h : Consistent s) (finished : (s.step fuel).1 ≠ .unfinished) :
    Redefinition fuel s := by
  by_cases accepted : s.Accepted
  · rcases (h.isEntry accepted.toExamined).plain_or with
      plain | ⟨name, params, body, node, _, plain⟩
    · exact .none (fun _ => plain) (h.functions_of_plain plain finished)
    · exact .one accepted node plain (functions_of_definition accepted node finished)
  · have unrun := (unrun_or_accepted fuel s).resolve_right accepted
    exact .none (fun isAccepted => absurd isAccepted accepted)
      (congrArg Environment.functions unrun.1)

/-- In the body of an accepted function, every call is of a function that is defined when the new
one is, with as many parameters as the call has arguments. -/
theorem Consistent.function_of_mem_calls (h : Consistent s) (accepted : s.Accepted) {name : String}
    {params : List String} {body : Node} (node : s.entry.node = .definition name params body)
    (plain : body.Plain) {c : String × Nat} (mem : c ∈ body.calls) :
    ∃ f, (s.environment.functions.insert name ⟨params, body⟩)[c.1]? = some f ∧
      f.params.length = c.2 := by
  have clean : (Scope.check { inFunction := true } body
      ((s.scope.define name params.length).body params)).2 = [] := by
    have right := accepted.right
    rw [checked, Scope.checkEntry, node] at right
    exact right
  have known := Scope.signature_of_mem_calls plain clean mem
  rw [Scope.body, Scope.define, Table.getElem?_insert] at known
  rw [Table.getElem?_insert]
  split
  · next same =>
    rw [if_pos same] at known
    exact ⟨_, rfl, Option.some.inj known⟩
  · next other =>
    rw [if_neg other] at known
    exact h.agree.function_of_signature known

/-! ## The calls in the bodies of functions -/

/-- The calls in the bodies of all functions are of defined functions. -/
def Linked (s : Session) : Prop :=
  ∀ (name : String) (f : Function), s.environment.functions[name]? = some f →
    ∀ c ∈ f.body.calls, s.environment.functions[c.1]? ≠ none

theorem Linked.step (linked : Linked s) (h : Consistent s)
    (finished : (s.step fuel).1 ≠ .unfinished) : Linked (s.step fuel).2 := by
  cases h.redefinition finished with
  | none _ same =>
    rw [Linked, same]
    exact linked
  | @one accepted name params body node plain functions =>
    rw [Linked, functions]
    intro x f found c mem
    rw [Table.getElem?_insert] at found
    split at found
    · cases found
      obtain ⟨g, here, _⟩ := h.function_of_mem_calls accepted node plain mem
      rw [here]
      exact Option.some_ne_none g
    · -- a name that was defined stays so
      have before := linked x f found c mem
      rw [Table.getElem?_insert]
      split
      · exact Option.some_ne_none _
      · exact before

theorem Reachable.linked (reachable : Reachable s) : Linked s := by
  induction reachable with
  | start feed options sink =>
    intro name f found
    simp [Session.start, Session.environment] at found
  | step fuel before finished ih => exact ih.step before.consistent finished

/-! ## The calls that a run comes to -/

/-- Running a definition runs nothing inside it. -/
theorem task_of_definition {limit fuel' : Nat} {name : String} {params : List String} {body : Node}
    {x t : State} {task : Task}
    (reaches : Reaches limit fuel (.tree (.definition name params body)) x fuel' task t) :
    task = .tree (.definition name params body) := by
  cases reaches with
  | here => rfl
  | inside next _ => cases next

/-- What is true of the calls of defined functions with the right number of arguments, and of the
calls in the bodies of functions, is true of every call that the run of an accepted entry
reaches. -/
theorem Consistent.calls (h : Consistent s) (accepted : s.Accepted) {P : String × Nat → Prop}
    (fitting : ∀ c : String × Nat, (∃ f, s.environment.functions[c.1]? = some f ∧
      f.params.length = c.2) → P c)
    (stored : ∀ (name : String) (f : Function), s.environment.functions[name]? = some f →
      ∀ c ∈ f.body.calls, P c)
    {fuel' : Nat} {name : String} {arguments : List Node} {t : State}
    (reaches : Reaches s.options.callDepth fuel (.tree s.entry.node) s.state fuel'
      (.tree (.call name arguments)) t) :
    t.environment.functions = s.environment.functions ∧ P (name, arguments.length) := by
  rcases (h.isEntry accepted.toExamined).plain_or with plain | ⟨_, _, _, node, _⟩
  · have here : ∀ c ∈ s.entry.node.calls, P c := fun c mem =>
      fitting c (h.agree.function_of_signature
        (Scope.signature_of_mem_calls plain accepted.right mem))
    obtain ⟨same, known⟩ := reaches.calls plain h.agree.plain here stored
    exact ⟨same, known _ List.mem_cons_self⟩
  · rw [node] at reaches
    cases task_of_definition reaches

/-- No step of a session ends in a call of a function that does not exist.  The calls in the bodies
of all functions are of defined functions, and so is every call that the run of an accepted entry
comes to, at the time it is evaluated. -/
theorem calls_find_functions (reachable : Reachable s) (fuel : Nat) :
    (∀ name, (s.step fuel).1 ≠ .done (.faulted (.undefinedFunction name))) ∧
      (∀ (name : String) (f : Function), s.environment.functions[name]? = some f →
        ∀ c ∈ f.body.calls, s.environment.functions[c.1]? ≠ none) ∧
      (s.Accepted → ∀ fuel' name arguments t,
        Reaches s.options.callDepth fuel (.tree s.entry.node) s.state fuel'
          (.tree (.call name arguments)) t → t.environment.functions[name]? ≠ none) := by
  have consistent := reachable.consistent
  have defined : s.Accepted → ∀ fuel' name arguments t,
      Reaches s.options.callDepth fuel (.tree s.entry.node) s.state fuel'
        (.tree (.call name arguments)) t → t.environment.functions[name]? ≠ none := by
    intro accepted fuel' name arguments t reaches
    obtain ⟨same, known⟩ := consistent.calls accepted
      (P := fun c => s.environment.functions[c.1]? ≠ none)
      (fun c ⟨f, found, _⟩ => by rw [found]; exact Option.some_ne_none f) reachable.linked reaches
    rw [same]
    exact known
  refine ⟨fun name faulted => ?_, reachable.linked, defined⟩
  obtain ⟨accepted, t, run⟩ := run_of_faulted faulted
  obtain ⟨fuel', node, u, reaches, arguments, rfl, unknown⟩ :=
    Task.fault_raised (.tree s.entry.node) run
  exact defined accepted fuel' name arguments u reaches unknown

/-- A session that has defined a function which calls itself, and could not report that another
definition of it calls a function that does not exist. -/
def recursive : Session :=
  ((Session.start ⟨[.line "fun f(n) { if (n > 0) { f(n - 1) } }\n", .line "fun f() { g() }\n",
    .line "f(2)\n"], []⟩ {} { writeRefusal := fun _ => some "full" }).step 9).2.step 9 |>.2

theorem recursive_calls_find_functions :
    (recursive.step 99).1 = .done (.evaluated none) ∧
      (∀ name, (recursive.step 99).1 ≠ .done (.faulted (.undefinedFunction name))) ∧
      ∃ f, recursive.environment.functions["f"]? = some f ∧
        ∀ c ∈ f.body.calls, recursive.environment.functions[c.1]? ≠ none := by
  have reachable : Reachable recursive :=
    .step 9 (.step 9 (.start _ _ _) (by decide +kernel)) (by decide +kernel)
  have defined : recursive.environment.functions["f"]?.isSome = true := by decide +kernel
  obtain ⟨f, found⟩ := Option.isSome_iff_exists.mp defined
  obtain ⟨noFault, linked, _⟩ := calls_find_functions reachable 99
  exact ⟨by decide +kernel, noFault, f, found, linked "f" f found⟩

end ComplexScript.Session
