import ComplexScript.Proofs.Session.Calls
set_option autoImplicit false

/-!
# Numbers of arguments

A call is checked with the text that it stands in.  A function that is defined again with another
number of parameters leaves the calls in the bodies of other functions as they were checked, so
that they run with arguments dropped or with parameters unbound
(`call_misfits_after_redefinition`).  That is the only way: the calls in the bodies of all
functions fit (`Session.Fitting`) as long as no function that another one calls gets another number
of parameters, and no longer (`Fitting.step_iff`), and while they fit every call that is evaluated
has an argument for every parameter (`calls_fit`).
-/

namespace ComplexScript.Session

open ComplexScript.Machine
open ComplexScript.Program

variable {s : Session} {fuel : Nat}

/-- The calls in the bodies of all functions fit. -/
def Fitting (s : Session) : Prop :=
  ∀ (name : String) (f : Function), s.environment.functions[name]? = some f →
    ∀ c ∈ f.body.calls, Fits s.environment.functions c

/-- The next entry does not give a function another number of parameters while the body of another
function calls it. -/
def KeepsCallers (s : Session) : Prop :=
  ∀ (name : String) (params : List String) (body : Node) (f : Function), s.Accepted →
    s.entry.node = .definition name params body → s.environment.functions[name]? = some f →
    f.params.length ≠ params.length →
    ∀ (caller : String) (g : Function), caller ≠ name →
      s.environment.functions[caller]? = some g → ∀ c ∈ g.body.calls, c.1 ≠ name

/-- The next entry does not give a function another number of parameters. -/
def KeepsArity (s : Session) : Prop :=
  ∀ (name : String) (params : List String) (body : Node) (f : Function), s.Accepted →
    s.entry.node = .definition name params body → s.environment.functions[name]? = some f →
    f.params.length = params.length

theorem KeepsArity.keepsCallers (h : s.KeepsArity) : s.KeepsCallers :=
  fun name params body f accepted node found changed =>
    absurd (h name params body f accepted node found) changed

/-- Whether the signature of the next entry is that of the function that it defines again. -/
def keepsSignature (s : Session) : Bool :=
  s.entry.node.signature?.all fun signature =>
    s.environment.functions[signature.1]?.all (·.params.length == signature.2)

theorem keepsArity_of_signature (h : s.keepsSignature = true) : s.KeepsArity := by
  intro name params body f _ node found
  simpa [keepsSignature, node, Node.signature?, found] using h

/-! ## The calls in the bodies of functions -/

/-- As long as the calls in the bodies of all functions fit, a step keeps it so exactly if it gives
no function that another one calls another number of parameters. -/
theorem Fitting.step_iff (fitting : Fitting s) (h : Consistent s)
    (finished : (s.step fuel).1 ≠ .unfinished) : Fitting (s.step fuel).2 ↔ s.KeepsCallers := by
  cases h.redefinition finished with
  | none notDefined same =>
    constructor
    · intro _ name params body _ accepted node
      have plain := notDefined accepted
      rw [node] at plain
      exact plain.elim
    · intro _
      rw [Fitting, same]
      exact fitting
  | @one accepted name params body node plain functions =>
    have own : ∀ c ∈ body.calls, Fits (s.environment.functions.insert name ⟨params, body⟩) c :=
      fun c mem => h.function_of_mem_calls accepted node plain mem
    rw [Fitting, functions]
    constructor
    · intro after name' params' body' f _ node' found changed caller g other stored c mem same
      rw [node] at node'
      cases node'
      have stays : (s.environment.functions.insert name ⟨params, body⟩)[caller]? = some g := by
        rw [Table.getElem?_insert, if_neg other]
        exact stored
      obtain ⟨f', found', length⟩ := fitting caller g stored c mem
      have new := (fits_insert_iff (fitting caller g stored c mem)).mp
        (after caller g stays c mem) same
      rw [same, found] at found'
      cases found'
      exact changed (length.trans new.symm)
    · intro keeps caller g stored c mem
      rw [Table.getElem?_insert] at stored
      split at stored
      · cases stored
        exact own c mem
      · next other =>
        have before := fitting caller g stored c mem
        refine (fits_insert_iff before).mpr fun same => ?_
        obtain ⟨f, found, length⟩ := before
        rw [same] at found
        by_cases kept : f.params.length = params.length
        · exact kept.symm.trans length
        · exact absurd same (keeps name params body f accepted node found kept caller g other
            stored c mem)

theorem ReachableBy.fitting (kept : ReachableBy (fun s _ => s.KeepsCallers) s) : Fitting s := by
  induction kept with
  | start feed options sink =>
    intro name f found
    simp [Session.start, Session.environment] at found
  | step fuel before finished keeps ih =>
    exact (ih.step_iff before.reachable.consistent finished).mpr keeps

/-! ## The calls that a run comes to -/

/-- While no step has given a function that another one calls another number of parameters, every
call that the run of an accepted entry comes to has one argument for each parameter: if the
arguments have values, all of them have been evaluated and every parameter is bound.  The calls in
the bodies of all functions stay so exactly if the next step does not do it either. -/
theorem calls_fit (kept : ReachableBy (fun s _ => s.KeepsCallers) s) (fuel : Nat) :
    ((s.step fuel).1 ≠ .unfinished → (Fitting (s.step fuel).2 ↔ s.KeepsCallers)) ∧
      (s.Accepted → ∀ fuel' name arguments t,
        Reaches s.options.callDepth fuel (.tree s.entry.node) s.state fuel'
          (.tree (.call name arguments)) t →
        ∃ f, t.environment.functions[name]? = some f ∧ arguments.length = f.params.length ∧
          ∀ fuel'' frame u, bindAll s.options.callDepth fuel'' f.params arguments ∅ t =
              .ok frame u →
            (∀ param ∈ f.params, frame[param]? ≠ none) ∧
            ∀ argument ∈ arguments, ∃ fuel''' v,
              Reaches s.options.callDepth fuel'' (.bind f.params arguments ∅) t fuel'''
                (.value argument) v) := by
  have consistent := kept.reachable.consistent
  have fitting := kept.fitting
  refine ⟨fitting.step_iff consistent, ?_⟩
  intro accepted fuel' name arguments t reaches
  obtain ⟨same, f, found, length⟩ := consistent.calls accepted
    (P := Fits s.environment.functions) (fun _ fits => fits) fitting reaches
  rw [same]
  refine ⟨f, found, length.symm, fun fuel'' frame u run => ⟨fun param mem => ?_, ?_⟩⟩
  · exact bound_of_bindAll run length.symm param (.inl mem)
  · intro argument mem
    exact reaches_of_bindAll run length.symm mem

/-- A session that has defined a function, another one that calls it, and the first one again. -/
def renewed : Session :=
  (((Session.start ⟨[.line "fun f(a) { return 0 }\n", .line "fun g() { return f(1) }\n",
    .line "fun f(b) { return b }\n", .line "g()\n"], []⟩).step 9).2.step 9 |>.2.step 9).2

theorem renewed_calls_fit :
    (renewed.step 99).1 = .done (.evaluated (some .one)) ∧ Fitting (renewed.step 99).2 ∧
      ∃ f, renewed.environment.functions["g"]? = some f ∧ f.params = [] := by
  have keeps : ∀ s : Session, s.keepsSignature = true → s.KeepsCallers :=
    fun s h => (keepsArity_of_signature h).keepsCallers
  have kept : ReachableBy (fun s _ => s.KeepsCallers) renewed :=
    .step 9 (.step 9 (.step 9 (.start _ _ _)
      (by decide +kernel) (keeps _ (by decide +kernel)))
      (by decide +kernel) (keeps _ (by decide +kernel)))
      (by decide +kernel) (keeps _ (by decide +kernel))
  have ended : (renewed.step 99).1 = .done (.evaluated (some .one)) := by decide +kernel
  have callee : renewed.entry.node.callee? = some "g" := by decide +kernel
  have next : renewed.KeepsCallers := keeps _ (by decide +kernel)
  obtain ⟨fitting, calls⟩ := calls_fit kept 99
  -- nothing below needs the session to be computed once more
  generalize renewed = s at *
  have node := Node.eq_of_callee? callee
  refine ⟨ended, (fitting ?_).mpr next, ?_⟩
  · simp [ended]
  · obtain ⟨f, found, length, _⟩ := calls (run_of_evaluated ended).1 99 "g" [] s.state
      (by rw [node]; exact .here _ _ _)
    exact ⟨f, found, List.length_eq_zero_iff.mp length.symm⟩

/-- The function that a function calls, when all it does is to return what that gives. -/
def forwardsTo? : Function → Option String
  | ⟨[], .block [.returnValue (.call callee [])]⟩ => some callee
  | _ => none

theorem eq_of_forwardsTo? {f : Function} {callee : String} (h : forwardsTo? f = some callee) :
    f = ⟨[], .block [.returnValue (.call callee [])]⟩ := by
  unfold forwardsTo? at h
  split at h
  · cases h
    rfl
  · cases h

/-- A call of a function that returns what another call gives comes to that call. -/
theorem reaches_of_forwardsTo? {limit : Nat} {s : State} {name callee : String} {f : Function}
    (found : s.environment.functions[name]? = some f) (forwards : forwardsTo? f = some callee)
    (allowed : ¬ limit ≤ s.environment.callDepth) (fuel : Nat) :
    Reaches limit (fuel + 5) (.tree (.call name [])) s fuel (.tree (.call callee []))
      { s with environment := s.environment.push ∅ } := by
  rw [eq_of_forwardsTo? forwards] at found
  have bound : bindAll limit (fuel + 4) [] [] ∅ s = .ok ∅ s := rfl
  exact .inside (.body found allowed bound) <| .inside .block <| .inside .first <|
    .inside .returned <| .inside .value <| .here _ _ _

/-- A session that has defined a function, another one that calls it without arguments, and the
first one again with a parameter. -/
def outdated : Session :=
  (((Session.start ⟨[.line "fun f() { return 0 }\n", .line "fun g() { return f() }\n",
    .line "fun f(a) { return a }\n", .line "g()\n"], []⟩).step 9).2.step 9 |>.2.step 9).2

theorem call_misfits_after_redefinition :
    Reachable outdated ∧ outdated.Accepted ∧
      (∃ fuel t f, Reaches outdated.options.callDepth 99 (.tree outdated.entry.node) outdated.state
          fuel (.tree (.call "f" [])) t ∧
        t.environment.functions["f"]? = some f ∧ f.params = ["a"]) ∧
      (outdated.step 99).1 = .done (.faulted (.unboundVariable "a")) := by
  have reachable : Reachable outdated :=
    .step 9 (.step 9 (.step 9 (.start _ _ _) (by decide +kernel)) (by decide +kernel))
      (by decide +kernel)
  have ended : (outdated.step 99).1 = .done (.faulted (.unboundVariable "a")) := by decide +kernel
  have entry : outdated.entry.node.callee? = some "g" := by decide +kernel
  have caller : outdated.environment.functions["g"]?.bind forwardsTo? = some "f" := by
    decide +kernel
  have callee : outdated.environment.functions["f"]?.map (·.params) = some ["a"] := by
    decide +kernel
  have allowed : ¬ outdated.options.callDepth ≤ outdated.environment.callDepth := by decide +kernel
  -- nothing below needs the session to be computed once more
  generalize outdated = s at *
  obtain ⟨g, found, forwards⟩ := Option.bind_eq_some_iff.mp caller
  obtain ⟨f, defined, params⟩ := Option.map_eq_some_iff.mp callee
  have reaches := reaches_of_forwardsTo? (s := s.state) found forwards allowed 94
  rw [Node.eq_of_callee? entry]
  exact ⟨reachable, (run_of_faulted ended).1, ⟨94, _, f, reaches, defined, params⟩, ended⟩

end ComplexScript.Session
