import ComplexScript.Proofs.Machine.Parts
import ComplexScript.Proofs.Scope.Tentative
set_option autoImplicit false

/-!
# Known variables are bound

Where nothing is tentative, a variable that the check knows at a point of a tree is bound whenever a
run comes to that point: `Ready` is the invariant, of the scope at the point and the environment
there.  It also asks that functions are known with the numbers of parameters that they have, and
that their bodies have been checked in the same way (`Function.Sound`), so that it holds again where
the body of a call begins.  A control statement takes a run past the rest of what it stands in, so
after it the invariant need not hold; `Flow.Ends` says instead where such an outcome may come up.
`Task.safe` is the law: no run of sure trees comes to a variable that is not bound.
-/

namespace ComplexScript.Machine

open ComplexScript.Program
open Environment (Within)
open Eval

/-! ## The invariant -/

/-- The body of a function is a statement, and it is sure in a scope that knows its parameters and
some of the functions. -/
structure Function.SoundIn (functions : Table Function) (scope : Scope) (f : Function) : Prop where
  params : ∀ x, x ∈ scope.initialized → x ∈ f.params
  suited : ∀ (name : String) (k : Nat), scope.signatures[name]? = some k → Fits functions (name, k)
  statement : f.body.IsStatement
  plain : f.body.Plain
  sure : Scope.Sure { inFunction := true } {} f.body scope

/-- A function has been checked. -/
def Function.Sound (functions : Table Function) (f : Function) : Prop :=
  ∃ scope, f.SoundIn functions scope

/-- The variables and functions that the scope knows are there, and all functions have been
checked. -/
structure Ready (scope : Scope) (e : Environment) : Prop where
  bound : ∀ x, x ∈ scope.initialized → e.get? x ≠ none
  suited : ∀ (name : String) (k : Nat), scope.signatures[name]? = some k →
    Fits e.functions (name, k)
  free : ∀ (name : String) (f : Function), e.functions[name]? = some f →
    Builtin.ofName? name = none
  sound : ∀ (name : String) (f : Function), e.functions[name]? = some f → f.Sound e.functions

namespace Ready

variable {scope scope' : Scope} {e e' : Environment}

theorem plain (h : Ready scope e) : e.Plain := by
  intro name f found
  obtain ⟨_, sound⟩ := h.sound name f found
  exact sound.plain

/-- A scope that knows less asks for less. -/
theorem weaken (h : Ready scope e) (known : ∀ x, x ∈ scope'.initialized → x ∈ scope.initialized)
    (same : scope'.signatures = scope.signatures) : Ready scope' e where
  bound x mem := h.bound x (known x mem)
  suited := same ▸ h.suited
  free := h.free
  sound := h.sound

/-- Binding more variables keeps what is there. -/
theorem of_bound (h : Ready scope e) (bound : ∀ x, e.get? x ≠ none → e'.get? x ≠ none)
    (same : e'.functions = e.functions) : Ready scope e' where
  bound x mem := bound x (h.bound x mem)
  suited := same ▸ h.suited
  free := same ▸ h.free
  sound := same ▸ h.sound

theorem of_within {names : List String} {plain : Prop} (h : Ready scope e)
    (within : Within names plain e e') (isPlain : plain) : Ready scope e' :=
  h.of_bound within.bound (within.functions isPlain h.plain)

theorem set (h : Ready scope e) (target : String) (z : Number) :
    Ready (scope.assign target) (e.set target z) where
  bound x mem := by
    rw [Environment.get?, Environment.set, Environment.active_modifyActive,
      Table.getElem?_insert]
    split
    · exact Option.some_ne_none z
    · next other =>
      rcases Scope.mem_assign.mp mem with same | mem
      · exact absurd same.symm other
      · exact h.bound x mem
  suited := by
    rw [Environment.set, Environment.modifyActive_functions]
    exact h.suited
  free := by
    rw [Environment.set, Environment.modifyActive_functions]
    exact h.free
  sound := by
    rw [Environment.set, Environment.modifyActive_functions]
    exact h.sound

/-- A loop that gives its variable back leaves what was known before it, and what it has come to
know otherwise. -/
theorem giveBack {init : Node} {name : String} (before : Ready scope e) (after : Ready scope' e')
    (own : init.assignedName = some name) :
    Ready ((scope.fresh? init).elim scope' scope'.forget) (e'.reset name (e.get? name)) where
  bound x mem := by
    obtain ⟨notFresh, mem⟩ := Scope.mem_forgotten.mp mem
    rw [Environment.get?, Environment.reset, Environment.active_modifyActive,
      Table.getElem?_reset]
    split
    · next same =>
      subst same
      -- the loop did not bring the variable in, so it was known before
      apply before.bound
      by_cases known : x ∈ scope.initialized
      · exact known
      · exact absurd (Scope.fresh?_eq_some_iff.mpr ⟨own, known⟩) notFresh
    · exact after.bound x mem
  suited := by
    have same : ((scope.fresh? init).elim scope' scope'.forget).signatures =
        scope'.signatures := by
      cases scope.fresh? init <;> rfl
    rw [same, Environment.reset, Environment.modifyActive_functions]
    exact after.suited
  free := by
    rw [Environment.reset, Environment.modifyActive_functions]
    exact after.free
  sound := by
    rw [Environment.reset, Environment.modifyActive_functions]
    exact after.sound

/-- Defining a function that has no other number of parameters than before keeps what is ready, and
the function is known in addition. -/
theorem define {name : String} {params : List String} {body : Node} (h : Ready scope e)
    (free : Builtin.ofName? name = none) (statement : body.IsStatement) (plain : body.Plain)
    (sure : Scope.Sure {} {} (.definition name params body) scope)
    (arity : ∀ f, e.functions[name]? = some f → f.params.length = params.length) :
    Ready (scope.define name params.length) (e.define name ⟨params, body⟩) := by
  have fits : ∀ c, Fits e.functions c → Fits (e.functions.insert name ⟨params, body⟩) c := by
    intro c before
    refine (fits_insert_iff before).mpr fun same => ?_
    obtain ⟨f, found, length⟩ := before
    rw [same] at found
    exact (arity f found).symm.trans length
  have suited : ∀ (x : String) (k : Nat),
      (scope.define name params.length).signatures[x]? = some k →
        Fits (e.functions.insert name ⟨params, body⟩) (x, k) := by
    intro x k known
    rw [Scope.define, Table.getElem?_insert] at known
    split at known
    · next same =>
      cases known
      refine ⟨⟨params, body⟩, ?_, rfl⟩
      rw [Table.getElem?_insert, if_pos same]
    · exact fits _ (h.suited x k known)
  refine ⟨h.bound, suited, fun x f found => ?_, fun x f found => ?_⟩
  · rw [Environment.define, Table.getElem?_insert] at found
    split at found
    · next same => rw [same, free]
    · exact h.free x f found
  · rw [Environment.define, Table.getElem?_insert] at found
    split at found
    · cases found
      refine ⟨(scope.define name params.length).body params, ?_, suited, statement, plain,
        sure.clean, sure.certain⟩
      intro x mem
      simpa [Scope.body] using mem
    · obtain ⟨inner, sound⟩ := h.sound x f found
      exact ⟨inner, sound.params, fun x k known => fits _ (sound.suited x k known),
        sound.statement, sound.plain, sound.sure⟩

/-- A body is ready to run in a frame that binds its parameters. -/
theorem push {f : Function} {frame : Frame} (h : Ready scope e)
    (sound : f.SoundIn e.functions scope') (bound : ∀ x ∈ f.params, frame[x]? ≠ none) :
    Ready scope' (e.push frame) where
  bound x mem := bound x (sound.params x mem)
  suited := sound.suited
  free := h.free
  sound := h.sound

/-- A call without mistakes is of a function with as many parameters as it has arguments. -/
theorem fits_of_checkCall (h : Ready scope e) (same : scope'.signatures = scope.signatures)
    {name : String} {got : Nat} (free : Builtin.ofName? name = none)
    (clean : scope'.checkCall name got = []) : Fits e.functions (name, got) := by
  apply h.suited
  rw [← same]
  exact Scope.signature_of_checkCall free clean

/-- A call of a built-in function without mistakes has one argument: no function goes by its
name. -/
theorem length_of_checkBuiltin (h : Ready scope e) (same : scope'.signatures = scope.signatures)
    {b : Builtin} {got : Nat} (clean : scope'.checkBuiltin b got = []) : got = 1 := by
  have unknown : scope'.signatures[b.name]? = none := by
    rw [same]
    cases known : scope.signatures[b.name]? with
    | none => rfl
    | some k =>
      obtain ⟨f, found, _⟩ := h.suited b.name k known
      have free := h.free b.name f found
      rw [Builtin.ofName?_name] at free
      cases free
  have arity : (scope'.arity? b.name).getD b.arity = 1 := by
    rw [Scope.arity?, unknown, Builtin.ofName?_name]
    cases b <;> rfl
  simp only [Scope.checkBuiltin, arity] at clean
  split at clean
  · cases clean
  split at clean
  · cases clean
  omega

end Ready

/-! ## Outcomes -/

/-- After an outcome that is no signal `P` holds, and a signal comes up only where it may stand. -/
def Flow.Ends (place : Scope.Place) (P : Prop) : Flow → Prop
  | value _ | silent _ => P
  | returning _ => place.inFunction = true
  | breaking | continuing => place.inLoop = true

namespace Flow.Ends

variable {place : Scope.Place} {P Q : Prop} {flow : Flow}

theorem mono (h : flow.Ends place P) (weaker : P → Q) : flow.Ends place Q := by
  cases flow with
  | value | silent => exact weaker h
  | returning | breaking | continuing => exact h

theorem of_noSignal (noSignal : flow.isSignal = false) (h : P) : flow.Ends place P := by
  cases flow with
  | value | silent => exact h
  | returning | breaking | continuing => cases noSignal

theorem result (h : flow.Ends place P) (noSignal : flow.isSignal = false) : P := by
  cases flow with
  | value | silent => exact h
  | returning | breaking | continuing => cases noSignal

/-- Where signals may stand nothing is known after one. -/
theorem of_signal (h : flow.Ends place P) (signal : flow.isSignal = true) : flow.Ends place Q := by
  cases flow with
  | value | silent => cases signal
  | returning | breaking | continuing => exact h

theorem ofBlock (h : flow.Ends place P) : flow.ofBlock.Ends place P := by
  cases flow <;> exact h

/-- No signal may come up at the top level. -/
theorem topLevel (h : flow.Ends {} P) : P := by
  cases flow with
  | value | silent => exact h
  | returning | breaking | continuing => cases h

end Flow.Ends

/-- The outcome of a call is no signal. -/
theorem Flow.isSignal_ofCall (flow : Flow) : flow.ofCall.isSignal = false := by
  cases flow <;> rfl

/-- Whatever its arguments and its body are, a call has no signal for an outcome. -/
theorem call_noSignal {limit fuel : Nat} (name : String) (arguments : List Node) (s : State) :
    (evaluate limit fuel (.call name arguments)).Meets (fun _ => True)
      (fun flow _ => flow.isSignal = false) s := by
  cases fuel with
  | zero => exact .starved
  | succ fuel =>
    rw [evaluate]
    refine .environment ?_
    cases s.environment.functions[name]? with
    | none => exact .fail trivial
    | some f =>
      dsimp only
      split
      · exact .fail trivial
      · refine .bind (.any _ _) fun _ _ _ _ => .modifyEnvironment ?_
        exact .bind (.any _ _) fun flow _ _ _ => .ok flow.isSignal_ofCall

/-- An expression has no signal for an outcome. -/
theorem isSignal_of_isExpression {limit fuel : Nat} {node : Node} {s t : State} {flow : Flow}
    (expression : node.IsExpression) (run : evaluate limit fuel node s = .ok flow t) :
    flow.isSignal = false := by
  suffices (evaluate limit fuel node).Meets (fun _ => True) (fun flow _ => flow.isSignal = false) s
    from this.1 flow t run
  clear run
  cases fuel with
  | zero => exact .starved
  | succ fuel =>
    cases node with
    | literal | noOp => exact .ok rfl
    | identifier name =>
      rw [evaluate]
      refine .environment ?_
      cases s.environment.get? name with
      | none => exact .fail trivial
      | some z => exact .ok rfl
    | negation operand => exact .bind (.any _ _) fun _ _ _ _ => .ok rfl
    | binary op left right =>
      rw [evaluate]
      refine .bind (.any _ _) fun _ _ _ _ => .bind (.any _ _) fun _ _ _ _ => ?_
      exact .bind (.any _ _) fun _ _ _ _ => .ok rfl
    | assignment target value =>
      rw [evaluate]
      exact .bind (.any _ _) fun _ _ _ _ => .modifyEnvironment (.ok rfl)
    | call name arguments => exact call_noSignal name arguments s
    | builtin b arguments =>
      have own : ∀ (v : Value) (t : State), (runBuiltin b v).Meets (fun _ => True)
          (fun flow _ => flow.isSignal = false) t := fun v t =>
        .runBuiltin (fun _ _ => trivial) (fun _ _ => trivial) fun _ _ noSignal => noSignal
      cases arguments with
      | nil => exact own .none s
      | cons argument arguments =>
        rw [evaluate]
        exact .bind (.any _ _) fun v t _ _ => own v t
    | block | ifThen | ifElse | loop | definition | returnNothing | returnValue | «break»
    | «continue» | endOfInput => exact expression.elim

/-! ## Runs of sure trees -/

/-- The trees of a task stand where the grammar has such trees. -/
def Task.Formed : Task → Prop
  | tree node => node.IsStatement
  | value node => node.IsExpression
  | all nodes => Node.AllStatements nodes
  | loop init condition step body =>
    init.IsExpression ∧ condition.IsExpression ∧ step.IsExpression ∧ body.IsStatement
  | rounds condition step body =>
    condition.IsExpression ∧ step.IsExpression ∧ body.IsStatement
  | bind params arguments _ => Node.AllExpressions arguments ∧ arguments.length = params.length

/-- The trees of a task are sure when they are checked in the first scope, and what a run of them
assigns for certain is known in the second one. -/
inductive Task.Sure (place : Scope.Place) : Task → Scope → Scope → Prop
  | tree {site : Scope.Site} {node : Node} {scope : Scope}
    (sure : Scope.Sure place site node scope) :
    Sure place (.tree node) scope (Scope.check place node scope).1
  | value {site : Scope.Site} {node : Node} {scope : Scope}
    (sure : Scope.Sure place site node scope) :
    Sure place (.value node) scope (Scope.check place node scope).1
  | all {site : Scope.Site} {nodes : List Node} {scope : Scope}
    (sure : Scope.AllSure place site nodes scope) :
    Sure place (.all nodes) scope (Scope.checkAll place nodes scope).1
  | loop {site site' : Scope.Site} {init condition step body : Node} {scope : Scope}
    (sure : Scope.Sure place site init scope)
    (rounds : Scope.SureRounds place site' condition step body
      (Scope.check place init scope).1) :
    Sure place (.loop init condition step body) scope
      (Scope.check place condition (Scope.check place init scope).1).1
  | rounds {site : Scope.Site} {condition step body : Node} {scope : Scope}
    (sure : Scope.SureRounds place site condition step body scope) :
    Sure place (.rounds condition step body) scope (Scope.check place condition scope).1
  | bind {site : Scope.Site} {params : List String} {arguments : List Node} {frame : Frame}
    {scope : Scope} (sure : Scope.AllSure place site arguments scope) :
    Sure place (.bind params arguments frame) scope (Scope.checkAll place arguments scope).1

/-- After the result of a task `P` holds, unless it is a signal where one may stand. -/
def Task.Ends (place : Scope.Place) (P : Prop) : (task : Task) → task.Result → Prop
  | value _, _ | bind .., _ => P
  | tree _, flow | all _, flow | loop .., flow | rounds .., flow => flow.Ends place P

/-- A fault is none of a variable that is not bound. -/
def Fault.Bound (f : Fault) : Prop := ∀ x, f ≠ .unboundVariable x

theorem Fault.bound_arithmetic (f : ArithmeticFault) : (Fault.arithmetic f).Bound := by simp [Bound]

theorem Fault.bound_output (cause : String) : (Fault.output cause).Bound := by simp [Bound]

theorem Fault.bound_callDepthExceeded (limit : Nat) : (Fault.callDepthExceeded limit).Bound := by
  simp [Bound]

/-- Tasks of sure trees come to no variable that is not bound, on the budget `fuel`. -/
def Safe (limit fuel : Nat) : Prop :=
  ∀ (task : Task) {place : Scope.Place} {before after : Scope} {s : State}, task.Formed →
    task.Plain → task.Sure place before after → Ready before s.environment →
    (task.run limit fuel).Meets Fault.Bound
      (fun r t => task.Ends place (Ready after t.environment) r) s

section

variable {limit fuel : Nat} {place : Scope.Place} {site : Scope.Site} {scope : Scope} {s : State}

/-- A plain run keeps what is ready. -/
theorem Ready.run (ready : Ready scope s.environment) (task : Task) {r : task.Result} {t : State}
    (plain : task.Plain) (run : task.run limit fuel s = .ok r t) : Ready scope t.environment :=
  ready.of_within (task.within_of_ok run) plain

/-- A run of a sure tree inside a block leaves what was ready before it. -/
theorem Ready.inside {node : Node} {e : Environment} (ready : Ready scope e) (plain : node.Plain)
    (sure : Scope.Sure place .inside node scope) : Ready (Scope.check place node scope).1 e :=
  ready.weaken (fun _ => sure.known) (Scope.check_signatures plain)

namespace Safe

variable (ih : Safe limit fuel)

include ih

theorem tree {node : Node} (formed : node.IsStatement) (plain : node.Plain)
    (sure : Scope.Sure place site node scope) (ready : Ready scope s.environment) :
    (Machine.evaluate limit fuel node).Meets Fault.Bound
      (fun flow t => flow.Ends place (Ready (Scope.check place node scope).1 t.environment)) s :=
  ih (.tree node) formed plain (.tree sure) ready

theorem value {node : Node} (formed : node.IsExpression) (plain : node.Plain)
    (sure : Scope.Sure place site node scope) (ready : Ready scope s.environment) :
    (valueOf limit fuel node).Meets Fault.Bound
      (fun _ t => Ready (Scope.check place node scope).1 t.environment) s :=
  ih (.value node) formed plain (.value sure) ready

/-- The body of a function begins where its parameters are bound, and what it does there is gone
when it ends. -/
theorem body {f : Function} {frame : Frame} (ready : Ready scope s.environment)
    (found : f.Sound s.environment.functions) (bound : ∀ x ∈ f.params, frame[x]? ≠ none) :
    (do
      modifyEnvironment (·.push frame)
      let flow ← thenAlways (Machine.evaluate limit fuel f.body) (·.pop)
      return flow.ofCall : Eval Flow).Meets Fault.Bound
        (fun flow t => flow.Ends place (Ready scope t.environment)) s := by
  obtain ⟨inner, sound⟩ := found
  have run : (Machine.evaluate limit fuel f.body).Meets Fault.Bound _
      { s with environment := s.environment.push frame } :=
    ih.tree sound.statement sound.plain sound.sure (ready.push sound bound)
  refine .modifyEnvironment (.map (.thenAlways (run.mono (fun _ h => h) fun flow t ended _ => ?_)))
  have popped : Within [] f.body.Plain s.environment t.environment.pop :=
    ((Task.tree f.body).within_of_ok ended).pop
  exact .of_noSignal flow.isSignal_ofCall (ready.of_within popped sound.plain)

theorem call {name : String} {arguments : List Node}
    (formed : Node.AllExpressions arguments) (plain : (Node.call name arguments).Plain)
    (sure : Scope.Sure place site (.call name arguments) scope)
    (ready : Ready scope s.environment) :
    (Machine.evaluate limit (fuel + 1) (.call name arguments)).Meets Fault.Bound
      (fun flow t => flow.Ends place
        (Ready (Scope.check place (.call name arguments) scope).1 t.environment)) s := by
  obtain ⟨free, plain⟩ := plain
  obtain ⟨sureArguments, clean⟩ := sure.call
  obtain ⟨f, found, length⟩ := ready.fits_of_checkCall (Scope.checkAll_signatures plain) free clean
  rw [Machine.evaluate]
  refine .environment ?_
  rw [found]
  dsimp only
  split
  · exact .fail (Fault.bound_callDepthExceeded limit)
  · refine .bind (ih (.bind f.params arguments ∅) ⟨formed, length.symm⟩ plain
      (.bind sureArguments) ready) fun frame t run ready' => ?_
    have same : t.environment.functions = s.environment.functions :=
      Task.functions_eq (.bind f.params arguments ∅) run plain ready.plain
    refine ih.body ready' (same ▸ ready.sound name f found) fun x mem => ?_
    exact bound_of_bindAll run length.symm x (.inl mem)

/-- A loop gives its own variable back, which is known after it only if it was before. -/
theorem loop {init condition step body : Node}
    (formed : (Node.loop init condition step body).IsStatement)
    (plain : (Node.loop init condition step body).Plain)
    (sure : Scope.Sure place site (.loop init condition step body) scope)
    (ready : Ready scope s.environment) :
    (Machine.evaluate limit (fuel + 1) (.loop init condition step body)).Meets Fault.Bound
      (fun flow t => flow.Ends place
        (Ready (Scope.check place (.loop init condition step body) scope).1 t.environment)) s := by
  obtain ⟨sureInit, sureRounds⟩ := sure.loop
  have whole := ih (.loop init condition step body) formed plain (.loop sureInit sureRounds) ready
  obtain ⟨plainInit, plainCondition, plainStep, plainBody⟩ := plain
  simp only [Machine.evaluate, Scope.check]
  cases own : init.assignedName with
  | none =>
    have notFresh : scope.fresh? init = none := by rw [Scope.fresh?, own]; rfl
    rw [notFresh]
    refine whole.mono (fun _ h => h) fun flow t _ ends => ends.mono fun ready => ?_
    exact (ready.inside plainBody sureRounds.ofBody).inside plainStep sureRounds.ofStep
  | some name =>
    refine .environment (.thenAlways (whole.mono (fun _ h => h) fun flow t _ ends => ?_))
    refine ends.mono fun after => ready.giveBack ?_ own
    exact (after.inside plainBody sureRounds.ofBody).inside plainStep sureRounds.ofStep

theorem evaluate {node : Node} (formed : node.IsStatement) (plain : node.Plain)
    (sure : Scope.Sure place site node scope) (ready : Ready scope s.environment) :
    (Machine.evaluate limit (fuel + 1) node).Meets Fault.Bound
      (fun flow t => flow.Ends place (Ready (Scope.check place node scope).1 t.environment)) s := by
  cases node with
  | literal | noOp | endOfInput => exact .ok ready
  | identifier name =>
    have known : name ∈ scope.initialized := by
      have clean := sure.clean
      simp only [Scope.check] at clean
      split at clean
      · next initialized => exact initialized
      · cases clean
    rw [Machine.evaluate]
    refine .environment ?_
    cases found : s.environment.get? name with
    | none => exact absurd found (ready.bound name known)
    | some z => exact .ok ready
  | negation operand => exact .map (ih.value formed plain ⟨sure.clean, sure.certain⟩ ready)
  | binary op left right =>
    obtain ⟨sureLeft, sureRight⟩ := sure.binary
    rw [Machine.evaluate]
    refine .bind (ih.value formed.1 plain.1 sureLeft ready) fun l t _ ready => ?_
    refine .bind (ih.value formed.2 plain.2 sureRight ready) fun r u _ ready => ?_
    exact .map (.ofArithmetic Fault.bound_arithmetic fun _ _ => ready)
  | assignment target value =>
    rw [Machine.evaluate]
    refine .bind (ih.value formed plain sure.assignment ready) fun v t _ ready => ?_
    exact .modifyEnvironment (.ok (ready.set target v.numberOrZero))
  | block statements =>
    exact ih (.all statements) formed plain (.all ⟨sure.clean, sure.certain⟩) ready
  | ifThen condition thenBlock =>
    obtain ⟨sureCondition, sureThen⟩ := sure.ifThen
    rw [Machine.evaluate]
    refine .bind (ih.value formed.1 plain.1 sureCondition ready) fun v t _ ready => ?_
    split
    · refine .map ((ih.tree formed.2 plain.2 sureThen ready).mono (fun _ h => h) ?_)
      exact fun flow u _ ends => ends.ofBlock
    · exact .ok (ready.inside plain.2 sureThen)
  | ifElse condition thenBlock elseBlock =>
    obtain ⟨sureCondition, sureThen, sureElse⟩ := sure.ifElse
    obtain ⟨formedCondition, formedThen, formedElse⟩ := formed
    obtain ⟨plainCondition, plainThen, plainElse⟩ := plain
    rw [Machine.evaluate]
    refine .bind (ih.value formedCondition plainCondition sureCondition ready)
      fun v t _ ready => ?_
    split
    · refine .map ((ih.tree formedThen plainThen sureThen ready).mono (fun _ h => h) ?_)
      exact fun flow u _ ends => (ends.mono fun ready => ready.inside plainElse sureElse).ofBlock
    · have ready := ready.inside plainThen sureThen
      refine .map ((ih.tree formedElse plainElse sureElse ready).mono (fun _ h => h) ?_)
      exact fun flow u _ ends => ends.ofBlock
  | loop init condition step body => exact ih.loop formed plain sure ready
  | definition => exact formed.elim
  | call name arguments => exact ih.call formed plain sure ready
  | builtin b arguments =>
    obtain ⟨sureArguments, clean⟩ := sure.builtin
    have length := ready.length_of_checkBuiltin (Scope.checkAll_signatures plain) clean
    obtain ⟨argument, rfl⟩ := List.length_eq_one_iff.mp length
    rw [Machine.evaluate]
    refine .bind (ih.value formed.1 plain.1 sureArguments.cons.1 ready) fun v t _ ready => ?_
    exact .runBuiltin (fun _ => Fault.bound_arithmetic) (fun _ => Fault.bound_output)
      fun flow sink noSignal => .of_noSignal noSignal ready
  | returnNothing =>
    have inFunction : place.inFunction = true := by simpa [Scope.check] using sure.clean
    exact .ok inFunction
  | returnValue value =>
    obtain ⟨inFunction, sureValue⟩ := sure.returnValue
    exact .map ((ih.value formed plain sureValue ready).mono (fun _ h => h)
      fun _ _ _ _ => inFunction)
  | «break» | «continue» =>
    have inLoop : place.inLoop = true := by simpa [Scope.check] using sure.clean
    exact .ok inLoop

theorem all {nodes : List Node} (formed : Node.AllStatements nodes) (plain : Node.AllPlain nodes)
    (sure : Scope.AllSure place site nodes scope) (ready : Ready scope s.environment) :
    (evaluateAll limit (fuel + 1) nodes).Meets Fault.Bound
      (fun flow t => flow.Ends place (Ready (Scope.checkAll place nodes scope).1 t.environment))
      s := by
  cases nodes with
  | nil => exact .ok ready
  | cons node nodes =>
    obtain ⟨sureHead, sureTail⟩ := sure.cons
    rw [evaluateAll]
    refine .bind (ih.tree formed.1 plain.1 sureHead ready) fun flow t _ ends => ?_
    split
    · next last =>
      rcases (Bool.or_eq_true _ _).mp last with signal | last
      · exact .ok (ends.of_signal signal)
      · rw [List.isEmpty_iff.mp last]
        exact .ok ends
    · next goesOn =>
      rw [Bool.not_eq_true, Bool.or_eq_false_iff] at goesOn
      exact ih (.all nodes) formed.2 plain.2 (.all sureTail) (ends.result goesOn.1)

/-- Each round begins with what was known before the first, and the last one leaves in addition what
the condition assigns. -/
theorem rounds {condition step body : Node}
    (formed : (Task.rounds condition step body).Formed)
    (plain : (Task.rounds condition step body).Plain)
    (sure : Scope.SureRounds place site condition step body scope)
    (ready : Ready scope s.environment) :
    (Machine.rounds limit (fuel + 1) condition step body).Meets Fault.Bound
      (fun flow t => flow.Ends place (Ready (Scope.check place condition scope).1 t.environment))
      s := by
  have ⟨formedCondition, formedStep, formedBody⟩ := formed
  have ⟨plainCondition, plainStep, plainBody⟩ := plain
  rw [Machine.rounds]
  refine .bind (ih.value formedCondition plainCondition sure.ofCondition ready)
    fun v t _ ready => ?_
  split
  · refine .bind (ih.tree formedBody plainBody sure.ofBody ready) fun flow u round ends => ?_
    have ready := ready.run (.tree body) plainBody round
    split
    · exact .ok ready
    · exact .ok ends
    · refine .bind (ih.tree formedStep.isStatement plainStep sure.ofStep
        (ready.inside plainBody sure.ofBody)) fun _ w stepped _ => ?_
      have ready := ready.run (.tree step) plainStep stepped
      refine ih (.rounds condition step body) formed plain (.rounds sure) ?_
      exact ready.weaken (fun _ => Scope.mem_check_of_mem)
        (Scope.check_signatures plainCondition).symm
  · exact .ok ready

theorem bind {params : List String} {arguments : List Node} {frame : Frame}
    (formed : (Task.bind params arguments frame).Formed) (plain : Node.AllPlain arguments)
    (sure : Scope.AllSure place site arguments scope) (ready : Ready scope s.environment) :
    (bindAll limit (fuel + 1) params arguments frame).Meets Fault.Bound
      (fun _ t => Ready (Scope.checkAll place arguments scope).1 t.environment) s := by
  obtain ⟨formed, fits⟩ := formed
  cases params with
  | nil =>
    rw [List.length_eq_zero_iff.mp fits]
    exact .ok ready
  | cons param params =>
    cases arguments with
    | nil => cases fits
    | cons argument arguments =>
      obtain ⟨sureHead, sureTail⟩ := sure.cons
      rw [bindAll]
      refine .bind (ih.value formed.1 plain.1 sureHead ready) fun v t _ ready => ?_
      exact ih (.bind params arguments (frame.insert param v.numberOrZero))
        ⟨formed.2, Nat.succ.inj fits⟩ plain.2 (.bind sureTail) ready

/-- One more unit of budget keeps the law. -/
theorem succ : Safe limit (fuel + 1) := by
  intro task place before after s formed plain sure ready
  cases sure with
  | tree sure => exact ih.evaluate formed plain sure ready
  | value sure =>
    refine .bind (ih.tree formed.isStatement plain sure ready) fun flow t run ends => ?_
    exact .ok (ends.result (isSignal_of_isExpression formed run))
  | all sure => exact ih.all formed plain sure ready
  | @loop _ _ init condition step body _ sure rounds =>
    rw [Task.run, evaluateLoop]
    refine .bind (ih.tree formed.1.isStatement plain.1 sure ready) fun flow t run ends => ?_
    exact ih (.rounds condition step body) formed.2 plain.2 (.rounds rounds)
      (ends.result (isSignal_of_isExpression formed.1 run))
  | rounds sure => exact ih.rounds formed plain sure ready
  | bind sure => exact ih.bind formed plain sure ready

end Safe

end

/-- A run of sure trees that begins ready comes to no variable that is not bound, and it leaves what
its check knows ready, unless it ends in a signal where one may stand. -/
theorem Task.safe (limit fuel : Nat) : Safe limit fuel := by
  induction fuel with
  | zero =>
    intro task place before after s _ _ _ _
    rw [run_zero]
    exact .starved
  | succ fuel ih => exact ih.succ

end ComplexScript.Machine
