import ComplexScript.Proofs.Machine.Tasks
set_option autoImplicit false

/-!
# Two runs in step

Two runs of one tree end alike when they begin in states that no move of a run can tell apart.
`Lockstep R` says that a relation between states is of that kind: related states look alike, and
each move made on both sides relates them again.  The second run may have the greater budget and
the greater limit on calls; then the halts of the first run that come from its lesser ones are
`spared`, and nothing is said of the second run after them.  The law is `Task.agrees`.
-/

namespace ComplexScript.Machine

open ComplexScript.Program

/-- A relation between the states of two runs that moves of a run neither tell apart nor break.
The number counts the calls that both runs have begun since they were first related. -/
structure Lockstep (R : Nat → State → State → Prop) : Prop where
  value : ∀ {d : Nat} {s t : State}, R d s t →
    ∀ x, s.environment.get? x = t.environment.get? x
  functions : ∀ {d : Nat} {s t : State}, R d s t →
    s.environment.functions = t.environment.functions
  callDepth : ∀ {d : Nat} {s t : State}, R d s t →
    s.environment.callDepth = t.environment.callDepth
  modifyActive : ∀ {d : Nat} {s t : State}, R d s t → ∀ f : Frame → Frame,
    R d { s with environment := s.environment.modifyActive f }
      { t with environment := t.environment.modifyActive f }
  define : ∀ {d : Nat} {s t : State}, R d s t → ∀ (name : String) (f : Function),
    R d { s with environment := s.environment.define name f }
      { t with environment := t.environment.define name f }
  push : ∀ {d : Nat} {s t : State}, R d s t → ∀ frame : Frame,
    R (d + 1) { s with environment := s.environment.push frame }
      { t with environment := t.environment.push frame }
  pop : ∀ {d : Nat} {s t : State}, R (d + 1) s t →
    R d { s with environment := s.environment.pop } { t with environment := t.environment.pop }
  write : ∀ {d : Nat} {s t : State}, R d s t → ∀ text : String,
    (s.sink.write text).1 = (t.sink.write text).1 ∧
      R d { s with sink := (s.sink.write text).2 } { t with sink := (t.sink.write text).2 }

namespace Eval

variable {α β : Type} {R R' : State → State → Prop} {spared : Halt → Prop} {s t : State}

/-- From `s` and `t` the two runs end alike and in related states, unless the first halt is
spared. -/
def Agrees (R : State → State → Prop) (spared : Halt → Prop) (m m' : Eval α) (s t : State) : Prop :=
  (∀ a s', m s = .ok a s' → ∃ t', m' t = .ok a t' ∧ R s' t') ∧
  ∀ halt s', m s = .error halt s' → ¬ spared halt → ∃ t', m' t = .error halt t' ∧ R s' t'

namespace Agrees

theorem ok (a : α) (h : R s t) : Agrees R spared (pure a) (pure a) s t := by
  refine ⟨fun b s' run => ?_, fun halt s' run => ?_⟩
  · cases run
    exact ⟨t, rfl, h⟩
  · cases run

theorem fail (f : Fault) (h : R s t) :
    Agrees R spared (Eval.fail f : Eval α) (Eval.fail f) s t := by
  refine ⟨fun b s' run => ?_, fun halt s' run _ => ?_⟩
  · cases run
  · cases run
    exact ⟨t, rfl, h⟩

theorem starved (h : R s t) : Agrees R spared (Eval.starved : Eval α) Eval.starved s t := by
  refine ⟨fun b s' run => ?_, fun halt s' run _ => ?_⟩
  · cases run
  · cases run
    exact ⟨t, rfl, h⟩

/-- A run that halts in a spared way agrees with every run. -/
theorem of_spared {m m' : Eval α} {halt : Halt} {u : State} (run : m s = .error halt u)
    (h : spared halt) : Agrees R spared m m' s t := by
  refine ⟨fun a s' other => ?_, fun halt' s' other notSpared => ?_⟩
  · rw [run] at other
    cases other
  · rw [run] at other
    cases other
    exact absurd h notSpared

theorem ofArithmetic (r : Except ArithmeticFault α) (h : R s t) :
    Agrees R spared (Eval.ofArithmetic r) (Eval.ofArithmetic r) s t := by
  cases r with
  | ok a => exact ok a h
  | error f => exact fail (.arithmetic f) h

theorem bind {m m' : Eval α} {f f' : α → Eval β} (first : Agrees R spared m m' s t)
    (second : ∀ a s' t', R s' t' → Agrees R spared (f a) (f' a) s' t') :
    Agrees R spared (m >>= f) (m' >>= f') s t := by
  obtain ⟨firstOk, firstError⟩ := first
  cases run : m s with
  | ok a u =>
    obtain ⟨u', run', related⟩ := firstOk a u run
    obtain ⟨secondOk, secondError⟩ := second a u u' related
    rw [Agrees, bind_of_ok run, bind_of_ok run']
    exact ⟨secondOk, secondError⟩
  | error halt u =>
    rw [Agrees, bind_of_error run]
    refine ⟨fun b s' other => ?_, fun halt' s' other notSpared => ?_⟩
    · cases other
    · cases other
      obtain ⟨u', run', related⟩ := firstError halt u run notSpared
      exact ⟨u', bind_of_error run', related⟩

theorem map {m m' : Eval α} (h : Agrees R spared m m' s t) (f : α → β) :
    Agrees R spared (m >>= fun a => pure (f a)) (m' >>= fun a => pure (f a)) s t :=
  h.bind fun a _ _ related => ok (f a) related

theorem modifyEnvironment {f : Environment → Environment}
    (h : R { s with environment := f s.environment } { t with environment := f t.environment }) :
    Agrees R spared (Eval.modifyEnvironment f) (Eval.modifyEnvironment f) s t := by
  refine ⟨fun b s' run => ?_, fun halt s' run => ?_⟩
  · cases run
    exact ⟨_, rfl, h⟩
  · cases run

theorem environment {f f' : Environment → Eval β}
    (h : Agrees R spared (f s.environment) (f' t.environment) s t) :
    Agrees R spared (Eval.environment >>= f) (Eval.environment >>= f') s t := h

/-- What is always done after the runs may lead to another relation. -/
theorem thenAlways {m m' : Eval α} (h : Agrees R' spared m m' s t)
    {f : Environment → Environment}
    (back : ∀ s' t', R' s' t' → R { s' with environment := f s'.environment }
      { t' with environment := f t'.environment }) :
    Agrees R spared (Eval.thenAlways m f) (Eval.thenAlways m' f) s t := by
  obtain ⟨hOk, hError⟩ := h
  refine ⟨fun a s' run => ?_, fun halt s' run notSpared => ?_⟩
  · rw [Eval.thenAlways] at run
    cases inner : m s with
    | ok b u =>
      obtain ⟨u', inner', related⟩ := hOk b u inner
      rw [inner] at run
      cases run
      exact ⟨_, by rw [Eval.thenAlways, inner'], back u u' related⟩
    | error halt u =>
      rw [inner] at run
      cases run
  · rw [Eval.thenAlways] at run
    cases inner : m s with
    | ok b u =>
      rw [inner] at run
      cases run
    | error halt' u =>
      rw [inner] at run
      cases run
      obtain ⟨u', inner', related⟩ := hError halt u inner notSpared
      exact ⟨_, by rw [Eval.thenAlways, inner'], back u u' related⟩

end Agrees

end Eval

open Eval

section

variable {R : Nat → State → State → Prop} {spared : Halt → Prop} {d : Nat} {s t : State}

theorem Lockstep.agrees_write (lock : Lockstep R) (h : R d s t) (text : String) :
    Agrees (R d) spared (Eval.write text) (Eval.write text) s t := by
  obtain ⟨same, related⟩ := lock.write h text
  rcases hs : s.sink.write text with ⟨refused, sink⟩
  rcases ht : t.sink.write text with ⟨refused', sink'⟩
  rw [hs, ht] at same related
  obtain rfl : refused = refused' := same
  cases refused with
  | none =>
    refine ⟨fun b s' run => ?_, fun halt s' run => ?_⟩
    · simp only [Eval.write, hs] at run
      cases run
      exact ⟨_, by simp only [Eval.write, ht], related⟩
    · simp only [Eval.write, hs] at run
      cases run
  | some cause =>
    refine ⟨fun b s' run => ?_, fun halt s' run _ => ?_⟩
    · simp only [Eval.write, hs] at run
      cases run
    · simp only [Eval.write, hs] at run
      cases run
      exact ⟨_, by simp only [Eval.write, ht], related⟩

theorem Lockstep.agrees_runBuiltin (lock : Lockstep R) (h : R d s t) (b : Builtin) (v : Value) :
    Agrees (R d) spared (runBuiltin b v) (runBuiltin b v) s t := by
  cases b with
  | print => exact .map (lock.agrees_write h _) _
  | println => exact .map (lock.agrees_write h _) _
  | sqrt =>
    cases v with
    | number z => exact .map (.ofArithmetic z.sqrt h) _
    | none => exact .ok _ h

/-- Related states give related runs of all tasks on the budgets `fuel` and `fuel'`. -/
def InStep (R : Nat → State → State → Prop) (spared : Halt → Prop) (limit limit' fuel fuel' : Nat) :
    Prop :=
  ∀ (task : Task) {d : Nat} {s t : State}, R d s t →
    Agrees (R d) spared (task.run limit fuel) (task.run limit' fuel') s t

/-- The second of two limits is the first, or a greater one for which the halt is spared that
reaching the first one brings about. -/
def Covers (spared : Prop) (limit limit' : Nat) : Prop :=
  limit = limit' ∨ limit ≤ limit' ∧ spared

variable {limit limit' fuel fuel' : Nat}

theorem InStep.call (lock : Lockstep R)
    (limits : Covers (spared (.fault (.callDepthExceeded limit))) limit limit')
    (ih : InStep R spared limit limit' fuel fuel') (name : String) (arguments : List Node)
    (h : R d s t) :
    Agrees (R d) spared (Machine.evaluate limit (fuel + 1) (.call name arguments))
      (Machine.evaluate limit' (fuel' + 1) (.call name arguments)) s t := by
  have sameFunctions := lock.functions h
  have sameDepth := lock.callDepth h
  rw [Machine.evaluate, Machine.evaluate]
  refine .environment ?_
  rw [← sameFunctions, ← sameDepth]
  cases s.environment.functions[name]? with
  | none => exact .fail _ h
  | some f =>
    have body : Agrees (R d) spared
        (do
          let frame ← bindAll limit fuel f.params arguments ∅
          modifyEnvironment (·.push frame)
          let flow ← thenAlways (Machine.evaluate limit fuel f.body) (·.pop)
          return flow.ofCall)
        (do
          let frame ← bindAll limit' fuel' f.params arguments ∅
          modifyEnvironment (·.push frame)
          let flow ← thenAlways (Machine.evaluate limit' fuel' f.body) (·.pop)
          return flow.ofCall) s t := by
      refine .bind (ih (.bind f.params arguments ∅) h) fun frame u u' related => ?_
      have pushed := lock.push related frame
      exact .map (.thenAlways (ih (.tree f.body) pushed) fun _ _ => lock.pop) Flow.ofCall
    dsimp only
    rcases limits with rfl | ⟨le, spare⟩
    · split
      · exact .fail _ h
      · exact body
    · by_cases reached : limit ≤ s.environment.callDepth
      · rw [if_pos reached]
        exact .of_spared rfl spare
      · have notReached : ¬ limit' ≤ s.environment.callDepth := fun h => reached (Nat.le_trans le h)
        rw [if_neg reached, if_neg notReached]
        exact body

theorem InStep.evaluate (lock : Lockstep R)
    (limits : Covers (spared (.fault (.callDepthExceeded limit))) limit limit')
    (ih : InStep R spared limit limit' fuel fuel') (node : Node) (h : R d s t) :
    Agrees (R d) spared (Machine.evaluate limit (fuel + 1) node)
      (Machine.evaluate limit' (fuel' + 1) node) s t := by
  cases node with
  | literal | returnNothing | «break» | «continue» | noOp | endOfInput => exact .ok _ h
  | identifier name =>
    have same := lock.value h name
    rw [Machine.evaluate, Machine.evaluate]
    refine .environment ?_
    rw [← same]
    cases s.environment.get? name with
    | none => exact .fail _ h
    | some z => exact .ok _ h
  | negation operand => exact (ih (.value operand) h).map _
  | binary op left right =>
    rw [Machine.evaluate, Machine.evaluate]
    refine .bind (ih (.value left) h) fun l s t h => ?_
    refine .bind (ih (.value right) h) fun r s t h => ?_
    exact .map (.ofArithmetic _ h) _
  | assignment target value =>
    rw [Machine.evaluate, Machine.evaluate]
    refine .bind (ih (.value value) h) fun v s t h => ?_
    exact .map (.modifyEnvironment (lock.modifyActive h _)) _
  | block statements => exact ih (.all statements) h
  | ifThen condition thenBlock =>
    rw [Machine.evaluate, Machine.evaluate]
    refine .bind (ih (.value condition) h) fun c s t h => ?_
    split
    · exact (ih (.tree thenBlock) h).map _
    · exact .ok _ h
  | ifElse condition thenBlock elseBlock =>
    rw [Machine.evaluate, Machine.evaluate]
    refine .bind (ih (.value condition) h) fun c s t h => ?_
    split
    · exact (ih (.tree thenBlock) h).map _
    · exact (ih (.tree elseBlock) h).map _
  | loop init condition step body =>
    rw [Machine.evaluate, Machine.evaluate]
    have whole := ih (.loop init condition step body) h
    cases init.assignedName with
    | none => exact whole
    | some name =>
      have same := lock.value h name
      refine .environment ?_
      rw [← same]
      exact .thenAlways whole fun _ _ related => lock.modifyActive related _
  | definition name params body =>
    exact .map (.modifyEnvironment (lock.define h name ⟨params, body⟩)) _
  | call name arguments => exact ih.call lock limits name arguments h
  | builtin b arguments =>
    cases arguments with
    | nil => exact lock.agrees_runBuiltin h b .none
    | cons argument arguments =>
      rw [Machine.evaluate, Machine.evaluate]
      exact .bind (ih (.value argument) h) fun v _ _ related => lock.agrees_runBuiltin related b v
  | returnValue value => exact (ih (.value value) h).map _

theorem InStep.succ (lock : Lockstep R)
    (limits : Covers (spared (.fault (.callDepthExceeded limit))) limit limit')
    (ih : InStep R spared limit limit' fuel fuel') :
    InStep R spared limit limit' (fuel + 1) (fuel' + 1) := by
  intro task d s t h
  cases task with
  | tree node => exact ih.evaluate lock limits node h
  | value node => exact (ih (.tree node) h).map _
  | all statements =>
    cases statements with
    | nil => exact .ok _ h
    | cons statement statements =>
      rw [Task.run, Task.run, evaluateAll, evaluateAll]
      refine .bind (ih (.tree statement) h) fun flow s t h => ?_
      split
      · exact .ok _ h
      · exact ih (.all statements) h
  | loop init condition step body =>
    rw [Task.run, Task.run, evaluateLoop, evaluateLoop]
    exact .bind (ih (.tree init) h) fun _ _ _ related => ih (.rounds condition step body) related
  | rounds condition step body =>
    rw [Task.run, Task.run, Machine.rounds, Machine.rounds]
    refine .bind (ih (.value condition) h) fun c s t h => ?_
    split
    · refine .bind (ih (.tree body) h) fun flow s t h => ?_
      cases flow with
      | breaking => exact .ok _ h
      | returning v => exact .ok _ h
      | value _ | silent _ | continuing =>
        exact .bind (ih (.tree step) h) fun _ _ _ related =>
          ih (.rounds condition step body) related
    · exact .ok _ h
  | bind params arguments frame =>
    cases params with
    | nil => exact .ok _ h
    | cons param params =>
      cases arguments with
      | nil => exact .ok _ h
      | cons argument arguments =>
        rw [Task.run, Task.run, bindAll, bindAll]
        exact .bind (ih (.value argument) h) fun v _ _ related =>
          ih (.bind params arguments (frame.insert param v.numberOrZero)) related

/-- Two runs of one task keep in step.  The second may have more budget and a greater limit on
calls, if the halts for which it would go on are spared. -/
theorem Task.agrees (lock : Lockstep R)
    (limits : Covers (spared (.fault (.callDepthExceeded limit))) limit limit')
    (budgets : Covers (spared .outOfFuel) fuel fuel') (task : Task) (h : R d s t) :
    Agrees (R d) spared (task.run limit fuel) (task.run limit' fuel') s t := by
  have inStep : InStep R spared limit limit' fuel fuel' := by
    clear h
    induction fuel generalizing fuel' with
    | zero =>
      intro task d s t h
      rw [run_zero]
      rcases budgets with rfl | ⟨_, spare⟩
      · rw [run_zero]
        exact .starved h
      · exact .of_spared rfl spare
    | succ fuel ih =>
      obtain ⟨fuel', rfl⟩ : ∃ n, fuel' = n + 1 := by
        rcases budgets with rfl | ⟨le, _⟩
        · exact ⟨fuel, rfl⟩
        · exact Nat.exists_eq_add_one.mpr (by omega)
      refine (ih ?_).succ lock limits
      rcases budgets with same | ⟨le, spare⟩
      · exact .inl (Nat.succ.inj same)
      · exact .inr ⟨Nat.le_of_succ_le_succ le, spare⟩
  exact inStep task h

end

/-! ## Greater limits -/

/-- A state is in step with itself. -/
theorem lockstep_eq : Lockstep fun _ s t => s = t where
  value h _ := by rw [h]
  functions h := by rw [h]
  callDepth h := by rw [h]
  modifyActive h _ := by rw [h]
  define h _ _ := by rw [h]
  push h _ := by rw [h]
  pop h := by rw [h]
  write h _ := by rw [h]; exact ⟨rfl, rfl⟩

/-- A run that does not reach the limit on calls is the same under a greater one. -/
theorem evaluate_of_greater {limit limit' fuel : Nat} {node : Node} {s : State}
    (le : limit ≤ limit')
    (unhit : ∀ t, evaluate limit fuel node s ≠ .error (.fault (.callDepthExceeded limit)) t) :
    evaluate limit' fuel node s = evaluate limit fuel node s := by
  have agree : Agrees (· = ·) (· = .fault (.callDepthExceeded limit))
      (evaluate limit fuel node) (evaluate limit' fuel node) s s := by
    refine Task.agrees lockstep_eq (.inr ⟨le, ?_⟩) (.inl rfl) (.tree node) (d := 0) rfl
    rfl
  cases run : evaluate limit fuel node s with
  | ok flow t =>
    obtain ⟨_, run', rfl⟩ := agree.1 flow t run
    exact run'
  | error halt t =>
    have notSpared : halt ≠ .fault (.callDepthExceeded limit) := by
      rintro rfl
      exact unhit t run
    obtain ⟨_, run', rfl⟩ := agree.2 halt t run notSpared
    exact run'

end ComplexScript.Machine
