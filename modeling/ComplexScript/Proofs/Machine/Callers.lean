import ComplexScript.Proofs.Machine.Frames
import ComplexScript.Proofs.Machine.Lockstep
set_option autoImplicit false

/-!
# What a call cannot see

A body that runs in a frame of its own neither reads nor writes the frames below.  So it runs alike
above two environments that differ in those frames only, and the outcome of a call depends on the
values of its arguments, on the functions, on how many calls are in progress and on the sink, and
on nothing else of its caller's (`call_blind_to_caller`).  The relation that the two runs keep is
`SameCalls`: the calls that both have begun have equal frames, and as many frames lie below.
-/

namespace ComplexScript.Machine

open ComplexScript.Program

/-! ## Runs above different frames -/

/-- Two states that have their sinks, their functions and the frames of the `d + 1` innermost calls
in common, with as many frames below. -/
def SameCalls (d : Nat) (s t : State) : Prop :=
  s.sink = t.sink ∧ s.environment.functions = t.environment.functions ∧
    ∃ frames below below' : List Frame, frames.length = d + 1 ∧ below.length = below'.length ∧
      s.environment.calls = frames ++ below ∧ t.environment.calls = frames ++ below'

/-- The frame of the innermost call is a shared one. -/
theorem SameCalls.cases {d : Nat} {s t : State} (h : SameCalls d s t) :
    ∃ (frame : Frame) (frames below below' : List Frame), frames.length = d ∧
      below.length = below'.length ∧ s.environment.calls = frame :: (frames ++ below) ∧
      t.environment.calls = frame :: (frames ++ below') := by
  obtain ⟨-, -, frames, below, below', length, deep, calls, calls'⟩ := h
  obtain ⟨frame, frames, rfl⟩ := List.exists_cons_of_length_eq_add_one length
  exact ⟨frame, frames, below, below', Nat.succ.inj length, deep, calls, calls'⟩

theorem sameCalls_push {e e' : Environment} (functions : e.functions = e'.functions)
    (depth : e.callDepth = e'.callDepth) (frame : Frame) (sink : Sink) :
    SameCalls 0 ⟨e.push frame, sink⟩ ⟨e'.push frame, sink⟩ :=
  ⟨rfl, functions, [frame], e.calls, e'.calls, rfl, depth, rfl, rfl⟩

/-- Runs of one tree in shared frames keep in step, whatever lies below. -/
theorem lockstep_sameCalls : Lockstep SameCalls where
  value h x := by
    obtain ⟨frame, frames, below, below', -, -, calls, calls'⟩ := h.cases
    rw [Environment.get?, Environment.get?, Environment.active, Environment.active, calls, calls']
    rfl
  functions h := h.2.1
  callDepth h := by
    obtain ⟨frame, frames, below, below', -, deep, calls, calls'⟩ := h.cases
    rw [Environment.callDepth, Environment.callDepth, calls, calls']
    simp [deep]
  modifyActive h f := by
    obtain ⟨frame, frames, below, below', length, deep, calls, calls'⟩ := h.cases
    refine ⟨h.1, ?_, f frame :: frames, below, below', congrArg (· + 1) length, deep, ?_, ?_⟩
    · simpa using h.2.1
    · simp only [Environment.modifyActive, calls, List.cons_append]
    · simp only [Environment.modifyActive, calls', List.cons_append]
  define h name f := ⟨h.1, congrArg (·.insert name f) h.2.1, h.2.2⟩
  push := by
    rintro d s t ⟨sinks, functions, frames, below, below', length, deep, calls, calls'⟩ frame
    exact ⟨sinks, functions, frame :: frames, below, below', congrArg (· + 1) length, deep,
      congrArg (frame :: ·) calls, congrArg (frame :: ·) calls'⟩
  pop := by
    intro d s t h
    obtain ⟨frame, frames, below, below', length, deep, calls, calls'⟩ := h.cases
    exact ⟨h.1, h.2.1, frames, below, below', length, deep, congrArg List.tail calls,
      congrArg List.tail calls'⟩
  write h text := ⟨by rw [h.1], congrArg (fun k => (k.write text).2) h.1, h.2⟩

/-! ## What a run shows -/

namespace Eval

variable {α β : Type} {s t : State}

/-- What a run shows: its result or why it halts, what it has written, and the functions after
it. -/
def shown (m : Eval α) (s : State) : Except Halt α × Sink × Table Function :=
  (m.result s, (m.after s).sink, (m.after s).environment.functions)

theorem shown_of_ok {m : Eval α} {a : α} (run : m s = .ok a t) :
    m.shown s = (.ok a, t.sink, t.environment.functions) := by
  rw [shown, result, after, run]

theorem shown_of_error {m : Eval α} {halt : Halt} (run : m s = .error halt t) :
    m.shown s = (.error halt, t.sink, t.environment.functions) := by
  rw [shown, result, after, run]

/-- Two runs in step show the same, if no halt is spared. -/
theorem Agrees.shown_eq {R : State → State → Prop} {m m' : Eval α}
    (h : Agrees R (fun _ => False) m m' s t)
    (same : ∀ s' t', R s' t' → s'.sink = t'.sink ∧
      s'.environment.functions = t'.environment.functions) : m.shown s = m'.shown t := by
  obtain ⟨yields, halts⟩ := h
  cases run : m s with
  | ok a s' =>
    obtain ⟨t', run', related⟩ := yields a s' run
    obtain ⟨sinks, functions⟩ := same s' t' related
    rw [shown_of_ok run, shown_of_ok run', sinks, functions]
  | error halt s' =>
    obtain ⟨t', run', related⟩ := halts halt s' run not_false
    obtain ⟨sinks, functions⟩ := same s' t' related
    rw [shown_of_error run, shown_of_error run', sinks, functions]

/-- Sequences show the same when their first runs do and what follows does. -/
theorem shown_bind {m m' : Eval α} {f : α → Eval β} (first : m.shown s = m'.shown t)
    (second : ∀ a u u', m s = .ok a u → m' t = .ok a u' → u.sink = u'.sink →
      u.environment.functions = u'.environment.functions → (f a).shown u = (f a).shown u') :
    (m >>= f).shown s = (m' >>= f).shown t := by
  cases run : m s with
  | ok a u =>
    cases run' : m' t with
    | ok a' u' =>
      rw [shown_of_ok run, shown_of_ok run'] at first
      obtain ⟨rfl, sinks, functions⟩ : a = a' ∧ u.sink = u'.sink ∧
          u.environment.functions = u'.environment.functions := by simpa using first
      have rest := second a u u' run run' sinks functions
      rw [shown, shown, result, result, after, after] at rest ⊢
      rw [bind_of_ok run, bind_of_ok run']
      exact rest
    | error halt u' =>
      rw [shown_of_ok run, shown_of_error run'] at first
      exact absurd (congrArg Prod.fst first) (by simp)
  | error halt u =>
    cases run' : m' t with
    | ok a' u' =>
      rw [shown_of_error run, shown_of_ok run'] at first
      exact absurd (congrArg Prod.fst first) (by simp)
    | error halt' u' =>
      rw [shown_of_error run, shown_of_error run'] at first
      rw [shown_of_error (bind_of_error run), shown_of_error (bind_of_error run')]
      simpa using first

@[simp] theorem shown_fail (f : Fault) (s : State) :
    (fail f : Eval α).shown s = (.error (.fault f), s.sink, s.environment.functions) := rfl

@[simp] theorem shown_environment (f : Environment → Eval β) (s : State) :
    (environment >>= f).shown s = (f s.environment).shown s := rfl

/-- Neither the beginning nor the end of a call is seen in what its body shows. -/
theorem shown_inFrame (m : Eval α) (frame : Frame) (f : α → β) (s : State) :
    (do
      modifyEnvironment (·.push frame)
      let a ← thenAlways m (·.pop)
      return f a : Eval β).shown s =
      let inside := m.shown ⟨s.environment.push frame, s.sink⟩
      (inside.1.map f, inside.2) := by
  show (thenAlways m (·.pop) >>= fun a => pure (f a) : Eval β).shown
    ⟨s.environment.push frame, s.sink⟩ = _
  cases run : m ⟨s.environment.push frame, s.sink⟩ with
  | ok a t =>
    have ends : thenAlways m (·.pop) ⟨s.environment.push frame, s.sink⟩ =
        .ok a { t with environment := t.environment.pop } := by rw [thenAlways, run]
    rw [shown_of_ok run, shown, result, after, bind_of_ok ends]
    rfl
  | error halt t =>
    have ends : thenAlways m (·.pop) ⟨s.environment.push frame, s.sink⟩ =
        .error halt { t with environment := t.environment.pop } := by rw [thenAlways, run]
    rw [shown_of_error run, shown, result, after, bind_of_error ends]
    rfl

end Eval

open Eval

/-! ## Arguments -/

/-- The values of arguments, in order. -/
def valuesOf (limit : Nat) : Nat → List Node → Eval (List Value)
  | 0, _ => starved
  | _ + 1, [] => return []
  | fuel + 1, argument :: arguments => do
    let v ← valueOf limit fuel argument
    let vs ← valuesOf limit fuel arguments
    return v :: vs

/-- Bind parameters to values, pair by pair. -/
def boundTo : List String → List Value → Frame → Frame
  | param :: params, v :: vs, frame => boundTo params vs (frame.insert param v.numberOrZero)
  | _, _, frame => frame

/-- Parameters are bound to the values of as many arguments as there are parameters. -/
theorem bindAll_eq (limit fuel : Nat) (params : List String) (arguments : List Node)
    (frame : Frame) : bindAll limit fuel params arguments frame = do
      let vs ← valuesOf limit fuel (arguments.take params.length)
      return boundTo params vs frame := by
  induction fuel generalizing params arguments frame with
  | zero => rfl
  | succ fuel ih =>
    cases params with
    | nil => rfl
    | cons param params =>
      cases arguments with
      | nil => rfl
      | cons argument arguments =>
        rw [bindAll, List.length_cons, List.take_succ_cons, valuesOf]
        simp only [bind_assoc, pure_bind, ih]
        rfl

/-- Arguments leave as many calls in progress as there were. -/
theorem callDepth_of_valuesOf {limit fuel : Nat} {arguments : List Node} {values : List Value}
    {s t : State} (run : valuesOf limit fuel arguments s = .ok values t) :
    t.environment.callDepth = s.environment.callDepth := by
  have params : ∃ params : List String, params.length = arguments.length :=
    ⟨List.replicate arguments.length "", List.length_replicate⟩
  obtain ⟨params, length⟩ := params
  have within := Task.within limit fuel (.bind params arguments ∅) s
  rw [Task.run, bindAll_eq, length, List.take_length, after_map, after_of_ok run] at within
  exact within.depth

/-! ## Calls -/

variable {limit fuel : Nat} {e e' : Environment}

/-- A body shows the same in one frame above two environments, whatever their own frames are. -/
theorem body_blind (functions : e.functions = e'.functions) (depth : e.callDepth = e'.callDepth)
    (body : Node) (frame : Frame) (sink : Sink) :
    (evaluate limit fuel body).shown ⟨e.push frame, sink⟩ =
      (evaluate limit fuel body).shown ⟨e'.push frame, sink⟩ :=
  Agrees.shown_eq
    (Task.agrees lockstep_sameCalls (.inl rfl) (.inl rfl) (.tree body)
      (sameCalls_push functions depth frame sink))
    fun _ _ related => ⟨related.1, related.2.1⟩

/-- The body of a function, run in one frame above two environments with the same functions and as
many calls in progress, shows the same.  So do two calls of one function whose arguments have the
same values and leave the same sink and the same functions. -/
theorem call_blind_to_caller (limit fuel : Nat) (e e' : Environment) (sink : Sink)
    (functions : e.functions = e'.functions) (depth : e.callDepth = e'.callDepth) :
    (∀ (body : Node) (frame : Frame), (evaluate limit fuel body).shown ⟨e.push frame, sink⟩ =
      (evaluate limit fuel body).shown ⟨e'.push frame, sink⟩) ∧
    ∀ (name : String) (arguments arguments' : List Node),
      (∀ f, e.functions[name]? = some f →
        (valuesOf limit fuel (arguments.take f.params.length)).shown ⟨e, sink⟩ =
          (valuesOf limit fuel (arguments'.take f.params.length)).shown ⟨e', sink⟩) →
      (evaluate limit (fuel + 1) (.call name arguments)).shown ⟨e, sink⟩ =
        (evaluate limit (fuel + 1) (.call name arguments')).shown ⟨e', sink⟩ := by
  refine ⟨fun body frame => body_blind functions depth body frame sink, ?_⟩
  intro name arguments arguments' sameValues
  rw [evaluate, evaluate, shown_environment, shown_environment]
  dsimp only
  rw [← functions, ← depth]
  cases found : e.functions[name]? with
  | none => rw [shown_fail, shown_fail, functions]
  | some f =>
    dsimp only
    split
    · rw [shown_fail, shown_fail, functions]
    · simp only [bindAll_eq, bind_assoc, pure_bind]
      refine shown_bind (sameValues f found) ?_
      intro values u u' run run' sinks sameFunctions
      have sameDepth : u.environment.callDepth = u'.environment.callDepth := by
        rw [callDepth_of_valuesOf run, callDepth_of_valuesOf run']
        exact depth
      rw [shown_inFrame, shown_inFrame, ← sinks, body_blind sameFunctions sameDepth]

/-- A function that shows its parameter and calls itself with a smaller one. -/
def countdown : Function where
  params := ["n"]
  body := .block [.builtin .println [.identifier "n"],
    .ifThen (.identifier "n") (.block [.returnValue
      (.binary .add (.identifier "n")
        (.call "count" [.binary .subtract (.identifier "n") (.literal .one)]))])]

/-- A call in progress, above a top level, that could call `countdown`. -/
def caller (own globals : Frame) : Environment :=
  { functions := (∅ : Table Function).insert "count" countdown, globals := globals
    calls := [own] }

theorem count_blind_to_caller :
    let e := caller ((∅ : Frame).insert "n" ⟨2.0, 0.0⟩) ∅
    let e' := caller ∅ ((∅ : Frame).insert "n" .one)
    (evaluate 9 98 countdown.body).shown ⟨e.push ((∅ : Frame).insert "n" .one), {}⟩ =
      (evaluate 9 98 countdown.body).shown ⟨e'.push ((∅ : Frame).insert "n" .one), {}⟩ ∧
    (evaluate 9 99 (.call "count" [.identifier "n"])).shown ⟨e, {}⟩ =
      (evaluate 9 99 (.call "count" [.literal ⟨2.0, 0.0⟩])).shown ⟨e', {}⟩ ∧
    (evaluate 9 99 (.call "count" [.identifier "n"])).result ⟨e, {}⟩ =
      .ok (.value (.number ⟨3.0, 0.0⟩)) := by
  intro e e'
  obtain ⟨bodies, calls⟩ := call_blind_to_caller 9 98 e e' {} rfl rfl
  refine ⟨bodies countdown.body ((∅ : Frame).insert "n" .one),
    calls "count" [.identifier "n"] [.literal ⟨2.0, 0.0⟩] ?_, by decide +kernel⟩
  intro f found
  obtain rfl : countdown = f := by simpa [e, caller] using found
  rfl

end ComplexScript.Machine
