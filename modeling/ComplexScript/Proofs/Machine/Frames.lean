import ComplexScript.Proofs.Machine.Tasks
set_option autoImplicit false

/-!
# What a run may change in the environment

However a run ends, the calls in progress are those it began with, only the frame in use has been
written to, and there only the variables that its trees assign are bound to something else; none
of them has come unbound.  If its trees are plain and so are all functions, the functions are the
same as before.  `Environment.Within` states this of two environments, and `Task.within` is the law.
-/

namespace ComplexScript.Machine

open ComplexScript.Program

namespace Environment

variable {e e₁ e₂ : Environment} {names names' : List String} {plain plain' : Prop}

/-- The bodies of all functions are plain. -/
def Plain (e : Environment) : Prop :=
  ∀ (name : String) (f : Function), e.functions[name]? = some f → f.body.Plain

/-- What a run may turn the environment `e₁` into: in the frame in use it may bind `names`, and it
may define functions, but not if it is `plain` and so are all functions. -/
structure Within (names : List String) (plain : Prop) (e₁ e₂ : Environment) : Prop where
  depth : e₂.calls.length = e₁.calls.length
  callers : e₂.calls.tail = e₁.calls.tail
  globals : e₁.calls ≠ [] → e₂.globals = e₁.globals
  others : ∀ x, x ∉ names → e₂.get? x = e₁.get? x
  bound : ∀ x, e₁.get? x ≠ none → e₂.get? x ≠ none
  functions : plain → e₁.Plain → e₂.functions = e₁.functions

namespace Within

theorem refl (e : Environment) : Within names plain e e :=
  ⟨rfl, rfl, fun _ => rfl, fun _ _ => rfl, fun _ h => h, fun _ _ => rfl⟩

theorem of_eq (h : e₂ = e₁) : Within names plain e₁ e₂ := by
  rw [h]
  exact refl e₁

theorem trans {e₃ : Environment} (first : Within names plain e₁ e₂)
    (second : Within names plain e₂ e₃) : Within names plain e₁ e₃ where
  depth := second.depth.trans first.depth
  callers := second.callers.trans first.callers
  globals := by
    intro inCall
    have stillInCall : e₂.calls ≠ [] := by
      intro h
      have depth := first.depth
      rw [h] at depth
      exact inCall (List.length_eq_zero_iff.mp depth.symm)
    exact (second.globals stillInCall).trans (first.globals inCall)
  others x h := (second.others x h).trans (first.others x h)
  bound x h := second.bound x (first.bound x h)
  functions := by
    intro isPlain plainBefore
    have same := first.functions isPlain plainBefore
    have plainBetween : e₂.Plain := by
      intro name f found
      rw [same] at found
      exact plainBefore name f found
    exact (second.functions isPlain plainBetween).trans same

/-- A run may bind more names than it does, and count as plain only in a plain environment. -/
theorem mono (h : Within names plain e₁ e₂) (sub : ∀ x, x ∈ names → x ∈ names')
    (weaker : plain' → e₁.Plain → plain) : Within names' plain' e₁ e₂ where
  depth := h.depth
  callers := h.callers
  globals := h.globals
  others x hx := h.others x fun mem => hx (sub x mem)
  bound := h.bound
  functions isPlain before := h.functions (weaker isPlain before) before

/-! ## Single changes -/

/-- Changing the frame in use changes no other part. -/
theorem of_modifyActive (f : Frame → Frame)
    (others : ∀ x : String, x ∉ names → (f e.active)[x]? = e.active[x]?)
    (bound : ∀ x : String, e.active[x]? ≠ none → (f e.active)[x]? ≠ none) :
    Within names plain e (e.modifyActive f) where
  depth := callDepth_modifyActive e f
  callers := by unfold modifyActive; split <;> simp_all
  globals := by
    intro inCall
    unfold modifyActive
    split
    · next h => exact absurd h inCall
    · rfl
  others x h := by
    rw [get?, active_modifyActive]
    exact others x h
  bound x h := by
    rw [get?, active_modifyActive]
    exact bound x h
  functions _ _ := modifyActive_functions e f

theorem set (name : String) (z : Number) : Within [name] plain e (e.set name z) := by
  refine of_modifyActive _ ?_ ?_
  · intro x h
    have different : compare name x ≠ .eq := by
      intro same
      exact h (List.mem_singleton.mpr (Std.LawfulEqCmp.eq_of_compare same).symm)
    rw [Std.ExtTreeMap.getElem?_insert, if_neg different]
  · intro x h
    rw [Std.ExtTreeMap.getElem?_insert]
    split
    · exact Option.some_ne_none z
    · exact h

/-- Defining a function binds no variable. -/
theorem define (name : String) (f : Function) : Within [] False e (e.define name f) :=
  ⟨rfl, rfl, fun _ => rfl, fun _ _ => rfl, fun _ h => h, False.elim⟩

/-- A loop's variable is given back: nothing is left of what the loop did to it. -/
theorem reset (h : Within names plain e₁ e₂) (name : String) :
    Within (names.filter (· ≠ name)) plain e₁ (e₂.reset name (e₁.get? name)) := by
  have value : ∀ x, (e₂.reset name (e₁.get? name)).get? x =
      if x = name then e₁.get? name else e₂.get? x := by
    intro x
    rw [get?, Environment.reset, active_modifyActive]
    exact Table.getElem?_reset e₂.active name (e₁.get? name) x
  refine ⟨?_, ?_, ?_, ?_, ?_, ?_⟩
  · exact (callDepth_modifyActive e₂ _).trans h.depth
  · refine Eq.trans ?_ h.callers
    unfold Environment.reset modifyActive
    split <;> simp_all
  · intro inCall
    refine Eq.trans ?_ (h.globals inCall)
    have stillInCall : e₂.calls ≠ [] := by
      intro none
      have depth := h.depth
      rw [none] at depth
      exact inCall (List.length_eq_zero_iff.mp depth.symm)
    unfold Environment.reset modifyActive
    split
    · next none => exact absurd none stillInCall
    · rfl
  · intro x notIn
    rw [value]
    split
    · next same => rw [same]
    · next different => exact h.others x fun mem => notIn (by simp [mem, different])
  · intro x wasBound
    rw [value]
    split
    · next same => exact same ▸ wasBound
    · exact h.bound x wasBound
  · intro isPlain before
    exact (modifyActive_functions e₂ _).trans (h.functions isPlain before)

/-- What a function's body does in its own frame is gone when the frame is. -/
theorem pop {frame : Frame} (h : Within names plain (e₁.push frame) e₂) :
    Within names' plain e₁ e₂.pop := by
  have calls : e₂.pop.calls = e₁.calls := h.callers
  have globals : e₂.pop.globals = e₁.globals := h.globals (List.cons_ne_nil frame e₁.calls)
  have same : ∀ x, e₂.pop.get? x = e₁.get? x := by
    intro x
    rw [get?, active, calls, globals]
    rfl
  refine ⟨by rw [calls], by rw [calls], fun _ => globals, fun x _ => same x, fun x h => ?_, ?_⟩
  · rw [same]
    exact h
  · intro isPlain before
    exact h.functions isPlain before

end Within

end Environment

open Environment (Within)

/-! ## Runs -/

namespace Eval

variable {α β : Type} {names names' : List String} {plain plain' : Prop} {s : State}

/-- From the state `s` the run changes the environment only within the given bounds. -/
def Keeps (names : List String) (plain : Prop) (m : Eval α) (s : State) : Prop :=
  Within names plain s.environment (m.after s).environment

namespace Keeps

theorem mono {m : Eval α} (h : Keeps names plain m s) (sub : ∀ x, x ∈ names → x ∈ names')
    (weaker : plain' → s.environment.Plain → plain) : Keeps names' plain' m s :=
  Within.mono h sub weaker

/-- A run that leaves the environment alone is within all bounds. -/
theorem of_eq {m : Eval α} (h : (m.after s).environment = s.environment) : Keeps names plain m s :=
  Within.of_eq h

theorem bind {m : Eval α} {f : α → Eval β} (first : Keeps names plain m s)
    (second : ∀ a t, m s = .ok a t → Keeps names plain (f a) t) :
    Keeps names plain (m >>= f) s := by
  rw [Keeps] at first
  cases run : m s with
  | ok a t =>
    rw [after_of_ok run] at first
    have whole : (m >>= f).after s = (f a).after t := by rw [after, after, bind_of_ok run]
    rw [Keeps, whole]
    exact first.trans (second a t run)
  | error halt t =>
    rw [after_of_error run] at first
    rw [Keeps, after_of_error (bind_of_error run)]
    exact first

theorem map {m : Eval α} (h : Keeps names plain m s) (f : α → β) :
    Keeps names plain (m >>= fun a => pure (f a)) s := by
  rw [Keeps, after_map]
  exact h

/-- A run may depend on the environment that it begins in. -/
theorem environment {f : Environment → Eval β} (h : Keeps names plain (f s.environment) s) :
    Keeps names plain (Eval.environment >>= f) s := h

/-- A run in a frame of its own changes no variable of the frame below. -/
theorem inFrame {m : Eval α} {frame : Frame}
    (h : Keeps names plain m { s with environment := s.environment.push frame }) (f : α → β) :
    Keeps names' plain (do
      modifyEnvironment (·.push frame)
      let a ← thenAlways m (·.pop)
      return f a) s := by
  show Within names' plain s.environment
    ((thenAlways m (·.pop) >>= fun a => pure (f a)).after
      { s with environment := s.environment.push frame }).environment
  rw [after_map, after_thenAlways]
  exact Within.pop h

/-- A run that gives a variable back leaves nothing of what it did to it. -/
theorem giveBack {m : Eval α} (h : Keeps names plain m s) (name : String) :
    Keeps (names.filter (· ≠ name)) plain
      (thenAlways m (·.reset name (s.environment.get? name))) s := by
  rw [Keeps, after_thenAlways]
  exact Within.reset h name

end Keeps

end Eval

open Eval

/-- A built-in function leaves the environment alone. -/
theorem runBuiltin_keeps {names : List String} {plain : Prop} (b : Builtin) (v : Value)
    (s : State) : Keeps names plain (runBuiltin b v) s := by
  cases b with
  | print => exact Keeps.map (.of_eq (after_write_environment _ s)) _
  | println => exact Keeps.map (.of_eq (after_write_environment _ s)) _
  | sqrt =>
    cases v with
    | number z => exact Keeps.map (.of_eq (congrArg State.environment (after_ofArithmetic _ s))) _
    | none => exact .of_eq rfl

/-- The law holds of all tasks on the budget `fuel`. -/
def Framed (limit fuel : Nat) : Prop :=
  ∀ (task : Task) (s : State), Keeps task.assigned task.Plain (task.run limit fuel) s

section

variable {limit fuel : Nat} {names : List String} {plain : Prop}

/-- A tree run as a part of a task. -/
theorem Framed.tree (ih : Framed limit fuel) (node : Node)
    (sub : ∀ x, x ∈ node.assigned → x ∈ names) (weaker : plain → node.Plain) (s : State) :
    Keeps names plain (evaluate limit fuel node) s :=
  (ih (.tree node) s).mono sub fun h _ => weaker h

/-- A tree run for its value as a part of a task. -/
theorem Framed.value (ih : Framed limit fuel) (node : Node)
    (sub : ∀ x, x ∈ node.assigned → x ∈ names) (weaker : plain → node.Plain) (s : State) :
    Keeps names plain (valueOf limit fuel node) s :=
  (ih (.value node) s).mono sub fun h _ => weaker h

/-- A call gives the frame in use back as it was, but for what its arguments assign. -/
theorem Framed.call (ih : Framed limit fuel) (name : String) (arguments : List Node) (s : State) :
    Keeps (Node.call name arguments).assigned (Node.call name arguments).Plain
      (evaluate limit (fuel + 1) (.call name arguments)) s := by
  rw [evaluate]
  refine .environment ?_
  cases found : s.environment.functions[name]? with
  | none => exact .of_eq rfl
  | some f =>
    dsimp only
    split
    · exact .of_eq rfl
    · -- the body is plain because the environment that the call begins in is
      suffices Keeps (Node.assignedAll arguments) (Node.AllPlain arguments ∧ f.body.Plain) _ s from
        this.mono (fun _ mem => mem) fun plain before => ⟨plain.2, before name f found⟩
      refine .bind ((ih (.bind f.params arguments ∅) s).mono (fun _ mem => mem) fun h _ => h.1) ?_
      intro frame t _
      have body : Keeps f.body.assigned (Node.AllPlain arguments ∧ f.body.Plain)
          (evaluate limit fuel f.body) { t with environment := t.environment.push frame } :=
        (ih (.tree f.body) _).mono (fun _ mem => mem) fun h _ => h.2
      exact body.inFrame Flow.ofCall

/-- A loop gives its own variable back. -/
theorem Framed.loop (ih : Framed limit fuel) (init condition step body : Node) (s : State) :
    Keeps (Node.loop init condition step body).assigned (Node.loop init condition step body).Plain
      (evaluate limit (fuel + 1) (.loop init condition step body)) s := by
  have whole := ih (.loop init condition step body) s
  rw [evaluate]
  rw [Node.assigned]
  cases init.assignedName with
  | none => exact whole
  | some name => exact Keeps.environment (whole.giveBack name)

theorem Framed.evaluate (ih : Framed limit fuel) (node : Node) (s : State) :
    Keeps node.assigned node.Plain (Machine.evaluate limit (fuel + 1) node) s := by
  cases node with
  | literal | returnNothing | «break» | «continue» | noOp | endOfInput => exact .of_eq rfl
  | identifier name =>
    rw [Machine.evaluate]
    refine .environment ?_
    cases s.environment.get? name <;> exact .of_eq rfl
  | negation operand => exact (ih (.value operand) s).map _
  | binary op left right =>
    rw [Machine.evaluate]
    refine .bind (ih.value left (by simp +contextual [Node.assigned]) (·.1) s) fun l t _ => ?_
    refine .bind (ih.value right (by simp +contextual [Node.assigned]) (·.2) t) fun r u _ => ?_
    exact .map (.of_eq (by rw [after_ofArithmetic])) _
  | assignment target value =>
    rw [Machine.evaluate]
    refine .bind (ih.value value (by simp +contextual [Node.assigned]) id s) fun v t _ => ?_
    refine .map (Within.mono (.set target v.numberOrZero) ?_ fun _ _ => trivial) _
    simp [Node.assigned]
  | block statements => exact ih (.all statements) s
  | ifThen condition thenBlock =>
    rw [Machine.evaluate]
    refine .bind (ih.value condition (by simp +contextual [Node.assigned]) (·.1) s) fun c t _ => ?_
    split
    · exact .map (ih.tree thenBlock (by simp +contextual [Node.assigned]) (·.2) t) _
    · exact .of_eq rfl
  | ifElse condition thenBlock elseBlock =>
    rw [Machine.evaluate]
    refine .bind (ih.value condition (by simp +contextual [Node.assigned]) (·.1) s) fun c t _ => ?_
    split
    · exact .map (ih.tree thenBlock (by simp +contextual [Node.assigned]) (·.2.1) t) _
    · exact .map (ih.tree elseBlock (by simp +contextual [Node.assigned]) (·.2.2) t) _
  | loop init condition step body => exact ih.loop init condition step body s
  | definition name params body =>
    exact .map (Within.mono (.define name ⟨params, body⟩) (fun _ mem => absurd mem List.not_mem_nil)
      fun h _ => h) _
  | call name arguments => exact ih.call name arguments s
  | builtin b arguments =>
    cases arguments with
    | nil => exact runBuiltin_keeps b .none s
    | cons argument arguments =>
      rw [Machine.evaluate]
      refine .bind (ih.value argument ?_ (·.1) s) fun v t _ => runBuiltin_keeps b v t
      simp +contextual [Node.assigned, Node.assignedAll]
  | returnValue value => exact (ih (.value value) s).map _

/-- One more unit of budget keeps the law. -/
theorem Framed.succ (ih : Framed limit fuel) : Framed limit (fuel + 1) := by
  intro task s
  cases task with
  | tree node => exact ih.evaluate node s
  | value node => exact (ih (.tree node) s).map _
  | all statements =>
    cases statements with
    | nil => exact .of_eq rfl
    | cons statement statements =>
      rw [Task.run, evaluateAll]
      refine .bind (ih.tree statement (by simp +contextual [Task.assigned, Node.assignedAll])
        (·.1) s) fun flow t _ => ?_
      split
      · exact .of_eq rfl
      · exact (ih (.all statements) t).mono
          (by simp +contextual [Task.assigned, Node.assignedAll]) fun h _ => h.2
  | loop init condition step body =>
    rw [Task.run, evaluateLoop]
    refine .bind (ih.tree init (by simp +contextual [Task.assigned]) (·.1) s) fun _ t _ => ?_
    exact (ih (.rounds condition step body) t).mono
      (by simp +contextual [Task.assigned]) fun h _ => h.2
  | rounds condition step body =>
    rw [Task.run, Machine.rounds]
    refine .bind (ih.value condition (by simp +contextual [Task.assigned]) (·.1) s)
      fun c t _ => ?_
    split
    · refine .bind (ih.tree body (by simp +contextual [Task.assigned]) (·.2.2) t)
        fun flow u _ => ?_
      split
      · exact .of_eq rfl
      · exact .of_eq rfl
      · refine .bind (ih.tree step (by simp +contextual [Task.assigned]) (·.2.1) u)
          fun _ v _ => ?_
        exact ih (.rounds condition step body) v
    · exact .of_eq rfl
  | bind params arguments frame =>
    cases params with
    | nil => exact .of_eq rfl
    | cons param params =>
      cases arguments with
      | nil => exact .of_eq rfl
      | cons argument arguments =>
        rw [Task.run, bindAll]
        refine .bind (ih.value argument (by simp +contextual [Task.assigned, Node.assignedAll])
          (·.1) s) fun v t _ => ?_
        exact (ih (.bind params arguments (frame.insert param v.numberOrZero)) t).mono
          (by simp +contextual [Task.assigned, Node.assignedAll]) fun h _ => h.2

end

/-- Whatever a task does and however it ends, it changes the environment only within bounds: it may
bind the variables that its trees assign, and if they and all functions are plain it defines
nothing. -/
theorem Task.within (limit fuel : Nat) (task : Task) (s : State) :
    Within task.assigned task.Plain s.environment
      ((task.run limit fuel).after s).environment := by
  have framed : Framed limit fuel := by
    induction fuel with
    | zero =>
      intro task s
      rw [run_zero]
      exact .of_eq rfl
    | succ fuel ih => exact ih.succ
  exact framed task s

theorem Task.within_of_ok {limit fuel : Nat} (task : Task) {s t : State} {r : task.Result}
    (run : task.run limit fuel s = .ok r t) :
    Within task.assigned task.Plain s.environment t.environment := by
  have within := Task.within limit fuel task s
  rw [after_of_ok run] at within
  exact within

/-! ## Frames -/

/-- All frames, the one in use first. -/
def Environment.frames (e : Environment) : List Frame := e.calls ++ [e.globals]

/-- Only the frame in use may be another one. -/
theorem Environment.Within.frames_tail {names : List String} {plain : Prop} {e₁ e₂ : Environment}
    (h : Within names plain e₁ e₂) : e₂.frames.tail = e₁.frames.tail := by
  have depth := h.depth
  have callers := h.callers
  have globals := h.globals
  unfold frames
  cases before : e₁.calls with
  | nil =>
    rw [before] at depth
    rw [List.length_eq_zero_iff.mp depth]
    rfl
  | cons frame frames =>
    rw [before] at depth callers globals
    obtain ⟨frame', frames', after⟩ := List.exists_cons_of_length_eq_add_one depth
    rw [after] at callers
    have same : frames' = frames := callers
    rw [after, same, globals (List.cons_ne_nil frame frames)]
    rfl

/-- However the run of a tree ends, as many calls are in progress as before, every frame but the
one in use is the same, and in the one in use every variable that the tree does not assign is bound
as before, or is not bound as before.  No variable has come unbound. -/
theorem run_touches_assigned (limit fuel : Nat) (node : Node) (s : State) :
    let before := s.environment
    let after := ((evaluate limit fuel node).after s).environment
    after.callDepth = before.callDepth ∧ after.frames.tail = before.frames.tail ∧
      (∀ x, x ∉ node.assigned → after.get? x = before.get? x) ∧
      ∀ x, before.get? x ≠ none → after.get? x ≠ none :=
  have within : Within node.assigned node.Plain s.environment
      ((evaluate limit fuel node).after s).environment := Task.within limit fuel (.tree node) s
  ⟨within.depth, within.frames_tail, within.others, within.bound⟩

/-- Two loops over one variable, the inner one with a call whose body divides by zero in the round
after the first. -/
def sharedVariable : Node :=
  let loop (body : Node) : Node := .loop (.assignment "i" (.literal .zero))
    (.binary .less (.identifier "i") (.identifier "n"))
    (.assignment "i" (.binary .add (.identifier "i") (.literal .one))) body
  loop (loop (.assignment "a" (.call "f" [.binary .subtract (.literal .one) (.identifier "i")])))

/-- A call in progress that has bound the loops' variable, above a top level that has, too. -/
def inCall : Environment where
  functions := (∅ : Table Function).insert "f"
    ⟨["n"], .block [.assignment "i" (.binary .divide (.literal .one) (.identifier "n"))]⟩
  globals := (∅ : Frame).insert "i" .one
  calls := [((∅ : Frame).insert "i" .zero).insert "n" ⟨4.0, 0.0⟩]

theorem sharedVariable_touches_a : sharedVariable.assigned = ["a"] ∧
    (evaluate 9 99 sharedVariable).result ⟨inCall, {}⟩ =
      .error (.fault (.arithmetic .divisionByZero)) ∧
    ((evaluate 9 99 sharedVariable).after ⟨inCall, {}⟩).environment.frames.tail =
      inCall.frames.tail ∧
    ((evaluate 9 99 sharedVariable).after ⟨inCall, {}⟩).environment.get? "i" = inCall.get? "i" ∧
    ((evaluate 9 99 sharedVariable).after ⟨inCall, {}⟩).environment.get? "n" ≠ none := by
  obtain ⟨-, tail, others, bound⟩ := run_touches_assigned 9 99 sharedVariable ⟨inCall, {}⟩
  exact ⟨by decide, by decide +kernel, tail, others "i" (by decide), bound "n" (by decide +kernel)⟩

end ComplexScript.Machine
