import ComplexScript.Proofs.Machine.Frames
import ComplexScript.Proofs.Machine.Triples
set_option autoImplicit false

/-!
# The points that a run comes to

A run is made of runs on a smaller budget.  `Part` lists for each task which runs it makes, and from
which states; `Reaches` is its closure, so that a tree is run at some point of a run exactly if the
run reaches it.  No fault comes from elsewhere: a run that ends in a fault reaches a tree that
raises it (`Task.fault_raised`).  In a plain run the trees reached are made of the calls of the
first tree and of those in the bodies of functions, and the functions stay the same
(`Reaches.calls`).
-/

namespace ComplexScript.Machine

open ComplexScript.Program

/-- The run of a task on the budget `fuel + 1` makes a run of another task on the budget `fuel`.
The hypotheses are what has been run before it, and where that led. -/
inductive Part (limit fuel : Nat) : Task → State → Task → State → Prop where
  | negation {operand : Node} {s : State} : Part limit fuel (.tree (.negation operand)) s
      (.value operand) s
  | left {op : Operator} {left right : Node} {s : State} :
    Part limit fuel (.tree (.binary op left right)) s (.value left) s
  | right {op : Operator} {left right : Node} {s t : State} {v : Value}
    (before : valueOf limit fuel left s = .ok v t) :
    Part limit fuel (.tree (.binary op left right)) s (.value right) t
  | assignment {target : String} {value : Node} {s : State} :
    Part limit fuel (.tree (.assignment target value)) s (.value value) s
  | block {statements : List Node} {s : State} :
    Part limit fuel (.tree (.block statements)) s (.all statements) s
  | ifCondition {condition thenBlock : Node} {s : State} :
    Part limit fuel (.tree (.ifThen condition thenBlock)) s (.value condition) s
  | ifThen {condition thenBlock : Node} {s t : State} {v : Value}
    (before : valueOf limit fuel condition s = .ok v t) (truthy : v.isTruthy = true) :
    Part limit fuel (.tree (.ifThen condition thenBlock)) s (.tree thenBlock) t
  | elseCondition {condition thenBlock elseBlock : Node} {s : State} :
    Part limit fuel (.tree (.ifElse condition thenBlock elseBlock)) s (.value condition) s
  | thenBlock {condition thenBlock elseBlock : Node} {s t : State} {v : Value}
    (before : valueOf limit fuel condition s = .ok v t) (truthy : v.isTruthy = true) :
    Part limit fuel (.tree (.ifElse condition thenBlock elseBlock)) s (.tree thenBlock) t
  | elseBlock {condition thenBlock elseBlock : Node} {s t : State} {v : Value}
    (before : valueOf limit fuel condition s = .ok v t) (falsy : ¬ v.isTruthy = true) :
    Part limit fuel (.tree (.ifElse condition thenBlock elseBlock)) s (.tree elseBlock) t
  | loop {init condition step body : Node} {s : State} :
    Part limit fuel (.tree (.loop init condition step body)) s (.loop init condition step body) s
  | arguments {name : String} {arguments : List Node} {f : Function} {s : State}
    (found : s.environment.functions[name]? = some f)
    (allowed : ¬ limit ≤ s.environment.callDepth) :
    Part limit fuel (.tree (.call name arguments)) s (.bind f.params arguments ∅) s
  | body {name : String} {arguments : List Node} {f : Function} {frame : Frame} {s t : State}
    (found : s.environment.functions[name]? = some f)
    (allowed : ¬ limit ≤ s.environment.callDepth)
    (before : bindAll limit fuel f.params arguments ∅ s = .ok frame t) :
    Part limit fuel (.tree (.call name arguments)) s (.tree f.body)
      { t with environment := t.environment.push frame }
  | argument {b : Builtin} {argument : Node} {arguments : List Node} {s : State} :
    Part limit fuel (.tree (.builtin b (argument :: arguments))) s (.value argument) s
  | returned {value : Node} {s : State} :
    Part limit fuel (.tree (.returnValue value)) s (.value value) s
  | value {node : Node} {s : State} : Part limit fuel (.value node) s (.tree node) s
  | first {statement : Node} {statements : List Node} {s : State} :
    Part limit fuel (.all (statement :: statements)) s (.tree statement) s
  | others {statement : Node} {statements : List Node} {s t : State} {flow : Flow}
    (before : evaluate limit fuel statement s = .ok flow t)
    (goesOn : ¬ (flow.isSignal || statements.isEmpty) = true) :
    Part limit fuel (.all (statement :: statements)) s (.all statements) t
  | init {init condition step body : Node} {s : State} :
    Part limit fuel (.loop init condition step body) s (.tree init) s
  | rounds {init condition step body : Node} {s t : State} {flow : Flow}
    (before : evaluate limit fuel init s = .ok flow t) :
    Part limit fuel (.loop init condition step body) s (.rounds condition step body) t
  | condition {condition step body : Node} {s : State} :
    Part limit fuel (.rounds condition step body) s (.value condition) s
  | round {condition step body : Node} {s t : State} {v : Value}
    (before : valueOf limit fuel condition s = .ok v t) (truthy : v.isTruthy = true) :
    Part limit fuel (.rounds condition step body) s (.tree body) t
  | step {condition step body : Node} {s t u : State} {v : Value} {flow : Flow}
    (before : valueOf limit fuel condition s = .ok v t) (truthy : v.isTruthy = true)
    (round : evaluate limit fuel body t = .ok flow u) (stays : flow ≠ .breaking)
    (stays' : ∀ w, flow ≠ .returning w) :
    Part limit fuel (.rounds condition step body) s (.tree step) u
  | again {condition step body : Node} {s t u w : State} {v : Value} {flow flow' : Flow}
    (before : valueOf limit fuel condition s = .ok v t) (truthy : v.isTruthy = true)
    (round : evaluate limit fuel body t = .ok flow u) (stays : flow ≠ .breaking)
    (stays' : ∀ w, flow ≠ .returning w) (stepped : evaluate limit fuel step u = .ok flow' w) :
    Part limit fuel (.rounds condition step body) s (.rounds condition step body) w
  | firstArgument {param : String} {params : List String} {argument : Node}
    {arguments : List Node} {frame : Frame} {s : State} :
    Part limit fuel (.bind (param :: params) (argument :: arguments) frame) s (.value argument) s
  | otherArguments {param : String} {params : List String} {argument : Node}
    {arguments : List Node} {frame : Frame} {s t : State} {v : Value}
    (before : valueOf limit fuel argument s = .ok v t) :
    Part limit fuel (.bind (param :: params) (argument :: arguments) frame) s
      (.bind params arguments (frame.insert param v.numberOrZero)) t

/-- A run comes to another run, of a part of a part of it at whatever depth, or it is that run. -/
inductive Reaches (limit : Nat) : Nat → Task → State → Nat → Task → State → Prop where
  | here (fuel : Nat) (task : Task) (s : State) : Reaches limit fuel task s fuel task s
  | inside {fuel fuel' : Nat} {task part task' : Task} {s t u : State}
    (next : Part limit fuel task s part t) (rest : Reaches limit fuel part t fuel' task' u) :
    Reaches limit (fuel + 1) task s fuel' task' u

/-! ## Where faults come from -/

/-- The trees that raise a fault themselves, and the states in which they do. -/
def Fault.RaisedBy (limit : Nat) : Fault → Node → State → Prop
  | unboundVariable name, node, s => node = .identifier name ∧ s.environment.get? name = none
  | undefinedFunction name, node, s =>
    ∃ arguments, node = .call name arguments ∧ s.environment.functions[name]? = none
  | callDepthExceeded n, node, s =>
    n = limit ∧ ∃ name arguments, node = .call name arguments ∧ limit ≤ s.environment.callDepth
  | arithmetic _, node, _ =>
    (∃ op left right, node = .binary op left right) ∨ ∃ arguments, node = .builtin .sqrt arguments
  | output _, node, _ => ∃ b arguments, b ≠ .sqrt ∧ node = .builtin b arguments

/-- The run reaches a tree that raises the fault. -/
def Blamed (limit fuel : Nat) (task : Task) (s : State) (f : Fault) : Prop :=
  ∃ fuel' node t, Reaches limit fuel task s fuel' (.tree node) t ∧ f.RaisedBy limit node t

section

variable {limit fuel : Nat} {task : Task} {s : State}

/-- Every fault of a task on the budget `fuel` is raised in the run. -/
def Raised (limit fuel : Nat) : Prop :=
  ∀ (task : Task) (s : State),
    (task.run limit fuel).Meets (Blamed limit fuel task s) (fun _ _ => True) s

/-- A fault of a part is a fault of the whole. -/
theorem Raised.part (ih : Raised limit fuel) {part : Task} {t : State}
    (next : Part limit fuel task s part t) :
    (part.run limit fuel).Meets (Blamed limit (fuel + 1) task s) (fun _ _ => True) t := by
  refine (ih part t).mono (fun f blamed => ?_) fun _ _ _ h => h
  obtain ⟨fuel', node, u, reaches, raised⟩ := blamed
  exact ⟨fuel', node, u, .inside next reaches, raised⟩

/-- A tree may be to blame itself. -/
theorem Blamed.here {node : Node} {f : Fault} (h : f.RaisedBy limit node s) :
    Blamed limit fuel (.tree node) s f := ⟨fuel, node, s, .here _ _ _, h⟩

theorem Raised.call (ih : Raised limit fuel) (name : String) (arguments : List Node) (s : State) :
    (evaluate limit (fuel + 1) (.call name arguments)).Meets
      (Blamed limit (fuel + 1) (.tree (.call name arguments)) s) (fun _ _ => True) s := by
  rw [Machine.evaluate]
  refine .environment ?_
  cases found : s.environment.functions[name]? with
  | none => exact .fail (.here ⟨arguments, rfl, found⟩)
  | some f =>
    dsimp only
    split
    · next tooDeep => exact .fail (.here ⟨rfl, name, arguments, rfl, tooDeep⟩)
    · next allowed =>
      refine .bind (ih.part (.arguments found allowed)) fun frame t before _ => ?_
      exact .modifyEnvironment (.map (.thenAlways (ih.part (.body found allowed before))))

theorem Raised.evaluate (ih : Raised limit fuel) (node : Node) (s : State) :
    (Machine.evaluate limit (fuel + 1) node).Meets (Blamed limit (fuel + 1) (.tree node) s)
      (fun _ _ => True) s := by
  cases node with
  | literal | returnNothing | «break» | «continue» | noOp | endOfInput => exact .ok trivial
  | identifier name =>
    rw [Machine.evaluate]
    refine .environment ?_
    cases found : s.environment.get? name with
    | none => exact .fail (.here ⟨rfl, found⟩)
    | some z => exact .ok trivial
  | negation operand => exact .map (ih.part .negation)
  | binary op left right =>
    rw [Machine.evaluate]
    refine .bind (ih.part .left) fun l t before _ => ?_
    refine .bind (ih.part (.right before)) fun r u _ _ => ?_
    exact .map (.ofArithmetic (fun _ => .here (.inl ⟨op, left, right, rfl⟩)) fun _ _ => trivial)
  | assignment target value =>
    rw [Machine.evaluate]
    exact .bind (ih.part .assignment) fun v t _ _ => .modifyEnvironment (.ok trivial)
  | block statements => exact ih.part .block
  | ifThen condition thenBlock =>
    rw [Machine.evaluate]
    refine .bind (ih.part .ifCondition) fun v t before _ => ?_
    split
    · next truthy => exact .map (ih.part (.ifThen before truthy))
    · exact .ok trivial
  | ifElse condition thenBlock elseBlock =>
    rw [Machine.evaluate]
    refine .bind (ih.part .elseCondition) fun v t before _ => ?_
    split
    · next truthy => exact .map (ih.part (.thenBlock before truthy))
    · next falsy => exact .map (ih.part (.elseBlock before falsy))
  | loop init condition step body =>
    have whole : (evaluateLoop limit fuel init condition step body).Meets
        (Blamed limit (fuel + 1) (.tree (.loop init condition step body)) s) (fun _ _ => True) s :=
      ih.part .loop
    rw [Machine.evaluate]
    cases init.assignedName with
    | none => exact whole
    | some name => exact .environment (.thenAlways whole)
  | definition name params body => exact .modifyEnvironment (.ok trivial)
  | call name arguments => exact ih.call name arguments s
  | builtin b arguments =>
    have own : ∀ t, (∀ v : Value, (runBuiltin b v).Meets
        (Blamed limit (fuel + 1) (.tree (.builtin b arguments)) s) (fun _ _ => True) t) := by
      intro t v
      refine .runBuiltin ?_ (fun printing _ => .here ⟨b, arguments, printing, rfl⟩)
        fun _ _ _ => trivial
      rintro rfl _
      exact .here (.inr ⟨arguments, rfl⟩)
    cases arguments with
    | nil => exact own s .none
    | cons argument arguments =>
      rw [Machine.evaluate]
      exact .bind (ih.part .argument) fun v t _ _ => own t v
  | returnValue value => exact .map (ih.part .returned)

/-- One more unit of budget keeps the law. -/
theorem Raised.succ (ih : Raised limit fuel) : Raised limit (fuel + 1) := by
  intro task s
  cases task with
  | tree node => exact ih.evaluate node s
  | value node => exact .map (ih.part .value)
  | all statements =>
    cases statements with
    | nil => exact .ok trivial
    | cons statement statements =>
      rw [Task.run, evaluateAll]
      refine .bind (ih.part .first) fun flow t before _ => ?_
      split
      · exact .ok trivial
      · next goesOn => exact ih.part (.others before goesOn)
  | loop init condition step body =>
    rw [Task.run, evaluateLoop]
    exact .bind (ih.part .init) fun flow t before _ => ih.part (.rounds before)
  | rounds condition step body =>
    rw [Task.run, Machine.rounds]
    refine .bind (ih.part .condition) fun v t before _ => ?_
    split
    · next truthy =>
      refine .bind (ih.part (.round before truthy)) fun flow u round _ => ?_
      split
      · exact .ok trivial
      · exact .ok trivial
      · next stays stays' =>
        refine .bind (ih.part (.step before truthy round stays stays')) fun _ w stepped _ => ?_
        exact ih.part (.again before truthy round stays stays' stepped)
    · exact .ok trivial
  | bind params arguments frame =>
    cases params with
    | nil => exact .ok trivial
    | cons param params =>
      cases arguments with
      | nil => exact .ok trivial
      | cons argument arguments =>
        rw [Task.run, bindAll]
        exact .bind (ih.part .firstArgument) fun v t before _ => ih.part (.otherArguments before)

end

/-- A run that ends in a fault reaches a tree that raises it. -/
theorem Task.fault_raised {limit fuel : Nat} (task : Task) {s t : State} {f : Fault}
    (run : task.run limit fuel s = .error (.fault f) t) : Blamed limit fuel task s f := by
  have raised : Raised limit fuel := by
    clear run
    induction fuel with
    | zero =>
      intro task s
      rw [run_zero]
      exact .starved
    | succ fuel ih => exact ih.succ
  exact (raised task s).2 f t run

/-! ## Plain runs -/

/-- The calls in the trees of a task. -/
def Task.calls : Task → List (String × Nat)
  | tree node | value node => node.calls
  | all nodes | bind _ nodes _ => Node.callsAll nodes
  | loop init condition step body =>
    init.calls ++ condition.calls ++ body.calls ++ step.calls
  | rounds condition step body => condition.calls ++ body.calls ++ step.calls

section

variable {limit fuel fuel' : Nat} {task part task' : Task} {s t : State}

/-- Whether all functions are plain is a matter of the functions alone. -/
theorem Environment.Plain.of_eq {e e' : Environment} (plain : e.Plain)
    (same : e'.functions = e.functions) : e'.Plain := by
  intro name f found
  rw [same] at found
  exact plain name f found

/-- A plain task that ends with a result has defined nothing. -/
theorem Task.functions_eq (task : Task) {a : task.Result} (run : task.run limit fuel s = .ok a t)
    (plain : task.Plain) (before : s.environment.Plain) :
    t.environment.functions = s.environment.functions :=
  (task.within_of_ok run).functions plain before

/-- The parts of a plain task are plain, and what is run before them defines nothing. -/
theorem Part.plain (next : Part limit fuel task s part t) (plain : task.Plain)
    (before : s.environment.Plain) :
    part.Plain ∧ t.environment.functions = s.environment.functions := by
  have value : ∀ {node : Node} {v : Value} {t : State}, valueOf limit fuel node s = .ok v t →
      node.Plain → t.environment.functions = s.environment.functions :=
    fun run plain => Task.functions_eq (.value _) run plain before
  have tree : ∀ {node : Node} {flow : Flow} {t u : State}, evaluate limit fuel node t = .ok flow u →
      t.environment.functions = s.environment.functions → node.Plain →
      u.environment.functions = s.environment.functions :=
    fun run same plain =>
      (Task.functions_eq (.tree _) run plain (before.of_eq same)).trans same
  cases next with
  | negation | assignment | block | loop | returned | value => exact ⟨plain, rfl⟩
  | left | ifCondition | elseCondition | argument | first | init | condition | firstArgument =>
    exact ⟨plain.1, rfl⟩
  | right run => exact ⟨plain.2, value run plain.1⟩
  | ifThen run truthy => exact ⟨plain.2, value run plain.1⟩
  | thenBlock run truthy => exact ⟨plain.2.1, value run plain.1⟩
  | elseBlock run falsy => exact ⟨plain.2.2, value run plain.1⟩
  | arguments found allowed => exact ⟨plain.2, rfl⟩
  | @body name arguments f frame s t found allowed run =>
    have same := Task.functions_eq (.bind f.params arguments ∅) run plain.2 before
    exact ⟨before name f found, same⟩
  | others run goesOn => exact ⟨plain.2, tree run rfl plain.1⟩
  | rounds run => exact ⟨plain.2, tree run rfl plain.1⟩
  | round run truthy => exact ⟨plain.2.2, value run plain.1⟩
  | step run truthy round => exact ⟨plain.2.1, tree round (value run plain.1) plain.2.2⟩
  | again run truthy round _ _ stepped =>
    exact ⟨plain, tree stepped (tree round (value run plain.1) plain.2.2) plain.2.1⟩
  | otherArguments run => exact ⟨plain.2, value run plain.1⟩

/-- A call in a part stands in the task or in the body of a function. -/
theorem Part.calls (next : Part limit fuel task s part t) {c : String × Nat} (h : c ∈ part.calls) :
    c ∈ task.calls ∨ ∃ (name : String) (f : Function),
      s.environment.functions[name]? = some f ∧ c ∈ f.body.calls := by
  cases next with
  | body found _ _ => exact .inr ⟨_, _, found, h⟩
  | _ =>
    refine .inl ?_
    simp only [Task.calls, Node.calls, Node.callsAll, List.mem_append, List.mem_cons] at h ⊢
    grind

/-- In a plain run the functions stay the same, and what is true of the calls in the first task and
in the bodies of all functions is true of the calls in every task that the run reaches. -/
theorem Reaches.calls {P : String × Nat → Prop} (reaches : Reaches limit fuel task s fuel' task' t)
    (plain : task.Plain) (before : s.environment.Plain) (here : ∀ c ∈ task.calls, P c)
    (stored : ∀ (name : String) (f : Function), s.environment.functions[name]? = some f →
      ∀ c ∈ f.body.calls, P c) :
    t.environment.functions = s.environment.functions ∧ ∀ c ∈ task'.calls, P c := by
  induction reaches with
  | here => exact ⟨rfl, here⟩
  | inside next rest ih =>
    obtain ⟨plainPart, same⟩ := next.plain plain before
    rw [← same] at stored ⊢
    refine ih plainPart (before.of_eq same) (fun c mem => ?_) stored
    rcases next.calls mem with mem | ⟨name, f, found, mem⟩
    · exact here c mem
    · exact stored name f (by rw [same]; exact found) c mem

/-! ## Arguments -/

/-- A call fits a function with as many parameters as it has arguments. -/
def Fits (functions : Table Function) (c : String × Nat) : Prop :=
  ∃ f, functions[c.1]? = some f ∧ f.params.length = c.2

/-- After a definition, a call that fitted before still fits unless it is of the function defined
and that has got another number of parameters. -/
theorem fits_insert_iff {functions : Table Function} {name : String} {f : Function}
    {c : String × Nat} (before : Fits functions c) :
    Fits (functions.insert name f) c ↔ (c.1 = name → f.params.length = c.2) := by
  unfold Fits
  rw [Table.getElem?_insert]
  by_cases same : c.1 = name
  · simp [same]
  · simp only [same, if_false, false_imp_iff, iff_true]
    exact before

variable {params : List String} {arguments : List Node} {frame frame' : Frame}

/-- Binding as many arguments as there are parameters binds every parameter, and unbinds nothing. -/
theorem bound_of_bindAll (run : bindAll limit fuel params arguments frame s = .ok frame' t)
    (fits : arguments.length = params.length) (x : String)
    (h : x ∈ params ∨ frame[x]? ≠ none) : frame'[x]? ≠ none := by
  induction fuel generalizing params arguments frame s with
  | zero => cases run
  | succ fuel ih =>
    cases params with
    | nil =>
      cases run
      exact h.resolve_left List.not_mem_nil
    | cons param params =>
      cases arguments with
      | nil => cases fits
      | cons argument arguments =>
        rw [bindAll] at run
        obtain ⟨v, u, _, rest⟩ := Eval.bind_eq_ok.mp run
        refine ih rest (Nat.succ.inj fits) ?_
        rw [Table.getElem?_insert]
        split
        · exact .inr (Option.some_ne_none _)
        · next other =>
          rcases h with mem | bound
          · exact .inl ((List.mem_cons.mp mem).resolve_left other)
          · exact .inr bound

/-- Binding as many arguments as there are parameters runs every argument. -/
theorem reaches_of_bindAll (run : bindAll limit fuel params arguments frame s = .ok frame' t)
    (fits : arguments.length = params.length) {argument : Node} (mem : argument ∈ arguments) :
    ∃ fuel' u, Reaches limit fuel (.bind params arguments frame) s fuel' (.value argument) u := by
  induction fuel generalizing params arguments frame s with
  | zero => cases run
  | succ fuel ih =>
    cases params with
    | nil =>
      rw [List.length_eq_zero_iff.mp fits] at mem
      exact absurd mem List.not_mem_nil
    | cons param params =>
      cases arguments with
      | nil => exact absurd mem List.not_mem_nil
      | cons first others =>
        rw [bindAll] at run
        obtain ⟨v, u, before, rest⟩ := Eval.bind_eq_ok.mp run
        rcases List.mem_cons.mp mem with rfl | mem
        · exact ⟨fuel, s, .inside .firstArgument (.here _ _ _)⟩
        · obtain ⟨fuel', w, reaches⟩ := ih rest (Nat.succ.inj fits) mem
          exact ⟨fuel', w, .inside (.otherArguments before) reaches⟩

end

end ComplexScript.Machine
