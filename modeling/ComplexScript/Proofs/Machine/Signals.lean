import ComplexScript.Proofs.Machine.Bound
import ComplexScript.Proofs.Scope.Places
set_option autoImplicit false

/-!
# Control statements stay in what they are for

A break or a continue is for the loop around it and a return for the call around it.  In a run of a
tree without mistakes, among functions without mistakes, none of them gets further: wherever the run
comes to, the outcome there is one that the place allows (`Flow.Ends`), and a place allows a break
only inside a loop of the same body and a return only inside a call.  The place of each part of a
run is traced by `PartAt` and `ReachesAt`: a call's body begins in no loop, and the body of a loop
is in one.  A signal that comes up where a value is needed ends there, as the value that it has.
-/

namespace ComplexScript.Machine

open ComplexScript.Program
open ComplexScript.Scope (Place)
open Eval

/-! ## Functions without mistakes -/

/-- The check of a function found no mistakes, whatever was known of names then. -/
def Function.Accepted (f : Function) : Prop :=
  ∃ (name : String) (scope : Scope), (scope.checkEntry (.definition name f.params f.body)).2 = []

/-- Every function was checked and has no mistakes. -/
def Environment.Accepted (e : Environment) : Prop :=
  ∀ (name : String) (f : Function), e.functions[name]? = some f → f.Accepted

/-- In the body of every function the control statements stand where they may. -/
def Environment.Placed (e : Environment) : Prop :=
  ∀ (name : String) (f : Function), e.functions[name]? = some f →
    f.body.Placed { inFunction := true }

theorem Function.Accepted.placed {f : Function} (h : f.Accepted) :
    f.body.Placed { inFunction := true } := by
  obtain ⟨name, scope, clean⟩ := h
  have placed : (Node.definition name f.params f.body).Placed {} := Scope.placed_of_clean clean
  exact placed

theorem Environment.Accepted.placed {e : Environment} (h : e.Accepted) : e.Placed :=
  fun name f found => (h name f found).placed

namespace Environment.Placed

variable {e : Environment}

theorem modifyActive (h : e.Placed) (f : Frame → Frame) : (e.modifyActive f).Placed := by
  intro name g found
  rw [modifyActive_functions] at found
  exact h name g found

theorem define (h : e.Placed) (f : Function) (placed : f.body.Placed { inFunction := true })
    (name : String) : (e.define name f).Placed := by
  intro x g found
  rw [Environment.define, Table.getElem?_insert] at found
  split at found
  · cases found
    exact placed
  · exact h x g found

end Environment.Placed

/-! ## The law -/

/-- What a place outside loops allows is allowed in one. -/
theorem Flow.Ends.of_outside {place : Place} {flow : Flow}
    (h : flow.Ends { place with inLoop := false } True) : flow.Ends place True := by
  cases flow with
  | value | silent => trivial
  | returning => exact h
  | breaking | continuing => cases h

namespace Task

/-- The control statements in the trees of a task at a place stand where they may. -/
def Placed (place : Place) : Task → Prop
  | tree node | value node => node.Placed place
  | all nodes | bind _ nodes _ => Node.AllPlaced place nodes
  | loop init condition step body =>
    init.Placed place ∧ condition.Placed place ∧ body.Placed { place with inLoop := true } ∧
      step.Placed place
  | rounds condition step body =>
    condition.Placed place ∧ body.Placed { place with inLoop := true } ∧ step.Placed place

/-- A signal that a task ends in is for what is around the task.  No loop hands on a signal for a
loop. -/
def Stays (place : Place) : (task : Task) → task.Result → Prop
  | value _, _ | bind .., _ => True
  | tree _, flow | all _, flow => flow.Ends place True
  | loop .., flow | rounds .., flow => flow.Ends { place with inLoop := false } True

end Task

/-- The law holds of all tasks on the budget `fuel`. -/
def Contained (limit fuel : Nat) : Prop :=
  ∀ (task : Task) {place : Place} (s : State), task.Placed place → s.environment.Placed →
    (task.run limit fuel).Leaves Environment.Placed (task.Stays place) s

theorem runBuiltin_stays {b : Builtin} {v : Value} {place : Place} {s : State}
    (before : s.environment.Placed) :
    (runBuiltin b v).Leaves Environment.Placed (fun flow => flow.Ends place True) s := by
  cases b with
  | print => exact .bind (.write before) fun _ _ after _ => .ok after trivial
  | println => exact .bind (.write before) fun _ _ after _ => .ok after trivial
  | sqrt =>
    cases v with
    | number z => exact .map (.ofArithmetic before fun _ _ => trivial)
    | none => exact .ok before trivial

section

variable {limit fuel fuel' : Nat} {task part task' : Task} {place place' : Place} {s t : State}

theorem Contained.tree (ih : Contained limit fuel) {node : Node} (placed : node.Placed place)
    (before : s.environment.Placed) :
    (Machine.evaluate limit fuel node).Leaves Environment.Placed (fun flow => flow.Ends place True)
      s := ih (.tree node) s placed before

theorem Contained.value (ih : Contained limit fuel) {node : Node} (placed : node.Placed place)
    (before : s.environment.Placed) :
    (valueOf limit fuel node).Leaves Environment.Placed (fun _ => True) s :=
  ih (.value node) s placed before

/-- A call ends in no signal: a return in the body is for the call, and the body is in no loop. -/
theorem Contained.call (ih : Contained limit fuel) {name : String} {arguments : List Node}
    (placed : Node.AllPlaced place arguments) (before : s.environment.Placed) :
    (Machine.evaluate limit (fuel + 1) (.call name arguments)).Leaves Environment.Placed
      (fun flow => flow.Ends place True) s := by
  rw [Machine.evaluate]
  refine .environment ?_
  cases found : s.environment.functions[name]? with
  | none => exact .fail before
  | some f =>
    dsimp only
    split
    · exact .fail before
    · refine .bind (ih (.bind f.params arguments ∅) s placed before) fun frame t bound _ => ?_
      exact .modifyEnvironment (.bind
        (.thenAlways (ih.tree (before name f found) bound) fun _ h => h)
        fun flow _ after _ => .ok after (.of_noSignal flow.isSignal_ofCall trivial))

theorem Contained.evaluate (ih : Contained limit fuel) (node : Node) (placed : node.Placed place)
    (before : s.environment.Placed) :
    (Machine.evaluate limit (fuel + 1) node).Leaves Environment.Placed
      (fun flow => flow.Ends place True) s := by
  cases node with
  | literal | noOp | endOfInput => exact .ok before trivial
  | returnNothing | «break» | «continue» => exact .ok before placed
  | identifier name =>
    rw [Machine.evaluate]
    refine .environment ?_
    cases s.environment.get? name with
    | none => exact .fail before
    | some z => exact .ok before trivial
  | negation operand => exact .bind (ih.value placed before) fun _ _ after _ => .ok after trivial
  | binary op left right =>
    rw [Machine.evaluate]
    refine .bind (ih.value placed.1 before) fun l t afterLeft _ => ?_
    refine .bind (ih.value placed.2 afterLeft) fun r u afterRight _ => ?_
    exact .map (.ofArithmetic afterRight fun _ _ => trivial)
  | assignment target value =>
    rw [Machine.evaluate]
    refine .bind (ih.value placed before) fun v t after _ => ?_
    exact .modifyEnvironment (.ok (after.modifyActive _) trivial)
  | block statements => exact ih (.all statements) s placed before
  | ifThen condition thenBlock =>
    rw [Machine.evaluate]
    refine .bind (ih.value placed.1 before) fun v t after _ => ?_
    split
    · exact .bind (ih.tree placed.2 after) fun _ _ after known => .ok after known.ofBlock
    · exact .ok after trivial
  | ifElse condition thenBlock elseBlock =>
    rw [Machine.evaluate]
    refine .bind (ih.value placed.1 before) fun v t after _ => ?_
    split
    · exact .bind (ih.tree placed.2.1 after) fun _ _ after known => .ok after known.ofBlock
    · exact .bind (ih.tree placed.2.2 after) fun _ _ after known => .ok after known.ofBlock
  | loop init condition step body =>
    have whole : (evaluateLoop limit fuel init condition step body).Leaves Environment.Placed
        (fun flow => flow.Ends place True) s :=
      (ih (.loop init condition step body) s placed before).mono fun _ ends => ends.of_outside
    rw [Machine.evaluate]
    cases init.assignedName with
    | none => exact whole
    | some name => exact .environment (.thenAlways whole fun _ h => h.modifyActive _)
  | definition name params body =>
    exact .modifyEnvironment (.ok (before.define ⟨params, body⟩ placed name) trivial)
  | call name arguments => exact ih.call placed before
  | builtin b arguments =>
    cases arguments with
    | nil => exact runBuiltin_stays before
    | cons argument arguments =>
      rw [Machine.evaluate]
      exact .bind (ih.value placed.1 before) fun _ _ after _ => runBuiltin_stays after
  | returnValue value =>
    exact .bind (ih.value placed.2 before) fun _ _ after _ => .ok after placed.1

/-- One more unit of budget keeps the law. -/
theorem Contained.succ (ih : Contained limit fuel) : Contained limit (fuel + 1) := by
  intro task place s placed before
  cases task with
  | tree node => exact ih.evaluate node placed before
  | value node => exact .bind (ih.tree placed before) fun _ _ after _ => .ok after trivial
  | all statements =>
    cases statements with
    | nil => exact .ok before trivial
    | cons statement statements =>
      rw [Task.run, evaluateAll]
      refine .bind (ih.tree placed.1 before) fun flow t after ends => ?_
      split
      · exact .ok after ends
      · exact ih (.all statements) t placed.2 after
  | loop init condition step body =>
    rw [Task.run, evaluateLoop]
    refine .bind (ih.tree placed.1 before) fun flow t after _ => ?_
    exact ih (.rounds condition step body) t placed.2 after
  | rounds condition step body =>
    rw [Task.run, Machine.rounds]
    refine .bind (ih.value placed.1 before) fun v t after _ => ?_
    split
    · refine .bind (ih.tree placed.2.1 after) fun flow u after ends => ?_
      split
      · exact .ok after trivial
      · exact .ok after ends
      · refine .bind (ih.tree placed.2.2 after) fun _ w after _ => ?_
        exact ih (.rounds condition step body) w placed after
    · exact .ok after trivial
  | bind params arguments frame =>
    cases params with
    | nil => exact .ok before trivial
    | cons param params =>
      cases arguments with
      | nil => exact .ok before trivial
      | cons argument arguments =>
        rw [Task.run, bindAll]
        refine .bind (ih.value placed.1 before) fun v t after _ => ?_
        exact ih (.bind params arguments _) t placed.2 after

/-- However a run ends, the functions are still placed, and a signal that it ends in is for what is
around it. -/
theorem Task.contained (task : Task) (placed : task.Placed place) (before : s.environment.Placed) :
    (task.run limit fuel).Leaves Environment.Placed (task.Stays place) s := by
  have contained : Contained limit fuel := by
    clear placed before
    induction fuel with
    | zero =>
      intro task place s _ before
      rw [run_zero]
      exact .starved before
    | succ fuel ih => exact ih.succ
  exact contained task s placed before

/-! ## Places -/

/-- A part of a run that stands where the run does: not the body of a call, and not a tree that the
rounds of a loop run. -/
def Task.keepsPlace : Task → Task → Bool
  | tree (.call ..), tree _ => false
  | rounds .., tree _ => false
  | _, _ => true

/-- The run of a task at a place makes the run of a part, and this is the place of the part.  The
body of a call stands in a function and in no loop yet, and the body of a loop in that loop. -/
inductive PartAt (limit fuel : Nat) : Place → Task → State → Place → Task → State → Prop where
  | body {place : Place} {name : String} {arguments : List Node} {body : Node} {s t : State}
    (next : Part limit fuel (.tree (.call name arguments)) s (.tree body) t) :
    PartAt limit fuel place (.tree (.call name arguments)) s { inFunction := true } (.tree body) t
  | round {place : Place} {condition step body : Node} {s t : State} {v : Value}
    (before : valueOf limit fuel condition s = .ok v t) (truthy : v.isTruthy = true) :
    PartAt limit fuel place (.rounds condition step body) s { place with inLoop := true }
      (.tree body) t
  | step {place : Place} {condition step body : Node} {s t u : State} {v : Value} {flow : Flow}
    (before : valueOf limit fuel condition s = .ok v t) (truthy : v.isTruthy = true)
    (round : evaluate limit fuel body t = .ok flow u) (stays : flow ≠ .breaking)
    (stays' : ∀ w, flow ≠ .returning w) :
    PartAt limit fuel place (.rounds condition step body) s place (.tree step) u
  | other {place : Place} {task part : Task} {s t : State} (next : Part limit fuel task s part t)
    (here : task.keepsPlace part = true) : PartAt limit fuel place task s place part t

/-- A run at a place comes to another run, of a part of a part of it at whatever depth, and this is
the place of that run. -/
inductive ReachesAt (limit : Nat) :
    Place → Nat → Task → State → Place → Nat → Task → State → Prop where
  | here (place : Place) (fuel : Nat) (task : Task) (s : State) :
    ReachesAt limit place fuel task s place fuel task s
  | inside {place between place' : Place} {fuel fuel' : Nat} {task part task' : Task}
    {s t u : State}
    (next : PartAt limit fuel place task s between part t)
    (rest : ReachesAt limit between fuel part t place' fuel' task' u) :
    ReachesAt limit place (fuel + 1) task s place' fuel' task' u

/-- Every part of a run has a place. -/
theorem Part.exists_place (next : Part limit fuel task s part t) (place : Place) :
    ∃ place', PartAt limit fuel place task s place' part t := by
  by_cases here : task.keepsPlace part = true
  · exact ⟨place, .other next here⟩
  · cases next with
    | body found allowed before => exact ⟨_, .body (.body found allowed before)⟩
    | round before truthy => exact ⟨_, .round before truthy⟩
    | step before truthy round stays stays' => exact ⟨_, .step before truthy round stays stays'⟩
    | _ => exact absurd rfl here

/-- Every run that a run comes to has a place. -/
theorem Reaches.exists_place (reaches : Reaches limit fuel task s fuel' task' t) (place : Place) :
    ∃ place', ReachesAt limit place fuel task s place' fuel' task' t := by
  induction reaches generalizing place with
  | here => exact ⟨place, .here _ _ _ _⟩
  | inside next _ ih =>
    obtain ⟨between, next⟩ := next.exists_place place
    obtain ⟨place', rest⟩ := ih between
    exact ⟨place', .inside next rest⟩

/-- The control statements in a part stand where they may, if those in its task do. -/
theorem PartAt.placed (next : PartAt limit fuel place task s place' part t)
    (placed : task.Placed place) (before : s.environment.Placed) :
    part.Placed place' ∧ t.environment.Placed := by
  have value : ∀ {node : Node} {v : Value} {t : State}, valueOf limit fuel node s = .ok v t →
      node.Placed place → t.environment.Placed :=
    fun run known => ((Task.contained (.value _) known before).of_ok run).1
  have tree : ∀ {node : Node} {place : Place} {flow : Flow} {t u : State},
      evaluate limit fuel node t = .ok flow u → t.environment.Placed → node.Placed place →
      u.environment.Placed :=
    fun run before known => ((Task.contained (.tree _) known before).of_ok run).1
  cases next with
  | body next =>
    cases next with
    | @body _ _ f _ _ t found _ run =>
      have bound : t.environment.Placed :=
        ((Task.contained (.bind f.params _ ∅) placed before).of_ok run).1
      exact ⟨before _ f found, bound⟩
  | round run _ => exact ⟨placed.2.1, value run placed.1⟩
  | step run _ round _ _ => exact ⟨placed.2.2, tree round (value run placed.1) placed.2.1⟩
  | other next here =>
    cases next with
    | negation | assignment | block | loop | value | arguments => exact ⟨placed, before⟩
    | left | ifCondition | elseCondition | argument | first | init | condition | firstArgument =>
      exact ⟨placed.1, before⟩
    | returned => exact ⟨placed.2, before⟩
    | right run | ifThen run _ | otherArguments run => exact ⟨placed.2, value run placed.1⟩
    | thenBlock run _ => exact ⟨placed.2.1, value run placed.1⟩
    | elseBlock run _ => exact ⟨placed.2.2, value run placed.1⟩
    | others run _ | rounds run => exact ⟨placed.2, tree run before placed.1⟩
    | again run _ round _ _ stepped =>
      exact ⟨placed, tree stepped (tree round (value run placed.1) placed.2.1) placed.2.2⟩
    | body | round | step => cases here

/-- Wherever a run comes to, the control statements stand where they may. -/
theorem ReachesAt.placed (reaches : ReachesAt limit place fuel task s place' fuel' task' t)
    (placed : task.Placed place) (before : s.environment.Placed) :
    task'.Placed place' ∧ t.environment.Placed := by
  induction reaches with
  | here => exact ⟨placed, before⟩
  | inside next _ ih =>
    obtain ⟨placed, before⟩ := next.placed placed before
    exact ih placed before

end

/-! ## Runs of trees without mistakes -/

/-- A signal that a run ends in is one that its place allows. -/
theorem Environment.Placed.ends {limit fuel : Nat} {node : Node} {place : Place} {flow : Flow}
    {s t : State} (before : s.environment.Placed) (placed : node.Placed place)
    (run : evaluate limit fuel node s = .ok flow t) : flow.Ends place True :=
  ((Task.contained (.tree node) placed before).of_ok run).2

/-- The top level allows no signal. -/
theorem Flow.Ends.noSignal {flow : Flow} (h : flow.Ends {} True) : flow.isSignal = false := by
  cases flow with
  | value | silent => rfl
  | returning | breaking | continuing => cases h

/-- Among functions without mistakes, the run of a tree without mistakes ends in no signal, and the
body of a function in none for a loop.  Inside the run, a signal that comes up anywhere is one that
the place there allows, and no loop hands on one for a loop: so a break or a continue ends in a loop
of the same body.  A return ends in its own call, since no call hands on a signal. -/
theorem signals_stay (limit : Nat) {s : State} (accepted : s.environment.Accepted) :
    (∀ (fuel : Nat) (scope : Scope) (node : Node) (flow : Flow) (t : State),
      (scope.checkEntry node).2 = [] → evaluate limit fuel node s = .ok flow t →
        flow.isSignal = false) ∧
    (∀ (fuel : Nat) (f : Function) (flow : Flow) (t : State), f.Accepted →
      evaluate limit fuel f.body s = .ok flow t → flow ≠ .breaking ∧ flow ≠ .continuing) ∧
    (∀ (fuel : Nat) (name : String) (arguments : List Node) (flow : Flow) (t u : State),
      evaluate limit fuel (.call name arguments) t = .ok flow u → flow.isSignal = false) ∧
    ∀ (fuel : Nat) (place : Place) (scope : Scope) (node : Node),
      (Scope.check place node scope).2 = [] →
      (∀ fuel' task t, Reaches limit fuel (.tree node) s fuel' task t →
        ∃ place', ReachesAt limit place fuel (.tree node) s place' fuel' task t) ∧
      ∀ place' fuel' task t r u,
        ReachesAt limit place fuel (.tree node) s place' fuel' task t →
        task.run limit fuel' t = .ok r u → task.Stays place' r := by
  have before := accepted.placed
  refine ⟨fun fuel scope node flow t clean run =>
      (before.ends (Scope.placed_of_clean clean) run).noSignal,
    fun fuel f flow t isAccepted run => ?_,
    fun fuel name arguments flow t u run => (call_noSignal name arguments t).1 flow u run,
    fun fuel place scope node clean => ⟨fun fuel' task t reaches => reaches.exists_place place,
      fun place' fuel' task t r u reaches run => ?_⟩⟩
  · have ends := before.ends isAccepted.placed run
    constructor <;> rintro rfl <;> cases ends
  · have start : (Task.tree node).Placed place := Scope.placed_of_clean clean
    obtain ⟨placed, now⟩ := reaches.placed start before
    exact ((task.contained placed now).of_ok run).2

/-- A function that leaves an endless loop by a break, and then its call by a return. -/
def leaver : Function where
  params := ["a"]
  body := .block [
    .loop (.assignment "i" (.literal .zero)) (.literal .one) .noOp
      (.block [.ifThen (.identifier "a") (.block [.break])]),
    .returnValue (.identifier "a")]

/-- That function is the only one. -/
def withLeaver : State := { environment := ({} : Environment).define "f" leaver }

theorem withLeaver_stays :
    leaver.Accepted ∧ ∃ flow t, evaluate 1 20 (.call "f" [.literal .one]) withLeaver = .ok flow t ∧
      flow.isSignal = false := by
  have isAccepted : leaver.Accepted := ⟨"f", {}, by decide +kernel⟩
  have accepted : withLeaver.environment.Accepted := by
    intro name f found
    rw [withLeaver, Environment.define, Table.getElem?_insert] at found
    split at found
    · cases found
      exact isAccepted
    · simp at found
  have result : (evaluate 1 20 (.call "f" [.literal .one])).result withLeaver =
      .ok (.value (.number .one)) := by decide +kernel
  refine ⟨isAccepted, ?_⟩
  cases run : evaluate 1 20 (.call "f" [.literal .one]) withLeaver with
  | ok flow t =>
    exact ⟨flow, t, rfl, (signals_stay 1 accepted).1 20 (({} : Scope).define "f" 1)
      (.call "f" [.literal .one]) flow t (by decide +kernel) run⟩
  | error halt t =>
    rw [Eval.result, run] at result
    cases result

end ComplexScript.Machine
