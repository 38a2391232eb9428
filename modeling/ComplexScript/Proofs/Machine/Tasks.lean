import ComplexScript.Machine.Evaluation
import ComplexScript.Proofs.Program.Tree
set_option autoImplicit false

/-!
# The runs that a run is made of

Running a tree comes down to six kinds of runs that call each other on a smaller budget.  A `Task`
names one of them with its arguments, so that a law about all of them is one statement, proved by
one induction on the budget.  `Eval.after` is the state that a run leaves, however it ends, and
`Eval.result` what it yields or why it halts.
-/

namespace ComplexScript.Machine

open ComplexScript.Program

/-! ## Tasks -/

/-- One of the runs that running a tree is made of. -/
inductive Task where
  /-- running a tree -/
  | tree (node : Node)
  /-- running a tree for its value -/
  | value (node : Node)
  /-- running statements in order -/
  | all (statements : List Node)
  /-- running a loop -/
  | loop (init condition step body : Node)
  /-- running the rounds of a loop -/
  | rounds (condition step body : Node)
  /-- binding parameters to the values of arguments -/
  | bind (params : List String) (arguments : List Node) (frame : Frame)

namespace Task

/-- What a task yields. -/
abbrev Result : Task → Type
  | value _ => Value
  | bind .. => Frame
  | _ => Flow

/-- The run of a task. -/
def run (limit fuel : Nat) : (task : Task) → Eval task.Result
  | tree node => evaluate limit fuel node
  | value node => valueOf limit fuel node
  | all statements => evaluateAll limit fuel statements
  | loop init condition step body => evaluateLoop limit fuel init condition step body
  | rounds condition step body => Machine.rounds limit fuel condition step body
  | bind params arguments frame => bindAll limit fuel params arguments frame

/-- The variables that a task may leave bound. -/
def assigned : Task → List String
  | tree node | value node => node.assigned
  | all nodes | bind _ nodes _ => Node.assignedAll nodes
  | loop init condition step body =>
    init.assigned ++ condition.assigned ++ body.assigned ++ step.assigned
  | rounds condition step body => condition.assigned ++ body.assigned ++ step.assigned

/-- The trees of a task are plain. -/
def Plain : Task → Prop
  | tree node | value node => node.Plain
  | all nodes | bind _ nodes _ => Node.AllPlain nodes
  | loop init condition step body =>
    init.Plain ∧ condition.Plain ∧ step.Plain ∧ body.Plain
  | rounds condition step body => condition.Plain ∧ step.Plain ∧ body.Plain

/-- Without budget a task does nothing. -/
theorem run_zero (limit : Nat) (task : Task) : task.run limit 0 = Eval.starved := by
  cases task <;> rfl

end Task

/-! ## The state that a run leaves -/

namespace Eval

variable {α β : Type}

/-- The state that a run leaves, however it ends. -/
def after (m : Eval α) (s : State) : State :=
  match m s with
  | .ok _ t => t
  | .error _ t => t

deriving instance DecidableEq for Except

/-- What a run yields, or why it halts. -/
def result (m : Eval α) (s : State) : Except Halt α :=
  match m s with
  | .ok a _ => .ok a
  | .error halt _ => .error halt

theorem after_of_ok {m : Eval α} {s t : State} {a : α} (h : m s = .ok a t) : m.after s = t := by
  rw [after, h]

theorem after_of_error {m : Eval α} {s t : State} {halt : Halt} (h : m s = .error halt t) :
    m.after s = t := by
  rw [after, h]

@[simp] theorem after_ofArithmetic (r : Except ArithmeticFault α) (s : State) :
    (ofArithmetic r).after s = s := by
  cases r <;> rfl

/-- A write leaves the environment as it is. -/
@[simp] theorem after_write_environment (text : String) (s : State) :
    ((write text).after s).environment = s.environment := by
  unfold after write
  rcases s.sink.write text with ⟨_ | _, sink⟩ <;> rfl

theorem after_thenAlways (m : Eval α) (f : Environment → Environment) (s : State) :
    (thenAlways m f).after s =
      { m.after s with environment := f (m.after s).environment } := by
  unfold after thenAlways
  cases m s <;> rfl

theorem bind_of_ok {m : Eval α} {f : α → Eval β} {s t : State} {a : α} (h : m s = .ok a t) :
    (m >>= f) s = f a t := by
  show EStateM.bind m f s = f a t
  rw [EStateM.bind, h]

theorem bind_of_error {m : Eval α} {f : α → Eval β} {s t : State} {halt : Halt}
    (h : m s = .error halt t) : (m >>= f) s = .error halt t := by
  show EStateM.bind m f s = .error halt t
  rw [EStateM.bind, h]

/-- A sequence ends with a result when both its runs do. -/
theorem bind_eq_ok {m : Eval α} {f : α → Eval β} {s u : State} {b : β} :
    (m >>= f) s = .ok b u ↔ ∃ a t, m s = .ok a t ∧ f a t = .ok b u := by
  constructor
  · intro run
    cases first : m s with
    | ok a t =>
      rw [bind_of_ok first] at run
      exact ⟨a, t, rfl, run⟩
    | error halt t =>
      rw [bind_of_error first] at run
      cases run
  · rintro ⟨a, t, first, second⟩
    rw [bind_of_ok first, second]

@[simp] theorem after_map (m : Eval α) (f : α → β) (s : State) :
    (m >>= fun a => pure (f a)).after s = m.after s := by
  rw [after, after]
  cases run : m s with
  | ok a t => rw [bind_of_ok run]; rfl
  | error halt t => rw [bind_of_error run]

end Eval

end ComplexScript.Machine
