import ComplexScript.Machine.Environment
import ComplexScript.Machine.Sink
import ComplexScript.Number.Value
set_option autoImplicit false

/-!
# Evaluation

Trees are run against an environment and a sink.  A control statement does not break off the run:
its outcome (`Flow`) is handed up to the tree that it is for.  A run can also be cut short by a
fault, or because its budget is used up, which is kept apart from both.  The environment and the
sink are kept in each case.
-/

namespace ComplexScript.Machine

open ComplexScript.Program

/-! ## Faults -/

/-- Why a program cannot go on. -/
inductive Fault where
  /-- an arithmetic operation without result -/
  | arithmetic (fault : ArithmeticFault)
  /-- a variable that is not bound, although the text assigns it -/
  | unboundVariable (name : String)
  /-- a call of a function that is not defined -/
  | undefinedFunction (name : String)
  /-- more calls in progress than allowed -/
  | callDepthExceeded (limit : Nat)
  /-- a write that the sink refused -/
  | output (cause : String)
  deriving DecidableEq, Repr, Inhabited

namespace Fault

/-- The message for a fault. -/
def message : Fault → String
  | arithmetic fault => fault.message
  | unboundVariable name => "Variable " ++ name ++ " is not bound"
  | undefinedFunction name => "No function with name \"" ++ name ++ "\" defined"
  | callDepthExceeded limit => "call depth limit of " ++ toString limit ++ " exceeded"
  | output cause => "failed to write output: " ++ cause

/-- The code that a fault is filed under. -/
def code : Fault → String
  | arithmetic .overflow => "cxl::runtime::overflow"
  | arithmetic .underflow => "cxl::runtime::underflow"
  | arithmetic .divisionByZero => "cxl::runtime::division_by_zero"
  | unboundVariable _ => "cxl::runtime::unbound_variable"
  | undefinedFunction _ => "cxl::runtime::undefined_function"
  | callDepthExceeded _ => "cxl::runtime::call_depth"
  | output _ => "cxl::runtime::output"

/-- Advice on a fault. -/
def help? : Fault → Option String
  | callDepthExceeded _ => some "the program recursed deeper than the configured maximum"
  | _ => none

end Fault

/-! ## Outcomes -/

/-- The outcome of a tree. -/
inductive Flow where
  /-- a value to be shown when it is the result of an entry -/
  | value (v : Value)
  /-- a value that is never shown, as that of an assignment -/
  | silent (v : Value)
  /-- leaving the function with a value -/
  | returning (v : Value)
  /-- leaving the loop -/
  | breaking
  /-- going on to the step of the loop -/
  | continuing
  deriving DecidableEq, Repr, Inhabited

namespace Flow

/-- No value, and nothing to show. -/
def nothing : Flow := .silent .none

/-- The value that an outcome has where a value is needed. -/
def toValue : Flow → Value
  | value v | silent v | returning v => v
  | breaking | continuing => .none

/-- Whether an outcome ends the list of statements that it comes up in. -/
def isSignal : Flow → Bool
  | returning _ | breaking | continuing => true
  | _ => false

/-- The number to show for an outcome. -/
def printable? : Flow → Option Number
  | value v => v.number?
  | _ => none

end Flow

/-- Why a run is cut short. -/
inductive Halt where
  | fault (fault : Fault)
  /-- the budget is used up -/
  | outOfFuel
  deriving DecidableEq, Repr, Inhabited

/-- What a run works on. -/
structure State where
  environment : Environment := {}
  sink : Sink := {}

/-- A run: an outcome or a halt, and the state it leaves. -/
abbrev Eval := EStateM Halt State

namespace Eval

/-- The budget is used up. -/
def starved {α : Type} : Eval α := fun s => .error .outOfFuel s

/-- Cut the run short with a fault. -/
def fail {α : Type} (f : Fault) : Eval α := fun s => .error (.fault f) s

/-- The result of an arithmetic operation. -/
def ofArithmetic {α : Type} : Except ArithmeticFault α → Eval α
  | .ok a => fun s => .ok a s
  | .error f => fail (.arithmetic f)

/-- The environment. -/
def environment : Eval Environment := fun s => .ok s.environment s

/-- Change the environment. -/
def modifyEnvironment (f : Environment → Environment) : Eval PUnit :=
  fun s => .ok ⟨⟩ { s with environment := f s.environment }

/-- Write to the sink. -/
def write (text : String) : Eval PUnit := fun s =>
  match s.sink.write text with
  | (none, sink) => .ok ⟨⟩ { s with sink := sink }
  | (some cause, sink) => .error (.fault (.output cause)) { s with sink := sink }

/-- Run, and change the environment afterwards, however the run ends. -/
def thenAlways {α : Type} (act : Eval α) (f : Environment → Environment) : Eval α := fun s =>
  match act s with
  | .ok a s => .ok a { s with environment := f s.environment }
  | .error h s => .error h { s with environment := f s.environment }

end Eval

open Eval

/-! ## Trees -/

/-- What a built-in function does with its argument. -/
def runBuiltin (b : Builtin) (argument : Value) : Eval Flow :=
  match b with
  | .print => do
    write argument.render
    return .nothing
  | .println => do
    write (argument.render ++ "\n")
    return .nothing
  | .sqrt =>
    match argument with
    | .number z => return .value (.number (← ofArithmetic z.sqrt))
    | .none => return .value .none

/-- The outcome of a conditional: that of its block only if it is a signal. -/
def Flow.ofBlock (flow : Flow) : Flow := if flow.isSignal then flow else .nothing

/-- The outcome of a call: a returned value is shown, the value of the last statement is not. -/
def Flow.ofCall : Flow → Flow
  | .returning v => .value v
  | flow => .silent flow.toValue

mutual

/-- Run a tree.  The budget bounds how deep runs are nested and how many rounds a loop makes;
`limit` bounds the calls in progress. -/
def evaluate (limit : Nat) : Nat → Node → Eval Flow
  | 0, _ => starved
  | fuel + 1, node =>
    match node with
    | .literal z => return .value (.number z)
    | .identifier name => do
      match (← environment).get? name with
      | some z => return .value (.number z)
      | none => fail (.unboundVariable name)
    | .negation operand => do
      let v ← valueOf limit fuel operand
      return .value v.negate
    | .binary op left right => do
      let l ← valueOf limit fuel left
      let r ← valueOf limit fuel right
      return .value (← ofArithmetic (Value.binary op l r))
    | .assignment target value => do
      let v ← valueOf limit fuel value
      modifyEnvironment (·.set target v.numberOrZero)
      return .silent (.number v.numberOrZero)
    | .block statements => evaluateAll limit fuel statements
    | .ifThen condition thenBlock => do
      if (← valueOf limit fuel condition).isTruthy then
        return (← evaluate limit fuel thenBlock).ofBlock
      else return .nothing
    | .ifElse condition thenBlock elseBlock => do
      if (← valueOf limit fuel condition).isTruthy then
        return (← evaluate limit fuel thenBlock).ofBlock
      else return (← evaluate limit fuel elseBlock).ofBlock
    | .loop init condition step body =>
      match init.assignedName with
      | some name => do
        let previous := (← environment).get? name
        thenAlways (evaluateLoop limit fuel init condition step body) (·.reset name previous)
      | none => evaluateLoop limit fuel init condition step body
    | .definition name params body => do
      modifyEnvironment (·.define name ⟨params, body⟩)
      return .nothing
    | .call name arguments => do
      let e ← environment
      match e.functions[name]? with
      | none => fail (.undefinedFunction name)
      | some f =>
        if limit ≤ e.callDepth then fail (.callDepthExceeded limit)
        else
          let frame ← bindAll limit fuel f.params arguments ∅
          modifyEnvironment (·.push frame)
          let flow ← thenAlways (evaluate limit fuel f.body) (·.pop)
          return flow.ofCall
    | .builtin b arguments => do
      match arguments with
      | [] => runBuiltin b .none
      | argument :: _ => runBuiltin b (← valueOf limit fuel argument)
    | .returnNothing => return .returning .none
    | .returnValue value => do
      let v ← valueOf limit fuel value
      return .returning v
    | .break => return .breaking
    | .continue => return .continuing
    | .noOp => return .nothing
    | .endOfInput => return .nothing

/-- Run a tree for its value. -/
def valueOf (limit : Nat) : Nat → Node → Eval Value
  | 0, _ => starved
  | fuel + 1, node => do
    let flow ← evaluate limit fuel node
    return flow.toValue

/-- Run statements in order, up to the first signal.  The outcome is that of the last one run. -/
def evaluateAll (limit : Nat) : Nat → List Node → Eval Flow
  | 0, _ => starved
  | _ + 1, [] => return .nothing
  | fuel + 1, statement :: statements => do
    let flow ← evaluate limit fuel statement
    if flow.isSignal || statements.isEmpty then return flow
    else evaluateAll limit fuel statements

/-- Run a loop. -/
def evaluateLoop (limit : Nat) : Nat → Node → Node → Node → Node → Eval Flow
  | 0, _, _, _, _ => starved
  | fuel + 1, init, condition, step, body => do
    let _ ← evaluate limit fuel init
    rounds limit fuel condition step body

/-- Run the rounds of a loop while its condition is true. -/
def rounds (limit : Nat) : Nat → Node → Node → Node → Eval Flow
  | 0, _, _, _ => starved
  | fuel + 1, condition, step, body => do
    if (← valueOf limit fuel condition).isTruthy then
      match ← evaluate limit fuel body with
      | .breaking => return .nothing
      | .returning v => return .returning v
      | _ =>
        let _ ← evaluate limit fuel step
        rounds limit fuel condition step body
    else return .nothing

/-- Bind parameters to the values of arguments, pair by pair; where one side ends the other is left
alone.  An argument without value counts as zero. -/
def bindAll (limit : Nat) : Nat → List String → List Node → Frame → Eval Frame
  | 0, _, _, _ => starved
  | fuel + 1, param :: params, argument :: arguments, frame => do
    let v ← valueOf limit fuel argument
    bindAll limit fuel params arguments (frame.insert param v.numberOrZero)
  | _ + 1, _, _, frame => return frame

end

end ComplexScript.Machine
