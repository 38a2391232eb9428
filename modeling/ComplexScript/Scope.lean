import ComplexScript.Names
import ComplexScript.Program.Node
set_option autoImplicit false

/-!
# Scopes

A scope is what is known before a tree is run: the variables that have been assigned and the
functions that have been defined, with their numbers of parameters.  Checking a tree gives the
scope after it and the mistakes in it.  The check follows the text and not the run: an assignment
counts from where it stands, whether or not it will be reached.
-/

namespace ComplexScript

open ComplexScript.Program

/-- A use of names or control statements that a tree may not be run with. -/
inductive Mistake where
  /-- a variable that no earlier text assigns -/
  | uninitialized (name : String)
  /-- a call of a function that is not defined with so many parameters -/
  | undefinedFunction (name : String) (arity : Nat)
  /-- more arguments than a built-in function takes -/
  | tooManyArguments (name : String) (expected got : Nat)
  /-- fewer arguments than a built-in function takes -/
  | tooFewArguments (name : String) (expected got : Nat)
  /-- a return outside every function -/
  | unexpectedReturn
  /-- a break outside every loop -/
  | unexpectedBreak
  /-- a continue outside every loop -/
  | unexpectedContinue
  deriving DecidableEq, Repr, Inhabited

/-- The message for a mistake. -/
def Mistake.message : Mistake → String
  | .uninitialized name => "Variable " ++ name ++ " is not initialized"
  | .undefinedFunction name arity =>
    "No function with name \"" ++ name ++ "\" and " ++ toString arity ++ " arguments defined"
  | .tooManyArguments name expected got =>
    "Too many arguments for built-in function \"" ++ name ++ "\": expected " ++
      toString expected ++ ", got " ++ toString got
  | .tooFewArguments name expected got =>
    "Too few arguments for built-in function \"" ++ name ++ "\": expected " ++
      toString expected ++ ", got " ++ toString got
  | .unexpectedReturn => "Unexpected return statement"
  | .unexpectedBreak => "Unexpected break statement"
  | .unexpectedContinue => "Unexpected continue statement"

/-- The names known at a point of a program. -/
@[ext]
structure Scope where
  /-- Variables that have been assigned. -/
  initialized : NameSet := ∅
  /-- Functions that the program has defined, with their numbers of parameters. -/
  signatures : Table Nat := ∅

namespace Scope

/-- Whether a variable has been assigned. -/
def isInitialized (s : Scope) (name : String) : Bool := s.initialized.contains name

/-- The number of parameters of a function; the built-in functions are known from the start. -/
def arity? (s : Scope) (name : String) : Option Nat :=
  s.signatures[name]? <|> (Builtin.ofName? name).map (·.arity)

/-- A variable has been assigned. -/
def assign (s : Scope) (name : String) : Scope :=
  { s with initialized := s.initialized.insert name }

/-- A variable is no longer known. -/
def forget (s : Scope) (name : String) : Scope :=
  { s with initialized := s.initialized.erase name }

/-- A function has been defined. -/
def define (s : Scope) (name : String) (arity : Nat) : Scope :=
  { s with signatures := s.signatures.insert name arity }

/-- The scope of a function's body: its parameters and all functions. -/
def body (s : Scope) (params : List String) : Scope :=
  { s with initialized := .ofList params }

/-- The variable that a loop brings in for itself: the one its start assigns, unless it is known
already. -/
def fresh? (s : Scope) (init : Node) : Option String :=
  init.assignedName.filter fun name => !s.isInitialized name

/-- Where a tree stands. -/
structure Place where
  inLoop : Bool := false
  inFunction : Bool := false
  deriving DecidableEq, Repr, Inhabited

/-- Mistakes in the number of arguments of a call. -/
def checkCall (s : Scope) (name : String) (got : Nat) : List Mistake :=
  if s.arity? name = some got then [] else [.undefinedFunction name got]

/-- Mistakes in the number of arguments of a call of a built-in function. -/
def checkBuiltin (s : Scope) (b : Builtin) (got : Nat) : List Mistake :=
  let expected := (s.arity? b.name).getD b.arity
  if expected < got then [.tooManyArguments b.name expected got]
  else if got < expected then [.tooFewArguments b.name expected got]
  else []

mutual

/-- Check a tree: the scope after it and its mistakes, in the order of the text. -/
def check (place : Place) : Node → Scope → Scope × List Mistake
  | .literal _, s => (s, [])
  | .noOp, s => (s, [])
  | .endOfInput, s => (s, [])
  | .identifier name, s => (s, if s.isInitialized name then [] else [.uninitialized name])
  | .negation operand, s => check place operand s
  | .binary _ left right, s =>
    let l := check place left s
    let r := check place right l.1
    (r.1, l.2 ++ r.2)
  | .assignment target value, s =>
    let v := check place value s
    (v.1.assign target, v.2)
  | .block statements, s => checkAll place statements s
  | .ifThen condition thenBlock, s =>
    let c := check place condition s
    let t := check place thenBlock c.1
    (t.1, c.2 ++ t.2)
  | .ifElse condition thenBlock elseBlock, s =>
    let c := check place condition s
    let t := check place thenBlock c.1
    let e := check place elseBlock t.1
    (e.1, c.2 ++ t.2 ++ e.2)
  | .loop init condition step body, s =>
    let i := check place init s
    let c := check place condition i.1
    let b := check { place with inLoop := true } body c.1
    let t := check place step b.1
    ((s.fresh? init).elim t.1 t.1.forget, i.2 ++ c.2 ++ b.2 ++ t.2)
  | .definition name params body, s =>
    -- the body may call the function itself; a body with mistakes leaves what was defined before
    let b := check { inFunction := true } body ((s.define name params.length).body params)
    let signatures :=
      if b.2.isEmpty then b.1.signatures else b.1.signatures.reset name s.signatures[name]?
    ({ initialized := s.initialized, signatures := signatures }, b.2)
  | .call name arguments, s =>
    let a := checkAll place arguments s
    (a.1, a.2 ++ a.1.checkCall name arguments.length)
  | .builtin b arguments, s =>
    let a := checkAll place arguments s
    (a.1, a.2 ++ a.1.checkBuiltin b arguments.length)
  | .returnNothing, s => (s, if place.inFunction then [] else [.unexpectedReturn])
  | .returnValue value, s =>
    if place.inFunction then check place value s else (s, [.unexpectedReturn])
  | .break, s => (s, if place.inLoop then [] else [.unexpectedBreak])
  | .continue, s => (s, if place.inLoop then [] else [.unexpectedContinue])

/-- Check trees one after another. -/
def checkAll (place : Place) : List Node → Scope → Scope × List Mistake
  | [], s => (s, [])
  | node :: nodes, s =>
    let n := check place node s
    let rest := checkAll place nodes n.1
    (rest.1, n.2 ++ rest.2)

end

/-- Check an item of a program.  It may be run if there are no mistakes. -/
def checkEntry (node : Node) (s : Scope) : Scope × List Mistake := check {} node s

end Scope

end ComplexScript
