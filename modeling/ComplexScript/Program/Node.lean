import ComplexScript.Number.Basic
import ComplexScript.Program.Operator
set_option autoImplicit false

/-!
# Syntax trees

A program is a sequence of trees.  Expressions and statements share one type, since a statement
can stand wherever the grammar lets an expression stand and every tree has a value, if only
nothing.
-/

namespace ComplexScript.Program

/-- A syntax tree. -/
inductive Node where
  /-- a number as written -/
  | literal (z : Number)
  /-- the value of a variable -/
  | identifier (name : String)
  /-- logical negation -/
  | negation (operand : Node)
  /-- a binary operator and its two operands -/
  | binary (op : Operator) (left right : Node)
  /-- binding a variable -/
  | assignment (target : String) (value : Node)
  /-- statements one after another -/
  | block (statements : List Node)
  /-- a conditional without alternative -/
  | ifThen (condition thenBlock : Node)
  /-- a conditional with an alternative, which may be another conditional -/
  | ifElse (condition thenBlock elseBlock : Node)
  /-- a loop: its start, its condition, the step after each round, and the round -/
  | loop (init condition step body : Node)
  /-- a function and its parameters -/
  | definition (name : String) (params : List String) (body : Node)
  /-- a call of a function that the program defines -/
  | call (name : String) (arguments : List Node)
  /-- a call of a function that the language provides -/
  | builtin (b : Builtin) (arguments : List Node)
  /-- leaving a function without a value -/
  | returnNothing
  /-- leaving a function with a value -/
  | returnValue (value : Node)
  /-- leaving a loop -/
  | break
  /-- going on to the step of a loop -/
  | continue
  /-- an empty statement -/
  | noOp
  /-- the end of the program -/
  | endOfInput
  deriving Inhabited, Repr

namespace Node

/-- The variable that a tree binds when it is an assignment. -/
def assignedName : Node → Option String
  | assignment target _ => some target
  | _ => none

/-- Whether the text of a tree ends with the closing brace of a block. -/
def endsWithBlock : Node → Bool
  | ifThen .. | ifElse .. | loop .. | definition .. => true
  | _ => false

/-- Whether a tree is the end of the program. -/
def isEnd : Node → Bool
  | endOfInput => true
  | _ => false

/-- Whether a tree is an empty statement. -/
def isNoOp : Node → Bool
  | noOp => true
  | _ => false

end Node

end ComplexScript.Program
