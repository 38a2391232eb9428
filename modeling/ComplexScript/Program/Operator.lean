set_option autoImplicit false

/-!
# Operators and built-in functions

The names of the language: fourteen binary operators by their symbols, three built-in functions by
their names.  Looking up a spelling is the inverse of spelling (`ofSymbol?_symbol`,
`ofName?_name`).
-/

namespace ComplexScript.Program

/-- A binary operator. -/
inductive Operator where
  | add | subtract | multiply | divide | modulo | power
  | and | or
  | less | lessOrEqual | greater | greaterOrEqual | equal | notEqual
  deriving DecidableEq, Repr, Inhabited

namespace Operator

/-- The symbol of an operator. -/
def symbol : Operator → String
  | add => "+"
  | subtract => "-"
  | multiply => "*"
  | divide => "/"
  | modulo => "%"
  | power => "^"
  | and => "&&"
  | or => "||"
  | less => "<"
  | lessOrEqual => "<="
  | greater => ">"
  | greaterOrEqual => ">="
  | equal => "=="
  | notEqual => "!="

/-- Every operator. -/
def all : List Operator :=
  [add, subtract, multiply, divide, modulo, power, and, or,
    less, lessOrEqual, greater, greaterOrEqual, equal, notEqual]

/-- The operator with a symbol. -/
def ofSymbol? (s : String) : Option Operator := all.find? fun op => op.symbol = s

theorem ofSymbol?_symbol (op : Operator) : ofSymbol? op.symbol = some op := by
  cases op <;> decide

theorem symbol_of_ofSymbol? {s : String} {op : Operator} (h : ofSymbol? s = some op) :
    op.symbol = s := by
  simpa using List.find?_some h

end Operator

/-- A function that the language provides. -/
inductive Builtin where
  | print | println | sqrt
  deriving DecidableEq, Repr, Inhabited

namespace Builtin

/-- The name of a built-in function. -/
def name : Builtin → String
  | print => "print"
  | println => "println"
  | sqrt => "sqrt"

/-- The number of arguments that a built-in function takes. -/
def arity : Builtin → Nat
  | _ => 1

/-- Every built-in function. -/
def all : List Builtin := [print, println, sqrt]

/-- The built-in function with a name. -/
def ofName? (s : String) : Option Builtin := all.find? fun b => b.name = s

theorem ofName?_name (b : Builtin) : ofName? b.name = some b := by
  cases b <;> decide

theorem name_of_ofName? {s : String} {b : Builtin} (h : ofName? s = some b) : b.name = s := by
  simpa using List.find?_some h

end Builtin

end ComplexScript.Program
