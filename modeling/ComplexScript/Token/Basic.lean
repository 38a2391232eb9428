import ComplexScript.Number.Basic
import ComplexScript.Program.Operator
import ComplexScript.Text.Position
set_option autoImplicit false

/-!
# Tokens

A token is a kind, the characters it was read from and where they begin; a number literal also has
its value.  What the characters spell decides the kind of a word (`Kind.ofWord`).
-/

namespace ComplexScript.Token

open ComplexScript.Text

/-- The kinds of tokens. -/
inductive Kind where
  | openParenthesis | closeParenthesis
  | openBrace | closeBrace
  /-- `=` -/
  | assignment
  /-- `+` and `-` -/
  | additiveOperator
  /-- `*`, `/` and `%` -/
  | multiplicativeOperator
  /-- `^` -/
  | powerOperator
  /-- `<`, `<=`, `>`, `>=`, `==` and `!=` -/
  | relationalOperator
  /-- `&&` -/
  | logicalAnd
  /-- `||` -/
  | logicalOr
  /-- `!` -/
  | negation
  | forKeyword | ifKeyword | elseKeyword | returnKeyword | funKeyword | breakKeyword
  | continueKeyword
  | number
  | identifier
  | builtInFunction
  | comma
  | semicolon
  /-- the end of a line, which ends a statement -/
  | lineBreak
  /-- the end of the text, or the word that stands for it -/
  | endOfInput
  /-- what no token could be made of -/
  | empty
  deriving DecidableEq, Repr, Inhabited

namespace Kind

/-- The name of a kind in messages. -/
def name : Kind → String
  | openParenthesis => "OPEN_PARENTHESIS"
  | closeParenthesis => "CLOSE_PARENTHESIS"
  | openBrace => "OPEN_BRACE"
  | closeBrace => "CLOSE_BRACE"
  | assignment => "ASSIGNMENT"
  | additiveOperator => "ADDITIVE_OPERATOR"
  | multiplicativeOperator => "MULTIPLICATIVE_OPERATOR"
  | powerOperator => "POWER_OPERATOR"
  | relationalOperator => "RELATIONAL_OPERATOR"
  | logicalAnd => "LOGICAL_AND"
  | logicalOr => "LOGICAL_OR"
  | negation => "NEGATION"
  | forKeyword => "FOR_KEYWORD"
  | ifKeyword => "IF_KEYWORD"
  | elseKeyword => "ELSE_KEYWORD"
  | returnKeyword => "RETURN_KEYWORD"
  | funKeyword => "FUN_KEYWORD"
  | breakKeyword => "BREAK_KEYWORD"
  | continueKeyword => "CONTINUE_KEYWORD"
  | number => "NUMBER"
  | identifier => "IDENTIFIER"
  | builtInFunction => "BUILT_IN_FUNCTION"
  | comma => "COMMA"
  | semicolon => "SEMICOLON"
  | lineBreak => "LINE_BREAK"
  | endOfInput => "EOT"
  | empty => "EMPTY"

/-- The word that ends a program like the end of its text does. -/
def exitWord : String := "exit"

/-- The kind of a word: a keyword, the name of a built-in function, the word that ends a program,
or else an identifier. -/
def ofWord (word : String) : Kind :=
  match word with
  | "for" => forKeyword
  | "if" => ifKeyword
  | "else" => elseKeyword
  | "return" => returnKeyword
  | "fun" => funKeyword
  | "break" => breakKeyword
  | "continue" => continueKeyword
  | _ =>
    if (Program.Builtin.ofName? word).isSome then builtInFunction
    else if word = exitWord then endOfInput
    else identifier

end Kind

end ComplexScript.Token

namespace ComplexScript

/-- A token of a program text. -/
structure Token where
  kind : Token.Kind
  text : String
  /-- Position of the first character. -/
  position : Text.Position
  /-- The value of a number literal. -/
  value : Option Number := none
  deriving DecidableEq, Repr, Inhabited

end ComplexScript
