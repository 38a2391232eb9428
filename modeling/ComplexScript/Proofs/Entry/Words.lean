import ComplexScript.Proofs.Entry.Paths
import ComplexScript.Proofs.Token.Locality
set_option autoImplicit false

/-!
# The words of expressions

An expression is written with words: number literals, names, operators, brackets and commas.  Each
is a token when it stands alone; on a line there are gaps between them (`Spaced`).
-/

namespace ComplexScript.Entry

open ComplexScript.Program
open ComplexScript.Text
open ComplexScript.Token (Kind Spells isBlank isGap)

/-! ## Words -/

/-- A number as it is written. -/
structure Numeral where
  text : String
  value : Number
  spells : Spells text .number (some value)

/-- The name of a variable or of a function of the program. -/
structure Name where
  text : String
  spells : Spells text .identifier none

/-- The level of an operator. -/
def Level.of : Operator → Level
  | .add | .subtract => .additive
  | .multiply | .divide | .modulo => .multiplicative
  | .power => .power
  | .and | .or => .logical
  | .less | .lessOrEqual | .greater | .greaterOrEqual | .equal | .notEqual => .relational

/-- The kind of the tokens of an operator. -/
def operatorKind : Operator → Kind
  | .add | .subtract => .additiveOperator
  | .multiply | .divide | .modulo => .multiplicativeOperator
  | .power => .powerOperator
  | .and => .logicalAnd
  | .or => .logicalOr
  | .less | .lessOrEqual | .greater | .greaterOrEqual | .equal | .notEqual => .relationalOperator

/-- A word of an expression. -/
inductive Word where
  | numeral (n : Numeral)
  | name (n : Name)
  | builtin (b : Builtin)
  | operator (op : Operator)
  /-- `!` -/
  | negation
  /-- `=` -/
  | assignment
  | openParenthesis
  | closeParenthesis
  | comma

namespace Word

/-- The kind of a word as a token. -/
def kind : Word → Kind
  | numeral _ => .number
  | name _ => .identifier
  | builtin _ => .builtInFunction
  | operator op => operatorKind op
  | negation => .negation
  | assignment => .assignment
  | openParenthesis => .openParenthesis
  | closeParenthesis => .closeParenthesis
  | comma => .comma

/-- How a word is written. -/
def text : Word → String
  | numeral n => n.text
  | name n => n.text
  | builtin b => b.name
  | operator op => op.symbol
  | negation => "!"
  | assignment => "="
  | openParenthesis => "("
  | closeParenthesis => ")"
  | comma => ","

/-- The value of a word, if it is a number. -/
def value : Word → Option Number
  | numeral n => some n.value
  | _ => none

/-- A word alone on a line is the token that it stands for. -/
theorem spells (w : Word) : Spells w.text w.kind w.value := by
  cases w with
  | numeral n => exact n.spells
  | name n => exact n.spells
  | builtin b => cases b <;> decide +kernel
  | operator op => cases op <;> decide +kernel
  | _ => decide +kernel

theorem inLine (w : Word) : w.kind.InLine := by
  cases w with
  | operator op => cases op <;> exact ⟨nofun, nofun⟩
  | _ => exact ⟨nofun, nofun⟩

end Word

/-- The words are written on one line, with gaps between them and `rest` on the lines after it. -/
inductive Spaced (rest : List Char) : List Word → List Char → Prop where
  | lineEnd {bs : List Char} (blanks : ∀ b ∈ bs, isBlank b = true) :
      Spaced rest [] (bs ++ '\n' :: rest)
  | word {bs cs : List Char} {gap : Char} {w : Word} {ws : List Word}
      (blanks : ∀ b ∈ bs, isBlank b = true) (isGap : isGap gap = true)
      (others : Spaced rest ws (gap :: cs)) :
      Spaced rest (w :: ws) (bs ++ (w.text.toList ++ gap :: cs))

theorem Spaced.blank {rest cs : List Char} {ws : List Word} (h : Spaced rest ws cs) :
    Spaced rest ws (' ' :: cs) := by
  cases h with
  | @lineEnd bs blanks =>
    exact @Spaced.lineEnd rest (' ' :: bs) (List.forall_mem_cons.mpr ⟨rfl, blanks⟩)
  | @word bs cs gap w ws blanks isGap others =>
    exact @Spaced.word rest (' ' :: bs) cs gap w ws (List.forall_mem_cons.mpr ⟨rfl, blanks⟩) isGap
      others

/-- A line with a blank after each word. -/
def lineOf (ws : List Word) : List Char := ws.flatMap (fun w => w.text.toList ++ [' ']) ++ ['\n']

theorem spaced_lineOf (rest : List Char) (ws : List Word) : Spaced rest ws (lineOf ws ++ rest) := by
  induction ws with
  | nil => exact @Spaced.lineEnd rest [] nofun
  | cons w ws ih =>
    have more := @Spaced.word rest [] (lineOf ws ++ rest) ' ' w ws nofun rfl ih.blank
    simpa [lineOf] using more

end ComplexScript.Entry
