import ComplexScript.Proofs.Entry.Rules
import ComplexScript.Proofs.Entry.Words
set_option autoImplicit false

/-!
# Expressions as they are written

An `Expression` is what a tree of operators, calls and assignments says, with each number and name
as it is written.  It is written with parentheses only where they are needed (`Expression.words`):
every expression has a rank, which says how loosely it is bound, and every place in another
expression takes the ranks up to some bound without them.

Ranks go on from those of the levels of binary operators.  A negation takes all of a comparison as
its operand, so it is looser bound than any of them, and only an assignment is looser.
-/

namespace ComplexScript.Entry

open ComplexScript.Program

/-- An expression, with its numbers and names as they are written. -/
inductive Expression where
  | literal (n : Numeral)
  | identifier (n : Name)
  | negation (operand : Expression)
  | binary (op : Operator) (left right : Expression)
  | assignment (target : Name) (value : Expression)
  | call (function : Name) (arguments : List Expression)
  | builtin (b : Builtin) (arguments : List Expression)

namespace Expression

/-! ## Trees -/

mutual

/-- The tree of an expression. -/
def tree : Expression → Node
  | literal n => .literal n.value
  | identifier n => .identifier n.text
  | negation operand => .negation operand.tree
  | binary op left right => .binary op left.tree right.tree
  | assignment target value => .assignment target.text value.tree
  | call function arguments => .call function.text (treeAll arguments)
  | builtin b arguments => .builtin b (treeAll arguments)

/-- The trees of expressions. -/
def treeAll : List Expression → List Node
  | [] => []
  | e :: es => e.tree :: treeAll es

end

/-! ## Ranks -/

/-- The rank of a negation. -/
def negationRank : Nat := Level.relational.rank + 1

/-- The rank of an assignment, the loosest of all. -/
def assignmentRank : Nat := negationRank + 1

/-- How loosely an expression is bound. -/
def rank : Expression → Nat
  | binary op _ _ => (Level.of op).rank
  | negation _ => negationRank
  | assignment _ _ => assignmentRank
  | literal _ | identifier _ | call _ _ | builtin _ _ => 1

/-- The loosest rank that stands without parentheses to the left of an operator. -/
def leftBound (op : Operator) : Nat := (Level.of op).rank - 1

/-- The loosest rank that stands without parentheses to the right of an operator. -/
def rightBound (op : Operator) : Nat := (Level.of op).rank

/-- The loosest rank that stands without parentheses behind a negation and as an argument. -/
def innerBound : Nat := negationRank

theorem rank_le (e : Expression) : e.rank ≤ assignmentRank := by
  cases e with
  | binary op left right =>
    show (Level.of op).rank ≤ assignmentRank
    cases Level.of op <;> decide
  | _ => exact of_decide_eq_true rfl

/-! ## Words -/

/-- Words in parentheses, if they are needed. -/
def grouped (needed : Bool) (ws : List Word) : List Word :=
  if needed then .openParenthesis :: (ws ++ [.closeParenthesis]) else ws

mutual

/-- The words that an expression is written with. -/
def words : Expression → List Word
  | literal n => [.numeral n]
  | identifier n => [.name n]
  | negation operand => .negation :: grouped (innerBound < operand.rank) operand.words
  | binary op left right =>
    grouped (leftBound op < left.rank) left.words ++
      .operator op :: grouped (rightBound op < right.rank) right.words
  | assignment target value => .name target :: .assignment :: value.words
  | call function arguments =>
    .name function :: .openParenthesis :: (wordsAll arguments ++ [.closeParenthesis])
  | builtin b arguments =>
    .builtin b :: .openParenthesis :: (wordsAll arguments ++ [.closeParenthesis])

/-- The words of arguments, with commas between them. -/
def wordsAll : List Expression → List Word
  | [] => []
  | e :: es => grouped (innerBound < e.rank) e.words ++ moreWords es

/-- The words of the arguments after the first. -/
def moreWords : List Expression → List Word
  | [] => []
  | e :: es => .comma :: (grouped (innerBound < e.rank) e.words ++ moreWords es)

end

/-- An expression does not start with a closing parenthesis. -/
theorem head_words : (e : Expression) → ∃ w ws, e.words = w :: ws ∧ w.kind ≠ .closeParenthesis
  | literal n => ⟨.numeral n, _, rfl, nofun⟩
  | identifier n => ⟨.name n, _, rfl, nofun⟩
  | negation _ => ⟨.negation, _, rfl, nofun⟩
  | binary op left right => by
    obtain ⟨w, ws, same, opens⟩ := left.head_words
    rw [words]
    cases decide (leftBound op < left.rank) with
    | true => exact ⟨.openParenthesis, _, rfl, nofun⟩
    | false =>
      rw [same]
      exact ⟨w, _, rfl, opens⟩
  | assignment target _ => ⟨.name target, _, rfl, nofun⟩
  | call function _ => ⟨.name function, _, rfl, nofun⟩
  | builtin b _ => ⟨.builtin b, _, rfl, nofun⟩

theorem head_grouped (needed : Bool) (e : Expression) :
    ∃ w ws, grouped needed e.words = w :: ws ∧ w.kind ≠ .closeParenthesis := by
  cases needed with
  | true => exact ⟨.openParenthesis, _, rfl, nofun⟩
  | false => exact e.head_words

/-! ## How deep an expression goes -/

/-- One group more, if parentheses are needed. -/
def opening (needed : Bool) : Nat := if needed then 1 else 0

mutual

/-- The greatest number of groups and negations that are open at one point. -/
def openings : Expression → Nat
  | literal _ | identifier _ => 0
  | negation operand => 1 + (opening (innerBound < operand.rank) + operand.openings)
  | binary op left right =>
    max (opening (leftBound op < left.rank) + left.openings)
      (opening (rightBound op < right.rank) + right.openings)
  | assignment _ value => value.openings
  | call _ arguments | builtin _ arguments => openingsAll arguments

/-- The greatest number of groups and negations that are open at one point of the arguments. -/
def openingsAll : List Expression → Nat
  | [] => 0
  | e :: es => max (opening (innerBound < e.rank) + e.openings) (openingsAll es)

end

mutual

/-- The greatest number of right operands and assigned values that are open at one point. -/
def links : Expression → Nat
  | literal _ | identifier _ => 0
  | negation operand => operand.links
  | binary _ left right => max left.links (1 + right.links)
  | assignment _ value => 1 + value.links
  | call _ arguments | builtin _ arguments => linksAll arguments

/-- The greatest number of right operands and assigned values that are open at one point of the
arguments. -/
def linksAll : List Expression → Nat
  | [] => 0
  | e :: es => max e.links (linksAll es)

end

end Expression

end ComplexScript.Entry
