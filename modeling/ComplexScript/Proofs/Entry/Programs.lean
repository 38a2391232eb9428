import ComplexScript.Proofs.Entry.Expression
import ComplexScript.Proofs.Entry.Marks
set_option autoImplicit false

/-!
# Programs as they are written

A program is a sequence of items, which are statements and functions.  Each is written with the
marks of its line (`Item.line`): every statement on a line of its own, the opening brace of a block
at the end of the line before it, its closing brace on a line of its own, and `else` after that.
Expressions have parentheses only where they need them; in a statement that is only around an
assignment as the condition of a loop.
-/

namespace ComplexScript.Entry

open ComplexScript.Program
open Expression (grouped innerBound)

/-! ## Statements -/

mutual

/-- A statement, with its numbers and names as they are written. -/
inductive Statement where
  | expression (e : Expression)
  | break
  | continue
  | returnNothing
  | returnValue (value : Expression)
  | loop (init condition step : Expression) (body : List Statement)
  | conditional (c : Conditional)

/-- A conditional from its condition on. -/
inductive Conditional where
  | ifThen (condition : Expression) (thenBlock : List Statement)
  | ifElse (condition : Expression) (thenBlock elseBlock : List Statement)
  /-- with another conditional after `else` -/
  | elseIf (condition : Expression) (thenBlock : List Statement) (next : Conditional)

end

mutual

/-- The tree of a statement. -/
def Statement.tree : Statement → Node
  | .expression e => e.tree
  | .break => .break
  | .continue => .continue
  | .returnNothing => .returnNothing
  | .returnValue value => .returnValue value.tree
  | .loop init condition step body =>
    .loop init.tree condition.tree step.tree (.block (Statement.treeAll body))
  | .conditional c => c.tree

/-- The tree of a conditional. -/
def Conditional.tree : Conditional → Node
  | .ifThen condition thenBlock => .ifThen condition.tree (.block (Statement.treeAll thenBlock))
  | .ifElse condition thenBlock elseBlock =>
    .ifElse condition.tree (.block (Statement.treeAll thenBlock))
      (.block (Statement.treeAll elseBlock))
  | .elseIf condition thenBlock next =>
    .ifElse condition.tree (.block (Statement.treeAll thenBlock)) next.tree

/-- The trees of statements. -/
def Statement.treeAll : List Statement → List Node
  | [] => []
  | s :: ss => s.tree :: Statement.treeAll ss

end

/-! ## Marks of statements -/

/-- The marks of a condition and of parameters, in parentheses. -/
def parenthesized (ws : List Word) : List Mark :=
  .word .openParenthesis :: (marks ws ++ [.word .closeParenthesis])

/-- The marks of a block with these lines. -/
def braced (lines : List Mark) : List Mark :=
  .openBrace :: .lineBreak :: (lines ++ [.closeBrace])

mutual

/-- The marks that a statement is written with, without the line break after it. -/
def Statement.marks : Statement → List Mark
  | .expression e => Entry.marks e.words
  | .break => [.breakKeyword]
  | .continue => [.continueKeyword]
  | .returnNothing => [.returnKeyword]
  | .returnValue value => .returnKeyword :: Entry.marks value.words
  | .loop init condition step body =>
    .forKeyword :: .word .openParenthesis :: (Entry.marks init.words ++
      .semicolon :: (Entry.marks (grouped (innerBound < condition.rank) condition.words) ++
        .semicolon :: (Entry.marks step.words ++
          .word .closeParenthesis :: braced (Statement.marksAll body))))
  | .conditional c => .ifKeyword :: c.marks

/-- The marks of a conditional after its keyword. -/
def Conditional.marks : Conditional → List Mark
  | .ifThen condition thenBlock =>
    parenthesized condition.words ++ braced (Statement.marksAll thenBlock)
  | .ifElse condition thenBlock elseBlock =>
    parenthesized condition.words ++ (braced (Statement.marksAll thenBlock) ++
      .elseKeyword :: braced (Statement.marksAll elseBlock))
  | .elseIf condition thenBlock next =>
    parenthesized condition.words ++ (braced (Statement.marksAll thenBlock) ++
      .elseKeyword :: .ifKeyword :: next.marks)

/-- The marks of statements, each on a line of its own. -/
def Statement.marksAll : List Statement → List Mark
  | [] => []
  | s :: ss => s.marks ++ .lineBreak :: Statement.marksAll ss

end

/-! ## Items -/

/-- An item of a program. -/
inductive Item where
  | statement (s : Statement)
  | definition (name : Name) (params : List Name) (body : List Statement)

/-- The words of parameters, with commas between them. -/
def paramWords : List Name → List Word
  | [] => []
  | param :: params => .name param :: params.flatMap fun param => [.comma, .name param]

namespace Item

/-- The tree of an item. -/
def tree : Item → Node
  | statement s => s.tree
  | definition name params body =>
    .definition name.text (params.map (·.text)) (.block (Statement.treeAll body))

/-- The marks of an item, without the line break after it. -/
def marks : Item → List Mark
  | statement s => s.marks
  | definition name params body =>
    .funKeyword :: .word (.name name) ::
      (parenthesized (paramWords params) ++ braced (Statement.marksAll body))

/-- The marks that an item is written with. -/
def line (item : Item) : List Mark := item.marks ++ [.lineBreak]

end Item

/-- An item and its text, which is its line with any number of blanks between the marks. -/
structure Rendering where
  item : Item
  text : String
  laid : Laid [] item.line text.toList

namespace Rendering

/-- An item with blanks only where they are needed. -/
def ofItem (item : Item) : Rendering where
  item := item
  text := String.ofList (written item.line)
  laid := by
    rw [String.toList_ofList]
    exact laid_written item.marks

/-- What the text of an item is read as. -/
def entry (p : Rendering) : Entry := ⟨p.item.tree, [], p.text⟩

/-- The text of a program. -/
def textAll (program : List Rendering) : List Char := program.flatMap (·.text.toList)

theorem inText_textAll (program : List Rendering) : Text.endOfText ∉ textAll program := by
  rw [textAll, List.mem_flatMap]
  rintro ⟨p, _, mem⟩
  exact p.laid.inText mem

end Rendering

end ComplexScript.Entry
