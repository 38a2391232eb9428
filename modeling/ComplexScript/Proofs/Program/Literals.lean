import ComplexScript.Proofs.Number.Bounded
import ComplexScript.Proofs.Program.Tree
set_option autoImplicit false

/-!
# The numbers written in a tree

`Node.literals` are the numbers that stand in a tree, those in the body of a function that it
defines among them.  `Node.Built` is what the grammar makes of everything but a function: a plain
tree in which no number has an infinite part.
-/

namespace ComplexScript.Program.Node

mutual

/-- The numbers in a tree. -/
def literals : Node → List Number
  | literal z => [z]
  | negation operand => operand.literals
  | binary _ left right => left.literals ++ right.literals
  | assignment _ value => value.literals
  | block statements => literalsAll statements
  | ifThen condition thenBlock => condition.literals ++ thenBlock.literals
  | ifElse condition thenBlock elseBlock =>
    condition.literals ++ thenBlock.literals ++ elseBlock.literals
  | loop init condition step body =>
    init.literals ++ condition.literals ++ body.literals ++ step.literals
  | definition _ _ body => body.literals
  | call _ arguments => literalsAll arguments
  | builtin _ arguments => literalsAll arguments
  | returnValue value => value.literals
  | _ => []

/-- The numbers in trees one after another. -/
def literalsAll : List Node → List Number
  | [] => []
  | n :: ns => n.literals ++ literalsAll ns

end

mutual

/-- The tree is plain, and no number in it has an infinite part. -/
def Built : Node → Prop
  | literal z => z.Bounded
  | negation operand => operand.Built
  | binary _ left right => left.Built ∧ right.Built
  | assignment _ value => value.Built
  | block statements => AllBuilt statements
  | ifThen condition thenBlock => condition.Built ∧ thenBlock.Built
  | ifElse condition thenBlock elseBlock =>
    condition.Built ∧ thenBlock.Built ∧ elseBlock.Built
  | loop init condition step body => init.Built ∧ condition.Built ∧ step.Built ∧ body.Built
  | definition .. => False
  | call name arguments => Builtin.ofName? name = none ∧ AllBuilt arguments
  | builtin _ arguments => AllBuilt arguments
  | returnValue value => value.Built
  | _ => True

/-- All trees of a list are built. -/
def AllBuilt : List Node → Prop
  | [] => True
  | n :: ns => n.Built ∧ AllBuilt ns

end

theorem allBuilt_iff {nodes : List Node} : AllBuilt nodes ↔ ∀ n ∈ nodes, n.Built := by
  induction nodes with
  | nil => exact ⟨fun _ => nofun, fun _ => trivial⟩
  | cons n nodes ih => rw [AllBuilt, ih, List.forall_mem_cons]

theorem mem_literalsAll {nodes : List Node} {z : Number} :
    z ∈ literalsAll nodes ↔ ∃ n ∈ nodes, z ∈ n.literals := by
  induction nodes with
  | nil => simp [literalsAll]
  | cons n nodes ih => simp [literalsAll, ih]

theorem Built.plain {node : Node} (h : node.Built) : node.Plain := by
  induction node with
  | literal | identifier | returnNothing | «break» | «continue» | noOp | endOfInput => trivial
  | negation _ ih | assignment _ _ ih | returnValue _ ih => exact ih h
  | binary _ _ _ left right => exact ⟨left h.1, right h.2⟩
  | block _ ih => exact allPlain_iff.mpr fun n mem => ih n mem (allBuilt_iff.mp h n mem)
  | builtin _ _ ih => exact allPlain_iff.mpr fun n mem => ih n mem (allBuilt_iff.mp h n mem)
  | call _ _ ih =>
    exact ⟨h.1, allPlain_iff.mpr fun n mem => ih n mem (allBuilt_iff.mp h.2 n mem)⟩
  | ifThen _ _ condition thenBlock => exact ⟨condition h.1, thenBlock h.2⟩
  | ifElse _ _ _ condition thenBlock elseBlock =>
    exact ⟨condition h.1, thenBlock h.2.1, elseBlock h.2.2⟩
  | loop _ _ _ _ init condition step body =>
    exact ⟨init h.1, condition h.2.1, step h.2.2.1, body h.2.2.2⟩
  | definition => exact h

/-- No number in a built tree has an infinite part. -/
theorem Built.bounded {node : Node} (h : node.Built) {z : Number} (mem : z ∈ node.literals) :
    z.Bounded := by
  have all : ∀ {nodes : List Node}, (∀ n ∈ nodes, n.Built → z ∈ n.literals → z.Bounded) →
      AllBuilt nodes → z ∈ literalsAll nodes → z.Bounded := by
    intro nodes ih built mem
    obtain ⟨n, isIn, mem⟩ := mem_literalsAll.mp mem
    exact ih n isIn (allBuilt_iff.mp built n isIn) mem
  induction node with
  | literal w =>
    obtain rfl := List.mem_singleton.mp mem
    exact h
  | identifier | returnNothing | «break» | «continue» | noOp | endOfInput => cases mem
  | negation _ ih | assignment _ _ ih | returnValue _ ih => exact ih h mem
  | binary _ _ _ left right => exact (List.mem_append.mp mem).elim (left h.1) (right h.2)
  | block _ ih => exact all ih h mem
  | builtin _ _ ih => exact all ih h mem
  | call _ _ ih => exact all ih h.2 mem
  | ifThen _ _ condition thenBlock =>
    exact (List.mem_append.mp mem).elim (condition h.1) (thenBlock h.2)
  | ifElse _ _ _ condition thenBlock elseBlock =>
    rw [literals, List.mem_append, List.mem_append] at mem
    rcases mem with (mem | mem) | mem
    · exact condition h.1 mem
    · exact thenBlock h.2.1 mem
    · exact elseBlock h.2.2 mem
  | loop _ _ _ _ init condition step body =>
    rw [literals, List.mem_append, List.mem_append, List.mem_append] at mem
    rcases mem with ((mem | mem) | mem) | mem
    · exact init h.1 mem
    · exact condition h.2.1 mem
    · exact body h.2.2.2 mem
    · exact step h.2.2.1 mem
  | definition => exact h.elim

end ComplexScript.Program.Node
