import ComplexScript.Proofs.Program.Tree
import ComplexScript.Scope
set_option autoImplicit false

/-!
# Where control statements stand

The check of a tree knows two things of the place where the tree stands: whether it is in a loop and
whether it is in a function.  Whatever else is known of names, a tree without mistakes has breaks
and continues only in loops and returns only in functions (`placed_of_clean`).  A function's body
begins outside every loop, and of a loop only the body is in it: the condition and the step stand
where the loop does.
-/

namespace ComplexScript

open ComplexScript.Program
open ComplexScript.Scope (Place)

namespace Program.Node

mutual

/-- Every control statement in a tree at a place stands where it may. -/
def Placed (place : Place) : Node → Prop
  | negation operand => operand.Placed place
  | binary _ left right => left.Placed place ∧ right.Placed place
  | assignment _ value => value.Placed place
  | block statements => AllPlaced place statements
  | ifThen condition thenBlock => condition.Placed place ∧ thenBlock.Placed place
  | ifElse condition thenBlock elseBlock =>
    condition.Placed place ∧ thenBlock.Placed place ∧ elseBlock.Placed place
  | loop init condition step body =>
    init.Placed place ∧ condition.Placed place ∧ body.Placed { place with inLoop := true } ∧
      step.Placed place
  | definition _ _ body => body.Placed { inFunction := true }
  | call _ arguments => AllPlaced place arguments
  | builtin _ arguments => AllPlaced place arguments
  | returnNothing => place.inFunction = true
  | returnValue value => place.inFunction = true ∧ value.Placed place
  | .break => place.inLoop = true
  | .continue => place.inLoop = true
  | _ => True

/-- Every control statement in trees at a place stands where it may. -/
def AllPlaced (place : Place) : List Node → Prop
  | [] => True
  | n :: ns => n.Placed place ∧ AllPlaced place ns

end

end Program.Node

namespace Scope

variable {place : Place} {s : Scope}

/-- In a tree without mistakes every control statement stands where it may, whatever is known of
names. -/
theorem placed_of_clean {node : Node} (clean : (check place node s).2 = []) :
    node.Placed place := by
  have all : ∀ nodes : List Node,
      (∀ n ∈ nodes, ∀ {place : Place} {s : Scope}, (check place n s).2 = [] → n.Placed place) →
      ∀ {place : Place} {s : Scope}, (checkAll place nodes s).2 = [] →
        Node.AllPlaced place nodes := by
    intro nodes ih
    induction nodes with
    | nil => exact fun _ => trivial
    | cons n nodes tail =>
      intro place s clean
      obtain ⟨cleanHead, cleanTail⟩ := List.append_eq_nil_iff.mp clean
      exact ⟨ih n List.mem_cons_self cleanHead,
        tail (fun m mem => ih m (List.mem_cons_of_mem n mem)) cleanTail⟩
  induction node generalizing place s with
  | literal | identifier | noOp | endOfInput => trivial
  | negation _ ih | assignment _ _ ih => exact ih clean
  | binary _ _ _ left right =>
    obtain ⟨cleanLeft, cleanRight⟩ := List.append_eq_nil_iff.mp clean
    exact ⟨left cleanLeft, right cleanRight⟩
  | block statements ih => exact all statements ih clean
  | ifThen _ _ condition thenBlock =>
    obtain ⟨cleanCondition, cleanThen⟩ := List.append_eq_nil_iff.mp clean
    exact ⟨condition cleanCondition, thenBlock cleanThen⟩
  | ifElse _ _ _ condition thenBlock elseBlock =>
    simp only [check, List.append_eq_nil_iff] at clean
    exact ⟨condition clean.1.1, thenBlock clean.1.2, elseBlock clean.2⟩
  | loop _ _ _ _ init condition step body =>
    simp only [check, List.append_eq_nil_iff] at clean
    exact ⟨init clean.1.1.1, condition clean.1.1.2, body clean.1.2, step clean.2⟩
  | definition _ _ _ ih => exact ih clean
  | call _ arguments ih => exact all arguments ih (List.append_eq_nil_iff.mp clean).1
  | builtin _ arguments ih => exact all arguments ih (List.append_eq_nil_iff.mp clean).1
  | returnNothing | «break» | «continue» =>
    simpa [check, Node.Placed] using clean
  | returnValue _ ih =>
    simp only [check] at clean
    split at clean
    · next inFunction => exact ⟨inFunction, ih clean⟩
    · cases clean

end Scope

end ComplexScript
