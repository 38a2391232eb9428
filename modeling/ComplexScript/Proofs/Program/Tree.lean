import ComplexScript.Program.Node
set_option autoImplicit false

/-!
# Views of syntax trees

What the laws of this library say about a tree as a whole: the variables that running it may leave
bound (`Node.assigned`), the calls that stand in it (`Node.calls`), whether a definition stands
inside it (`Node.Plain`), whether its control statements stand where the grammar has statements
(`Node.IsStatement`), how high it is (`Node.height`) and how deep calls are nested in it
(`Node.callDepth`).  Trees hold lists of trees, so `Node.induct` gives the induction that these
views are reasoned about with: a list case may assume the property of every member.
-/

namespace ComplexScript.Program.Node

/-! ## Induction -/

/-- Induction over trees.  A tree with a list of parts may use the property of each part. -/
@[elab_as_elim, induction_eliminator]
theorem induct {motive : Node → Prop}
    (literal : ∀ z, motive (.literal z))
    (identifier : ∀ name, motive (.identifier name))
    (negation : ∀ operand, motive operand → motive (.negation operand))
    (binary : ∀ op left right, motive left → motive right → motive (.binary op left right))
    (assignment : ∀ target value, motive value → motive (.assignment target value))
    (block : ∀ statements, (∀ n ∈ statements, motive n) → motive (.block statements))
    (ifThen : ∀ condition thenBlock, motive condition → motive thenBlock →
      motive (.ifThen condition thenBlock))
    (ifElse : ∀ condition thenBlock elseBlock, motive condition → motive thenBlock →
      motive elseBlock → motive (.ifElse condition thenBlock elseBlock))
    (loop : ∀ init condition step body, motive init → motive condition → motive step →
      motive body → motive (.loop init condition step body))
    (definition : ∀ name params body, motive body → motive (.definition name params body))
    (call : ∀ name arguments, (∀ n ∈ arguments, motive n) → motive (.call name arguments))
    (builtin : ∀ b arguments, (∀ n ∈ arguments, motive n) → motive (.builtin b arguments))
    (returnNothing : motive .returnNothing)
    (returnValue : ∀ value, motive value → motive (.returnValue value))
    («break» : motive .break)
    («continue» : motive .continue)
    (noOp : motive .noOp)
    (endOfInput : motive .endOfInput) (n : Node) : motive n :=
  @Node.rec motive (fun ns => ∀ n ∈ ns, motive n) literal identifier negation binary assignment
    block ifThen ifElse loop definition call builtin returnNothing returnValue «break» «continue»
    noOp endOfInput (by simp) (fun _ _ head tail => List.forall_mem_cons.mpr ⟨head, tail⟩) n

/-! ## Assigned variables -/

mutual

/-- The variables that running a tree may leave bound: the targets of its assignments.  The bodies
of functions bind in frames of their own, and a loop gives its own variable back. -/
def assigned : Node → List String
  | negation operand => operand.assigned
  | binary _ left right => left.assigned ++ right.assigned
  | assignment target value => target :: value.assigned
  | block statements => assignedAll statements
  | ifThen condition thenBlock => condition.assigned ++ thenBlock.assigned
  | ifElse condition thenBlock elseBlock =>
    condition.assigned ++ thenBlock.assigned ++ elseBlock.assigned
  | loop init condition step body =>
    let all := init.assigned ++ condition.assigned ++ body.assigned ++ step.assigned
    match init.assignedName with
    | some name => all.filter (· ≠ name)
    | none => all
  | call _ arguments => assignedAll arguments
  | builtin _ arguments => assignedAll arguments
  | returnValue value => value.assigned
  | _ => []

/-- The variables that running trees one after another may leave bound. -/
def assignedAll : List Node → List String
  | [] => []
  | n :: ns => n.assigned ++ assignedAll ns

end

/-- A loop assigns what its parts do, its own variable apart. -/
theorem mem_assigned_loop {x : String} {init condition step body : Node} :
    x ∈ (loop init condition step body).assigned ↔ init.assignedName ≠ some x ∧
      (x ∈ init.assigned ∨ x ∈ condition.assigned ∨ x ∈ body.assigned ∨ x ∈ step.assigned) := by
  simp only [assigned]
  cases init.assignedName with
  | none => simp
  | some name =>
    simp only [List.mem_filter, List.mem_append, decide_eq_true_eq, ne_eq, Option.some.injEq,
      or_assoc]
    exact ⟨fun h => ⟨Ne.symm h.2, h.1⟩, fun h => ⟨h.2, Ne.symm h.1⟩⟩

/-! ## Calls -/

mutual

/-- The calls in a tree, each with the number of its arguments.  Those in the body of a function
that it defines are among them, and calls of built-in functions are not. -/
def calls : Node → List (String × Nat)
  | negation operand => operand.calls
  | binary _ left right => left.calls ++ right.calls
  | assignment _ value => value.calls
  | block statements => callsAll statements
  | ifThen condition thenBlock => condition.calls ++ thenBlock.calls
  | ifElse condition thenBlock elseBlock =>
    condition.calls ++ thenBlock.calls ++ elseBlock.calls
  | loop init condition step body =>
    init.calls ++ condition.calls ++ body.calls ++ step.calls
  | definition _ _ body => body.calls
  | call name arguments => (name, arguments.length) :: callsAll arguments
  | builtin _ arguments => callsAll arguments
  | returnValue value => value.calls
  | _ => []

/-- The calls in trees one after another. -/
def callsAll : List Node → List (String × Nat)
  | [] => []
  | n :: ns => n.calls ++ callsAll ns

end

/-! ## Trees without definitions -/

mutual

/-- No definition stands in the tree, and no call in it goes by the name of a built-in function.
This is what the grammar makes of everything but a function. -/
def Plain : Node → Prop
  | negation operand => operand.Plain
  | binary _ left right => left.Plain ∧ right.Plain
  | assignment _ value => value.Plain
  | block statements => AllPlain statements
  | ifThen condition thenBlock => condition.Plain ∧ thenBlock.Plain
  | ifElse condition thenBlock elseBlock =>
    condition.Plain ∧ thenBlock.Plain ∧ elseBlock.Plain
  | loop init condition step body => init.Plain ∧ condition.Plain ∧ step.Plain ∧ body.Plain
  | definition .. => False
  | call name arguments => Builtin.ofName? name = none ∧ AllPlain arguments
  | builtin _ arguments => AllPlain arguments
  | returnValue value => value.Plain
  | _ => True

/-- All trees of a list are plain. -/
def AllPlain : List Node → Prop
  | [] => True
  | n :: ns => n.Plain ∧ AllPlain ns

end

theorem allPlain_iff {nodes : List Node} : AllPlain nodes ↔ ∀ n ∈ nodes, n.Plain := by
  induction nodes with
  | nil => exact ⟨fun _ => nofun, fun _ => trivial⟩
  | cons n nodes ih => rw [AllPlain, ih, List.forall_mem_cons]

/-- The trees of clean entries: plain ones, and functions with a plain body that do not go by the
name of a built-in function. -/
inductive IsEntry : Node → Prop where
  | plain {n : Node} (plain : n.Plain) : IsEntry n
  | definition {name : String} {params : List String} {body : Node}
    (free : Builtin.ofName? name = none) (plain : body.Plain) :
    IsEntry (.definition name params body)

theorem IsEntry.plain_or {n : Node} (h : n.IsEntry) : n.Plain ∨
    ∃ (name : String) (params : List String) (body : Node), n = .definition name params body ∧
      Builtin.ofName? name = none ∧ body.Plain := by
  cases h with
  | plain plain => exact .inl plain
  | definition free plain => exact .inr ⟨_, _, _, rfl, free, plain⟩

/-- What a definition defines, and for how many parameters. -/
def signature? : Node → Option (String × Nat)
  | definition name params _ => some (name, params.length)
  | _ => none

/-- The function that a tree calls, when it is a call without arguments. -/
def callee? : Node → Option String
  | call name [] => some name
  | _ => none

theorem eq_of_callee? {n : Node} {name : String} (h : n.callee? = some name) :
    n = .call name [] := by
  unfold callee? at h
  split at h
  · cases h
    rfl
  · cases h

/-! ## Expressions and statements -/

mutual

/-- The tree is made of what has a value: numbers, variables, operators, assignments and calls.  An
operand that is missing reads as an empty statement. -/
def IsExpression : Node → Prop
  | literal _ | identifier _ | noOp => True
  | negation operand => operand.IsExpression
  | binary _ left right => left.IsExpression ∧ right.IsExpression
  | assignment _ value => value.IsExpression
  | call _ arguments | builtin _ arguments => AllExpressions arguments
  | _ => False

/-- All trees of a list are expressions. -/
def AllExpressions : List Node → Prop
  | [] => True
  | n :: ns => n.IsExpression ∧ AllExpressions ns

end

mutual

/-- Blocks, conditionals, loops and control statements stand only where a statement stands: what is
run for its value is an expression.  No definition stands in the tree. -/
def IsStatement : Node → Prop
  | block statements => AllStatements statements
  | ifThen condition thenBlock => condition.IsExpression ∧ thenBlock.IsStatement
  | ifElse condition thenBlock elseBlock =>
    condition.IsExpression ∧ thenBlock.IsStatement ∧ elseBlock.IsStatement
  | loop init condition step body =>
    init.IsExpression ∧ condition.IsExpression ∧ step.IsExpression ∧ body.IsStatement
  | returnValue value => value.IsExpression
  | returnNothing | .break | .continue | endOfInput => True
  | n => n.IsExpression

/-- All trees of a list are statements. -/
def AllStatements : List Node → Prop
  | [] => True
  | n :: ns => n.IsStatement ∧ AllStatements ns

end

/-- The tree is a statement, or a function whose body is one. -/
def IsItem : Node → Prop
  | definition _ _ body => body.IsStatement
  | n => n.IsStatement

theorem IsExpression.isStatement {n : Node} (h : n.IsExpression) : n.IsStatement := by
  cases n with
  | literal | identifier | negation | binary | assignment | call | builtin | noOp => exact h
  | _ => exact h.elim

theorem IsStatement.isItem {n : Node} (h : n.IsStatement) : n.IsItem := by
  cases n with
  | definition => exact h.elim
  | _ => exact h

theorem IsItem.isStatement {n : Node} (h : n.IsItem) (plain : n.Plain) : n.IsStatement := by
  cases n with
  | definition => exact plain.elim
  | _ => exact h

/-! ## Height and nesting of calls -/

mutual

/-- The height of a tree; a leaf has height one. -/
def height : Node → Nat
  | negation operand => operand.height + 1
  | binary _ left right => max left.height right.height + 1
  | assignment _ value => value.height + 1
  | block statements => maxHeight statements + 1
  | ifThen condition thenBlock => max condition.height thenBlock.height + 1
  | ifElse condition thenBlock elseBlock =>
    max (max condition.height thenBlock.height) elseBlock.height + 1
  | loop init condition step body =>
    max (max init.height condition.height) (max step.height body.height) + 1
  | definition _ _ body => body.height + 1
  | call _ arguments => maxHeight arguments + 1
  | builtin _ arguments => maxHeight arguments + 1
  | returnValue value => value.height + 1
  | _ => 1

/-- The height of the highest of some trees. -/
def maxHeight : List Node → Nat
  | [] => 0
  | n :: ns => max n.height (maxHeight ns)

end

mutual

/-- How many calls, of functions or built-in functions, are nested in one another at most. -/
def callDepth : Node → Nat
  | negation operand => operand.callDepth
  | binary _ left right => max left.callDepth right.callDepth
  | assignment _ value => value.callDepth
  | block statements => maxCallDepth statements
  | ifThen condition thenBlock => max condition.callDepth thenBlock.callDepth
  | ifElse condition thenBlock elseBlock =>
    max (max condition.callDepth thenBlock.callDepth) elseBlock.callDepth
  | loop init condition step body =>
    max (max init.callDepth condition.callDepth) (max step.callDepth body.callDepth)
  | definition _ _ body => body.callDepth
  | call _ arguments => maxCallDepth arguments + 1
  | builtin _ arguments => maxCallDepth arguments + 1
  | returnValue value => value.callDepth
  | _ => 0

/-- The nesting of calls in the tree of a list where it is deepest. -/
def maxCallDepth : List Node → Nat
  | [] => 0
  | n :: ns => max n.callDepth (maxCallDepth ns)

end

/-- Calls nested in one another stand on one path of the tree. -/
theorem callDepth_le_height (n : Node) : n.callDepth ≤ n.height := by
  have all : ∀ ns : List Node, (∀ n ∈ ns, n.callDepth ≤ n.height) →
      maxCallDepth ns ≤ maxHeight ns := by
    intro ns h
    induction ns with
    | nil => exact Nat.le_refl 0
    | cons n ns ih =>
      have head := h n List.mem_cons_self
      have tail := ih fun m hm => h m (List.mem_cons_of_mem n hm)
      simp only [maxCallDepth, maxHeight]
      omega
  induction n with
  | block statements ih | call name arguments ih | builtin b arguments ih =>
    have := all _ ih
    simp only [callDepth, height]
    omega
  | _ => simp only [callDepth, height] at *; omega

end ComplexScript.Program.Node
