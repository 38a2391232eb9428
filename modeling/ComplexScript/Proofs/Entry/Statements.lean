import ComplexScript.Proofs.Entry.Trees
set_option autoImplicit false

/-!
# Where statements stand

Every tree can be run for its value, but the grammar reads trees only where they make sense: what
stands in an operator, a group, an assignment, a call or a condition is an expression, and what
stands in a block is a statement (`Rule.formed`).  So an item without complaints is a statement, or
a function whose body is one (`next_isItem`).
-/

namespace ComplexScript.Entry

open ComplexScript.Program
open Read

/-- What a rule reads is an expression or a statement, as the rule is one for expressions or
statements.  A statement is given to the rule for its end. -/
def Rule.Formed : (rule : Rule) → rule.Result → Prop
  | terminated _ node, tree => node.IsStatement → tree.IsStatement
  | statements, trees => Node.AllStatements trees
  | arguments, trees | argumentList, trees => Node.AllExpressions trees
  | statement _, tree | instruction, tree | block, tree | loop, tree | conditional, tree =>
    tree.IsStatement
  | assignment, tree | binary _, tree | primary, tree | group, tree => tree.IsExpression

section

variable {fuel : Nat} {ctx : Context} {Q : Node → Prop} {rule : Context → Read Node}

/-- Behind a guard stands what the rule reads, or nothing. -/
theorem nested_yields (nothing : Q .noOp) (h : ∀ deeper, Yields Q (rule deeper)) :
    Yields Q (nested fuel ctx rule) := by
  unfold nested
  split
  · exact .after fun _ => .pure nothing
  · exact h _

theorem chained_yields (nothing : Q .noOp) (h : ∀ further, Yields Q (rule further)) :
    Yields Q (chained fuel ctx rule) := by
  unfold chained
  split
  · exact .after fun _ => .pure nothing
  · exact h _

theorem operation_isExpression {t : Token} {left right : Node} (hl : left.IsExpression)
    (hr : right.IsExpression) : (operation t left right).IsExpression := by
  unfold operation
  split
  · exact ⟨hl, hr⟩
  · trivial

/-- All rules read trees of their kind on the budget `fuel`. -/
def AllRulesFormed (fuel : Nat) : Prop :=
  ∀ (rule : Rule) (ctx : Context), Yields rule.Formed (rule.run fuel ctx)

namespace AllRulesFormed

variable (ih : AllRulesFormed fuel)

include ih

theorem statement (inBlock : Bool) :
    Yields Node.IsStatement (Entry.statement (fuel + 1) ctx inBlock) := by
  rw [Entry.statement]
  refine .after fun _ => ?_
  split
  · exact .pure trivial
  refine .after fun _ => ?_
  split
  · exact .pure trivial
  refine .after fun _ => ?_
  split
  · exact .pure trivial
  refine (ih .instruction ctx).bind fun node formed => ?_
  exact (ih (.terminated inBlock node) ctx).mono fun _ keeps => keeps formed

theorem terminated (inBlock : Bool) (node : Node) :
    Yields (fun tree => node.IsStatement → tree.IsStatement)
      (Entry.terminated (fuel + 1) ctx inBlock node) := by
  rw [Entry.terminated]
  refine .after fun _ => ?_
  split
  · exact .pure id
  refine .after fun _ => ?_
  split
  · exact .pure id
  refine .after fun _ => ?_
  split
  · exact .pure id
  refine .after fun _ => ?_
  split
  · exact .pure id
  refine .after fun t => ?_
  split
  · exact .pure id
  refine .after fun _ => ?_
  refine (chained_yields trivial (ih (.statement inBlock))).bind fun rest formed => .pure ?_
  exact fun given => ⟨given, formed, trivial⟩

theorem instruction : Yields Node.IsStatement (Entry.instruction (fuel + 1) ctx) := by
  rw [Entry.instruction]
  refine .after fun _ => ?_
  split
  · exact .pure trivial
  refine .after fun _ => ?_
  split
  · exact .pure trivial
  refine .after fun _ => ?_
  split
  · exact ih .loop ctx
  refine .after fun _ => ?_
  split
  · exact ih .conditional ctx
  refine .after fun _ => ?_
  split
  · refine .after fun t => ?_
    split
    · exact .pure trivial
    · exact (ih .assignment ctx).bind fun value formed => .pure formed
  · exact (ih .assignment ctx).mono fun _ => Node.IsExpression.isStatement

theorem block : Yields Node.IsStatement (Entry.block (fuel + 1) ctx) := by
  rw [Entry.block]
  refine .after fun _ => ?_
  split
  · refine nested_yields trivial fun deeper => ?_
    exact (ih .statements deeper).bind fun statements formed => .pure formed
  · exact .pure trivial

theorem statements : Yields Node.AllStatements (Entry.statements (fuel + 1) ctx) := by
  rw [Entry.statements]
  refine .after fun _ => ?_
  split
  · exact .pure trivial
  refine .after fun t => .after fun _ => ?_
  split
  · exact .after fun _ => .pure trivial
  refine (ih (.statement true) ctx).bind fun node formed => ?_
  refine (ih .statements ctx).bind fun rest allFormed => .pure ?_
  split
  · exact allFormed
  · exact ⟨formed, allFormed⟩

theorem loop : Yields Node.IsStatement (Entry.loop (fuel + 1) ctx) := by
  rw [Entry.loop]
  refine .after fun _ => (ih .assignment _).bind fun init formedInit => ?_
  refine .after fun _ => (ih (.binary .relational) _).bind fun condition formedCondition => ?_
  refine .after fun _ => (ih .assignment _).bind fun step formedStep => ?_
  refine .after fun _ => .after fun _ => (ih .block ctx).bind fun body formedBody => .pure ?_
  exact ⟨formedInit, formedCondition, formedStep, formedBody⟩

theorem conditional : Yields Node.IsStatement (Entry.conditional (fuel + 1) ctx) := by
  rw [Entry.conditional]
  refine .after fun _ => (ih .assignment _).bind fun condition formedCondition => ?_
  refine .after fun _ => .after fun _ => (ih .block ctx).bind fun thenBlock formedThen => ?_
  refine .after fun _ => ?_
  split
  · refine .after fun _ => ?_
    split
    · refine (nested_yields trivial (ih .conditional)).bind fun elseIf formedElse => .pure ?_
      exact ⟨formedCondition, formedThen, formedElse⟩
    · refine (ih .block ctx).bind fun elseBlock formedElse => .pure ?_
      exact ⟨formedCondition, formedThen, formedElse⟩
  · exact .pure ⟨formedCondition, formedThen⟩

theorem assignment : Yields Node.IsExpression (Entry.assignment (fuel + 1) ctx) := by
  rw [Entry.assignment]
  refine .after fun start => (ih (.binary .relational) ctx).bind fun target formedTarget => ?_
  refine .after fun _ => ?_
  split
  · refine (chained_yields trivial (ih .assignment)).bind fun value formedValue => ?_
    split
    · exact .pure formedValue
    · exact .after fun _ => .pure trivial
  · exact .pure formedTarget

theorem rightOperand (level : Level) {left : Node} (formedLeft : left.IsExpression) :
    Yields Node.IsExpression (Entry.rightOperand fuel ctx level left) := by
  refine .after fun found => ?_
  cases found with
  | none => exact .pure formedLeft
  | some t =>
    refine (chained_yields trivial (ih (.binary level))).bind fun right formedRight => .pure ?_
    exact operation_isExpression formedLeft formedRight

theorem binary (level : Level) :
    Yields Node.IsExpression (Entry.binary (fuel + 1) ctx level) := by
  cases tighter : level.tighter? with
  | some next =>
    rw [binary_of_tighter tighter]
    exact (ih (.binary next) ctx).bind fun left formed => ih.rightOperand level formed
  | none =>
    rw [binary_of_tightest tighter]
    exact (ih .primary ctx).bind fun left formed => ih.rightOperand level formed

theorem primary : Yields Node.IsExpression (Entry.primary (fuel + 1) ctx) := by
  rw [Entry.primary]
  refine .after fun t => ?_
  split
  · exact .after fun _ => nested_yields trivial (ih .group)
  · exact .after fun _ => .pure trivial
  · refine .after fun _ => .after fun _ => (ih .arguments ctx).bind fun args formed => ?_
    split
    · exact .pure formed
    · exact .pure trivial
  · refine .after fun _ => .after fun _ => ?_
    split
    · exact (ih .arguments ctx).bind fun args formed => .pure formed
    · exact .pure trivial
  · refine .after fun _ => nested_yields trivial fun deeper => ?_
    exact (ih (.binary .relational) deeper).bind fun operand formed => .pure formed
  · refine .after fun _ => nested_yields trivial fun deeper => ?_
    refine (ih .primary deeper).bind fun operand formed => .pure ?_
    exact operation_isExpression trivial formed
  · exact .after fun _ => .pure trivial
  · exact .pure trivial
  · exact .pure trivial
  · exact .after fun _ => .after fun _ => .pure trivial

theorem group : Yields Node.IsExpression (Entry.group (fuel + 1) ctx) := by
  rw [Entry.group]
  refine (ih .assignment _).bind fun inner formed => .after fun _ => ?_
  split
  · exact .after fun _ => .pure formed
  · exact .pure formed

theorem arguments : Yields Node.AllExpressions (Entry.arguments (fuel + 1) ctx) := by
  rw [Entry.arguments]
  refine .after fun _ => ?_
  split
  · exact .pure trivial
  · exact (ih .argumentList _).bind fun args formed => .after fun _ => .pure formed

theorem argumentList : Yields Node.AllExpressions (Entry.argumentList (fuel + 1) ctx) := by
  rw [Entry.argumentList]
  refine (ih (.binary .relational) ctx).bind fun first formed => .after fun _ => ?_
  split
  · exact (ih .argumentList ctx).bind fun rest allFormed => .pure ⟨formed, allFormed⟩
  · exact .pure ⟨formed, trivial⟩

end AllRulesFormed

/-- Every rule reads trees of its kind. -/
theorem Rule.formed (fuel : Nat) : AllRulesFormed fuel := by
  induction fuel with
  | zero =>
    intro rule ctx
    rw [Rule.run_zero]
    exact .starved
  | succ fuel ih =>
    intro rule ctx
    cases rule with
    | statement inBlock => exact ih.statement inBlock
    | terminated inBlock node => exact ih.terminated inBlock node
    | instruction => exact ih.instruction
    | block => exact ih.block
    | statements => exact ih.statements
    | loop => exact ih.loop
    | conditional => exact ih.conditional
    | assignment => exact ih.assignment
    | binary level => exact ih.binary level
    | primary => exact ih.primary
    | group => exact ih.group
    | arguments => exact ih.arguments
    | argumentList => exact ih.argumentList

theorem definition_isItem : Yields Node.IsItem (definition fuel ctx) := by
  refine .after fun name => .after fun _ => .after fun params => .after fun _ => .after fun _ => ?_
  exact (Rule.formed fuel .block ctx).bind fun body formed => .pure formed

end

/-! ## Entries -/

/-- The tree of an entry without complaints is a statement or a function. -/
theorem entry_isItem {fuel : Nat} {ctx : Context} {r s : Reader} {node : Node} (sane : r.Sane)
    (run : entry fuel ctx r = some (node, s)) : node.IsItem ∨ s.diagnostics ≠ [] := by
  have sim := invariant_sane.simulation
  obtain ⟨_, r, here, run⟩ := bind_eq_some.mp run
  obtain ⟨_, sane⟩ := (accept_sim sim _).self sane here
  split at run
  · obtain ⟨function, t, here, run⟩ := bind_eq_some.mp run
    have item := definition_isItem _ _ _ here
    obtain ⟨_, sane⟩ := (definition_sim sim (Nat.le_refl fuel) (.refl _ ctx)).self sane here
    rcases terminated_clean sane run with rfl | complained
    · exact .inl item
    · exact .inr complained
  · exact .inl (Rule.formed fuel (.statement false) ctx _ _ _ run).isItem

/-- An entry without complaints is a statement or a function whose body is one. -/
theorem next_isItem (limits : Limits) {r : Reader} (sane : r.Sane)
    (clean : (next limits r).1.diagnostics = []) : (next limits r).1.node.IsItem := by
  unfold next at clean ⊢
  cases run : next? (budget r) limits r with
  | none => trivial
  | some result =>
    obtain ⟨node, t, run', first, second⟩ := next?_eq_some.mp run
    rw [run, Option.getD_some, first] at clean
    rw [Option.getD_some, first]
    have sane : Reader.Sane { r with abandoned := false } := sane
    exact (entry_isItem sane run').resolve_right (not_not_intro clean)

end ComplexScript.Entry
