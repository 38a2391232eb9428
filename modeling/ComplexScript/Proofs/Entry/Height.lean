import ComplexScript.Entry.Basic
import ComplexScript.Proofs.Entry.Rules
set_option autoImplicit false

/-!
# How high the tree of an entry can be

Between two guards of the grammar a tree grows by a bounded number of levels: groups, blocks and
prefix operators count against the nesting limit, chained operands and statements against the
chain limit.  The arguments of a call pass neither guard, so the nesting of calls in a tree
(`Node.callDepth`) adds to its height beside the limits (`Rule.low`, `height_next_le`).  Hence the
limits bound the height on a class of inputs if and only if they bound the nesting of calls there.
-/

namespace ComplexScript.Entry

open ComplexScript.Program
open ComplexScript.Token (Kind)
open Read

/-- What the limits leave open at a point of the text. -/
def Context.room (ctx : Context) : Nat :=
  (ctx.limits.nesting - ctx.depth) + (ctx.limits.chain - ctx.chain)

/-! ## Low trees -/

/-- A tree that grows at most eight levels with each unit of room and each nested call, and `rank`
more. -/
def Low (room rank : Nat) (n : Node) : Prop := n.height ≤ 8 * (room + n.callDepth) + rank

/-- Trees that are low beside each other. -/
def AllLow (room rank : Nat) (ns : List Node) : Prop :=
  Node.maxHeight ns ≤ 8 * (room + Node.maxCallDepth ns) + rank

theorem Low.mono {room rank rank' : Nat} {n : Node} (h : Low room rank n) (le : rank ≤ rank') :
    Low room rank' n := by
  unfold Low at *
  omega

theorem low_of_leaf {room rank : Nat} {n : Node} (leaf : n.height = 1) : Low room (rank + 1) n := by
  unfold Low
  omega

theorem AllLow.cons {room rank : Nat} {n : Node} {ns : List Node} (head : Low room rank n)
    (tail : AllLow room rank ns) : AllLow room rank (n :: ns) := by
  unfold Low AllLow at *
  simp only [Node.maxHeight, Node.maxCallDepth]
  omega

theorem allLow_nil {room rank : Nat} : AllLow room rank [] := Nat.zero_le _

theorem low_operation {room rank : Nat} {t : Token} {left right : Node} (hl : Low room rank left)
    (hr : Low room rank right) : Low room (rank + 1) (operation t left right) := by
  unfold operation
  split
  · unfold Low at *
    simp only [Node.height, Node.callDepth]
    omega
  · exact low_of_leaf rfl

/-- Passing a guard takes room for eight levels, so what is read behind one adds a single level to
the room before it. -/
theorem guarded_low {room : Nat} {fuel : Nat} {p : Prop} [Decidable p] {m : Read Node}
    (inside : ¬ p → ∃ inner rank, inner + 1 = room ∧ rank ≤ 9 ∧ Yields (Low inner rank) m) :
    Yields (Low room 1) (if p then do giveUp fuel; return .noOp else m) := by
  split
  · exact .after fun _ => .pure (low_of_leaf rfl)
  · next allowed =>
    obtain ⟨inner, rank, rfl, small, low⟩ := inside allowed
    refine low.mono fun n h => ?_
    unfold Low at *
    omega

theorem nested_low {fuel rank : Nat} (small : rank ≤ 9) {ctx : Context}
    {rule : Context → Read Node}
    (h : ∀ deeper : Context, Yields (Low deeper.room rank) (rule deeper)) :
    Yields (Low ctx.room 1) (nested fuel ctx rule) := by
  refine guarded_low fun allowed => ⟨_, rank, ?_, small, h _⟩
  unfold Context.room
  dsimp only
  omega

theorem chained_low {fuel rank : Nat} (small : rank ≤ 9) {ctx : Context}
    {rule : Context → Read Node}
    (h : ∀ further : Context, Yields (Low further.room rank) (rule further)) :
    Yields (Low ctx.room 1) (chained fuel ctx rule) := by
  refine guarded_low fun allowed => ⟨_, rank, ?_, small, h _⟩
  unfold Context.room
  dsimp only
  omega

/-! ## Rules -/

/-- What a rule reads is low, with any tree that it was given. -/
def Rule.Low (room : Nat) : (rule : Rule) → rule.Result → Prop
  | terminated _ node, tree => Entry.Low room 7 node → Entry.Low room 8 tree
  | statements, trees => AllLow room 8 trees
  | arguments, trees | argumentList, trees => AllLow room 6 trees
  | statement _, tree => Entry.Low room 8 tree
  | instruction, tree | loop, tree | conditional, tree => Entry.Low room 7 tree
  | block, tree | primary, tree => Entry.Low room 1 tree
  | assignment, tree | group, tree => Entry.Low room 6 tree
  | binary level, tree => Entry.Low room level.rank tree

section

variable {fuel : Nat} {ctx : Context}

/-- All rules read low trees on the budget `fuel`. -/
def AllRulesLow (fuel : Nat) : Prop :=
  ∀ (rule : Rule) (ctx : Context), Yields (rule.Low ctx.room) (rule.run fuel ctx)

namespace AllRulesLow

variable (ih : AllRulesLow fuel)

include ih

theorem statement (inBlock : Bool) :
    Yields (Low ctx.room 8) (Entry.statement (fuel + 1) ctx inBlock) := by
  rw [Entry.statement]
  refine .after fun _ => ?_
  split
  · exact .pure (low_of_leaf rfl)
  refine .after fun _ => ?_
  split
  · exact .pure (low_of_leaf rfl)
  refine .after fun _ => ?_
  split
  · exact .pure (low_of_leaf rfl)
  refine (ih .instruction ctx).bind fun node low => ?_
  exact (ih (.terminated inBlock node) ctx).mono fun _ good => good low

theorem terminated (inBlock : Bool) (node : Node) :
    Yields (fun tree => Low ctx.room 7 node → Low ctx.room 8 tree)
      (Entry.terminated (fuel + 1) ctx inBlock node) := by
  have same : Low ctx.room 7 node → Low ctx.room 8 node := fun low => low.mono (by omega)
  rw [Entry.terminated]
  refine .after fun _ => ?_
  split
  · exact .pure same
  refine .after fun _ => ?_
  split
  · exact .pure same
  refine .after fun _ => ?_
  split
  · exact .pure same
  refine .after fun _ => ?_
  split
  · exact .pure same
  refine .after fun t => ?_
  split
  · exact .pure same
  refine .after fun _ => ?_
  have rest : Yields (Low ctx.room 1)
      (chained fuel ctx fun ctx => Entry.statement fuel ctx inBlock) :=
    chained_low (by omega) (ih (.statement inBlock))
  refine rest.bind fun rest low => .pure fun lowNode => ?_
  unfold Low at *
  simp only [Node.height, Node.callDepth, Node.maxHeight, Node.maxCallDepth]
  omega

theorem instruction : Yields (Low ctx.room 7) (Entry.instruction (fuel + 1) ctx) := by
  rw [Entry.instruction]
  refine .after fun _ => ?_
  split
  · exact .pure (low_of_leaf rfl)
  refine .after fun _ => ?_
  split
  · exact .pure (low_of_leaf rfl)
  refine .after fun _ => ?_
  split
  · exact ih .loop ctx
  refine .after fun _ => ?_
  split
  · exact ih .conditional ctx
  refine .after fun _ => ?_
  split
  · refine .after fun t => ?_
    split
    · exact .pure (low_of_leaf rfl)
    · refine (ih .assignment ctx).bind fun value low => .pure ?_
      exact Nat.succ_le_succ low
  · exact (ih .assignment ctx).mono fun _ low => low.mono (by omega)

theorem block : Yields (Low ctx.room 1) (Entry.block (fuel + 1) ctx) := by
  rw [Entry.block]
  refine .after fun _ => ?_
  split
  · refine nested_low (Nat.le_refl 9) fun deeper => ?_
    refine (ih .statements deeper).bind fun statements low => .pure ?_
    exact Nat.succ_le_succ low
  · exact .pure (low_of_leaf rfl)

theorem statements : Yields (AllLow ctx.room 8) (Entry.statements (fuel + 1) ctx) := by
  rw [Entry.statements]
  refine .after fun _ => ?_
  split
  · exact .pure allLow_nil
  refine .after fun t => .after fun _ => ?_
  split
  · exact .after fun _ => .pure allLow_nil
  refine (ih (.statement true) ctx).bind fun node low => ?_
  refine (ih .statements ctx).bind fun rest allLow => .pure ?_
  split
  · exact allLow
  · exact .cons low allLow

theorem loop : Yields (Low ctx.room 7) (Entry.loop (fuel + 1) ctx) := by
  rw [Entry.loop]
  refine .after fun _ => (ih .assignment _).bind fun init lowInit => ?_
  refine .after fun _ => (ih (.binary .relational) _).bind fun condition lowCondition => ?_
  refine .after fun _ => (ih .assignment _).bind fun step lowStep => ?_
  refine .after fun _ => .after fun _ => (ih .block ctx).bind fun body lowBody => .pure ?_
  simp only [Rule.Low, Low, Level.rank, Context.room, Node.height, Node.callDepth] at *
  omega

theorem conditional : Yields (Low ctx.room 7) (Entry.conditional (fuel + 1) ctx) := by
  rw [Entry.conditional]
  refine .after fun _ => (ih .assignment _).bind fun condition lowCondition => ?_
  refine .after fun _ => .after fun _ => (ih .block ctx).bind fun thenBlock lowThen => ?_
  have alternative : ∀ elseBlock, Low ctx.room 1 elseBlock →
      Low ctx.room 7 (.ifElse condition thenBlock elseBlock) := by
    intro elseBlock lowElse
    simp only [Rule.Low, Low, Context.room, Node.height, Node.callDepth] at *
    omega
  refine .after fun _ => ?_
  split
  · refine .after fun _ => ?_
    split
    · refine (nested_low (by omega) (ih .conditional)).bind fun elseIf lowElse => .pure ?_
      exact alternative elseIf lowElse
    · exact (ih .block ctx).bind fun elseBlock lowElse => .pure (alternative elseBlock lowElse)
  · refine .pure ?_
    simp only [Rule.Low, Low, Context.room, Node.height, Node.callDepth] at *
    omega

theorem assignment : Yields (Low ctx.room 6) (Entry.assignment (fuel + 1) ctx) := by
  rw [Entry.assignment]
  refine .after fun start => (ih (.binary .relational) ctx).bind fun target lowTarget => ?_
  refine .after fun _ => ?_
  split
  · refine (chained_low (by omega) (ih .assignment)).bind fun value lowValue => ?_
    split
    · refine .pure ?_
      simp only [Low, Node.height, Node.callDepth] at *
      omega
    · exact .after fun _ => .pure (low_of_leaf rfl)
  · exact .pure lowTarget

theorem rightOperand (level : Level) {rank : Nat} {left : Node} (positive : 0 < rank)
    (lowLeft : Low ctx.room rank left) :
    Yields (Low ctx.room (rank + 1)) (Entry.rightOperand fuel ctx level left) := by
  refine .after fun found => ?_
  cases found with
  | none => exact .pure (lowLeft.mono (by omega))
  | some t =>
    have small : level.rank ≤ 9 := by cases level <;> decide
    refine (chained_low small (ih (.binary level))).bind fun right lowRight => .pure ?_
    exact low_operation lowLeft (lowRight.mono positive)

theorem binary (level : Level) :
    Yields (Low ctx.room level.rank) (Entry.binary (fuel + 1) ctx level) := by
  cases level with
  | relational =>
    rw [binary_of_tighter rfl]
    exact (ih (.binary .logical) ctx).bind fun left => ih.rightOperand _ (by decide)
  | logical =>
    rw [binary_of_tighter rfl]
    exact (ih (.binary .power) ctx).bind fun left => ih.rightOperand _ (by decide)
  | power =>
    rw [binary_of_tighter rfl]
    exact (ih (.binary .additive) ctx).bind fun left => ih.rightOperand _ (by decide)
  | additive =>
    rw [binary_of_tighter rfl]
    exact (ih (.binary .multiplicative) ctx).bind fun left => ih.rightOperand _ (by decide)
  | multiplicative =>
    rw [binary_of_tightest rfl]
    exact (ih .primary ctx).bind fun left => ih.rightOperand _ (by decide)

theorem primary : Yields (Low ctx.room 1) (Entry.primary (fuel + 1) ctx) := by
  have called : ∀ args, AllLow ctx.room 6 args → ∀ n : Node,
      n.height = Node.maxHeight args + 1 → n.callDepth = Node.maxCallDepth args + 1 →
      Low ctx.room 1 n := by
    intro args low n height callDepth
    unfold Low AllLow at *
    omega
  rw [Entry.primary]
  refine .after fun t => ?_
  split
  · exact .after fun _ => nested_low (by omega) (ih .group)
  · exact .after fun _ => .pure (low_of_leaf rfl)
  · refine .after fun _ => .after fun _ => (ih .arguments ctx).bind fun args low => ?_
    split
    · exact .pure (called args low _ rfl rfl)
    · exact .pure (low_of_leaf rfl)
  · refine .after fun _ => .after fun _ => ?_
    split
    · exact (ih .arguments ctx).bind fun args low => .pure (called args low _ rfl rfl)
    · exact .pure (low_of_leaf rfl)
  · refine .after fun _ => nested_low (by decide : 7 ≤ 9) fun deeper => ?_
    refine (ih (.binary .relational) deeper).bind fun operand low => .pure ?_
    exact Nat.succ_le_succ low
  · refine .after fun _ => nested_low (by decide : 2 ≤ 9) fun deeper => ?_
    refine (ih .primary deeper).bind fun operand low => .pure ?_
    exact low_operation (low_of_leaf rfl) low
  · exact .after fun _ => .pure (low_of_leaf rfl)
  · exact .pure (low_of_leaf rfl)
  · exact .pure (low_of_leaf rfl)
  · exact .after fun _ => .after fun _ => .pure (low_of_leaf rfl)

theorem group : Yields (Low ctx.room 6) (Entry.group (fuel + 1) ctx) := by
  rw [Entry.group]
  refine (ih .assignment _).bind fun inner low => .after fun _ => ?_
  split
  · exact .after fun _ => .pure low
  · exact .pure low

theorem arguments : Yields (AllLow ctx.room 6) (Entry.arguments (fuel + 1) ctx) := by
  rw [Entry.arguments]
  refine .after fun _ => ?_
  split
  · exact .pure allLow_nil
  · exact (ih .argumentList _).bind fun args low => .after fun _ => .pure low

theorem argumentList : Yields (AllLow ctx.room 6) (Entry.argumentList (fuel + 1) ctx) := by
  rw [Entry.argumentList]
  refine (ih (.binary .relational) ctx).bind fun first low => .after fun _ => ?_
  split
  · exact (ih .argumentList ctx).bind fun rest allLow => .pure (.cons low allLow)
  · exact .pure (.cons low allLow_nil)

end AllRulesLow

/-- Every rule reads low trees. -/
theorem Rule.low (fuel : Nat) : AllRulesLow fuel := by
  induction fuel with
  | zero =>
    intro rule ctx
    rw [Rule.run_zero]
    exact .starved
  | succ fuel ih =>
    intro rule ctx
    cases rule with
    | statement inBlock => exact ih.statement inBlock
    | terminated inBlock node => exact ih.terminated inBlock node
    | instruction => exact ih.instruction
    | block => exact ih.block
    | statements => exact ih.statements
    | loop => exact ih.loop
    | conditional => exact ih.conditional
    | assignment => exact ih.assignment
    | binary level => exact ih.binary level
    | primary => exact ih.primary
    | group => exact ih.group
    | arguments => exact ih.arguments
    | argumentList => exact ih.argumentList

theorem entry_low : Yields (Low ctx.room 8) (entry fuel ctx) := by
  refine .after fun isFunction => ?_
  split
  · have function : Yields (Low ctx.room 7) (definition fuel ctx) := by
      refine .after fun name => .after fun _ => .after fun params => .after fun _ => ?_
      refine .after fun _ => ?_
      refine (Rule.low fuel .block ctx).bind fun body low => .pure ?_
      simp only [Rule.Low, Low, Node.height, Node.callDepth] at *
      omega
    refine function.bind fun node low => ?_
    exact (Rule.low fuel (.terminated false node) ctx).mono fun _ good => good low
  · exact Rule.low fuel (.statement false) ctx

end

/-! ## Entries -/

/-- The height of an entry is bounded by the limits and the nesting of calls in it. -/
theorem height_next_le (limits : Limits) (r : Reader) :
    (next limits r).1.node.height ≤
      8 * (limits.nesting + limits.chain + (next limits r).1.node.callDepth + 1) := by
  unfold next
  cases run : next? (budget r) limits r with
  | none => exact Nat.le_add_left 1 _
  | some result =>
    unfold next? at run
    obtain ⟨⟨node, t⟩, here, there⟩ := Option.bind_eq_some_iff.mp run
    cases there
    have low : Low (limits.nesting - 0 + (limits.chain - 0)) 8 node := entry_low _ _ _ here
    rw [Option.getD_some]
    unfold Low at low
    omega

/-- The height of an entry is bounded by the limits and the nesting of calls in it: all that passes
no guard is the arguments of calls.  So the limits bound the heights of a class of entries, up to a
constant, exactly when they bound the nesting of calls in them. -/
theorem limits_bound_height_iff (K : Limits → Reader → Prop) :
    (∀ limits r, (next limits r).1.node.height ≤
      8 * (limits.nesting + limits.chain + (next limits r).1.node.callDepth + 1)) ∧
    ((∃ c, ∀ limits r, K limits r →
      (next limits r).1.node.height ≤ c * (limits.nesting + limits.chain + 1)) ↔
    ∃ c, ∀ limits r, K limits r →
      (next limits r).1.node.callDepth ≤ c * (limits.nesting + limits.chain + 1)) := by
  refine ⟨height_next_le, ?_⟩
  constructor
  · rintro ⟨c, bound⟩
    refine ⟨c, fun limits r mem => ?_⟩
    exact Nat.le_trans (Node.callDepth_le_height _) (bound limits r mem)
  · rintro ⟨c, bound⟩
    refine ⟨8 * (c + 1), fun limits r mem => ?_⟩
    have height := height_next_le limits r
    have calls := bound limits r mem
    calc (next limits r).1.node.height
        ≤ 8 * (c * (limits.nesting + limits.chain + 1) + (limits.nesting + limits.chain + 1)) := by
          omega
      _ = 8 * (c + 1) * (limits.nesting + limits.chain + 1) := by
          rw [Nat.mul_assoc, Nat.add_mul, Nat.one_mul]

end ComplexScript.Entry
