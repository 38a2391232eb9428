import ComplexScript.Proofs.Entry.Moves
import ComplexScript.Proofs.Program.Literals
set_option autoImplicit false

/-!
# The rules of the grammar as one family

The rules call each other, so a law about them is one statement about a `Rule`, proved by induction
on the budget with a case for each rule.  `Read.Yields` states a property of whatever a piece of the
grammar reads.  `Rule.sim` is the law of two readers in step; it also says that every rule reads
built trees, because an identifier is never the name of a built-in function and the value of a
number is bounded.
-/

namespace ComplexScript.Entry

open ComplexScript.Program
open ComplexScript.Token (Kind)
open ComplexScript.Token.Scan (Lexed)
open Read

/-! ## What a piece of the grammar reads -/

namespace Read

variable {α β : Type}

/-- Whatever the piece reads has the property. -/
def Yields (Q : α → Prop) (m : Read α) : Prop := ∀ r a s, m r = some (a, s) → Q a

theorem Yields.pure {Q : α → Prop} {a : α} (h : Q a) : Yields Q (pure a : Read α) := by
  intro r b s run
  cases run
  exact h

theorem Yields.starved {Q : α → Prop} : Yields Q (Read.starved : Read α) := by
  intro r a s run
  cases run

theorem Yields.mono {P Q : α → Prop} {m : Read α} (h : Yields P m) (weaker : ∀ a, P a → Q a) :
    Yields Q m := fun r a s run => weaker a (h r a s run)

theorem Yields.bind {P : α → Prop} {Q : β → Prop} {m : Read α} {f : α → Read β}
    (first : Yields P m) (second : ∀ a, P a → Yields Q (f a)) : Yields Q (m >>= f) := by
  intro r b s run
  obtain ⟨a, t, here, there⟩ := bind_eq_some.mp run
  exact second a (first r a t here) t b s there

/-- Nothing need be known of what comes first. -/
theorem Yields.after {Q : β → Prop} {m : Read α} {f : α → Read β}
    (second : ∀ a, Yields Q (f a)) : Yields Q (m >>= f) := by
  intro r b s run
  obtain ⟨a, t, _, there⟩ := bind_eq_some.mp run
  exact second a t b s there

end Read

/-! ## The family of rules -/

/-- How far the rule of a level stands above that of primary expressions, which has rank 1. -/
def Level.rank : Level → Nat
  | .multiplicative => 2
  | .additive => 3
  | .power => 4
  | .logical => 5
  | .relational => 6

/-- One of the rules that call each other. -/
inductive Rule where
  | statement (inBlock : Bool)
  | terminated (inBlock : Bool) (node : Node)
  | instruction
  | block
  | statements
  | loop
  | conditional
  | assignment
  | binary (level : Level)
  | primary
  | group
  | arguments
  | argumentList

namespace Rule

/-- What a rule reads. -/
abbrev Result : Rule → Type
  | statements | arguments | argumentList => List Node
  | _ => Node

/-- The reading of a rule. -/
def run : (rule : Rule) → Nat → Context → Read rule.Result
  | statement inBlock, fuel, ctx => Entry.statement fuel ctx inBlock
  | terminated inBlock node, fuel, ctx => Entry.terminated fuel ctx inBlock node
  | instruction, fuel, ctx => Entry.instruction fuel ctx
  | block, fuel, ctx => Entry.block fuel ctx
  | statements, fuel, ctx => Entry.statements fuel ctx
  | loop, fuel, ctx => Entry.loop fuel ctx
  | conditional, fuel, ctx => Entry.conditional fuel ctx
  | assignment, fuel, ctx => Entry.assignment fuel ctx
  | binary level, fuel, ctx => Entry.binary fuel ctx level
  | primary, fuel, ctx => Entry.primary fuel ctx
  | group, fuel, ctx => Entry.group fuel ctx
  | arguments, fuel, ctx => Entry.arguments fuel ctx
  | argumentList, fuel, ctx => Entry.argumentList fuel ctx

/-- The trees that a rule reads are built ones, with any tree that it was given. -/
def Good : (rule : Rule) → rule.Result → Prop
  | terminated _ node, tree => node.Built → tree.Built
  | statements, trees | arguments, trees | argumentList, trees => Node.AllBuilt trees
  | statement _, tree | instruction, tree | block, tree | loop, tree | conditional, tree
  | assignment, tree | binary _, tree | primary, tree | group, tree => tree.Built

/-- Without budget a rule reads nothing. -/
theorem run_zero (rule : Rule) (ctx : Context) : rule.run 0 ctx = starved := by
  cases rule <;> rfl

end Rule

/-- The rest of a binary expression after its left operand. -/
def rightOperand (fuel : Nat) (ctx : Context) (level : Level) (left : Node) : Read Node := do
  match ← acceptOperator? level with
  | some t =>
    let right ← chained fuel ctx fun ctx => binary fuel ctx level
    return operation t left right
  | none => return left

section

variable {fuel : Nat} {ctx : Context} {level : Level}

theorem binary_of_tighter {tighter : Level} (h : level.tighter? = some tighter) :
    binary (fuel + 1) ctx level = binary fuel ctx tighter >>= rightOperand fuel ctx level := by
  rw [binary, h]
  rfl

theorem binary_of_tightest (h : level.tighter? = none) :
    binary (fuel + 1) ctx level = primary fuel ctx >>= rightOperand fuel ctx level := by
  rw [binary, h]
  rfl

end

/-! ## Two readers in step -/

section

variable {T : Reader → Option Reader → Prop} {fuel fuel' : Nat} {ctx ctx' : Context}

/-- All rules read the same on the budgets `fuel` and `fuel'`. -/
def InStep (T : Reader → Option Reader → Prop) (fuel fuel' : Nat) : Prop :=
  ∀ (rule : Rule) {ctx ctx' : Context}, Admits T ctx ctx' →
    Sim T rule.Good (rule.run fuel ctx) (rule.run fuel' ctx')

theorem operation_built {t : Token} {left right : Node} (hl : left.Built) (hr : right.Built) :
    (operation t left right).Built := by
  unfold operation
  split
  · exact ⟨hl, hr⟩
  · trivial

theorem skipClosers_sim (sim : Simulation T) (le : fuel ≤ fuel') :
    Sim T (fun _ => True) (skipClosers fuel) (skipClosers fuel') := by
  induction fuel generalizing fuel' with
  | zero => exact .starved
  | succ fuel ih =>
    obtain ⟨fuel', rfl⟩ := Nat.exists_eq_add_of_lt le
    refine (accept_sim sim _).bind fun more _ => ?_
    split
    · exact ih (by omega)
    · exact .pure trivial

namespace InStep

variable (sim : Simulation T) (le : fuel ≤ fuel') (ih : InStep T fuel fuel')
  (admits : Admits T ctx ctx')

include sim ih admits

theorem statement (inBlock : Bool) :
    Sim T Node.Built (Entry.statement (fuel + 1) ctx inBlock)
      (Entry.statement (fuel' + 1) ctx' inBlock) := by
  rw [Entry.statement, Entry.statement]
  refine (accept_sim sim _).bind fun _ _ => ?_
  split
  · exact .pure trivial
  refine (accept_sim sim _).bind fun _ _ => ?_
  split
  · exact .pure trivial
  refine (isNext_sim sim _).bind fun _ _ => ?_
  split
  · exact .pure trivial
  refine (ih .instruction admits).bind fun node built => ?_
  exact (ih (.terminated inBlock node) admits).mono fun _ good => good built

theorem instruction :
    Sim T Node.Built (Entry.instruction (fuel + 1) ctx) (Entry.instruction (fuel' + 1) ctx') := by
  rw [Entry.instruction, Entry.instruction]
  refine (accept_sim sim _).bind fun _ _ => ?_
  split
  · exact .pure trivial
  refine (accept_sim sim _).bind fun _ _ => ?_
  split
  · exact .pure trivial
  refine (accept_sim sim _).bind fun _ _ => ?_
  split
  · exact ih .loop admits
  refine (accept_sim sim _).bind fun _ _ => ?_
  split
  · exact ih .conditional admits
  refine (accept_sim sim _).bind fun _ _ => ?_
  split
  · refine (look_sim sim).bind fun t _ => ?_
    split
    · exact .pure trivial
    · exact (ih .assignment admits).bind fun _ built => .pure built
  · exact ih .assignment admits

theorem statements :
    Sim T Node.AllBuilt (Entry.statements (fuel + 1) ctx) (Entry.statements (fuel' + 1) ctx') := by
  rw [Entry.statements, Entry.statements]
  refine (accept_sim sim _).bind fun _ _ => ?_
  split
  · exact .pure trivial
  refine (look_sim sim).bind fun t _ => (isAbandoned_sim sim).bind fun _ _ => ?_
  split
  · exact (report_sim sim _).bind fun _ _ => .pure trivial
  refine (ih (.statement true) admits).bind fun node built => ?_
  refine (ih .statements admits).bind fun rest allBuilt => .pure ?_
  split
  · exact allBuilt
  · exact ⟨built, allBuilt⟩

theorem loop :
    Sim T Node.Built (Entry.loop (fuel + 1) ctx) (Entry.loop (fuel' + 1) ctx') := by
  rw [Entry.loop, Entry.loop]
  refine (expect_sim sim _).bind fun _ _ => ?_
  refine (ih .assignment admits.inGroup).bind fun init builtInit => ?_
  refine (expect_sim sim _).bind fun _ _ => ?_
  refine (ih (.binary .relational) admits.inGroup).bind fun condition builtCondition => ?_
  refine (expect_sim sim _).bind fun _ _ => ?_
  refine (ih .assignment admits.inGroup).bind fun step builtStep => ?_
  refine (expect_sim sim _).bind fun _ _ => (accept_sim sim _).bind fun _ _ => ?_
  refine (ih .block admits).bind fun body builtBody => .pure ?_
  exact ⟨builtInit, builtCondition, builtStep, builtBody⟩

theorem argumentList :
    Sim T Node.AllBuilt (Entry.argumentList (fuel + 1) ctx)
      (Entry.argumentList (fuel' + 1) ctx') := by
  rw [Entry.argumentList, Entry.argumentList]
  refine (ih (.binary .relational) admits).bind fun first built => ?_
  refine (accept_sim sim _).bind fun _ _ => ?_
  split
  · exact (ih .argumentList admits).bind fun _ allBuilt => .pure ⟨built, allBuilt⟩
  · exact .pure ⟨built, trivial⟩

theorem arguments :
    Sim T Node.AllBuilt (Entry.arguments (fuel + 1) ctx) (Entry.arguments (fuel' + 1) ctx') := by
  rw [Entry.arguments, Entry.arguments]
  refine (accept_sim sim _).bind fun _ _ => ?_
  split
  · exact .pure trivial
  refine (ih .argumentList admits.inGroup).bind fun args allBuilt => ?_
  exact (expect_sim sim _).bind fun _ _ => .pure allBuilt

include le

theorem terminated (inBlock : Bool) (node : Node) :
    Sim T (fun tree => node.Built → tree.Built) (Entry.terminated (fuel + 1) ctx inBlock node)
      (Entry.terminated (fuel' + 1) ctx' inBlock node) := by
  rw [Entry.terminated, Entry.terminated]
  refine (accept_sim sim _).bind fun _ _ => ?_
  split
  · exact .pure id
  refine (accept_sim sim _).bind fun _ _ => ?_
  split
  · exact .pure id
  refine (isNext_sim sim _).bind fun _ _ => ?_
  split
  · exact .pure id
  refine (isAbandoned_sim sim).bind fun _ _ => ?_
  split
  · exact .pure id
  refine (look_sim sim).bind fun t _ => ?_
  split
  · exact .pure id
  refine (report_sim sim _).bind fun _ _ => ?_
  refine (chained_sim sim trivial le admits fun _ _ further => ih (.statement inBlock) further).bind
    fun rest built => .pure fun builtNode => ?_
  exact ⟨builtNode, built, trivial⟩

theorem block :
    Sim T Node.Built (Entry.block (fuel + 1) ctx) (Entry.block (fuel' + 1) ctx') := by
  rw [Entry.block, Entry.block]
  refine (expect_sim sim _).bind fun _ _ => ?_
  split
  · refine nested_sim sim trivial le admits fun _ _ deeper => ?_
    exact (ih .statements deeper).bind fun _ allBuilt => .pure allBuilt
  · exact .pure trivial

theorem conditional :
    Sim T Node.Built (Entry.conditional (fuel + 1) ctx) (Entry.conditional (fuel' + 1) ctx') := by
  rw [Entry.conditional, Entry.conditional]
  refine (expect_sim sim _).bind fun _ _ => ?_
  refine (ih .assignment admits.inGroup).bind fun condition builtCondition => ?_
  refine (expect_sim sim _).bind fun _ _ => (accept_sim sim _).bind fun _ _ => ?_
  refine (ih .block admits).bind fun thenBlock builtThen => ?_
  refine (accept_sim sim _).bind fun _ _ => ?_
  split
  · refine (accept_sim sim _).bind fun _ _ => ?_
    split
    · refine (nested_sim sim trivial le admits fun _ _ deeper => ih .conditional deeper).bind
        fun elseIf builtElse => .pure ?_
      exact ⟨builtCondition, builtThen, builtElse⟩
    · refine (ih .block admits).bind fun elseBlock builtElse => .pure ?_
      exact ⟨builtCondition, builtThen, builtElse⟩
  · exact .pure ⟨builtCondition, builtThen⟩

theorem assignment :
    Sim T Node.Built (Entry.assignment (fuel + 1) ctx) (Entry.assignment (fuel' + 1) ctx') := by
  rw [Entry.assignment, Entry.assignment]
  refine (look_sim sim).bind fun start _ => ?_
  refine (ih (.binary .relational) admits).bind fun target builtTarget => ?_
  refine (accept_sim sim _).bind fun _ _ => ?_
  split
  · refine (chained_sim sim trivial le admits fun _ _ further => ih .assignment further).bind
      fun value builtValue => ?_
    split
    · exact .pure builtValue
    · exact (report_sim sim _).bind fun _ _ => .pure trivial
  · exact .pure builtTarget

theorem rightOperand (level : Level) {left : Node} (builtLeft : left.Built) :
    Sim T Node.Built (Entry.rightOperand fuel ctx level left)
      (Entry.rightOperand fuel' ctx' level left) := by
  refine (acceptOperator?_sim sim level).bind fun found _ => ?_
  cases found with
  | none => exact .pure builtLeft
  | some t =>
    refine (chained_sim sim trivial le admits fun _ _ further => ih (.binary level) further).bind
      fun right builtRight => .pure ?_
    exact operation_built builtLeft builtRight

theorem binary (level : Level) :
    Sim T Node.Built (Entry.binary (fuel + 1) ctx level) (Entry.binary (fuel' + 1) ctx' level) := by
  have right : ∀ left : Node, left.Built → Sim T Node.Built
      (Entry.rightOperand fuel ctx level left) (Entry.rightOperand fuel' ctx' level left) :=
    fun left => ih.rightOperand sim le admits level
  cases h : level.tighter? with
  | some tighter =>
    rw [binary_of_tighter h, binary_of_tighter h]
    exact (ih (.binary tighter) admits).bind right
  | none =>
    rw [binary_of_tightest h, binary_of_tightest h]
    exact (ih .primary admits).bind right

theorem primary :
    Sim T Node.Built (Entry.primary (fuel + 1) ctx) (Entry.primary (fuel' + 1) ctx') := by
  rw [Entry.primary, Entry.primary]
  refine (look_sim sim).bind fun t lexed => ?_
  split
  · refine (use_sim sim).bind fun _ _ => ?_
    exact nested_sim sim trivial le admits fun _ _ deeper => ih .group deeper
  · exact (use_sim sim).bind fun _ _ => .pure lexed.bounded_getD
  · refine (use_sim sim).bind fun _ _ => (expect_sim sim _).bind fun _ _ => ?_
    refine (ih .arguments admits).bind fun args allBuilt => ?_
    split
    · exact .pure allBuilt
    · exact .pure trivial
  · next identifier =>
    refine (use_sim sim).bind fun _ _ => (accept_sim sim _).bind fun _ _ => ?_
    split
    · exact (ih .arguments admits).bind fun args allBuilt =>
        .pure ⟨lexed.identifier identifier, allBuilt⟩
    · exact .pure trivial
  · refine (use_sim sim).bind fun _ _ => nested_sim sim trivial le admits fun _ _ deeper => ?_
    exact (ih (.binary .relational) deeper).bind fun _ built => .pure built
  · refine (use_sim sim).bind fun _ _ => nested_sim sim trivial le admits fun _ _ deeper => ?_
    exact (ih .primary deeper).bind fun _ built => .pure (operation_built Number.bounded_zero built)
  · exact (use_sim sim).bind fun _ _ => .pure trivial
  · exact .pure trivial
  · exact .pure trivial
  · exact (report_sim sim _).bind fun _ _ => (use_sim sim).bind fun _ _ => .pure trivial

theorem group :
    Sim T Node.Built (Entry.group (fuel + 1) ctx) (Entry.group (fuel' + 1) ctx') := by
  rw [Entry.group, Entry.group]
  refine (ih .assignment admits.inGroup).bind fun inner built => ?_
  refine (expect_sim sim _).bind fun _ _ => ?_
  rw [admits.groups]
  split
  · exact (skipClosers_sim sim le).bind fun _ _ => .pure built
  · exact .pure built

end InStep

/-- Two readers in step read the same, whichever rule they follow, and every rule reads built
trees. -/
theorem Rule.sim (sim : Simulation T) (le : fuel ≤ fuel') : InStep T fuel fuel' := by
  induction fuel generalizing fuel' with
  | zero =>
    intro rule ctx ctx' _
    rw [Rule.run_zero]
    exact .starved
  | succ fuel ih =>
    obtain ⟨fuel', rfl⟩ : ∃ n, fuel' = n + 1 := Nat.exists_eq_add_one.mpr (by omega)
    have le : fuel ≤ fuel' := Nat.le_of_succ_le_succ le
    have ih := ih le
    intro rule ctx ctx' admits
    cases rule with
    | statement inBlock => exact ih.statement sim admits inBlock
    | terminated inBlock node => exact ih.terminated sim le admits inBlock node
    | instruction => exact ih.instruction sim admits
    | block => exact ih.block sim le admits
    | statements => exact ih.statements sim admits
    | loop => exact ih.loop sim admits
    | conditional => exact ih.conditional sim le admits
    | assignment => exact ih.assignment sim le admits
    | binary level => exact ih.binary sim le admits level
    | primary => exact ih.primary sim le admits
    | group => exact ih.group sim le admits
    | arguments => exact ih.arguments sim admits
    | argumentList => exact ih.argumentList sim admits

end

end ComplexScript.Entry
