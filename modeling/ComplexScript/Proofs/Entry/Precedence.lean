import ComplexScript.Proofs.Entry.Attempts
import ComplexScript.Proofs.Entry.Expression
import ComplexScript.Proofs.Entry.Pointing
set_option autoImplicit false

/-!
# Expressions are read as they are written

An expression that is written with parentheses only where they are needed is read as its own tree,
if the limits admit it, and is given up with one complaint if they do not (`expression_read`).

The rules for the levels form a ladder, from primary expressions to assignments (`readUpTo`).  What
one of them reads, the ones above it read too, as long as the word after it does not go on with the
expression there (`climb`).  So each kind of expression is looked at where it is read, and the
ladder brings it to every place that takes its rank; in a group it comes to all others
(`Plain.readable`).
-/

namespace ComplexScript.Entry

open ComplexScript.Program
open ComplexScript.Text
open ComplexScript.Token (Kind)
open Read
open Expression (negationRank assignmentRank leftBound rightBound innerBound)

/-! ## What a place admits -/

/-- The limits are not exceeded here. -/
structure Context.Within (ctx : Context) : Prop where
  depth : ctx.depth ≤ ctx.limits.nesting
  chain : ctx.chain ≤ ctx.limits.chain

/-- From here on so many groups and negations and so many links of chains are within the limits. -/
def Fits (ctx : Context) (openings links : Nat) : Prop :=
  ctx.depth + openings ≤ ctx.limits.nesting ∧ ctx.chain + links ≤ ctx.limits.chain

/-- The rank at which a token goes on with an expression: the opening parenthesis of a call with a
name, an operator with those of its level or tighter, and an assignment sign with all but
assignments.  Other tokens do not go on with any. -/
def reach : Kind → Nat
  | .openParenthesis => 0
  | .multiplicativeOperator => Level.multiplicative.rank
  | .additiveOperator => Level.additive.rank
  | .powerOperator => Level.power.rank
  | .logicalAnd | .logicalOr => Level.logical.rank
  | .relationalOperator => Level.relational.rank
  | .assignment => assignmentRank
  | _ => assignmentRank + 1

/-- The marks after an expression do not go on with one of rank `k`, and do not close a group where
none is open. -/
structure Quiet (ctx : Context) (k : Nat) (rest : List Mark) : Prop where
  ends : Heads (fun kind => k < reach kind) rest
  closes : ctx.groups = 0 → Heads (· ≠ .closeParenthesis) rest

theorem Quiet.mono {ctx : Context} {j k : Nat} {rest : List Mark} (h : Quiet ctx k rest)
    (le : j ≤ k) : Quiet ctx j rest :=
  ⟨h.ends.mono fun _ => Nat.lt_of_le_of_lt le, h.closes⟩

/-- Most marks do not close anything. -/
theorem quiet_of_other {ctx : Context} {k : Nat} {m : Mark} {ms : List Mark}
    (ends : k < reach m.kind) (other : m.kind ≠ .closeParenthesis) : Quiet ctx k (m :: ms) :=
  ⟨ends, fun _ => other⟩

/-- In a group its closing parenthesis ends every expression. -/
theorem quiet_in_group {ctx : Context} {k : Nat} (top : k ≤ assignmentRank) {rest : List Mark}
    (inGroup : ctx.groups ≠ 0) : Quiet ctx k (.word .closeParenthesis :: rest) :=
  ⟨Nat.lt_succ_of_le top, fun outermost => absurd outermost inGroup⟩

theorem Level.has_iff (level : Level) (kind : Kind) :
    level.has kind = true ↔ reach kind = level.rank := by
  cases level <;> cases kind <;> decide

theorem Level.of_has (op : Operator) : (Level.of op).has (operatorKind op) = true := by
  cases op <;> rfl

theorem reach_operator (op : Operator) : reach (operatorKind op) = rightBound op :=
  (Level.has_iff _ _).mp (Level.of_has op)

/-- The operands of an operator are ranks, and the left one is bound tighter. -/
theorem bounds (op : Operator) :
    1 ≤ leftBound op ∧ leftBound op < rightBound op ∧ rightBound op ≤ assignmentRank := by
  cases op <;> decide

/-! ## The ladder of rules -/

/-- The rule that reads expressions up to a rank. -/
def readUpTo (k fuel : Nat) (ctx : Context) : Read Node :=
  match k with
  | 0 | 1 => primary fuel ctx
  | 2 => binary fuel ctx .multiplicative
  | 3 => binary fuel ctx .additive
  | 4 => binary fuel ctx .power
  | 5 => binary fuel ctx .logical
  | 6 | 7 => binary fuel ctx .relational
  | _ => assignment fuel ctx

theorem readUpTo_rank (level : Level) (fuel : Nat) (ctx : Context) :
    readUpTo level.rank fuel ctx = binary fuel ctx level := by
  cases level <;> rfl

/-- A level is read as the rank below it and an operator. -/
theorem binary_succ (level : Level) (fuel : Nat) (ctx : Context) :
    binary (fuel + 1) ctx level =
      readUpTo (level.rank - 1) fuel ctx >>= rightOperand fuel ctx level := by
  cases level with
  | multiplicative => exact binary_of_tightest rfl
  | _ => exact binary_of_tighter rfl

section

variable {fits : Prop} {ctx : Context} {ms rest : List Mark} {node : Node} {fuel : Nat}

theorem rightOperand_idles (level : Level) (left : Node) :
    Idles (rightOperand fuel ctx level left) := .acceptOperator level (.pure left)

theorem rightOperand_passes {level : Level}
    (ends : Heads (fun kind => level.rank < reach kind) rest) (left : Node) :
    Attempts True [] rest (rightOperand fuel ctx level left) left := by
  refine .passOperator (ends.mono fun kind beyond => ?_) .pure
  rw [Bool.eq_false_iff, ne_eq, Level.has_iff]
  exact Nat.ne_of_gt beyond

/-- Without an operator after it an operand is all that a level reads. -/
theorem binary_of_operand (level : Level)
    (operand : ∀ fuel, Attempts fits ms rest (readUpTo (level.rank - 1) fuel ctx) node)
    (ends : Heads (fun kind => level.rank < reach kind) rest) (fuel : Nat) :
    Attempts fits ms rest (binary fuel ctx level) node := by
  apply Attempts.budgeted fuel rfl fun fuel => ?_
  rw [binary_succ]
  exact (operand fuel).followed (rightOperand_passes ends node) (rightOperand_idles level)

/-- Without an assignment sign after it an operand is all that the rule of assignments reads. -/
theorem assignment_of_operand
    (operand : ∀ fuel, Attempts fits ms rest (readUpTo negationRank fuel ctx) node)
    (ends : Heads (fun kind => assignmentRank < reach kind) rest) (fuel : Nat) :
    Attempts fits ms rest (assignment fuel ctx) node := by
  have other : Heads (· ≠ .assignment) rest := by
    refine ends.mono fun kind beyond is => ?_
    rw [is] at beyond
    exact absurd beyond (by decide)
  apply Attempts.budgeted fuel rfl fun fuel => ?_
  rw [assignment]
  refine .glance (ends.behind ms) fun start _ => ?_
  exact (operand fuel).followed (.pass other .pure) fun _ => .acceptOr (by decide) (.pure _)

/-- What a rule reads, the rules above it read too, if the expression does not go on there. -/
theorem climb {j k : Nat} (base : ∀ fuel, Attempts fits ms rest (readUpTo j fuel ctx) node)
    (le : j ≤ k) (top : k ≤ assignmentRank) (ends : Heads (fun kind => k < reach kind) rest)
    (fuel : Nat) : Attempts fits ms rest (readUpTo k fuel ctx) node := by
  -- Induction on the ranks from `j` up to `k`: each of them adds one rule of the ladder, but for 1
  -- and 7, which have the rule of the rank below.
  induction le generalizing fuel with
  | refl => exact base fuel
  | @step k _ ih =>
    have lower := ih (Nat.le_of_succ_le top) (ends.mono fun _ => Nat.lt_of_succ_lt)
    match k with
    | 0 => exact lower fuel
    | 1 => exact binary_of_operand .multiplicative lower ends fuel
    | 2 => exact binary_of_operand .additive lower ends fuel
    | 3 => exact binary_of_operand .power lower ends fuel
    | 4 => exact binary_of_operand .logical lower ends fuel
    | 5 => exact binary_of_operand .relational lower ends fuel
    | 6 => exact lower fuel
    | 7 => exact assignment_of_operand lower ends fuel
    | k + 8 => exact absurd top (by simp [assignmentRank, negationRank, Level.rank])

end

/-! ## Guards -/

section

variable {ctx : Context} {ms rest : List Mark} {node : Node} {fuel openings links : Nat}
  {rule : Context → Read Node}

theorem Context.Within.fits (within : ctx.Within) : Fits ctx 0 0 := ⟨within.depth, within.chain⟩

theorem nested_attempts (within : ctx.Within)
    (h : Context.Within { ctx with depth := ctx.depth + 1 } →
      Attempts (Fits { ctx with depth := ctx.depth + 1 } openings links) ms rest
        (rule { ctx with depth := ctx.depth + 1 }) node) :
    Attempts (Fits ctx (1 + openings) links) ms rest (nested fuel ctx rule) node := by
  have inside : ¬ ctx.limits.nesting < ctx.depth + 1 → _ :=
    fun deep => h ⟨Nat.le_of_not_lt deep, within.chain⟩
  refine (Attempts.guarded inside).congr ?_
  simp only [Fits]
  omega

theorem chained_attempts (within : ctx.Within)
    (h : Context.Within { ctx with chain := ctx.chain + 1 } →
      Attempts (Fits { ctx with chain := ctx.chain + 1 } openings links) ms rest
        (rule { ctx with chain := ctx.chain + 1 }) node) :
    Attempts (Fits ctx openings (1 + links)) ms rest (chained fuel ctx rule) node := by
  have inside : ¬ ctx.limits.chain < ctx.chain + 1 → _ :=
    fun long => h ⟨within.depth, Nat.le_of_not_lt long⟩
  refine (Attempts.guarded inside).congr ?_
  simp only [Fits]
  omega

theorem fits_max {openings' links' : Nat} :
    Fits ctx openings links ∧ Fits ctx openings' links' ↔
      Fits ctx (max openings openings') (max links links') := by
  simp only [Fits]
  omega

end

/-! ## Expressions -/

namespace Expression

/-- The rule for any rank reads the expression, in a group if it needs one there. -/
def Readable (e : Expression) : Prop :=
  ∀ (k fuel : Nat) (ctx : Context) (rest : List Mark), 1 ≤ k → k ≤ assignmentRank → ctx.Within →
    Quiet ctx k rest →
      Attempts (Fits ctx (opening (k < e.rank) + e.openings) e.links)
        (marks (grouped (k < e.rank) e.words)) rest (readUpTo k fuel ctx) e.tree

/-- The rules for the ranks from that of the expression on read it. -/
def Plain (e : Expression) : Prop :=
  ∀ (k fuel : Nat) (ctx : Context) (rest : List Mark), e.rank ≤ k → k ≤ assignmentRank →
    ctx.Within → Quiet ctx k rest →
      Attempts (Fits ctx e.openings e.links) (marks e.words) rest (readUpTo k fuel ctx) e.tree

/-- What a rule down the ladder reads is plain. -/
theorem plain_of_base {e : Expression} (j : Nat) (le : j ≤ e.rank)
    (base : ∀ (fuel : Nat) (ctx : Context) (rest : List Mark), ctx.Within → Quiet ctx e.rank rest →
      Attempts (Fits ctx e.openings e.links) (marks e.words) rest (readUpTo j fuel ctx) e.tree) :
    e.Plain := by
  intro k fuel ctx rest rank top within quiet
  exact climb (fun fuel => base fuel ctx rest within (quiet.mono rank)) (Nat.le_trans le rank) top
    quiet.ends fuel

theorem marks_group (ws : List Word) :
    marks (grouped true ws) =
      .word .openParenthesis :: (marks ws ++ [.word .closeParenthesis]) := by
  simp [grouped]

/-- A group is a primary expression. -/
theorem Plain.group {e : Expression} (plain : e.Plain) (fuel : Nat) (ctx : Context)
    (rest : List Mark) (within : ctx.Within)
    (closes : ctx.groups = 0 → Heads (· ≠ .closeParenthesis) rest) :
    Attempts (Fits ctx (1 + e.openings) e.links) (marks (grouped true e.words)) rest
      (primary fuel ctx) e.tree := by
  apply Attempts.budgeted fuel rfl fun fuel => ?_
  rw [primary, marks_group]
  refine .take fun t is => ⟨_, by rw [is.kind]; rfl, ?_⟩
  refine nested_attempts within fun within => ?_
  apply Attempts.budgeted fuel rfl fun fuel => ?_
  rw [Entry.group]
  have inner := plain assignmentRank fuel
    { ctx with depth := ctx.depth + 1, groups := ctx.groups + 1 }
    ([.word .closeParenthesis] ++ rest) e.rank_le (Nat.le_refl _) ⟨within.depth, within.chain⟩
    (quiet_in_group (Nat.le_refl _) (Nat.succ_ne_zero _))
  refine (inner.bind (.expect rfl ?_) fun inner => ?_).congr (and_iff_left trivial)
  · -- Only after an outermost group closing parentheses are skipped, and there are none.
    split
    · next outermost => exact .followed (.skipClosers (closes outermost)) .pure fun _ => .pure _
    · exact .pure
  · refine .bind (.expect (by decide)) fun _ => ?_
    split
    · exact .bind .skipClosers fun _ => .pure _
    · exact .pure _

/-- In a group a plain expression comes to the places that do not take its rank. -/
theorem Plain.readable {e : Expression} (plain : e.Plain) : e.Readable := by
  intro k fuel ctx rest pos top within quiet
  by_cases needed : k < e.rank
  · rw [decide_eq_true needed]
    exact climb (fun fuel => plain.group fuel ctx rest within quiet.closes) pos top quiet.ends fuel
  · rw [decide_eq_false needed, opening, if_neg Bool.false_ne_true, Nat.zero_add]
    exact plain k fuel ctx rest (Nat.le_of_not_lt needed) top within quiet

/-- What is read as a primary expression is plain. -/
theorem plain_of_primary {e : Expression} (pos : 1 ≤ e.rank)
    (base : ∀ (fuel : Nat) (ctx : Context) (rest : List Mark), ctx.Within → Quiet ctx e.rank rest →
      Attempts (Fits ctx e.openings e.links) (marks e.words) rest (primary (fuel + 1) ctx) e.tree) :
    e.Plain := by
  refine plain_of_base 1 pos fun fuel ctx rest within quiet => ?_
  rw [readUpTo]
  apply Attempts.budgeted fuel rfl fun fuel => ?_
  exact base fuel ctx rest within quiet

theorem plain_literal (n : Numeral) : (literal n).Plain := by
  refine plain_of_primary (Nat.le_refl _) fun fuel ctx rest within _ => ?_
  rw [primary]
  refine .take fun t is => ⟨_, by rw [is.kind]; rfl, ?_⟩
  rw [is.value]
  exact Attempts.pure.congr (iff_of_true trivial within.fits)

theorem plain_identifier (n : Name) : (identifier n).Plain := by
  refine plain_of_primary (Nat.le_refl _) fun fuel ctx rest within quiet => ?_
  have notCalled : Heads (· ≠ .openParenthesis) rest := by
    refine quiet.ends.mono fun kind beyond is => ?_
    rw [is] at beyond
    exact Nat.not_lt_zero _ beyond
  rw [primary]
  refine .take fun t is => ⟨_, by rw [is.kind]; rfl, .pass notCalled ?_⟩
  rw [is.text]
  exact Attempts.pure.congr (iff_of_true trivial within.fits)

theorem plain_negation {operand : Expression} (h : operand.Readable) :
    (negation operand).Plain := by
  refine plain_of_primary (Nat.le_of_ble_eq_true rfl) fun fuel ctx rest within quiet => ?_
  rw [primary]
  refine .take fun t is => ⟨_, by rw [is.kind]; rfl, nested_attempts within fun within => ?_⟩
  exact .map (h innerBound fuel _ rest (by decide) (by decide) within ⟨quiet.ends, quiet.closes⟩)

theorem operation_of_is {t : Token} {op : Operator} (is : Token.Is t (.word (.operator op)))
    (left right : Node) : operation t left right = .binary op left right := by
  have text : t.text = op.symbol := is.text
  rw [operation, text, Operator.ofSymbol?_symbol]

theorem plain_binary (op : Operator) {left right : Expression} (hl : left.Readable)
    (hr : right.Readable) : (binary op left right).Plain := by
  refine plain_of_base (Level.of op).rank (Nat.le_refl _) fun fuel ctx rest within quiet => ?_
  rw [readUpTo_rank]
  apply Attempts.budgeted fuel rfl fun fuel => ?_
  rw [binary_succ]
  -- The operator ends its left operand, which is bound tighter, but not its right one, which
  -- goes on for as long as the whole expression does.
  obtain ⟨pos, tighter, top⟩ := bounds op
  have ends : leftBound op < reach (operatorKind op) := by rwa [reach_operator]
  have other : operatorKind op ≠ .closeParenthesis := by cases op <;> decide
  have first := hl (leftBound op) fuel ctx
    (.word (.operator op) :: marks (grouped (rightBound op < right.rank) right.words) ++ rest) pos
    (Nat.le_trans (Nat.le_of_lt tighter) top) within (quiet_of_other ends other)
  rw [words, marks_append]
  refine (first.bind ?_ (rightOperand_idles _)).congr fits_max
  refine .acceptOperator (Level.of_has op) fun t is => ?_
  rw [tree, ← operation_of_is is]
  refine .map (chained_attempts within fun within => ?_)
  rw [← readUpTo_rank]
  exact hr (rightBound op) fuel _ rest (Nat.le_trans pos (Nat.le_of_lt tighter)) top within
    ⟨quiet.ends, quiet.closes⟩

theorem plain_assignment (target : Name) {value : Expression} (h : value.Readable) :
    (assignment target value).Plain := by
  refine plain_of_base assignmentRank (Nat.le_refl _) fun fuel ctx rest within quiet => ?_
  show Attempts _ _ _ (Entry.assignment fuel ctx) _
  apply Attempts.budgeted fuel rfl fun fuel => ?_
  rw [Entry.assignment]
  have first := plain_identifier target innerBound fuel ctx
    (.word .assignment :: marks value.words ++ rest) (Nat.le_of_ble_eq_true rfl) (Nat.le_succ _)
    within (quiet_of_other (by decide) (by decide))
  refine .glance (quiet.ends.behind _) fun start _ => ?_
  refine (first.bind (.accept rfl ?_) fun _ => .acceptOr (by decide) (.pure _)).congr fits_max
  refine .map (f := Node.assignment target.text) (chained_attempts within fun within => ?_)
  have assigned := h assignmentRank fuel { ctx with chain := ctx.chain + 1 } rest (by decide)
    (Nat.le_refl _) within ⟨quiet.ends, quiet.closes⟩
  rw [decide_eq_false (Nat.not_lt_of_le value.rank_le), opening, if_neg Bool.false_ne_true,
    Nat.zero_add] at assigned
  exact assigned

/-! ### Arguments -/

theorem argumentList_attempts {e : Expression} {es : List Expression}
    (h : ∀ a ∈ e :: es, a.Readable) (fuel : Nat) (ctx : Context) (rest : List Mark)
    (within : ctx.Within) (inGroup : ctx.groups ≠ 0) :
    Attempts (Fits ctx (openingsAll (e :: es)) (linksAll (e :: es))) (marks (wordsAll (e :: es)))
      (.word .closeParenthesis :: rest) (argumentList fuel ctx) (treeAll (e :: es)) := by
  induction es generalizing e fuel with
  | nil =>
    apply Attempts.budgeted fuel rfl fun fuel => ?_
    have only := h e List.mem_cons_self innerBound fuel ctx ([] ++ .word .closeParenthesis :: rest)
      (by decide) (by decide) within (quiet_in_group (by decide) inGroup)
    have noComma : Heads (· ≠ .comma) ([] ++ .word .closeParenthesis :: rest) :=
      fun is => Kind.noConfusion is
    rw [argumentList, wordsAll, moreWords, marks_append]
    refine (only.bind (.pass noComma .pure) fun _ => .acceptOr (by decide) (.pure _)).congr ?_
    simp [openingsAll, linksAll]
  | cons next es ih =>
    apply Attempts.budgeted fuel rfl fun fuel => ?_
    have first := h e List.mem_cons_self innerBound fuel ctx
      (.word .comma :: marks (wordsAll (next :: es)) ++ .word .closeParenthesis :: rest)
      (by decide) (by decide) within (quiet_of_other (by decide) (by decide))
    have others := ih (fun a mem => h a (List.mem_cons_of_mem e mem)) fuel
    rw [argumentList, wordsAll, moreWords, marks_append]
    exact (first.bind (.accept rfl others.map) fun _ => .acceptOr (by decide) (.pure _)).congr
      fits_max

theorem arguments_attempts {es : List Expression} (h : ∀ e ∈ es, e.Readable) {fuel : Nat}
    {ctx : Context} {rest : List Mark} (within : ctx.Within) :
    Attempts (Fits ctx (openingsAll es) (linksAll es))
      (marks (wordsAll es ++ [.closeParenthesis])) rest (arguments fuel ctx) (treeAll es) := by
  apply Attempts.budgeted fuel rfl fun fuel => ?_
  rw [arguments]
  cases es with
  | nil => exact (Attempts.accept rfl .pure).congr (iff_of_true trivial within.fits)
  | cons e es =>
    have list := argumentList_attempts h fuel { ctx with groups := ctx.groups + 1 } rest
      ⟨within.depth, within.chain⟩ (Nat.succ_ne_zero _)
    have more : Heads (· ≠ .closeParenthesis)
        (marks (wordsAll (e :: es)) ++ [.word .closeParenthesis] ++ rest) := by
      obtain ⟨w, ws, same, opens⟩ := e.head_grouped (innerBound < e.rank)
      rw [wordsAll, same]
      exact opens
    rw [marks_append]
    refine .pass more ((list.bind ?_ fun args => ?_).congr (and_iff_left trivial))
    · exact .expect rfl .pure
    · exact .bind (.expect (by decide)) fun _ => .pure args

theorem plain_call (function : Name) {arguments : List Expression}
    (h : ∀ e ∈ arguments, e.Readable) : (call function arguments).Plain := by
  refine plain_of_primary (Nat.le_refl _) fun fuel ctx rest within _ => ?_
  rw [primary]
  refine .take fun t is => ⟨_, by rw [is.kind]; rfl, .accept rfl ?_⟩
  rw [is.text]
  exact .map (f := Node.call function.text) (arguments_attempts h within)

theorem plain_builtin (b : Builtin) {arguments : List Expression}
    (h : ∀ e ∈ arguments, e.Readable) : (builtin b arguments).Plain := by
  refine plain_of_primary (Nat.le_refl _) fun fuel ctx rest within _ => ?_
  rw [primary]
  refine .take fun t is => ⟨_, by rw [is.kind]; rfl, .expect rfl ?_⟩
  have text : t.text = b.name := is.text
  rw [text, Builtin.ofName?_name]
  exact .map (f := Node.builtin b) (arguments_attempts h within)

/-! ### All expressions -/

mutual

theorem plain : (e : Expression) → e.Plain
  | literal n => plain_literal n
  | identifier n => plain_identifier n
  | negation operand => plain_negation operand.plain.readable
  | binary op left right => plain_binary op left.plain.readable right.plain.readable
  | assignment target value => plain_assignment target value.plain.readable
  | call function arguments => plain_call function (readable_all arguments)
  | builtin b arguments => plain_builtin b (readable_all arguments)

theorem readable_all : (es : List Expression) → ∀ e ∈ es, e.Readable
  | [] => nofun
  | e :: es => List.forall_mem_cons.mpr ⟨e.plain.readable, readable_all es⟩

end

end Expression

/-! ## Statements -/

/-- The kinds of tokens that a statement may start with, but no expression does. -/
def startsStatement : Kind → Bool
  | .funKeyword | .breakKeyword | .continueKeyword | .forKeyword | .ifKeyword | .returnKeyword
  | .semicolon | .lineBreak | .endOfInput => true
  | _ => false

theorem Word.not_startsStatement (w : Word) : startsStatement w.kind = false := by
  cases w with
  | operator op => cases op <;> rfl
  | _ => rfl

theorem Expression.head_ne (e : Expression) {kind : Kind} (starts : startsStatement kind = true)
    (rest : List Mark) : Heads (· ≠ kind) (marks e.words ++ rest) := by
  obtain ⟨w, ws, same, _⟩ := e.head_words
  rw [same]
  rintro rfl
  cases starts.symm.trans w.not_startsStatement

/-- A statement that is an expression. -/
theorem instruction_attempts (e : Expression) (fuel : Nat) (ctx : Context) (rest : List Mark)
    (within : ctx.Within) :
    Attempts (Fits ctx e.openings e.links) (marks e.words) (.lineBreak :: rest)
      (instruction fuel ctx) e.tree := by
  apply Attempts.budgeted fuel rfl fun fuel => ?_
  rw [instruction]
  refine .pass (e.head_ne rfl _) <| .pass (e.head_ne rfl _) <| .pass (e.head_ne rfl _) <|
    .pass (e.head_ne rfl _) <| .pass (e.head_ne rfl _) ?_
  exact e.plain Expression.assignmentRank fuel ctx _ e.rank_le (Nat.le_refl _) within
    (quiet_of_other (by decide) (by decide))

/-- At the end of the line a statement ends. -/
theorem terminated_of_lineBreak {fuel : Nat} {ctx : Context} {inBlock : Bool} {tree node : Node}
    {r s : Reader} (is : r.token.kind = .lineBreak)
    (run : terminated fuel ctx inBlock tree r = some (node, s)) :
    node = tree ∧ s = r.looked.used := by
  cases fuel with
  | zero => cases run
  | succ fuel =>
    rw [terminated_succ, if_pos is] at run
    cases run
    exact ⟨rfl, rfl⟩

/-- An expression on a line is an entry. -/
theorem entry_of_expression (e : Expression) {fuel : Nat} {limits : Limits} {r s : Reader}
    {node : Node} (awaits : r.Awaits e.words)
    (run : entry fuel { limits := limits } r = some (node, s)) :
    (e.openings ≤ limits.nesting ∧ e.links ≤ limits.chain → node = e.tree ∧ s.diagnostics = []) ∧
      (¬ (e.openings ≤ limits.nesting ∧ e.links ≤ limits.chain) →
        ∃ t, s.diagnostics = [⟨t, .nestingTooDeep⟩]) := by
  obtain ⟨tail, poised⟩ := awaits.poised
  have other : ∀ kind, startsStatement kind = true → r.token.kind ≠ kind :=
    fun kind starts => poised.kind (e.head_ne starts [.lineBreak])
  rw [entry, acceptOr_eq, if_neg (other _ rfl)] at run
  cases fuel with
  | zero => cases run
  | succ fuel =>
    rw [statement_succ, Reader.token_looked, if_neg (other _ rfl), if_neg (other _ rfl),
      if_neg (other _ rfl), Reader.looked_looked] at run
    obtain ⟨tree, t, here, there⟩ := bind_eq_some.mp run
    have inLine : Heads (· ≠ .lineBreak) (marks e.words ++ [.lineBreak]) := e.head_ne rfl _
    obtain ⟨read, gaveUp⟩ := instruction_attempts e fuel { limits := limits } []
      ⟨Nat.zero_le _, Nat.zero_le _⟩ tail r.looked tree t
      (poised.look inLine) here
    rw [Fits, Nat.zero_add, Nat.zero_add] at read gaveUp
    refine ⟨fun fits => ?_, fun exceeds => ?_⟩
    · obtain ⟨rfl, after⟩ := read fits
      obtain ⟨rfl, rfl⟩ := terminated_of_lineBreak after.token.kind there
      exact ⟨rfl, after.use.clean.diagnostics⟩
    · have after := gaveUp exceeds (List.mem_singleton_self _)
      obtain ⟨rfl, rfl⟩ := terminated_of_lineBreak after.kind there
      exact after.look.complaint

/-- Where nothing is waiting and the characters ahead are those of an expression on a line, the next
entry is the tree of that expression without complaints, if nowhere in it more groups and negations
are open than may be nested and no more right operands and assigned values than a chain may have
links, and otherwise there is one complaint, that it is nested too deep. -/
theorem expression_read (limits : Limits) (feed : Feed) (n : Nat) (e : Expression)
    {rest : List Char} (fresh : (Reader.after limits n (.ofFeed feed)).lookahead = none)
    (spaced : Spaced rest e.words (Reader.after limits n (.ofFeed feed)).cursor.ahead) :
    (e.openings ≤ limits.nesting ∧ e.links ≤ limits.chain →
      (nth limits n (.ofFeed feed)).node = e.tree ∧
        (nth limits n (.ofFeed feed)).diagnostics = []) ∧
      (¬ (e.openings ≤ limits.nesting ∧ e.links ≤ limits.chain) →
        ∃ t, (nth limits n (.ofFeed feed)).diagnostics = [⟨t, .nestingTooDeep⟩]) := by
  have rested := after_rested limits feed n
  obtain ⟨node, s, run, read, _⟩ := next_read limits rested.ready.sound
  have awaits : Reader.Awaits e.words
      { Reader.after limits n (.ofFeed feed) with abandoned := false } :=
    ⟨.fresh fresh rested.ready.sound spaced, rested.diagnostics, rfl⟩
  rw [nth, read]
  exact entry_of_expression e awaits run

/-- `a = (b - c) - f(!c, 0)` -/
def difference : Expression :=
  .assignment ⟨"a", by decide +kernel⟩ <|
    .binary .subtract
      (.binary .subtract (.identifier ⟨"b", by decide +kernel⟩)
        (.identifier ⟨"c", by decide +kernel⟩))
      (.call ⟨"f", by decide +kernel⟩
        [.negation (.identifier ⟨"c", by decide +kernel⟩),
          .literal ⟨"0", .zero, by decide +kernel⟩])

/-- The line of the difference.  The left operand needs its parentheses, the right one would be read
without. -/
def differenceFeed : Feed := ⟨[.line "a = ( b - c ) - f ( ! c , 0 ) \n"], []⟩

theorem spaced_difference :
    Spaced [] difference.words (Reader.ofFeed differenceFeed).cursor.ahead := by
  have same : lineOf difference.words ++ [] = (Reader.ofFeed differenceFeed).cursor.ahead := by
    decide +kernel
  exact same ▸ spaced_lineOf [] difference.words

/-- One group or negation and two links are open in it at most. -/
theorem difference_read :
    ((nth ⟨1, 2⟩ 0 (.ofFeed differenceFeed)).node =
        .assignment "a" (.binary .subtract (.binary .subtract (.identifier "b") (.identifier "c"))
          (.call "f" [.negation (.identifier "c"), .literal .zero])) ∧
      (nth ⟨1, 2⟩ 0 (.ofFeed differenceFeed)).diagnostics = []) ∧
    (∃ t, (nth ⟨1, 1⟩ 0 (.ofFeed differenceFeed)).diagnostics = [⟨t, .nestingTooDeep⟩]) ∧
    ∃ t, (nth ⟨0, 2⟩ 0 (.ofFeed differenceFeed)).diagnostics = [⟨t, .nestingTooDeep⟩] :=
  ⟨(expression_read ⟨1, 2⟩ differenceFeed 0 difference rfl spaced_difference).1 (by decide),
    (expression_read ⟨1, 1⟩ differenceFeed 0 difference rfl spaced_difference).2 (by decide),
    (expression_read ⟨0, 2⟩ differenceFeed 0 difference rfl spaced_difference).2 (by decide)⟩

end ComplexScript.Entry
