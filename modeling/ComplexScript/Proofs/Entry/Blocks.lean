import ComplexScript.Proofs.Entry.Precedence
import ComplexScript.Proofs.Entry.Programs
set_option autoImplicit false

/-!
# Statements are read as they are written

Where the limits leave room for as many constructs as a statement has marks, it is read as its own
tree (`Statement.reads`).  Statements and conditionals are read before a line break, which belongs
to the line and not to them; blocks, in braces, are read before anything.

Each rule takes its marks from the front, and what comes next after it is known: the line break that
the opening brace of a block ends its line with reads as an empty statement, which the block drops,
and the one after a conditional says that no `else` comes.
-/

namespace ComplexScript.Entry

open ComplexScript.Program
open ComplexScript.Text
open ComplexScript.Token (Kind)
open Read
open Expression (opening grouped innerBound assignmentRank)

/-! ## Room -/

/-- So many more blocks, groups, negations and links may be open from here on. -/
def Context.Room (ctx : Context) (n : Nat) : Prop := Fits ctx n n

section

variable {ctx : Context} {n k : Nat}

theorem Context.Room.mono (room : ctx.Room n) (le : k ≤ n) : ctx.Room k :=
  ⟨Nat.le_trans (Nat.add_le_add_left le _) room.1, Nat.le_trans (Nat.add_le_add_left le _) room.2⟩

theorem Context.Room.fits (room : ctx.Room n) {openings links : Nat} (leOpenings : openings ≤ n)
    (leLinks : links ≤ n) : Fits ctx openings links :=
  ⟨(room.mono leOpenings).1, (room.mono leLinks).2⟩

theorem Context.Room.within (room : ctx.Room n) : ctx.Within :=
  ⟨Nat.le_trans (Nat.le_add_right _ _) room.1, Nat.le_trans (Nat.le_add_right _ _) room.2⟩

/-- One level deeper there is room for one less. -/
theorem Context.Room.deeper (room : ctx.Room (n + 1)) :
    Context.Room { ctx with depth := ctx.depth + 1 } n := by
  have depth : ctx.depth + (n + 1) ≤ ctx.limits.nesting := room.1
  refine ⟨?_, (room.mono (Nat.le_succ n)).2⟩
  show ctx.depth + 1 + n ≤ ctx.limits.nesting
  omega

theorem Context.Room.nested {ms rest : List Mark} {node : Node} {fuel : Nat}
    {rule : Context → Read Node} (room : ctx.Room (n + 1))
    (h : Context.Room { ctx with depth := ctx.depth + 1 } n →
      Attempts True ms rest (rule { ctx with depth := ctx.depth + 1 }) node) :
    Attempts True ms rest (Read.nested fuel ctx rule) node := by
  have within : ¬ ctx.limits.nesting < ctx.depth + 1 := Nat.not_lt_of_le room.deeper.within.depth
  rw [Read.nested, if_neg within]
  exact h room.deeper

end

namespace Expression

theorem add_le_grouped (needed : Bool) {n : Nat} {ws : List Word} (le : n ≤ ws.length) :
    opening needed + n ≤ (grouped needed ws).length := by
  cases needed with
  | true =>
    simp only [opening, grouped, if_true, List.length_cons, List.length_append]
    omega
  | false => simpa [opening, grouped] using le

theorem le_grouped (needed : Bool) {n : Nat} {ws : List Word} (le : n ≤ ws.length) :
    n ≤ (grouped needed ws).length :=
  Nat.le_trans (Nat.le_add_left _ _) (add_le_grouped needed le)

mutual

/-- No more is open at one point of an expression than it has words. -/
theorem open_le : (e : Expression) → e.openings ≤ e.words.length ∧ e.links ≤ e.words.length
  | literal _ | identifier _ => ⟨Nat.zero_le _, Nat.zero_le _⟩
  | negation operand => by
    obtain ⟨openings, links⟩ := operand.open_le
    have openings := add_le_grouped (innerBound < operand.rank) openings
    have links := le_grouped (innerBound < operand.rank) links
    rw [Expression.openings, Expression.links, words, List.length_cons]
    omega
  | binary op left right => by
    obtain ⟨openings, links⟩ := left.open_le
    obtain ⟨openings', links'⟩ := right.open_le
    have openings := add_le_grouped (leftBound op < left.rank) openings
    have links := le_grouped (leftBound op < left.rank) links
    have openings' := add_le_grouped (rightBound op < right.rank) openings'
    have links' := le_grouped (rightBound op < right.rank) links'
    rw [Expression.openings, Expression.links, words, List.length_append, List.length_cons]
    omega
  | assignment _ value => by
    obtain ⟨openings, links⟩ := value.open_le
    rw [Expression.openings, Expression.links, words, List.length_cons, List.length_cons]
    omega
  | call _ arguments => by
    obtain ⟨openings, links⟩ := open_le_all arguments
    rw [Expression.openings, Expression.links, words, List.length_cons, List.length_cons,
      List.length_append]
    omega
  | builtin _ arguments => by
    obtain ⟨openings, links⟩ := open_le_all arguments
    rw [Expression.openings, Expression.links, words, List.length_cons, List.length_cons,
      List.length_append]
    omega

theorem open_le_all : (es : List Expression) →
    openingsAll es ≤ (wordsAll es).length ∧ linksAll es ≤ (wordsAll es).length
  | [] => ⟨Nat.zero_le _, Nat.zero_le _⟩
  | e :: es => by
    obtain ⟨openings, links⟩ := e.open_le
    obtain ⟨openings', links'⟩ := open_le_all es
    have openings := add_le_grouped (innerBound < e.rank) openings
    have links := le_grouped (innerBound < e.rank) links
    have more : (wordsAll es).length ≤ (moreWords es).length := by
      cases es with
      | nil => exact Nat.le_refl _
      | cons e es => exact Nat.le_succ _
    rw [openingsAll, linksAll, wordsAll, List.length_append]
    omega

end

variable {e : Expression} {k fuel n : Nat} {ctx : Context} {rest : List Mark}

/-- Where there is room for as many constructs as an expression has words, it is read. -/
theorem reads (pos : 1 ≤ k) (top : k ≤ assignmentRank) (quiet : Quiet ctx k rest)
    (room : ctx.Room n) (le : (grouped (k < e.rank) e.words).length ≤ n) :
    Attempts True (marks (grouped (k < e.rank) e.words)) rest (readUpTo k fuel ctx) e.tree := by
  obtain ⟨openings, links⟩ := e.open_le
  exact (e.plain.readable k fuel ctx rest pos top room.within quiet).admitted
    (room.fits (Nat.le_trans (add_le_grouped _ openings) le)
      (Nat.le_trans (le_grouped _ links) le))

/-- The rule of assignments reads any expression without a group. -/
theorem reads_assignment (quiet : Quiet ctx assignmentRank rest) (room : ctx.Room n)
    (le : e.words.length ≤ n) :
    Attempts True (marks e.words) rest (Entry.assignment fuel ctx) e.tree := by
  obtain ⟨openings, links⟩ := e.open_le
  exact (e.plain assignmentRank fuel ctx rest e.rank_le (Nat.le_refl _) room.within quiet).admitted
    (room.fits (Nat.le_trans openings le) (Nat.le_trans links le))

theorem isNoOp_tree (e : Expression) : e.tree.isNoOp = false := by
  cases e <;> rfl

/-- An expression starts with a word. -/
theorem heads {p : Kind → Prop} (e : Expression) (all : ∀ w : Word, p w.kind)
    (rest : List Mark) : Heads p (marks e.words ++ rest) := by
  obtain ⟨w, ws, same, _⟩ := e.head_words
  rw [same]
  exact all w

end Expression

/-! ## Where statements start and end -/

/-- The kinds of tokens that the statements of a program start with. -/
def opensStatement : Kind → Bool
  | .funKeyword | .semicolon | .closeBrace | .lineBreak | .endOfInput => false
  | _ => true

theorem Word.opensStatement (w : Word) : opensStatement w.kind = true := by
  cases w with
  | operator op => cases op <;> rfl
  | _ => rfl

theorem Word.not_endsReturn (w : Word) : endsReturn w.kind = false := by
  cases w with
  | operator op => cases op <;> rfl
  | _ => rfl

namespace Statement

theorem opens (s : Statement) (rest : List Mark) :
    Heads (opensStatement · = true) (s.marks ++ rest) := by
  cases s with
  | expression e => exact e.heads Word.opensStatement rest
  | _ => exact rfl

/-- No statement starts with one of the other kinds. -/
theorem head_ne (s : Statement) {kind : Kind} (other : opensStatement kind = false)
    (rest : List Mark) : Heads (· ≠ kind) (s.marks ++ rest) := by
  refine (s.opens rest).mono ?_
  rintro _ opens rfl
  cases other.symm.trans opens

theorem isNoOp_tree (s : Statement) : s.tree.isNoOp = false := by
  cases s with
  | expression e => exact e.isNoOp_tree
  | conditional c => cases c <;> rfl
  | _ => rfl

/-- The statement is read before a line break. -/
def Reads (s : Statement) : Prop :=
  ∀ (fuel : Nat) (ctx : Context) (rest : List Mark), ctx.Room s.marks.length →
    Attempts True s.marks (.lineBreak :: rest) (instruction fuel ctx) s.tree

end Statement

/-- The conditional is read before a line break. -/
def Conditional.Reads (c : Conditional) : Prop :=
  ∀ (fuel : Nat) (ctx : Context) (rest : List Mark), ctx.Room c.marks.length →
    Attempts True c.marks (.lineBreak :: rest) (conditional fuel ctx) c.tree

section

variable {fuel : Nat} {ctx : Context} {rest : List Mark} {inBlock : Bool}

theorem terminated_attempts (node : Node) :
    Attempts True [.lineBreak] rest (terminated fuel ctx inBlock node) node := by
  apply Attempts.budgeted fuel rfl fun fuel => ?_
  rw [terminated]
  exact .accept rfl .pure

theorem emptyStatement_attempts :
    Attempts True [.lineBreak] rest (statement fuel ctx inBlock) .noOp := by
  apply Attempts.budgeted fuel rfl fun fuel => ?_
  rw [statement]
  exact .accept rfl .pure

/-- A statement is read with its line break. -/
theorem Statement.Reads.statement {s : Statement} (reads : s.Reads)
    (room : ctx.Room s.marks.length) :
    Attempts True (s.marks ++ [.lineBreak]) rest (statement fuel ctx inBlock) s.tree := by
  apply Attempts.budgeted fuel rfl fun fuel => ?_
  have other : ∀ kind, opensStatement kind = false →
      Heads (· ≠ kind) (s.marks ++ [Mark.lineBreak] ++ rest) := by
    intro kind other
    rw [List.append_assoc]
    exact s.head_ne other _
  rw [Entry.statement]
  refine .pass (other _ rfl) <| .pass (other _ rfl) <| .passNext (other _ rfl) ?_
  exact (reads fuel ctx rest room).andThen (terminated_attempts s.tree)

/-! ## Blocks -/

/-- One more statement in a block.  An empty one is dropped. -/
theorem statements_attempts_cons {us ms : List Mark} {node : Node} {trees all : List Node}
    (opens : Heads (fun kind => kind ≠ .closeBrace ∧ kind ≠ .endOfInput) (us ++ ms ++ rest))
    (first : Attempts True us (ms ++ rest) (statement fuel ctx true) node)
    (others : Attempts True ms rest (statements fuel ctx) trees)
    (join : (if node.isNoOp then trees else node :: trees) = all) :
    Attempts True (us ++ ms) rest (statements (fuel + 1) ctx) all := by
  rw [statements, ← join]
  refine .pass (opens.mono fun _ => And.left) (.glance opens fun t other => .onward ?_)
  rw [decide_eq_false other.2, Bool.or_self, if_neg Bool.false_ne_true]
  exact first.andThen (others.map (f := fun trees => if node.isNoOp then trees else node :: trees))

theorem statements_attempts {ss : List Statement} (reads : ∀ s ∈ ss, s.Reads)
    (room : ctx.Room (Statement.marksAll ss).length) :
    Attempts True (Statement.marksAll ss ++ [.closeBrace]) rest (statements fuel ctx)
      (Statement.treeAll ss) := by
  induction ss generalizing fuel with
  | nil =>
    apply Attempts.budgeted fuel rfl fun fuel => ?_
    rw [statements]
    exact .accept rfl .pure
  | cons s ss ih =>
    apply Attempts.budgeted fuel rfl fun fuel => ?_
    have length : (Statement.marksAll (s :: ss)).length =
        s.marks.length + (Statement.marksAll ss).length + 1 := by
      rw [Statement.marksAll, List.length_append, List.length_cons, Nat.add_assoc]
    have here := room.mono (k := s.marks.length) (by omega)
    have after := room.mono (k := (Statement.marksAll ss).length) (by omega)
    have same : Statement.marksAll (s :: ss) ++ [Mark.closeBrace] =
        (s.marks ++ [.lineBreak]) ++ (Statement.marksAll ss ++ [.closeBrace]) := by
      simp [Statement.marksAll]
    have opens : Heads (fun kind => kind ≠ .closeBrace ∧ kind ≠ .endOfInput)
        ((s.marks ++ [.lineBreak]) ++ (Statement.marksAll ss ++ [.closeBrace]) ++ rest) := by
      rw [List.append_assoc, List.append_assoc]
      refine (s.opens _).mono fun kind opens => ?_
      constructor <;> rintro rfl <;> cases opens
    rw [same]
    refine statements_attempts_cons opens ((reads s List.mem_cons_self).statement here)
      (ih (fun s mem => reads s (List.mem_cons_of_mem _ mem)) after) ?_
    rw [s.isNoOp_tree, if_neg Bool.false_ne_true, Statement.treeAll]

/-- A block reads its statements one level deeper. -/
theorem block_attempts {ss : List Statement} {n : Nat} (reads : ∀ s ∈ ss, s.Reads)
    (room : ctx.Room n) (le : (braced (Statement.marksAll ss)).length ≤ n) :
    Attempts True (braced (Statement.marksAll ss)) rest (block fuel ctx)
      (.block (Statement.treeAll ss)) := by
  apply Attempts.budgeted fuel rfl fun fuel => ?_
  rw [block, braced]
  have length : (Statement.marksAll ss).length + 1 ≤ n := by
    simp only [braced, List.length_cons, List.length_append] at le
    omega
  refine .expect rfl ?_
  rw [if_pos rfl]
  refine (room.mono length).nested fun room => .map ?_
  apply Attempts.budgeted fuel rfl fun fuel => ?_
  -- The line break after the brace is an empty statement.
  have opens : Heads (fun kind => kind ≠ .closeBrace ∧ kind ≠ .endOfInput)
      ([.lineBreak] ++ (Statement.marksAll ss ++ [.closeBrace]) ++ rest) :=
    ⟨by decide, by decide⟩
  exact statements_attempts_cons opens emptyStatement_attempts
    (statements_attempts reads room) rfl

/-- The end of a header, and the block after it. -/
theorem body_attempts {ss : List Statement} {us : List Mark} {n : Nat} {node : Node}
    {f : Node → Read Node} (reads : ∀ s ∈ ss, s.Reads) (room : ctx.Room n)
    (le : (braced (Statement.marksAll ss)).length ≤ n)
    (h : Attempts True us rest (f (.block (Statement.treeAll ss))) node) :
    Attempts True (.word .closeParenthesis :: (braced (Statement.marksAll ss) ++ us)) rest
      (do
        let _ ← expect .closeParenthesis
        let _ ← accept .lineBreak
        let body ← block fuel ctx
        f body) node :=
  .expect rfl (.absent (by rintro ⟨⟩) ((block_attempts reads room le).andThen h))

/-! ## Conditionals and loops -/

/-- A conditional after its first block. -/
def otherwise (fuel : Nat) (ctx : Context) (condition thenBlock : Node) : Read Node := do
  if ← accept .elseKeyword then
    if ← accept .ifKeyword then
      return .ifElse condition thenBlock (← nested fuel ctx fun ctx => conditional fuel ctx)
    else return .ifElse condition thenBlock (← block fuel ctx)
  else return .ifThen condition thenBlock

theorem conditional_attempts {condition : Expression} {ss : List Statement} {us : List Mark}
    {n : Nat} {node : Node} (reads : ∀ s ∈ ss, s.Reads) (room : ctx.Room n)
    (le : (parenthesized condition.words ++ braced (Statement.marksAll ss)).length ≤ n)
    (other : ∀ fuel, Attempts True us rest
      (otherwise fuel ctx condition.tree (.block (Statement.treeAll ss))) node) :
    Attempts True (parenthesized condition.words ++ (braced (Statement.marksAll ss) ++ us)) rest
      (conditional fuel ctx) node := by
  apply Attempts.budgeted fuel rfl fun fuel => ?_
  rw [conditional, parenthesized, List.cons_append, List.append_assoc]
  rw [parenthesized, List.length_append, List.length_cons, List.length_append, marks,
    List.length_map] at le
  refine .expect rfl ?_
  have quiet : Quiet { ctx with groups := ctx.groups + 1 } assignmentRank
      (.word .closeParenthesis :: (braced (Statement.marksAll ss) ++ us) ++ rest) :=
    quiet_in_group (Nat.le_refl _) (Nat.succ_ne_zero _)
  have header : Context.Room { ctx with groups := ctx.groups + 1 } n := room
  refine (condition.reads_assignment quiet header (by omega)).andThen ?_
  exact body_attempts reads room (by omega) (other fuel)

theorem Conditional.reads_ifThen {condition : Expression} {thenBlock : List Statement}
    (reads : ∀ s ∈ thenBlock, s.Reads) : (ifThen condition thenBlock).Reads := by
  intro fuel ctx rest room
  rw [Conditional.marks, ← List.append_nil (braced _)]
  exact conditional_attempts reads room (Nat.le_refl _) fun fuel => .pass (by rintro ⟨⟩) .pure

theorem Conditional.reads_ifElse {condition : Expression} {thenBlock elseBlock : List Statement}
    (reads : ∀ s ∈ thenBlock, s.Reads) (readsElse : ∀ s ∈ elseBlock, s.Reads) :
    (ifElse condition thenBlock elseBlock).Reads := by
  intro fuel ctx rest room
  rw [Conditional.marks] at room ⊢
  refine conditional_attempts reads room ?_ fun fuel => .accept rfl (.pass (by rintro ⟨⟩) ?_)
  · simp only [List.length_append]
    omega
  · refine .map (block_attempts readsElse room ?_)
    simp only [List.length_append, List.length_cons]
    omega

theorem Conditional.reads_elseIf {condition : Expression} {thenBlock : List Statement}
    {next : Conditional} (reads : ∀ s ∈ thenBlock, s.Reads) (readsNext : next.Reads) :
    (elseIf condition thenBlock next).Reads := by
  intro fuel ctx rest room
  rw [Conditional.marks] at room ⊢
  refine conditional_attempts reads room ?_ fun fuel => .accept rfl (.accept rfl (.map ?_))
  · simp only [List.length_append]
    omega
  · have deeper : ctx.Room (next.marks.length + 1) := by
      refine room.mono ?_
      simp only [List.length_append, List.length_cons]
      omega
    exact deeper.nested fun room => readsNext fuel _ rest room

end

theorem Statement.reads_loop {init condition step : Expression} {body : List Statement}
    (reads : ∀ s ∈ body, s.Reads) : (loop init condition step body).Reads := by
  intro fuel ctx rest room
  have length : (loop init condition step body).marks.length =
      init.words.length + (grouped (innerBound < condition.rank) condition.words).length +
        step.words.length + (braced (marksAll body)).length + 5 := by
    simp only [Statement.marks, Entry.marks, List.length_cons, List.length_append, List.length_map]
    omega
  generalize (loop init condition step body).marks.length = n at room length
  have header : Context.Room { ctx with groups := ctx.groups + 1 } n := room
  apply Attempts.budgeted fuel rfl fun fuel => ?_
  rw [instruction, Statement.marks]
  refine .pass (by rintro ⟨⟩) <| .pass (by rintro ⟨⟩) <| .accept rfl ?_
  apply Attempts.budgeted fuel rfl fun fuel => ?_
  rw [Entry.loop]
  refine .expect rfl ?_
  refine (init.reads_assignment ?_ header (by omega)).andThen (.expect rfl ?_)
  · exact quiet_of_other (by decide) (by decide)
  refine (condition.reads (k := innerBound) (by decide) (by decide) ?_ header
    (by omega)).andThen (.expect rfl ?_)
  · exact quiet_of_other (by decide) (by decide)
  refine (step.reads_assignment ?_ header (by omega)).andThen ?_
  · exact quiet_in_group (Nat.le_refl _) (Nat.succ_ne_zero _)
  rw [← List.append_nil (braced _)]
  exact body_attempts reads room (by omega) .pure

namespace Statement

theorem reads_expression (e : Expression) : (expression e).Reads := by
  intro fuel ctx rest room
  obtain ⟨openings, links⟩ := e.open_le
  rw [Statement.marks, Entry.marks, List.length_map] at room
  exact (instruction_attempts e fuel ctx rest room.within).admitted (room.fits openings links)

theorem reads_break : Statement.break.Reads := by
  intro fuel ctx rest room
  apply Attempts.budgeted fuel rfl fun fuel => ?_
  rw [instruction]
  exact .accept rfl .pure

theorem reads_continue : Statement.continue.Reads := by
  intro fuel ctx rest room
  apply Attempts.budgeted fuel rfl fun fuel => ?_
  rw [instruction]
  exact .pass (by rintro ⟨⟩) (.accept rfl .pure)

/-- The line break after a bare `return` is left for the end of the statement. -/
theorem reads_returnNothing : returnNothing.Reads := by
  intro fuel ctx rest room
  apply Attempts.budgeted fuel rfl fun fuel => ?_
  rw [instruction]
  refine .pass (by rintro ⟨⟩) <| .pass (by rintro ⟨⟩) <| .pass (by rintro ⟨⟩) <|
    .pass (by rintro ⟨⟩) <| .accept rfl ?_
  have ends : Heads (endsReturn · = true) ([] ++ Mark.lineBreak :: rest) := rfl
  refine .glance ends fun t ends => ?_
  rw [ends, if_pos rfl]
  exact .pure

theorem reads_returnValue (value : Expression) : (returnValue value).Reads := by
  intro fuel ctx rest room
  rw [Statement.marks, Entry.marks, List.length_cons, List.length_map] at room
  apply Attempts.budgeted fuel rfl fun fuel => ?_
  rw [instruction]
  refine .pass (by rintro ⟨⟩) <| .pass (by rintro ⟨⟩) <| .pass (by rintro ⟨⟩) <|
    .pass (by rintro ⟨⟩) <| .accept rfl ?_
  have goesOn := value.heads (p := (endsReturn · = false)) Word.not_endsReturn (.lineBreak :: rest)
  refine .glance goesOn fun t goesOn => ?_
  rw [goesOn, if_neg Bool.false_ne_true]
  refine .map (value.reads_assignment ?_ room (Nat.le_succ _))
  exact quiet_of_other (by decide) (by decide)

theorem reads_conditional {c : Conditional} (reads : c.Reads) : (conditional c).Reads := by
  intro fuel ctx rest room
  apply Attempts.budgeted fuel rfl fun fuel => ?_
  rw [instruction, Statement.marks]
  refine .pass (by rintro ⟨⟩) <| .pass (by rintro ⟨⟩) <| .pass (by rintro ⟨⟩) <| .accept rfl ?_
  exact reads fuel ctx rest (room.mono (Nat.le_succ _))

end Statement

/-! ## All statements -/

mutual

theorem Statement.reads : (s : Statement) → s.Reads
  | .expression e => Statement.reads_expression e
  | .break => Statement.reads_break
  | .continue => Statement.reads_continue
  | .returnNothing => Statement.reads_returnNothing
  | .returnValue value => Statement.reads_returnValue value
  | .loop _ _ _ body => Statement.reads_loop (Statement.reads_all body)
  | .conditional c => Statement.reads_conditional c.reads

theorem Conditional.reads : (c : Conditional) → c.Reads
  | .ifThen _ thenBlock => Conditional.reads_ifThen (Statement.reads_all thenBlock)
  | .ifElse _ thenBlock elseBlock =>
    Conditional.reads_ifElse (Statement.reads_all thenBlock) (Statement.reads_all elseBlock)
  | .elseIf _ thenBlock next => Conditional.reads_elseIf (Statement.reads_all thenBlock) next.reads

theorem Statement.reads_all : (ss : List Statement) → ∀ s ∈ ss, s.Reads
  | [] => nofun
  | s :: ss => List.forall_mem_cons.mpr ⟨s.reads, Statement.reads_all ss⟩

end

end ComplexScript.Entry
