import ComplexScript.Proofs.Entry.Alike
import ComplexScript.Proofs.Entry.Contents
import ComplexScript.Proofs.Entry.Paths
import ComplexScript.Proofs.Program.Listing
set_option autoImplicit false

/-!
# A tree and the tokens it is read from

If there is nothing to complain about, the significant tokens used by a rule are those that its tree
is written with (`Rule.traced`): nothing is left out, added or moved.  So it is with whole entries
(`clean_entry_lists`), whose tokens are told from outside by the readers before and after them
(`Consumes`).
-/

namespace ComplexScript.Entry

open ComplexScript.Program
open ComplexScript.Text
open ComplexScript.Token (Kind Scan operatorKinds)
open Read

/-! ## What the rules list -/

/-- What a rule reads is written with these significant tokens.  Loops and conditionals come after
their keyword, and the end of a statement adds nothing to it. -/
def Rule.Lists : (rule : Rule) → rule.Result → List Token → Prop
  | terminated _ node, tree, ts => tree = node ∧ ts = []
  | loop, tree, ts => ∀ t, t.kind = .forKeyword → tree.Lists (t :: ts)
  | conditional, tree, ts => ∀ t, t.kind = .ifKeyword → tree.Lists (t :: ts)
  | statements, trees, ts | arguments, trees, ts | argumentList, trees, ts =>
    Node.ListsAll trees ts
  | statement _, tree, ts | instruction, tree, ts | block, tree, ts | assignment, tree, ts
  | binary _, tree, ts | primary, tree, ts | group, tree, ts => tree.Lists ts

/-- The rules take paths and list their tokens on the budget `fuel`. -/
def Traces (fuel : Nat) : Prop :=
  ∀ (rule : Rule) (ctx : Context) (seen : List Token),
    Traced Anywhere seen (rule.run fuel ctx) rule.Lists

theorem noOp_lists {ts : List Token} (h : Node.noOp.Lists ts) : ts = [] := by
  cases h
  rfl

/-- The operators of a level are operators. -/
theorem Level.mem_operatorKinds {level : Level} {kind : Kind} (h : level.has kind = true) :
    kind ∈ operatorKinds := by
  cases level <;> cases kind <;> first
    | decide
    | cases h

/-- Operators and signs list as their tokens. -/
theorem operation_lists {t : Token} (spelled : Token.Spelled t) (kind : t.kind ∈ operatorKinds)
    {left right : Node} {ts us : List Token} (hl : left.Lists ts) (hr : right.Lists us) :
    (operation t left right).Lists (ts ++ t :: us) := by
  obtain ⟨op, is⟩ := spelled.operator kind
  rw [operation, is]
  exact .binary kind (Operator.symbol_of_ofSymbol? is).symm hl hr

theorem sign_lists {t : Token} (spelled : Token.Spelled t) (kind : t.kind = .additiveOperator)
    {operand : Node} {ts : List Token} (h : operand.Lists ts) :
    (operation t (.literal .zero) operand).Lists (t :: ts) := by
  obtain ⟨op, is⟩ := spelled.operator (by rw [kind]; decide)
  rw [operation, is]
  exact .sign kind (Operator.symbol_of_ofSymbol? is).symm h

variable {fuel : Nat} {ctx : Context} {seen : List Token}

namespace Traces

variable (ih : Traces fuel)

include ih

theorem statement (inBlock : Bool) :
    Traced Anywhere seen (Entry.statement (fuel + 1) ctx inBlock) Node.Lists := by
  rw [Entry.statement]
  refine .acceptSeparator (by decide) (.pure .noOp) ?_
  refine .acceptSeparator (by decide) (.pure .noOp) ?_
  refine (isNext_traced _).passing fun isEnd => ?_
  split
  · exact .pure .endOfInput
  refine (ih .instruction ctx seen).bind fun node => ?_
  refine (ih (.terminated inBlock node) ctx seen).mono fun tree us ended ts lists => ?_
  obtain ⟨same, nothing⟩ : tree = node ∧ us = [] := ended
  rw [same, nothing, List.append_nil]
  exact lists

theorem terminated (inBlock : Bool) (node : Node) :
    Traced Anywhere seen (Entry.terminated (fuel + 1) ctx inBlock node)
      fun tree ts => tree = node ∧ ts = [] := by
  rw [Entry.terminated]
  refine .acceptSeparator (by decide) (.pure ⟨rfl, rfl⟩) ?_
  refine .acceptSeparator (by decide) (.pure ⟨rfl, rfl⟩) ?_
  refine (isNext_traced _).passing fun isEnd => ?_
  split
  · exact .pure ⟨rfl, rfl⟩
  refine .isAbandoned fun abandoned => ?_
  split
  · exact .pure fun _ => ⟨rfl, rfl⟩
  refine .look fun t _ => ?_
  split
  · exact .pure fun _ => ⟨rfl, rfl⟩
  -- what is run together with another statement has a complaint
  refine .report List.mem_cons_self ?_ (at_reported t _)
  refine (chained_traced fun ctx => ih (.statement inBlock) ctx _).bind fun rest => .pure ?_
  exact fun _ _ => trivial

theorem instruction :
    Traced Anywhere seen (Entry.instruction (fuel + 1) ctx) Node.Lists := by
  rw [Entry.instruction]
  refine .acceptWord (by decide) (by decide) (fun t is => .pure (.break is)) ?_
  refine .acceptWord (by decide) (by decide) (fun t is => .pure (.continue is)) ?_
  refine .acceptWord (by decide) (by decide) (fun t is => ?_) ?_
  · exact (ih .loop ctx seen).mono fun _ _ lists => lists t is
  refine .acceptWord (by decide) (by decide) (fun t is => ?_) ?_
  · exact (ih .conditional ctx seen).mono fun _ _ lists => lists t is
  refine .acceptWord (by decide) (by decide) (fun t is => ?_) (ih .assignment ctx seen)
  refine .look fun next _ => ?_
  split
  · exact .pure (.returnNothing is)
  · refine (ih .assignment ctx _).of_anywhere.bind fun value => .pure fun ts lists => ?_
    rw [List.append_nil]
    exact .returnValue is lists

theorem block : Traced Anywhere seen (Entry.block (fuel + 1) ctx) Node.Lists := by
  rw [Entry.block]
  refine (expect_traced (by decide)).passing fun opened => ?_
  split
  · refine nested_traced fun ctx => ?_
    refine (ih .statements ctx seen).bind fun trees => .pure fun ts lists => ?_
    rw [List.append_nil]
    exact .block lists
  · exact .pure (.block .nil)

theorem statements :
    Traced Anywhere seen (Entry.statements (fuel + 1) ctx) Node.ListsAll := by
  rw [Entry.statements]
  refine .acceptSeparator (by decide) (.pure .nil) ?_
  refine .look fun t _ => .isAbandoned fun abandoned => ?_
  split
  · exact .report List.mem_cons_self (.pure trivial) (at_reported t _)
  refine (ih (.statement true) ctx _).of_anywhere.bind fun node => ?_
  refine (ih .statements ctx _).bind fun rest => .pure fun us listsRest ts lists _ => ?_
  rw [List.append_nil]
  split
  · next isNoOp =>
    cases node with
    | noOp =>
      rw [noOp_lists lists]
      exact listsRest
    | _ => cases isNoOp
  · exact .cons lists listsRest

theorem loop :
    Traced Anywhere seen (Entry.loop (fuel + 1) ctx)
      fun tree ts => ∀ t, t.kind = .forKeyword → tree.Lists (t :: ts) := by
  rw [Entry.loop]
  refine (expect_traced (by decide)).passing fun _ => ?_
  refine (ih .assignment _ seen).bind fun init => ?_
  refine (expect_traced (by decide)).passing fun _ => ?_
  refine (ih (.binary .relational) _ seen).bind fun condition => ?_
  refine (expect_traced (by decide)).passing fun _ => ?_
  refine (ih .assignment _ seen).bind fun step => ?_
  refine (expect_traced (by decide)).passing fun _ => ?_
  refine (accept_traced (by decide)).passing fun _ => ?_
  refine (ih .block ctx seen).bind fun body => .pure ?_
  intro ws listsBody vs listsStep us listsCondition ts listsInit t is
  simpa using Node.Lists.loop is listsInit listsCondition listsStep listsBody

theorem conditional :
    Traced Anywhere seen (Entry.conditional (fuel + 1) ctx)
      fun tree ts => ∀ t, t.kind = .ifKeyword → tree.Lists (t :: ts) := by
  rw [Entry.conditional]
  refine (expect_traced (by decide)).passing fun _ => ?_
  refine (ih .assignment _ seen).bind fun condition => ?_
  refine (expect_traced (by decide)).passing fun _ => ?_
  refine (accept_traced (by decide)).passing fun _ => ?_
  refine (ih .block ctx seen).bind fun thenBlock => ?_
  refine .acceptWord (by decide) (by decide) (fun u isElse => ?_) ?_
  · refine .acceptWord (by decide) (by decide) (fun v isIf => ?_) ?_
    · refine (nested_traced fun ctx => ih .conditional ctx seen).bind fun elseIf => .pure ?_
      intro vs listsElse us listsThen ts listsCondition t is
      simpa using Node.Lists.ifElse is listsCondition listsThen isElse (listsElse v isIf)
    · refine (ih .block ctx seen).bind fun elseBlock => .pure ?_
      intro vs listsElse us listsThen ts listsCondition t is
      simpa using Node.Lists.ifElse is listsCondition listsThen isElse listsElse
  · refine .pure ?_
    intro us listsThen ts listsCondition t is
    simpa using Node.Lists.ifThen is listsCondition listsThen

theorem assignment :
    Traced Anywhere seen (Entry.assignment (fuel + 1) ctx) Node.Lists := by
  rw [Entry.assignment]
  refine .look fun start _ => ?_
  refine (ih (.binary .relational) ctx _).of_anywhere.bind fun target => ?_
  refine .acceptWord (by decide) (by decide) (fun t is => ?_) (.pure fun ts lists => ?_)
  · refine (chained_traced fun ctx => ih .assignment ctx _).bind fun value => ?_
    split
    · refine .pure fun us listsValue ts lists => ?_
      cases lists with
      | identifier kind =>
        rw [List.append_nil]
        exact .assignment kind is listsValue
    · exact .report List.mem_cons_self (.pure trivial) fun _ _ => trivial
  · rw [List.append_nil]
    exact lists

theorem rightOperand (level : Level) (left : Node) :
    Traced Anywhere seen (Entry.rightOperand fuel ctx level left)
      fun tree us => ∀ ts, left.Lists ts → tree.Lists (ts ++ us) := by
  refine (acceptOperator?_traced level).bind fun found => ?_
  cases found with
  | none =>
    refine .pure ?_
    rintro _ ⟨rfl, _⟩ ts lists
    simpa [significant] using lists
  | some t =>
    refine (chained_traced fun ctx => ih (.binary level) ctx seen).bind fun right => .pure ?_
    rintro us listsRight _ ⟨rfl, known⟩ ts lists
    obtain ⟨has, spelled⟩ := known t rfl
    have kind := Level.mem_operatorKinds has
    have word : t.kind ∉ separators := by
      intro separator
      revert kind separator
      cases t.kind <;> decide
    rw [Option.toList_some, significant_word word, List.append_nil]
    exact operation_lists spelled kind lists listsRight

theorem binary (level : Level) :
    Traced Anywhere seen (Entry.binary (fuel + 1) ctx level) Node.Lists := by
  cases h : level.tighter? with
  | some tighter =>
    rw [binary_of_tighter h]
    refine (ih (.binary tighter) ctx seen).bind fun left => ?_
    exact (ih.rightOperand level left).mono fun _ _ lists => lists
  | none =>
    rw [binary_of_tightest h]
    refine (ih .primary ctx seen).bind fun left => ?_
    exact (ih.rightOperand level left).mono fun _ _ lists => lists

theorem primary : Traced Anywhere seen (Entry.primary (fuel + 1) ctx) Node.Lists := by
  rw [Entry.primary]
  refine .look fun t spelled => ?_
  split
  · next is =>
    refine .useSeparator (by rw [is]; decide) ?_
    exact nested_traced fun ctx => ih .group ctx _
  · next is =>
    refine .useWord (by rw [is]; decide) (by rw [is]; decide) (.pure ?_)
    obtain ⟨z, value⟩ := spelled.number is
    rw [value]
    exact .literal is value
  · next is =>
    refine .useWord (by rw [is]; decide) (by rw [is]; decide) ?_
    refine (expect_traced (by decide)).passing fun _ => ?_
    refine (ih .arguments ctx _).bind fun args => ?_
    obtain ⟨b, name⟩ := spelled.builtin is
    rw [name]
    refine .pure fun ts lists => ?_
    rw [List.append_nil]
    exact .builtin is (Builtin.name_of_ofName? name).symm lists
  · next is =>
    refine .useWord (by rw [is]; decide) (by rw [is]; decide) ?_
    refine .acceptSeparator (by decide) ?_ (.pure (.identifier is))
    refine (ih .arguments ctx _).bind fun args => .pure fun ts lists => ?_
    rw [List.append_nil]
    exact .call is lists
  · next is =>
    refine .useWord (by rw [is]; decide) (by rw [is]; decide) (nested_traced fun ctx => ?_)
    refine (ih (.binary .relational) ctx _).bind fun operand => .pure fun ts lists => ?_
    rw [List.append_nil]
    exact .negation is lists
  · next is =>
    refine .useWord (by rw [is]; decide) (by rw [is]; decide) (nested_traced fun ctx => ?_)
    refine (ih .primary ctx _).bind fun operand => .pure fun ts lists => ?_
    rw [List.append_nil]
    exact sign_lists spelled is lists
  · next is => exact .useSeparator (by rw [is]; decide) (.pure .noOp)
  · exact .pure .noOp
  · exact .pure .noOp
  · next isEnd =>
    exact .report List.mem_cons_self (.use isEnd (.pure trivial)) (at_reported t _)

theorem group : Traced Anywhere seen (Entry.group (fuel + 1) ctx) Node.Lists := by
  rw [Entry.group]
  refine (ih .assignment _ seen).bind fun inner => ?_
  refine (expect_traced (by decide)).passing fun _ => ?_
  have closed : Traced Anywhere seen (pure inner : Read Node)
      fun tree us => ∀ ts, inner.Lists ts → tree.Lists (ts ++ us) := by
    refine .pure fun ts lists => ?_
    rw [List.append_nil]
    exact lists
  split
  · exact skipClosers_traced.passing fun _ => closed
  · exact closed

theorem arguments :
    Traced Anywhere seen (Entry.arguments (fuel + 1) ctx) Node.ListsAll := by
  rw [Entry.arguments]
  refine .acceptSeparator (by decide) (.pure .nil) ?_
  refine (ih .argumentList _ seen).bind fun args => ?_
  refine (expect_traced (by decide)).passing fun _ => .pure fun ts lists => ?_
  rw [List.append_nil]
  exact lists

theorem argumentList :
    Traced Anywhere seen (Entry.argumentList (fuel + 1) ctx) Node.ListsAll := by
  rw [Entry.argumentList]
  refine (ih (.binary .relational) ctx seen).bind fun first => ?_
  refine .acceptSeparator (by decide) ?_ (.pure fun ts lists => .cons lists .nil)
  refine (ih .argumentList ctx seen).bind fun rest => .pure fun us listsRest ts lists => ?_
  rw [List.append_nil]
  exact .cons lists listsRest

end Traces

/-- Whichever rule is followed, what is read lists as the significant tokens used. -/
theorem Rule.traced (fuel : Nat) : Traces fuel := by
  induction fuel with
  | zero =>
    intro rule ctx seen
    rw [Rule.run_zero]
    exact .starved
  | succ fuel ih =>
    intro rule ctx seen
    cases rule with
    | statement inBlock => exact ih.statement inBlock
    | terminated inBlock node => exact ih.terminated inBlock node
    | instruction => exact ih.instruction
    | block => exact ih.block
    | statements => exact ih.statements
    | loop => exact ih.loop
    | conditional => exact ih.conditional
    | assignment => exact ih.assignment
    | binary level => exact ih.binary level
    | primary => exact ih.primary
    | group => exact ih.group
    | arguments => exact ih.arguments
    | argumentList => exact ih.argumentList

/-! ## Functions -/

theorem moreParams_traced :
    Traced Anywhere seen (moreParams fuel) fun names ts =>
      (∀ t ∈ ts, t.kind = .identifier) ∧ names = ts.map (·.text) := by
  induction fuel with
  | zero => exact .starved
  | succ fuel ih =>
    refine .acceptSeparator (by decide) ?_ (.pure ⟨nofun, rfl⟩)
    refine (expect?_traced (by decide)).bind fun param => ?_
    refine ih.bind fun names => .pure ?_
    rintro ts ⟨kinds, rfl⟩ _ ⟨t, rfl, kind, rfl⟩
    rw [significant_word (by rw [kind]; decide), List.append_nil]
    exact ⟨List.forall_mem_cons.mpr ⟨kind, kinds⟩, rfl⟩

theorem params_traced :
    Traced Anywhere seen (params fuel) fun names ts =>
      (∀ t ∈ ts, t.kind = .identifier) ∧ names = ts.map (·.text) := by
  refine (accept?_traced (by decide)).bind fun first => ?_
  cases first with
  | none =>
    refine .pure ?_
    rintro _ ⟨rfl, _⟩
    exact ⟨nofun, rfl⟩
  | some t =>
    refine moreParams_traced.bind fun names => .pure ?_
    rintro ts ⟨kinds, rfl⟩ _ ⟨rfl, known⟩
    have kind := known t rfl
    rw [Option.toList_some, significant_word (by rw [kind]; decide), List.append_nil]
    exact ⟨List.forall_mem_cons.mpr ⟨kind, kinds⟩, rfl⟩

/-- A function after its keyword. -/
theorem definition_traced :
    Traced Anywhere seen (definition fuel ctx)
      fun tree ts => ∀ t, t.kind = .funKeyword → tree.Lists (t :: ts) := by
  refine (expect?_traced (by decide)).bind fun name => ?_
  refine (expect_traced (by decide)).passing fun _ => ?_
  refine params_traced.bind fun params => ?_
  refine (expect_traced (by decide)).passing fun _ => ?_
  refine (accept_traced (by decide)).passing fun _ => ?_
  refine (Rule.traced fuel .block ctx seen).bind fun body => .pure ?_
  rintro ts listsBody ps ⟨kinds, rfl⟩ _ ⟨u, rfl, isName, rfl⟩ t is
  rw [significant_word (by rw [isName]; decide), List.append_nil]
  exact .definition is isName kinds listsBody

theorem entry_traced : Traced Anywhere seen (entry fuel ctx) Node.Lists := by
  refine .acceptWord (by decide) (by decide) (fun t is => ?_)
    (Rule.traced fuel (.statement false) ctx seen)
  refine definition_traced.bind fun node => ?_
  refine (Rule.traced fuel (.terminated false node) ctx seen).mono fun tree us ended ts lists => ?_
  obtain ⟨same, nothing⟩ : tree = node ∧ us = [] := ended
  rw [same, nothing, List.append_nil]
  exact lists t is

/-! ## Entries -/

/-- Where an entry begins, the line is sound and the token looked at is one of the scanner's. -/
structure Reader.Ready (r : Reader) : Prop where
  sound : r.cursor.Sound
  spelled : r.Spelled

theorem ready_ofFeed (feed : Feed) : (Reader.ofFeed feed).Ready :=
  ⟨Cursor.sound_ofFeed feed, fun _ found => nomatch found⟩

/-- An entry is read on a path, from which its tree, its complaints and its text are known. -/
theorem next_path (limits : Limits) {r : Reader} (ready : r.Ready) :
    ∃ node s ts,
      entry (budget r) { limits := limits } { r with abandoned := false } = some (node, s) ∧
      next limits r = (⟨node, s.diagnostics, s.cursor.raw⟩,
        { s with diagnostics := [], cursor := s.cursor.beginEntry }) ∧
      Path [] { r with abandoned := false } ts s ∧ s.Ready ∧
      (s.Clean → node.Lists (significant ts)) := by
  obtain ⟨node, s, run, read, spent⟩ := next_read limits ready.sound
  have spelled : Reader.Spelled { r with abandoned := false } := ready.spelled
  obtain ⟨ts, path, lists⟩ := entry_traced _ node s spelled trivial run
  exact ⟨node, s, ts, run, read, path, ⟨spent.1, path.spelled spelled⟩, lists⟩

theorem after_ready (limits : Limits) (feed : Feed) (n : Nat) :
    (Reader.after limits n (.ofFeed feed)).Ready := by
  induction n with
  | zero => exact ready_ofFeed feed
  | succ n ih =>
    obtain ⟨_, s, _, _, read, _, ready, _⟩ := next_path limits ih
    rw [Reader.after, read]
    exact ⟨ready.sound, ready.spelled⟩

/-! ## The tokens of an entry -/

/-- Looking at tokens and using them takes a reader to another one, and these are the tokens used.
The end of the text is never used. -/
inductive Reader.Uses : Reader → List Token → Reader → Prop where
  | nothing (r : Reader) : Uses r [] r
  | look {r s : Reader} {ts : List Token} (fresh : r.lookahead = none) (rest : Uses r.looked ts s) :
      Uses r ts s
  | use {r s : Reader} {t : Token} {ts : List Token} (next : r.lookahead = some t)
      (inText : t.kind ≠ .endOfInput) (rest : Uses r.used ts s) : Uses r (t :: ts) s

/-- The reading of the next entry uses these tokens. -/
def Consumes (limits : Limits) (r : Reader) (ts : List Token) : Prop :=
  ∃ node s, entry (budget r) { limits := limits } { r with abandoned := false } = some (node, s) ∧
    Reader.Uses { r with abandoned := false } ts s

namespace Reader.Uses

variable {r s u : Reader} {ts us : List Token}

/-- Of two ways from one reader, one goes on where the other one ends. -/
theorem split (h : r.Uses ts s) (h' : r.Uses us u) :
    (∃ vs, s.Uses vs u ∧ us = ts ++ vs) ∨ ∃ vs, u.Uses vs s ∧ ts = us ++ vs := by
  induction h generalizing us with
  | nothing r => exact .inl ⟨us, h', rfl⟩
  | @look r s ts fresh rest ih =>
    cases h' with
    | nothing => exact .inr ⟨ts, .look fresh rest, rfl⟩
    | look _ rest' => exact ih rest'
    | use next => cases fresh.symm.trans next
  | @use r s t ts next inText rest ih =>
    cases h' with
    | nothing => exact .inr ⟨t :: ts, .use next inText rest, rfl⟩
    | look fresh => cases fresh.symm.trans next
    | use next' _ rest' =>
      cases next.symm.trans next'
      rcases ih rest' with ⟨vs, goesOn, rfl⟩ | ⟨vs, goesOn, rfl⟩
      · exact .inl ⟨vs, goesOn, rfl⟩
      · exact .inr ⟨vs, goesOn, rfl⟩

/-- Every token used leaves one less. -/
theorem left_le (h : r.Uses ts s) (sound : r.cursor.Sound) : s.left + ts.length ≤ r.left := by
  induction h with
  | nothing => exact Nat.le_refl _
  | look _ _ ih =>
    obtain ⟨sound, le⟩ := looked_left sound
    exact Nat.le_trans (ih sound) le
  | @use r s t ts next inText _ ih =>
    have rest := ih sound
    have less := used_left_lt next inText
    rw [List.length_cons]
    omega

/-- The tokens used between two readers are told by these. -/
theorem unique (h : r.Uses ts s) (h' : r.Uses us s) (after : s.cursor.Sound) : us = ts := by
  have none : ∀ vs, s.Uses vs s → vs = [] := fun vs loop =>
    List.eq_nil_of_length_eq_zero (by have := loop.left_le after; omega)
  rcases h.split h' with ⟨vs, loop, same⟩ | ⟨vs, loop, same⟩
  · rw [same, none vs loop, List.append_nil]
  · rw [same, none vs loop, List.append_nil]

theorem path (h : r.Uses ts s) (seen : List Token) : Path seen r ts s := by
  induction h generalizing seen with
  | nothing => exact .stay _ _
  | look _ _ ih => exact .look (ih _)
  | use next inText _ ih => exact .use next inText (ih _)

end Reader.Uses

/-- Without complaints a path only looks at tokens and uses them. -/
theorem Path.uses {ts : List Token} {r s : Reader} (h : Path seen r ts s) (clean : s.Clean) :
    r.Uses ts s := by
  induction h with
  | stay => exact .nothing _
  | @look seen ts r s _ ih =>
    cases found : r.lookahead with
    | none => exact .look found (ih clean)
    | some t =>
      rw [← Reader.looked_of_some found]
      exact ih clean
  | use next inText _ ih => exact .use next inText (ih clean)
  | report _ rest _ => exact absurd (rest.clean clean) (Reader.not_clean_reported _)
  | giveUp _ _ rest _ => exact absurd (rest.clean clean) (Reader.not_clean_gaveUp _)

/-- An entry that was given up has a complaint. -/
theorem Path.complained {ts : List Token} {r s : Reader} (h : Path seen r ts s)
    (before : r.abandoned = true → r.diagnostics ≠ []) :
    s.abandoned = true → s.diagnostics ≠ [] := by
  induction h with
  | stay => exact before
  | @look seen ts r s _ ih =>
    refine ih fun abandoned => ?_
    rw [Reader.looked_abandoned] at abandoned
    unfold Reader.looked
    split
    · exact before abandoned
    · exact List.append_ne_nil_of_left_ne_nil (before abandoned) _
  | use _ _ _ ih => exact ih before
  | report _ _ ih =>
    refine ih fun abandoned => ?_
    unfold Reader.reported at abandoned ⊢
    split
    · next given => exact before given
    · exact List.append_ne_nil_of_right_ne_nil _ (List.cons_ne_nil _ _)
  | giveUp _ _ _ ih =>
    exact ih fun _ => List.append_ne_nil_of_right_ne_nil _ (List.cons_ne_nil _ _)

/-- An entry without complaints is written with the significant tokens that its reading uses, and
there is one list of them. -/
theorem clean_entry_lists (limits : Limits) (feed : Feed) (n : Nat)
    (clean : (nth limits n (.ofFeed feed)).diagnostics = []) :
    ∃ ts, Consumes limits (.after limits n (.ofFeed feed)) ts ∧
      (∀ us, Consumes limits (.after limits n (.ofFeed feed)) us → us = ts) ∧
      (nth limits n (.ofFeed feed)).node.Lists (significant ts) := by
  have ready := after_ready limits feed n
  obtain ⟨node, s, ts, run, read, path, after, lists⟩ := next_path limits ready
  rw [nth, read] at clean ⊢
  have noneGiven : s.abandoned = false := by
    rw [Bool.eq_false_iff]
    exact fun abandoned => path.complained nofun abandoned clean
  have uses := path.uses ⟨clean, noneGiven⟩
  refine ⟨ts, ⟨node, s, run, uses⟩, ?_, lists ⟨clean, noneGiven⟩⟩
  rintro us ⟨node', s', run', uses'⟩
  cases run.symm.trans run'
  exact uses.unique uses' after.sound

/-- A conditional in a loop, written over two lines. -/
def conditionalInLoop : Feed :=
  ⟨[.line "for(i=0;i<3;i=i+1)\n", .line "\x7bif(!i)\x7bprint(-i)\x7d;x=((i))\x7d\n"], []⟩

/-- Its tree, up to the numbers in it. -/
def conditionalInLoopTree (z w u v : Number) : Node :=
  .loop (.assignment "i" (.literal z)) (.binary .less (.identifier "i") (.literal w))
    (.assignment "i" (.binary .add (.identifier "i") (.literal u)))
    (.block [.ifThen (.negation (.identifier "i"))
        (.block [.builtin .print [.binary .subtract (.literal v) (.identifier "i")]]),
      .assignment "x" (.identifier "i")])

/-- The numbers in a tree of that shape. -/
def conditionalInLoopNumbers? : Node → Option (Number × Number × Number × Number)
  | .loop (.assignment "i" (.literal z)) (.binary .less (.identifier "i") (.literal w))
      (.assignment "i" (.binary .add (.identifier "i") (.literal u)))
      (.block [.ifThen (.negation (.identifier "i"))
          (.block [.builtin .print [.binary .subtract (.literal v) (.identifier "i")]]),
        .assignment "x" (.identifier "i")]) => some (z, w, u, v)
  | _ => none

theorem eq_conditionalInLoopTree {node : Node} {z w u v : Number}
    (h : conditionalInLoopNumbers? node = some (z, w, u, v)) :
    node = conditionalInLoopTree z w u v := by
  unfold conditionalInLoopNumbers? at h
  split at h
  · cases h
    rfl
  · cases h

/-- The brackets and semicolons are used and not listed, and the zero before the sign is listed by
no token. -/
theorem conditionalInLoop_lists :
    ∃ ts, Consumes {} (.after {} 0 (.ofFeed conditionalInLoop)) ts ∧
      (∀ us, Consumes {} (.after {} 0 (.ofFeed conditionalInLoop)) us → us = ts) ∧
      (nth {} 0 (.ofFeed conditionalInLoop)).node =
        conditionalInLoopTree .zero ⟨3.0, 0.0⟩ .one .zero ∧
      (conditionalInLoopTree .zero ⟨3.0, 0.0⟩ .one .zero).Lists (significant ts) ∧
      (significant ts).map (·.text) = ["for", "i", "=", "0", "i", "<", "3", "i", "=", "i", "+", "1",
        "if", "!", "i", "print", "-", "i", "x", "=", "i"] := by
  obtain ⟨ts, consumes, unique, lists⟩ :=
    clean_entry_lists {} conditionalInLoop 0 (by decide +kernel)
  have tree : (nth {} 0 (.ofFeed conditionalInLoop)).node =
      conditionalInLoopTree .zero ⟨3.0, 0.0⟩ .one .zero :=
    eq_conditionalInLoopTree (by decide +kernel)
  refine ⟨ts, consumes, unique, tree, tree ▸ lists, ?_⟩
  obtain ⟨node, s, run, uses⟩ := consumes
  -- nothing is left to be used after the entry, so its tokens are all there are
  have rest : s.contents = [] := by
    have sound : s.cursor.Sound := by
      have ready := (after_ready {} conditionalInLoop 1).sound
      rw [Reader.after, next_of_entry run] at ready
      exact ready
    have nothing : (Reader.after {} 1 (.ofFeed conditionalInLoop)).contents = [] := by
      decide +kernel
    rw [Reader.after, next_of_entry run] at nothing
    exact (s.contents_begun sound).symm.trans nothing
  have all := (uses.path []).contents (after_ready {} conditionalInLoop 0).sound
  rw [rest, List.append_nil] at all
  have texts : (significant ts).map (·.text) =
      ((ts.map Scan.content).filter (·.1 ∉ separators)).map (·.2.1) := by
    rw [List.filter_map, List.map_map]
    rfl
  rw [texts, ← all]
  decide +kernel

end ComplexScript.Entry
