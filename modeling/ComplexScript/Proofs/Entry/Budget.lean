import ComplexScript.Proofs.Entry.Trees
set_option autoImplicit false

/-!
# The budget is enough

Every token but the end of the text uses a character, so what a reader can still use (`Reader.left`)
pays for the budget: sixteen units for each token, and a rank for the rules that can call each other
before the next one is used (`Rule.rank`).  `Rule.enough` says that no rule runs out of that.
`Entry.budget` is such a budget (`le_budget`), so an entry is read from any text and under any
limits (`next_read`).
-/

namespace ComplexScript.Entry

open ComplexScript.Program
open ComplexScript.Text
open ComplexScript.Token (Kind)
open Read

/-! ## What a reader can still use -/

namespace Reader

/-- The number of tokens that a reader can still use is at most this. -/
def left (r : Reader) : Nat :=
  r.cursor.left + if r.lookahead.all (·.kind = .endOfInput) then 0 else 1

variable {r : Reader}

theorem looked_left (sound : r.cursor.Sound) : r.looked.cursor.Sound ∧ r.looked.left ≤ r.left := by
  unfold looked
  cases h : r.lookahead with
  | some t => exact ⟨sound, Nat.le_refl _⟩
  | none =>
    obtain ⟨le, less⟩ := Token.Scan.next_left sound
    obtain ⟨_, _, soundAfter⟩ := Token.Scan.next_sim (Cursor.bisimulation_left r.cursor.left)
      r.cursor r.cursor ⟨rfl, sound, Nat.le_refl _⟩
    refine ⟨soundAfter.1, ?_⟩
    simp only [left, h, fetched, Option.all_some, Option.all_none, if_true]
    by_cases isEnd : (Token.Scan.next r.cursor).1.token.kind = .endOfInput
    · simpa [isEnd] using le
    · simpa [isEnd] using Nat.succ_le_of_lt (less isEnd)

theorem used_left_le (r : Reader) : r.used.left ≤ r.left := by
  simp [left, used]

/-- Using a token that was looked at leaves one less. -/
theorem used_left_lt {t : Token} (h : r.lookahead = some t) (inText : t.kind ≠ .endOfInput) :
    r.used.left < r.left := by
  simp [left, used, h, inText]

end Reader

/-- Of `n` tokens, `u` have been used. -/
def Spent (n u : Nat) (r : Reader) : Prop := r.cursor.Sound ∧ r.left + u ≤ n

/-- The next token has the given kind. -/
def Ahead (n u : Nat) (kind : Kind) (r : Reader) : Prop := Spent n u r ∧ r.token.kind = kind

/-- The next token has been looked at. -/
def Facing (n u : Nat) (t : Token) (r : Reader) : Prop := Spent n u r ∧ r.lookahead = some t

theorem Spent.mono {n u u' : Nat} {r : Reader} (h : Spent n u r) (le : u' ≤ u) : Spent n u' r :=
  ⟨h.1, Nat.le_trans (Nat.add_le_add_left le _) h.2⟩

theorem Facing.ahead {n u : Nat} {t : Token} {r : Reader} (h : Facing n u t r) :
    Ahead n u t.kind r := by
  refine ⟨h.1, ?_⟩
  rw [Reader.token, h.2]
  rfl

/-! ## Pieces of the grammar that have a result -/

namespace Read

variable {α β : Type}

/-- From a reader in `P` the piece has a result, which is in `Q` with the reader after it. -/
def Total (P : Reader → Prop) (m : Read α) (Q : α → Reader → Prop) : Prop :=
  ∀ r, P r → ∃ a s, m r = some (a, s) ∧ Q a s

section

variable {P : Reader → Prop} {Q : β → Reader → Prop}

theorem Total.pure {b : β} (h : ∀ r, P r → Q b r) : Total P (pure b) Q :=
  fun r before => ⟨b, r, rfl, h r before⟩

theorem Total.bind {R : α → Reader → Prop} {m : Read α} {f : α → Read β} (first : Total P m R)
    (second : ∀ a, Total (R a) (f a) Q) : Total P (m >>= f) Q := by
  intro r before
  obtain ⟨a, s, here, between⟩ := first r before
  obtain ⟨b, t, there, after⟩ := second a s between
  exact ⟨b, t, bind_eq_some.mpr ⟨a, s, here, there⟩, after⟩

theorem Total.mono {R : β → Reader → Prop} {m : Read β} (h : Total P m R)
    (weaker : ∀ b r, R b r → Q b r) : Total P m Q := by
  intro r before
  obtain ⟨b, s, run, after⟩ := h r before
  exact ⟨b, s, run, weaker b s after⟩

theorem Total.of_le {R : Reader → Prop} {m : Read β} (h : Total R m Q) (le : ∀ r, P r → R r) :
    Total P m Q := fun r before => h r (le r before)

end

section

variable {n u : Nat} {kind : Kind} {Q : β → Reader → Prop}

/-- Every reader is at some token. -/
theorem Total.of_ahead {m : Read β} (h : ∀ kind, Total (Ahead n u kind) m Q) :
    Total (Spent n u) m Q :=
  fun r before => h r.token.kind r ⟨before, rfl⟩

theorem Total.look {f : Token → Read β}
    (h : ∀ t, t.kind = kind → Total (Facing n u t) (f t) Q) :
    Total (Ahead n u kind) (Read.look >>= f) Q := by
  intro r ⟨⟨sound, spent⟩, here⟩
  obtain ⟨soundAfter, le⟩ := Reader.looked_left sound
  obtain ⟨b, s, run, after⟩ := h r.token here r.looked
    ⟨⟨soundAfter, Nat.le_trans (Nat.add_le_add_right le u) spent⟩, r.looked_lookahead⟩
  exact ⟨b, s, bind_eq_some.mpr ⟨_, _, look_eq r, run⟩, after⟩

theorem Total.use {t : Token} {f : PUnit → Read β} (inText : t.kind ≠ .endOfInput)
    (h : Total (Spent n (u + 1)) (f ⟨⟩) Q) : Total (Facing n u t) (Read.use >>= f) Q := by
  intro r ⟨⟨sound, spent⟩, facing⟩
  have less := Reader.used_left_lt facing inText
  obtain ⟨b, s, run, after⟩ := h r.used ⟨sound, by omega⟩
  exact ⟨b, s, bind_eq_some.mpr ⟨_, _, rfl, run⟩, after⟩

/-- Using a token never leaves more. -/
theorem Total.use_any {t : Token} {f : PUnit → Read β} (h : Total (Spent n u) (f ⟨⟩) Q) :
    Total (Facing n u t) (Read.use >>= f) Q := by
  intro r ⟨⟨sound, spent⟩, _⟩
  have le := r.used_left_le
  obtain ⟨b, s, run, after⟩ := h r.used ⟨sound, by omega⟩
  exact ⟨b, s, bind_eq_some.mpr ⟨_, _, rfl, run⟩, after⟩

theorem Total.report {t : Token} {d : Diagnostic} {f : PUnit → Read β}
    (h : Total (Facing n u t) (f ⟨⟩) Q) : Total (Facing n u t) (Read.report d >>= f) Q := by
  intro r facing
  have reported : Facing n u t (r.reported d) := by
    unfold Reader.reported
    split <;> exact facing
  obtain ⟨b, s, run, after⟩ := h _ reported
  exact ⟨b, s, bind_eq_some.mpr ⟨_, _, report_eq d r, run⟩, after⟩

theorem Total.isAbandoned {P : Reader → Prop} {f : Bool → Read β} (h : ∀ b, Total P (f b) Q) :
    Total P (Read.isAbandoned >>= f) Q := by
  intro r before
  obtain ⟨b, s, run, after⟩ := h r.abandoned r before
  exact ⟨b, s, bind_eq_some.mpr ⟨_, _, rfl, run⟩, after⟩

theorem Total.isNext {other : Kind} {yes no : Read β}
    (isNext : kind = other → Total (Ahead n u kind) yes Q)
    (isNot : kind ≠ other → Total (Ahead n u kind) no Q) :
    Total (Ahead n u kind) (Read.isNext other >>= fun b => if b then yes else no) Q := by
  unfold Read.isNext
  rw [bind_assoc]
  refine .look fun t same => ?_
  subst same
  rw [pure_bind]
  split
  · next same => exact (isNext (of_decide_eq_true same)).of_le fun _ => Facing.ahead
  · next other =>
    exact (isNot fun same => other (decide_eq_true same)).of_le fun _ => Facing.ahead

theorem Total.accept {other : Kind} {yes no : Read β} (inText : other ≠ .endOfInput)
    (isNext : kind = other → Total (Spent n (u + 1)) yes Q)
    (isNot : kind ≠ other → Total (Ahead n u kind) no Q) :
    Total (Ahead n u kind) (Read.accept other >>= fun b => if b then yes else no) Q := by
  unfold Read.accept accept?
  rw [bind_assoc, bind_assoc]
  refine .look fun t same => ?_
  subst same
  split
  · next same =>
    rw [bind_assoc]
    exact .use (same ▸ inText) (isNext same)
  · next other => exact (isNot other).of_le fun _ => Facing.ahead

/-- Passing over a token that may stand there. -/
theorem Total.pass (other : Kind) : Total (Spent n u) (Read.accept other) fun _ => Spent n u := by
  refine .of_ahead fun kind => ?_
  unfold Read.accept accept?
  rw [bind_assoc]
  refine .look fun t _ => ?_
  split
  · rw [bind_assoc]
    exact .use_any (.pure fun _ h => h)
  · exact .pure fun _ h => h.1

theorem report_total (d : Diagnostic) :
    Total (Spent n u) (Read.report d) fun _ => Spent n u := by
  intro r before
  refine ⟨⟨⟩, r.reported d, report_eq d r, ?_⟩
  unfold Reader.reported
  split <;> exact before

theorem expect?_total (other : Kind) :
    Total (Spent n u) (expect? other) fun _ => Spent n u := by
  refine .of_ahead fun kind => .look fun t _ => ?_
  split
  · exact .use_any (.pure fun _ h => h)
  refine .report (.isAbandoned fun abandoned => ?_)
  split
  · exact .pure fun _ h => h.1
  · exact .use_any (.pure fun _ h => h)

theorem expect_total (other : Kind) : Total (Spent n u) (expect other) fun _ => Spent n u :=
  (expect?_total other).bind fun _ => .pure fun _ h => h

theorem acceptOperator?_total (level : Level) :
    Total (Spent n u) (acceptOperator? level) fun found =>
      Spent n (u + if found.isSome then 1 else 0) := by
  refine .of_ahead fun kind => .look fun t _ => ?_
  split
  · next has =>
    refine .use ?_ (.pure fun _ h => h)
    intro isEnd
    rw [isEnd] at has
    cases level <;> cases has
  · exact .pure fun _ h => h.1

/-! ## Moves that repeat -/

variable {fuel : Nat}

theorem skipLine_total (enough : n + 1 ≤ fuel + u) :
    Total (Spent n u) (skipLine fuel) fun _ => Spent n u := by
  induction fuel generalizing u with
  | zero =>
    intro r ⟨_, spent⟩
    omega
  | succ fuel ih =>
    refine .of_ahead fun kind => .look fun t _ => ?_
    split
    · exact .pure fun _ h => h.1
    · next goesOn =>
      refine .use ?_ ((ih (by omega)).mono fun _ _ h => h.mono (Nat.le_succ u))
      intro isEnd
      rw [isEnd] at goesOn
      exact goesOn rfl

theorem giveUp_total (enough : n + 1 ≤ fuel + u) :
    Total (Spent n u) (giveUp fuel) fun _ => Spent n u := by
  intro r before
  obtain ⟨sound, le⟩ := Reader.looked_left before.1
  have begun : Spent n u (r.looked.gaveUp r.token) :=
    ⟨sound, Nat.le_trans (Nat.add_le_add_right le u) before.2⟩
  obtain ⟨_, s, run, after⟩ := skipLine_total enough _ begun
  rw [giveUp_eq]
  cases r.abandoned with
  | true => exact ⟨⟨⟩, r, rfl, before⟩
  | false => exact ⟨⟨⟩, s, run, after⟩

theorem nested_total (ctx : Context) {rule : Context → Read Node} (enough : n + 1 ≤ fuel + u)
    (h : ∀ deeper, Total (Spent n u) (rule deeper) fun _ => Spent n u) :
    Total (Spent n u) (nested fuel ctx rule) fun _ => Spent n u := by
  unfold nested
  split
  · exact (giveUp_total enough).bind fun _ => .pure fun _ h => h
  · exact h _

theorem chained_total (ctx : Context) {rule : Context → Read Node} (enough : n + 1 ≤ fuel + u)
    (h : ∀ further, Total (Spent n u) (rule further) fun _ => Spent n u) :
    Total (Spent n u) (chained fuel ctx rule) fun _ => Spent n u := by
  unfold chained
  split
  · exact (giveUp_total enough).bind fun _ => .pure fun _ h => h
  · exact h _

theorem skipClosers_total (enough : n + 1 ≤ fuel + u) :
    Total (Spent n u) (skipClosers fuel) fun _ => Spent n u := by
  induction fuel generalizing u with
  | zero =>
    intro r ⟨_, spent⟩
    omega
  | succ fuel ih =>
    refine .of_ahead fun kind => .accept (by decide) (fun _ => ?_) fun _ => .pure fun _ h => h.1
    exact (ih (by omega)).mono fun _ _ h => h.mono (Nat.le_succ u)

theorem moreParams_total (enough : n + 1 ≤ fuel + u) :
    Total (Spent n u) (moreParams fuel) fun _ => Spent n u := by
  induction fuel generalizing u with
  | zero =>
    intro r ⟨_, spent⟩
    omega
  | succ fuel ih =>
    refine .of_ahead fun kind => .accept (by decide) (fun _ => ?_) fun _ => .pure fun _ h => h.1
    refine (expect?_total _).bind fun param => (ih (by omega)).bind fun params => ?_
    exact .pure fun _ h => h.mono (Nat.le_succ u)

theorem params_total (enough : n + 1 ≤ fuel + u) :
    Total (Spent n u) (params fuel) fun _ => Spent n u := by
  refine .of_ahead fun kind => ?_
  unfold params accept?
  rw [bind_assoc]
  refine .look fun t _ => ?_
  split
  · rw [bind_assoc]
    refine .use_any ?_
    rw [pure_bind]
    exact (moreParams_total enough).bind fun _ => .pure fun _ h => h
  · rw [pure_bind]
    exact .pure fun _ h => h.1

end

end Read

/-! ## Rules -/

/-- A bound on the rules that can call each other before the next token is used. -/
def Rule.rank : Rule → Nat
  | primary => 1
  | binary level => level.rank
  | assignment | argumentList => 7
  | instruction | group | arguments => 8
  | statement _ => 9
  | terminated _ _ | statements => 10
  | block => 11
  | loop | conditional => 12

/-- The tokens that a rule is sure to use, from the kind of the next one. -/
def Rule.uses : Rule → Kind → Nat
  | statement _, kind => if kind = .endOfInput then 0 else 1
  | instruction, kind | assignment, kind | binary _, kind | primary, kind =>
    if endsStatement kind then 0 else 1
  | _, _ => 0

theorem Rule.uses_le (rule : Rule) (kind : Kind) : rule.uses kind ≤ 1 := by
  have atMost : ∀ (p : Prop) [Decidable p], (if p then 0 else 1) ≤ 1 := by
    intro p _
    split <;> decide
  cases rule with
  | statement | instruction | assignment | binary | primary => exact atMost _
  | _ => exact Nat.zero_le 1

/-- A rule that has used a token has used those that it is sure to use. -/
theorem Spent.one {n u : Nat} {r : Reader} (h : Spent n (u + 1) r) (rule : Rule) (kind : Kind) :
    Spent n (u + rule.uses kind) r := h.mono (Nat.add_le_add_left (rule.uses_le kind) u)

/-- The budget is enough for every rule whose rank and tokens it pays for. -/
def Enough (n fuel : Nat) : Prop :=
  ∀ (rule : Rule) (ctx : Context) {u : Nat}, 16 * n + rule.rank ≤ fuel + 16 * u →
    ∀ kind, Total (Ahead n u kind) (rule.run fuel ctx) fun _ => Spent n (u + rule.uses kind)

namespace Enough

variable {n u fuel : Nat} {ctx : Context} (ih : Enough n fuel)

include ih

/-- No rule takes tokens back. -/
theorem stays (rule : Rule) (ctx : Context) (enough : 16 * n + rule.rank ≤ fuel + 16 * u) :
    Total (Spent n u) (rule.run fuel ctx) fun _ => Spent n u :=
  .of_ahead fun kind => (ih rule ctx enough kind).mono fun _ _ h => h.mono (Nat.le_add_right u _)

theorem statement (inBlock : Bool) (enough : 16 * n + 9 ≤ fuel + 1 + 16 * u) (kind : Kind) :
    Total (Ahead n u kind) (Entry.statement (fuel + 1) ctx inBlock) fun _ =>
      Spent n (u + Rule.uses (.statement inBlock) kind) := by
  rw [Entry.statement]
  refine .accept (by decide) (fun _ => .pure fun _ h => h.one _ kind) fun notBreak => ?_
  refine .accept (by decide) (fun _ => .pure fun _ h => h.one _ kind) fun _ => ?_
  refine .isNext (fun isEnd => .pure fun s h => ?_) fun notEnd => ?_
  · rw [isEnd]
    exact h.1
  have moves : Rule.uses .instruction kind = 1 := by
    simp [Rule.uses, endsStatement, notBreak, notEnd]
  refine (ih .instruction ctx (by dsimp only [Rule.rank]; omega) kind).bind fun node => ?_
  rw [moves]
  refine (ih.stays (.terminated inBlock node) ctx ?_).mono fun _ _ h => h.one _ kind
  dsimp only [Rule.rank]
  omega

theorem terminated (inBlock : Bool) (node : Node) (enough : 16 * n + 10 ≤ fuel + 1 + 16 * u) :
    Total (Spent n u) (Entry.terminated (fuel + 1) ctx inBlock node) fun _ => Spent n u := by
  refine .of_ahead fun kind => ?_
  rw [Entry.terminated]
  refine .accept (by decide) (fun _ => .pure fun _ h => h.mono (Nat.le_succ u)) fun _ => ?_
  refine .accept (by decide) (fun _ => .pure fun _ h => h.mono (Nat.le_succ u)) fun _ => ?_
  refine .isNext (fun _ => .pure fun _ h => h.1) fun _ => .isAbandoned fun abandoned => ?_
  split
  · exact .pure fun _ h => h.1
  refine .look fun t _ => ?_
  split
  · exact .pure fun _ h => h.1
  refine .report ?_
  have rest := chained_total ctx (by omega : n + 1 ≤ fuel + u) fun further =>
    ih.stays (.statement inBlock) further (by dsimp only [Rule.rank]; omega)
  exact (rest.of_le fun _ h => h.1).bind fun _ => .pure fun _ h => h

theorem block (enough : 16 * n + 11 ≤ fuel + 1 + 16 * u) :
    Total (Spent n u) (Entry.block (fuel + 1) ctx) fun _ => Spent n u := by
  rw [Entry.block]
  refine (expect_total _).bind fun opened => ?_
  split
  · refine nested_total ctx (by omega) fun deeper => ?_
    exact (ih.stays .statements deeper (by dsimp only [Rule.rank]; omega)).bind fun _ =>
      .pure fun _ h => h
  · exact .pure fun _ h => h

theorem statements (enough : 16 * n + 10 ≤ fuel + 1 + 16 * u) :
    Total (Spent n u) (Entry.statements (fuel + 1) ctx) fun _ => Spent n u := by
  refine .of_ahead fun kind => ?_
  rw [Entry.statements]
  refine .accept (by decide) (fun _ => .pure fun _ h => h.mono (Nat.le_succ u)) fun _ => ?_
  refine .look fun t same => .isAbandoned fun abandoned => ?_
  split
  · exact .report (.pure fun _ h => h.1)
  next goesOn =>
  have notEnd : kind ≠ .endOfInput := by
    rintro rfl
    simp [same] at goesOn
  have moves : Rule.uses (.statement true) kind = 1 := by simp [Rule.uses, notEnd]
  have first := ih (.statement true) ctx (u := u) (by dsimp only [Rule.rank]; omega) kind
  rw [moves] at first
  refine (first.of_le fun _ h => same ▸ h.ahead).bind fun node => ?_
  refine (ih.stays .statements ctx (by dsimp only [Rule.rank]; omega)).bind fun rest => ?_
  exact .pure fun _ h => h.mono (Nat.le_succ u)

theorem instruction (enough : 16 * n + 8 ≤ fuel + 1 + 16 * u) (kind : Kind) :
    Total (Ahead n u kind) (Entry.instruction (fuel + 1) ctx) fun _ =>
      Spent n (u + Rule.uses .instruction kind) := by
  rw [Entry.instruction]
  refine .accept (by decide) (fun _ => .pure fun _ h => h.one .instruction kind) fun _ => ?_
  refine .accept (by decide) (fun _ => .pure fun _ h => h.one .instruction kind) fun _ => ?_
  refine .accept (by decide) (fun _ => ?_) fun _ => ?_
  · exact (ih.stays .loop ctx (by dsimp only [Rule.rank]; omega)).mono fun _ _ h =>
      h.one .instruction kind
  refine .accept (by decide) (fun _ => ?_) fun _ => ?_
  · exact (ih.stays .conditional ctx (by dsimp only [Rule.rank]; omega)).mono fun _ _ h =>
      h.one .instruction kind
  refine .accept (by decide) (fun _ => ?_) fun _ => ?_
  · refine .of_ahead fun next => .look fun t _ => ?_
    split
    · exact .pure fun _ h => h.1.one .instruction kind
    · have value := ih.stays .assignment ctx (u := u + 1) (by dsimp only [Rule.rank]; omega)
      exact (value.of_le fun _ h => h.1).bind fun _ => .pure fun _ h => h.one .instruction kind
  · exact ih .assignment ctx (by dsimp only [Rule.rank]; omega) kind

theorem loop (enough : 16 * n + 12 ≤ fuel + 1 + 16 * u) :
    Total (Spent n u) (Entry.loop (fuel + 1) ctx) fun _ => Spent n u := by
  rw [Entry.loop]
  refine (expect_total _).bind fun _ => ?_
  refine (ih.stays .assignment _ (by dsimp only [Rule.rank]; omega)).bind fun init => ?_
  refine (expect_total _).bind fun _ => ?_
  refine (ih.stays (.binary .relational) _ (by dsimp only [Rule.rank, Level.rank]; omega)).bind
    fun condition => ?_
  refine (expect_total _).bind fun _ => ?_
  refine (ih.stays .assignment _ (by dsimp only [Rule.rank]; omega)).bind fun step => ?_
  refine (expect_total _).bind fun _ => (Total.pass _).bind fun _ => ?_
  refine (ih.stays .block ctx (by dsimp only [Rule.rank]; omega)).bind fun body => ?_
  exact .pure fun _ h => h

theorem conditional (enough : 16 * n + 12 ≤ fuel + 1 + 16 * u) :
    Total (Spent n u) (Entry.conditional (fuel + 1) ctx) fun _ => Spent n u := by
  rw [Entry.conditional]
  refine (expect_total _).bind fun _ => ?_
  refine (ih.stays .assignment _ (by dsimp only [Rule.rank]; omega)).bind fun condition => ?_
  refine (expect_total _).bind fun _ => (Total.pass _).bind fun _ => ?_
  refine (ih.stays .block ctx (by dsimp only [Rule.rank]; omega)).bind fun thenBlock => ?_
  refine .of_ahead fun kind => .accept (by decide) (fun _ => ?_) fun _ => ?_
  · refine .of_ahead fun next => .accept (by decide) (fun _ => ?_) fun _ => ?_
    · have elseIf := nested_total ctx (by omega : n + 1 ≤ fuel + (u + 1 + 1)) fun deeper =>
        ih.stays .conditional deeper (by dsimp only [Rule.rank]; omega)
      exact elseIf.bind fun _ => .pure fun _ h => h.mono (by omega)
    · have elseBlock := ih.stays .block ctx (u := u + 1) (by dsimp only [Rule.rank]; omega)
      exact (elseBlock.of_le fun _ h => h.1).bind fun _ => .pure fun _ h => h.mono (by omega)
  · exact .pure fun _ h => h.1

theorem assignment (enough : 16 * n + 7 ≤ fuel + 1 + 16 * u) (kind : Kind) :
    Total (Ahead n u kind) (Entry.assignment (fuel + 1) ctx) fun _ =>
      Spent n (u + Rule.uses .assignment kind) := by
  rw [Entry.assignment]
  refine .look fun start same => ?_
  have target := ih (.binary .relational) ctx (u := u)
    (by dsimp only [Rule.rank, Level.rank]; omega) kind
  refine (target.of_le fun _ h => same ▸ h.ahead).bind fun target => .of_ahead fun next => ?_
  refine .accept (by decide) (fun _ => ?_) fun _ => .pure fun _ h => h.1
  have value := chained_total ctx (u := u + Rule.uses .assignment kind + 1)
    (by omega : n + 1 ≤ fuel + _) fun further =>
      ih.stays .assignment further (by dsimp only [Rule.rank]; omega)
  refine value.bind fun value => ?_
  split
  · exact .pure fun _ h => h.mono (by omega)
  · exact (report_total _).bind fun _ => .pure fun _ h => h.mono (by omega)

theorem rightOperand (level : Level) (left : Node)
    (enough : 16 * n + level.rank ≤ fuel + 1 + 16 * u) :
    Total (Spent n u) (Entry.rightOperand fuel ctx level left) fun _ => Spent n u := by
  refine (acceptOperator?_total level).bind fun found => ?_
  cases found with
  | none => exact .pure fun _ h => h
  | some t =>
    have operand := chained_total ctx (by omega : n + 1 ≤ fuel + (u + 1)) fun further =>
      ih.stays (.binary level) further (by dsimp only [Rule.rank]; omega)
    exact operand.bind fun _ => .pure fun _ h => h.mono (Nat.le_succ u)

theorem binary (level : Level) (enough : 16 * n + level.rank ≤ fuel + 1 + 16 * u) (kind : Kind) :
    Total (Ahead n u kind) (Entry.binary (fuel + 1) ctx level) fun _ =>
      Spent n (u + Rule.uses (.binary level) kind) := by
  have lower : ∀ rule : Rule, rule.rank + 1 = level.rank →
      16 * n + rule.rank ≤ fuel + 16 * u := by omega
  have after : ∀ left, Total (Spent n (u + Rule.uses (.binary level) kind))
      (Entry.rightOperand fuel ctx level left) fun _ =>
        Spent n (u + Rule.uses (.binary level) kind) :=
    fun left => ih.rightOperand level left (by omega)
  cases level with
  | relational =>
    rw [binary_of_tighter rfl]
    exact (ih (.binary .logical) ctx (lower _ rfl) kind).bind after
  | logical =>
    rw [binary_of_tighter rfl]
    exact (ih (.binary .power) ctx (lower _ rfl) kind).bind after
  | power =>
    rw [binary_of_tighter rfl]
    exact (ih (.binary .additive) ctx (lower _ rfl) kind).bind after
  | additive =>
    rw [binary_of_tighter rfl]
    exact (ih (.binary .multiplicative) ctx (lower _ rfl) kind).bind after
  | multiplicative =>
    rw [binary_of_tightest rfl]
    exact (ih .primary ctx (lower _ rfl) kind).bind after

theorem primary (enough : 16 * n + 1 ≤ fuel + 1 + 16 * u) (kind : Kind) :
    Total (Ahead n u kind) (Entry.primary (fuel + 1) ctx) fun _ =>
      Spent n (u + Rule.uses .primary kind) := by
  have inside : ∀ rule : Context → Read Node,
      (∀ deeper, Total (Spent n (u + 1)) (rule deeper) fun _ => Spent n (u + 1)) →
      Total (Spent n (u + 1)) (nested fuel ctx rule) fun _ =>
        Spent n (u + Rule.uses .primary kind) :=
    fun rule h => (nested_total ctx (by omega) h).mono fun _ _ h => h.one .primary kind
  rw [Entry.primary]
  refine .look fun t same => ?_
  subst same
  split
  · next kind =>
    refine .use (by rw [kind]; decide) ?_
    exact inside _ fun deeper => ih.stays .group deeper (by dsimp only [Rule.rank]; omega)
  · next kind => exact .use (by rw [kind]; decide) (.pure fun _ h => h.one .primary _)
  · next kind =>
    refine .use (by rw [kind]; decide) ((expect_total _).bind fun _ => ?_)
    refine (ih.stays .arguments ctx (by dsimp only [Rule.rank]; omega)).bind fun args => ?_
    split <;> exact .pure fun _ h => h.one .primary _
  · next kind =>
    refine .use (by rw [kind]; decide) (.of_ahead fun next => ?_)
    refine .accept (by decide) (fun _ => ?_) fun _ => .pure fun _ h => h.1.one .primary _
    refine (ih.stays .arguments ctx (by dsimp only [Rule.rank]; omega)).bind fun args => ?_
    exact .pure fun _ h => (h.mono (Nat.le_succ _)).one .primary _
  · next kind =>
    refine .use (by rw [kind]; decide) (inside _ fun deeper => ?_)
    refine (ih.stays (.binary .relational) deeper ?_).bind fun _ => .pure fun _ h => h
    dsimp only [Rule.rank, Level.rank]
    omega
  · next kind =>
    refine .use (by rw [kind]; decide) (inside _ fun deeper => ?_)
    refine (ih.stays .primary deeper ?_).bind fun _ => .pure fun _ h => h
    dsimp only [Rule.rank]
    omega
  · next kind => exact .use (by rw [kind]; decide) (.pure fun _ h => h.one .primary _)
  · next kind =>
    rw [kind]
    exact .pure fun _ h => h.1
  · next kind =>
    rw [kind]
    exact .pure fun _ h => h.1
  · next notEnd => exact .report (.use notEnd (.pure fun _ h => h.one .primary _))

theorem group (enough : 16 * n + 8 ≤ fuel + 1 + 16 * u) :
    Total (Spent n u) (Entry.group (fuel + 1) ctx) fun _ => Spent n u := by
  rw [Entry.group]
  refine (ih.stays .assignment _ (by dsimp only [Rule.rank]; omega)).bind fun inner => ?_
  refine (expect_total _).bind fun _ => ?_
  split
  · exact (skipClosers_total (by omega)).bind fun _ => .pure fun _ h => h
  · exact .pure fun _ h => h

theorem arguments (enough : 16 * n + 8 ≤ fuel + 1 + 16 * u) :
    Total (Spent n u) (Entry.arguments (fuel + 1) ctx) fun _ => Spent n u := by
  refine .of_ahead fun kind => ?_
  rw [Entry.arguments]
  refine .accept (by decide) (fun _ => .pure fun _ h => h.mono (Nat.le_succ u)) fun _ => ?_
  have args := ih.stays .argumentList { ctx with groups := ctx.groups + 1 } (u := u)
    (by dsimp only [Rule.rank]; omega)
  refine (args.of_le fun _ h => h.1).bind fun args => ?_
  exact (expect_total _).bind fun _ => .pure fun _ h => h

theorem argumentList (enough : 16 * n + 7 ≤ fuel + 1 + 16 * u) :
    Total (Spent n u) (Entry.argumentList (fuel + 1) ctx) fun _ => Spent n u := by
  rw [Entry.argumentList]
  refine (ih.stays (.binary .relational) ctx ?_).bind fun first => .of_ahead fun kind => ?_
  · dsimp only [Rule.rank, Level.rank]
    omega
  refine .accept (by decide) (fun _ => ?_) fun _ => .pure fun _ h => h.1
  refine (ih.stays .argumentList ctx (by dsimp only [Rule.rank]; omega)).bind fun rest => ?_
  exact .pure fun _ h => h.mono (Nat.le_succ u)

end Enough

/-- A budget of sixteen for each token and the rank of a rule is enough for it. -/
theorem Rule.enough (n fuel : Nat) : Enough n fuel := by
  induction fuel with
  | zero =>
    intro rule ctx u enough kind r ⟨⟨_, spent⟩, _⟩
    have positive : 0 < rule.rank := by
      cases rule with
      | binary level => cases level <;> decide
      | _ => exact Nat.succ_pos _
    omega
  | succ fuel ih =>
    intro rule ctx u enough kind
    cases rule with
    | statement inBlock => exact ih.statement inBlock enough kind
    | terminated inBlock node => exact (ih.terminated inBlock node enough).of_le fun _ h => h.1
    | instruction => exact ih.instruction enough kind
    | block => exact (ih.block enough).of_le fun _ h => h.1
    | statements => exact (ih.statements enough).of_le fun _ h => h.1
    | loop => exact (ih.loop enough).of_le fun _ h => h.1
    | conditional => exact (ih.conditional enough).of_le fun _ h => h.1
    | assignment => exact ih.assignment enough kind
    | binary level => exact ih.binary level enough kind
    | primary => exact ih.primary enough kind
    | group => exact (ih.group enough).of_le fun _ h => h.1
    | arguments => exact (ih.arguments enough).of_le fun _ h => h.1
    | argumentList => exact (ih.argumentList enough).of_le fun _ h => h.1

/-! ## Entries -/

theorem definition_total {n u fuel : Nat} {ctx : Context} (enough : 16 * n + 11 ≤ fuel + 16 * u) :
    Total (Spent n u) (definition fuel ctx) fun _ => Spent n u := by
  refine (expect?_total _).bind fun name => (expect_total _).bind fun _ => ?_
  refine (params_total (by omega)).bind fun params => (expect_total _).bind fun _ => ?_
  refine (Total.pass _).bind fun _ => ?_
  exact ((Rule.enough n fuel).stays .block ctx enough).bind fun body => .pure fun _ h => h

/-- Reading an entry uses a token, unless the text has ended. -/
theorem entry_total {n fuel : Nat} {ctx : Context} (enough : 16 * n + 11 ≤ fuel) (kind : Kind) :
    Total (Ahead n 0 kind) (entry fuel ctx) fun _ =>
      Spent n (Rule.uses (.statement false) kind) := by
  have rules := Rule.enough n fuel
  refine .accept (by decide) (fun isFunction => ?_) fun _ => ?_
  · refine (definition_total (by omega)).bind fun node => ?_
    refine (rules.stays (.terminated false node) ctx (by dsimp only [Rule.rank]; omega)).mono ?_
    intro _ _ h
    have one := h.one (.statement false) kind
    rwa [Nat.zero_add] at one
  · have read := rules (.statement false) ctx (u := 0) (by dsimp only [Rule.rank]; omega) kind
    rwa [Nat.zero_add] at read

/-- The budget of an entry pays for every token to come. -/
theorem le_budget (r : Reader) : 16 * r.left + 11 ≤ budget r := by
  have le := r.cursor.left_le_size
  have looked : r.left ≤ r.cursor.left + 1 := by
    unfold Reader.left
    split <;> omega
  unfold budget
  omega

/-- The next entry is read within its budget, and uses a token unless the text has ended. -/
theorem next_read (limits : Limits) {r : Reader} (sound : r.cursor.Sound) :
    ∃ node t,
      entry (budget r) { limits := limits } { r with abandoned := false } = some (node, t) ∧
      next limits r = (⟨node, t.diagnostics, t.cursor.raw⟩,
        { t with diagnostics := [], cursor := t.cursor.beginEntry }) ∧
      Spent r.left (Rule.uses (.statement false) r.token.kind) t := by
  have start : Ahead r.left 0 r.token.kind { r with abandoned := false } :=
    ⟨⟨sound, Nat.le_refl _⟩, rfl⟩
  obtain ⟨node, t, run, after⟩ := entry_total (le_budget r) r.token.kind _ start
  exact ⟨node, t, run, next_of_entry run, after⟩

end ComplexScript.Entry
