import ComplexScript.Proofs.Entry.Marks
set_option autoImplicit false

/-!
# Reading marks or giving up

At the marks of a construct a rule reads its tree and leaves what follows, or the limits do not
admit the construct and the rule gives up: there is one complaint, and the rest of the line is
skipped (`Read.Attempts`).  Whatever comes after giving up leaves it at that (`Read.Idles`), so the
two cases go through a sequence of pieces together.
-/

namespace ComplexScript.Entry

open ComplexScript.Program (Node)
open ComplexScript.Token (Kind)

/-- There is a first mark, and its kind has the property. -/
def Heads (p : Kind → Prop) : List Mark → Prop
  | [] => False
  | m :: _ => p m.kind

theorem Heads.mono {p q : Kind → Prop} {ms : List Mark} (h : Heads p ms)
    (weaker : ∀ kind, p kind → q kind) : Heads q ms := by
  cases ms with
  | nil => exact h
  | cons m ms => exact weaker m.kind h

/-- Marks before others have a first one, too. -/
theorem Heads.behind {p : Kind → Prop} {rest : List Mark} (h : Heads p rest) (ms : List Mark) :
    Heads (fun _ => True) (ms ++ rest) := by
  cases ms with
  | nil => exact h.mono fun _ _ => trivial
  | cons m ms => trivial

namespace Reader

/-- The tokens of these marks come next, and there is nothing to complain about. -/
structure Poised (tail : List Char) (ms : List Mark) (r : Reader) : Prop where
  sees : r.Sees tail ms
  clean : r.Clean

/-- These words and the line break come next, and there is nothing to complain about. -/
structure Awaits (ws : List Word) (r : Reader) : Prop where
  shows : r.Shows ws
  clean : r.Clean

/-- The entry was given up, with one complaint, and the line has been skipped. -/
structure GaveUp (r : Reader) : Prop where
  shows : r.Shows []
  complaint : ∃ t, r.diagnostics = [⟨t, .nestingTooDeep⟩]
  abandoned : r.abandoned = true

variable {tail : List Char} {r : Reader} {m : Mark} {ms : List Mark} {ws : List Word}
  {p : Kind → Prop}

theorem Awaits.poised (h : r.Awaits ws) : ∃ tail, r.Poised tail (marks ws ++ [.lineBreak]) := by
  obtain ⟨tail, sees⟩ := h.shows
  exact ⟨tail, sees, h.clean⟩

theorem Poised.token (h : r.Poised tail (m :: ms)) : Token.Is r.token m := h.sees.look.2.2

theorem Poised.kind (h : r.Poised tail ms) (heads : Heads p ms) : p r.token.kind := by
  cases ms with
  | nil => exact heads.elim
  | cons m ms =>
    rw [h.token.kind]
    exact heads

theorem Poised.look (h : r.Poised tail ms) (heads : Heads p ms) : r.looked.Poised tail ms := by
  cases ms with
  | nil => exact heads.elim
  | cons m ms =>
    obtain ⟨sees, same, _⟩ := h.sees.look
    exact ⟨sees, same.trans h.clean.diagnostics, r.looked_abandoned.trans h.clean.abandoned⟩

theorem Poised.use (h : r.Poised tail (m :: ms)) : r.looked.used.Poised tail ms := by
  have looked := h.look (p := fun _ => True) trivial
  exact ⟨h.sees.use, looked.clean.diagnostics, looked.clean.abandoned⟩

theorem GaveUp.look (h : r.GaveUp) : r.looked.GaveUp := by
  obtain ⟨tail, sees⟩ := h.shows
  obtain ⟨sees, same, _⟩ := sees.look
  exact ⟨⟨tail, sees⟩, same ▸ h.complaint, r.looked_abandoned.trans h.abandoned⟩

theorem GaveUp.kind (h : r.GaveUp) : r.token.kind = .lineBreak := by
  obtain ⟨tail, sees⟩ := h.shows
  exact sees.look.2.2.kind

theorem GaveUp.report (h : r.GaveUp) (d : Diagnostic) : r.reported d = r := by
  rw [reported, if_pos h.abandoned]

end Reader

namespace Read

variable {α β : Type} {fuel : Nat} {kind : Kind}

/-! ## After giving up -/

/-- The piece leaves an entry that was given up as it is. -/
def Idles (m : Read α) : Prop := ∀ r a s, r.GaveUp → m r = some (a, s) → s.GaveUp

theorem Idles.pure (a : α) : Idles (Pure.pure a : Read α) := by
  intro r b s gaveUp run
  cases run
  exact gaveUp

theorem Idles.bind {m : Read α} {f : α → Read β} (first : Idles m) (second : ∀ a, Idles (f a)) :
    Idles (m >>= f) := by
  intro r b s gaveUp run
  obtain ⟨a, t, here, there⟩ := bind_eq_some.mp run
  exact second a t b s (first r a t gaveUp here) there

/-- No token is accepted, but for the line break. -/
theorem Idles.acceptOr (other : kind ≠ .lineBreak) {yes no : Read β} (h : Idles no) :
    Idles (accept kind >>= fun next => if next then yes else no) := by
  intro r b s gaveUp run
  rw [acceptOr_eq, if_neg (gaveUp.kind ▸ other.symm)] at run
  exact h _ b s gaveUp.look run

theorem Idles.expect (other : kind ≠ .lineBreak) : Idles (expect kind) := by
  intro r b s gaveUp run
  have notThere : ¬ r.token.kind = kind := gaveUp.kind ▸ other.symm
  have ends : endsStatement r.token.kind = true := by rw [gaveUp.kind]; rfl
  have abandoned : isAbandoned r.looked = some (r.looked.abandoned, r.looked) := rfl
  rw [Read.expect, expect?, bind_assoc, bind_of_eq (look_eq r), if_neg notThere, bind_assoc,
    bind_of_eq (report_eq _ _), gaveUp.look.report, bind_assoc, bind_of_eq abandoned,
    if_pos (by rw [ends]; rfl)] at run
  cases run
  exact gaveUp.look

theorem Idles.acceptOperator (level : Level) {f : Option Token → Read β} (h : Idles (f none)) :
    Idles (acceptOperator? level >>= f) := by
  intro r b s gaveUp run
  have notThere : level.has r.token.kind = false := by
    rw [gaveUp.kind]
    cases level <;> rfl
  rw [bind_of_eq (acceptOperator?_of_not notThere)] at run
  exact h _ b s gaveUp.look run

theorem Idles.skipClosers : Idles (skipClosers fuel) := by
  cases fuel with
  | zero => exact fun _ _ _ _ run => nomatch run
  | succ fuel => exact .acceptOr (by decide) (.pure _)

/-! ## Reading marks -/

/-- At the marks `ms` before `rest` the piece reads `a` and leaves `rest`, if the limits admit it,
and gives up otherwise, as far as a line ends in `rest`. -/
def Attempts (fits : Prop) (ms rest : List Mark) (m : Read α) (a : α) : Prop :=
  ∀ tail r b s, r.Poised tail (ms ++ rest) → m r = some (b, s) →
    (fits → b = a ∧ s.Poised tail rest) ∧ (¬ fits → .lineBreak ∈ rest → s.GaveUp)

variable {fits : Prop} {ms us rest : List Mark} {m : Mark} {a : α} {b : β} {p : Kind → Prop}

theorem Attempts.pure : Attempts True [] rest (Pure.pure a) a := by
  intro tail r b s poised run
  cases run
  exact ⟨fun _ => ⟨rfl, poised⟩, fun never => absurd trivial never⟩

/-- What is read with a budget left is read on any budget: without one there is no result. -/
theorem Attempts.budgeted {x : Nat → Read α} (fuel : Nat) (zero : x 0 = starved)
    (succ : ∀ fuel, Attempts fits ms rest (x (fuel + 1)) a) :
    Attempts fits ms rest (x fuel) a := by
  cases fuel with
  | zero =>
    rw [zero]
    exact fun _ _ _ _ _ run => nomatch run
  | succ fuel => exact succ fuel

theorem Attempts.congr {fits' : Prop} {x : Read α} (h : Attempts fits ms rest x a)
    (same : fits ↔ fits') : Attempts fits' ms rest x a := propext same ▸ h

/-- What the limits admit is read. -/
theorem Attempts.admitted {x : Read α} (h : Attempts fits ms rest x a) (admits : fits) :
    Attempts True ms rest x a := h.congr (iff_true_intro admits)

theorem Attempts.bind {fits' : Prop} {x : Read α} {f : α → Read β}
    (first : Attempts fits ms (us ++ rest) x a) (second : Attempts fits' us rest (f a) b)
    (idles : ∀ a, Idles (f a)) : Attempts (fits ∧ fits') (ms ++ us) rest (x >>= f) b := by
  intro tail r c s poised run
  rw [List.append_assoc] at poised
  obtain ⟨a', t, here, there⟩ := bind_eq_some.mp run
  obtain ⟨read, gaveUp⟩ := first tail r a' t poised here
  by_cases admitted : fits
  · obtain ⟨rfl, between⟩ := read admitted
    obtain ⟨read', gaveUp'⟩ := second tail t c s between there
    exact ⟨fun both => read' both.2, fun neither => gaveUp' fun h => neither ⟨admitted, h⟩⟩
  · refine ⟨fun both => absurd both.1 admitted, fun _ ends => ?_⟩
    exact idles a' t c s (gaveUp admitted (List.mem_append_right us ends)) there

/-- After a piece that the limits admit nothing has been given up. -/
theorem Attempts.andThen {x : Read α} {f : α → Read β}
    (first : Attempts True ms (us ++ rest) x a) (second : Attempts fits us rest (f a) b) :
    Attempts fits (ms ++ us) rest (x >>= f) b := by
  intro tail r c s poised run
  rw [List.append_assoc] at poised
  obtain ⟨a', t, here, there⟩ := bind_eq_some.mp run
  obtain ⟨rfl, between⟩ := (first tail r a' t poised here).1 trivial
  exact second tail t c s between there

/-- What comes after a piece reads no marks. -/
theorem Attempts.followed {x : Read α} {f : α → Read β} (h : Attempts fits ms rest x a)
    (after : Attempts True [] rest (f a) b) (idles : ∀ a, Idles (f a)) :
    Attempts fits ms rest (x >>= f) b := by
  have both : Attempts (fits ∧ True) (ms ++ []) rest (x >>= f) b := .bind h after idles
  rw [List.append_nil] at both
  exact both.congr (and_iff_left trivial)

theorem Attempts.map {x : Read α} {f : α → β} (h : Attempts fits ms rest x a) :
    Attempts fits ms rest (x >>= fun a => Pure.pure (f a)) (f a) :=
  h.followed .pure fun a => .pure (f a)

/-! ## Moves -/

/-- A look at the next token. -/
theorem Attempts.glance (heads : Heads p (ms ++ rest)) {f : Token → Read β}
    (h : ∀ t, p t.kind → Attempts fits ms rest (f t) b) :
    Attempts fits ms rest (look >>= f) b := by
  intro tail r c s poised run
  rw [bind_of_eq (look_eq r)] at run
  exact h r.token (poised.kind heads) tail r.looked c s (poised.look heads) run

/-- The first mark is looked at and used. -/
theorem Attempts.take {f : Token → Read β}
    (h : ∀ t, Token.Is t m → ∃ g : PUnit → Read β, f t = use >>= g ∧
      Attempts fits ms rest (g ⟨⟩) b) : Attempts fits (m :: ms) rest (look >>= f) b := by
  intro tail r c s poised run
  obtain ⟨g, same, next⟩ := h r.token poised.token
  rw [bind_of_eq (look_eq r), same] at run
  exact next tail r.looked.used c s poised.use run

theorem Attempts.accept (is : m.kind = kind) {yes no : Read β} (h : Attempts fits ms rest yes b) :
    Attempts fits (m :: ms) rest (accept kind >>= fun next => if next then yes else no) b := by
  intro tail r c s poised run
  rw [acceptOr_eq, if_pos (poised.token.kind.trans is)] at run
  exact h tail r.looked.used c s poised.use run

/-- A token that may stand there does not. -/
theorem Attempts.absent (other : Heads (· ≠ kind) (ms ++ rest)) {f : Bool → Read β}
    (h : Attempts fits ms rest (f false) b) :
    Attempts fits ms rest (Read.accept kind >>= f) b := by
  intro tail r c s poised run
  have elsewhere : r.token.kind ≠ kind := poised.kind other
  rw [bind_of_eq (accept_of_ne elsewhere)] at run
  exact h tail r.looked c s (poised.look other) run

/-- Without a token that may stand there the rule goes the other way. -/
theorem Attempts.pass (other : Heads (· ≠ kind) (ms ++ rest)) {yes no : Read β}
    (h : Attempts fits ms rest no b) :
    Attempts fits ms rest (Read.accept kind >>= fun next => if next then yes else no) b :=
  .absent other h

/-- A token that is only looked for does not come next. -/
theorem Attempts.passNext (other : Heads (· ≠ kind) (ms ++ rest)) {yes no : Read β}
    (h : Attempts fits ms rest no b) :
    Attempts fits ms rest (Read.isNext kind >>= fun next => if next then yes else no) b := by
  intro tail r c s poised run
  rw [isNextOr_eq, if_neg (poised.kind other)] at run
  exact h tail r.looked c s (poised.look other) run

theorem Attempts.acceptToken (is : m.kind = kind) {f : Option Token → Read β}
    (h : ∀ t, Token.Is t m → Attempts fits ms rest (f (some t)) b) :
    Attempts fits (m :: ms) rest (accept? kind >>= f) b := by
  intro tail r c s poised run
  rw [bind_of_eq ((accept?_eq kind r).trans (if_pos (poised.token.kind.trans is)))] at run
  exact h r.token poised.token tail r.looked.used c s poised.use run

theorem Attempts.absentToken (other : Heads (· ≠ kind) (ms ++ rest)) {f : Option Token → Read β}
    (h : Attempts fits ms rest (f none) b) :
    Attempts fits ms rest (accept? kind >>= f) b := by
  intro tail r c s poised run
  rw [bind_of_eq ((accept?_eq kind r).trans (if_neg (poised.kind other)))] at run
  exact h tail r.looked c s (poised.look other) run

theorem Attempts.expectToken (is : m.kind = kind) {f : Option Token → Read β}
    (h : ∀ t, Token.Is t m → Attempts fits ms rest (f (some t)) b) :
    Attempts fits (m :: ms) rest (expect? kind >>= f) b := by
  intro tail r c s poised run
  have here := poised.token.kind.trans is
  have expected : expect? kind r = some (some r.token, r.looked.used) := by
    rw [expect?, bind_of_eq (look_eq r), if_pos here]
    rfl
  rw [bind_of_eq expected] at run
  exact h r.token poised.token tail r.looked.used c s poised.use run

theorem Attempts.expect (is : m.kind = kind) {f : Bool → Read β}
    (h : Attempts fits ms rest (f true) b) :
    Attempts fits (m :: ms) rest (Read.expect kind >>= f) b := by
  intro tail r c s poised run
  rw [bind_of_eq (expect_of_eq (poised.token.kind.trans is))] at run
  exact h tail r.looked.used c s poised.use run

/-- Nothing has been given up. -/
theorem Attempts.onward {f : Bool → Read β} (h : Attempts fits ms rest (f false) b) :
    Attempts fits ms rest (isAbandoned >>= f) b := by
  intro tail r c s poised run
  have onward : isAbandoned r = some (false, r) := by
    rw [← poised.clean.abandoned]
    rfl
  rw [bind_of_eq onward] at run
  exact h tail r c s poised run

theorem Attempts.acceptOperator {level : Level} (has : level.has m.kind = true)
    {f : Option Token → Read β} (h : ∀ t, Token.Is t m → Attempts fits ms rest (f (some t)) b) :
    Attempts fits (m :: ms) rest (acceptOperator? level >>= f) b := by
  intro tail r c s poised run
  have found : acceptOperator? level r = some (some r.token, r.looked.used) := by
    rw [acceptOperator?, bind_of_eq (look_eq r), if_pos (poised.token.kind ▸ has)]
    rfl
  rw [bind_of_eq found] at run
  exact h r.token poised.token tail _ c s poised.use run

theorem Attempts.passOperator {level : Level}
    (other : Heads (fun kind => level.has kind = false) (ms ++ rest))
    {f : Option Token → Read β} (h : Attempts fits ms rest (f none) b) :
    Attempts fits ms rest (acceptOperator? level >>= f) b := by
  intro tail r c s poised run
  rw [bind_of_eq (acceptOperator?_of_not (poised.kind other))] at run
  exact h tail r.looked c s (poised.look other) run

theorem Attempts.skipClosers (other : Heads (· ≠ .closeParenthesis) rest) :
    Attempts True [] rest (skipClosers fuel) ⟨⟩ := by
  apply Attempts.budgeted fuel rfl fun fuel => ?_
  rw [← List.nil_append rest] at other
  exact .pass other .pure

/-! ## Limits -/

/-- The rest of the line is skipped after giving up. -/
theorem gaveUp_of_skipLine {tail : List Char} {r s : Reader} {u : PUnit} (sees : r.Sees tail ms)
    (ends : .lineBreak ∈ ms) (complaint : ∃ t, r.diagnostics = [⟨t, .nestingTooDeep⟩])
    (abandoned : r.abandoned = true) (run : skipLine fuel r = some (u, s)) : s.GaveUp := by
  induction fuel generalizing ms r with
  | zero => cases run
  | succ fuel ih =>
    obtain ⟨m, ms, rfl⟩ := List.exists_cons_of_ne_nil (List.ne_nil_of_mem ends)
    obtain ⟨looked, same, is⟩ := sees.look
    have abandoned := r.looked_abandoned.trans abandoned
    rw [← same] at complaint
    rw [skipLine_succ, is.kind] at run
    by_cases lineBreak : m = .lineBreak
    · subst lineBreak
      cases run
      exact ⟨looked.only, complaint, abandoned⟩
    · have inLine := Mark.inLine lineBreak
      have goesOn : endsStatement m.kind = false := by
        simp [endsStatement, inLine.1, inLine.2]
      rw [goesOn] at run
      exact ih sees.use ((List.mem_cons.mp ends).resolve_left (Ne.symm lineBreak)) complaint
        abandoned run

theorem gaveUp_of_giveUp {tail : List Char} {r s : Reader} {u : PUnit} (poised : r.Poised tail ms)
    (ends : .lineBreak ∈ ms) (run : giveUp fuel r = some (u, s)) : s.GaveUp := by
  obtain ⟨m, ms, rfl⟩ := List.exists_cons_of_ne_nil (List.ne_nil_of_mem ends)
  have looked := poised.look (p := fun _ => True) trivial
  rw [giveUp_eq, poised.clean.abandoned, if_neg Bool.false_ne_true] at run
  have sees : (r.looked.gaveUp r.token).Sees tail (m :: ms) := looked.sees.congr rfl rfl
  refine gaveUp_of_skipLine sees ends ⟨r.token, ?_⟩ rfl run
  show r.looked.diagnostics ++ [_] = _
  rw [looked.clean.diagnostics]
  rfl

/-- A piece behind a limit. -/
theorem Attempts.guarded {p : Prop} [Decidable p] {x : Read Node} {node : Node}
    (h : ¬ p → Attempts fits ms rest x node) :
    Attempts (¬ p ∧ fits) ms rest (if p then do giveUp fuel; return .noOp else x) node := by
  intro tail r b s poised run
  split at run
  · next exceeded =>
    obtain ⟨u, t, here, there⟩ := bind_eq_some.mp run
    cases there
    exact ⟨fun within => absurd exceeded within.1,
      fun _ ends => gaveUp_of_giveUp poised (List.mem_append_right ms ends) here⟩
  · next within =>
    obtain ⟨read, gaveUp⟩ := h within tail r b s poised run
    exact ⟨fun both => read both.2, fun neither => gaveUp fun h => neither ⟨within, h⟩⟩

end Read

end ComplexScript.Entry
