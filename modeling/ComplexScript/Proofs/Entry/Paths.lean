import ComplexScript.Proofs.Entry.Budget
import ComplexScript.Proofs.Token.Spelling
set_option autoImplicit false

/-!
# What the grammar does to a reader

Reading goes from one reader to another by moves: tokens are looked at and used, complaints are
made about tokens that were looked at, and at one of them the entry may be given up.  A `Path` is
such a sequence of moves with the tokens used on it.  `Read.Traced` says of a piece of the grammar
that it takes a path, and what the tokens used on it have to do with what is read if there is
nothing to complain about; here it is shown of the moves.

Commas, semicolons, line breaks and brackets only hold a text together.  The other tokens are the
significant ones (`significant`).
-/

namespace ComplexScript.Entry

open ComplexScript.Program
open ComplexScript.Token (Kind Spelled)

/-! ## Paths -/

/-- Moves take a reader to another one, and these are the tokens used on the way.  Complaints are
about tokens seen on the way, or about those of `seen`. -/
inductive Path : List Token → Reader → List Token → Reader → Prop where
  | stay (seen : List Token) (r : Reader) : Path seen r [] r
  | look {seen ts : List Token} {r s : Reader} (rest : Path (r.token :: seen) r.looked ts s) :
      Path seen r ts s
  | use {seen ts : List Token} {r s : Reader} {t : Token} (next : r.lookahead = some t)
      (inText : t.kind ≠ .endOfInput) (rest : Path seen r.used ts s) : Path seen r (t :: ts) s
  | report {seen ts : List Token} {r s : Reader} {d : Diagnostic} (known : d.token ∈ seen)
      (rest : Path seen (r.reported d) ts s) : Path seen r ts s
  | giveUp {seen ts : List Token} {r s : Reader} {t : Token} (known : t ∈ seen)
      (notYet : r.abandoned = false) (rest : Path seen (r.gaveUp t) ts s) : Path seen r ts s

/-- There is nothing to complain about. -/
structure Reader.Clean (r : Reader) : Prop where
  diagnostics : r.diagnostics = []
  abandoned : r.abandoned = false

/-- The token looked at is spelled as its kind says. -/
def Reader.Spelled (r : Reader) : Prop := ∀ t, r.lookahead = some t → Token.Spelled t

namespace Reader

variable {r : Reader}

theorem Spelled.token (h : r.Spelled) : Token.Spelled r.token := by
  unfold Reader.token
  cases found : r.lookahead with
  | none => exact Token.Scan.next_spelled r.cursor
  | some t => exact h t found

theorem Spelled.looked (h : r.Spelled) : r.looked.Spelled := by
  intro t found
  rw [looked_lookahead] at found
  cases found
  exact h.token

theorem clean_of_looked (h : r.looked.Clean) : r.Clean := by
  refine ⟨?_, r.looked_abandoned.symm.trans h.abandoned⟩
  have diagnostics := h.diagnostics
  unfold looked at diagnostics
  split at diagnostics
  · exact diagnostics
  · exact (List.append_eq_nil_iff.mp diagnostics).1

/-- After a complaint there is something to complain about, or the entry has been given up. -/
theorem not_clean_reported (d : Diagnostic) : ¬ (r.reported d).Clean := by
  unfold reported
  intro clean
  split at clean
  · next abandoned => cases abandoned.symm.trans clean.abandoned
  · exact List.append_ne_nil_of_right_ne_nil _ (List.cons_ne_nil _ _) clean.diagnostics

theorem not_clean_gaveUp (t : Token) : ¬ (r.gaveUp t).Clean :=
  fun clean => nomatch clean.abandoned

end Reader

namespace Path

variable {seen seen' ts us : List Token} {r s u : Reader}

theorem weaken (h : Path seen r ts s) (more : seen ⊆ seen') : Path seen' r ts s := by
  induction h generalizing seen' with
  | stay => exact .stay _ _
  | look _ ih => exact .look (ih (List.cons_subset_cons _ more))
  | use next inText _ ih => exact .use next inText (ih more)
  | report known _ ih => exact .report (more known) (ih more)
  | giveUp known notYet _ ih => exact .giveUp (more known) notYet (ih more)

theorem trans (h : Path seen r ts s) (next : Path seen s us u) : Path seen r (ts ++ us) u := by
  induction h with
  | stay => exact next
  | look _ ih => exact .look (ih (next.weaken (List.subset_cons_self _ _)))
  | use next' inText _ ih => exact .use next' inText (ih next)
  | report known _ ih => exact .report known (ih next)
  | giveUp known notYet _ ih => exact .giveUp known notYet (ih next)

/-- Complaints are never taken back, and an entry given up stays so. -/
theorem clean (h : Path seen r ts s) (after : s.Clean) : r.Clean := by
  induction h with
  | stay => exact after
  | look _ ih => exact Reader.clean_of_looked (ih after)
  | use _ _ _ ih => exact ⟨(ih after).diagnostics, (ih after).abandoned⟩
  | report _ _ ih => exact absurd (ih after) (Reader.not_clean_reported _)
  | giveUp _ _ _ ih => exact absurd (ih after) (Reader.not_clean_gaveUp _)

/-- Complaints are never taken back. -/
theorem diagnostics (h : Path seen r ts s) : r.diagnostics ⊆ s.diagnostics := by
  induction h with
  | stay => exact List.Subset.refl _
  | @look _ _ r _ _ ih =>
    refine List.Subset.trans ?_ ih
    unfold Reader.looked
    split
    · exact List.Subset.refl _
    · exact List.subset_append_left _ _
  | use _ _ _ ih => exact ih
  | @report _ _ r _ d _ _ ih =>
    refine List.Subset.trans ?_ ih
    unfold Reader.reported
    split
    · exact List.Subset.refl _
    · exact List.subset_append_left _ _
  | giveUp _ _ _ ih => exact List.Subset.trans (List.subset_append_left _ _) ih

theorem spelled (h : Path seen r ts s) (before : r.Spelled) : s.Spelled := by
  induction h with
  | stay => exact before
  | look _ ih => exact ih before.looked
  | use _ _ _ ih => exact ih fun _ found => nomatch found
  | @report _ _ r _ d _ _ ih =>
    refine ih ?_
    unfold Reader.reported
    split <;> exact before
  | giveUp _ _ _ ih => exact ih before

end Path

/-! ## Significant tokens -/

/-- The kinds of the tokens that only hold a text together. -/
def separators : List Kind :=
  [.openParenthesis, .closeParenthesis, .openBrace, .closeBrace, .comma, .semicolon, .lineBreak]

/-- The end of the text is no separator: it is never used. -/
theorem inText_of_separator {kind : Kind} (h : kind ∈ separators) : kind ≠ .endOfInput := by
  rintro rfl
  exact absurd h (by decide)

/-- The tokens that say something of their own. -/
def significant (ts : List Token) : List Token := ts.filter (·.kind ∉ separators)

theorem significant_append (ts us : List Token) :
    significant (ts ++ us) = significant ts ++ significant us := List.filter_append ts us

theorem significant_separator {t : Token} (h : t.kind ∈ separators) : significant [t] = [] :=
  List.filter_cons_of_neg (by simpa using h)

theorem significant_word {t : Token} (h : t.kind ∉ separators) : significant [t] = [t] :=
  List.filter_cons_of_pos (decide_eq_true h)

/-! ## Pieces of the grammar and their paths -/

namespace Read

variable {α β : Type}

/-- From a reader in `pre` the piece takes a path, and if there is nothing to complain about, what
is read and the significant tokens used are in `P`. -/
def Traced (pre : Reader → Prop) (seen : List Token) (m : Read α) (P : α → List Token → Prop) :
    Prop :=
  ∀ r a s, r.Spelled → pre r → m r = some (a, s) →
    ∃ ts, Path seen r ts s ∧ (s.Clean → P a (significant ts))

/-- Nothing is known of the reader. -/
abbrev Anywhere : Reader → Prop := fun _ => True

/-- The token has been looked at and not used. -/
abbrev At (t : Token) : Reader → Prop := fun r => r.lookahead = some t

section

variable {pre : Reader → Prop} {seen seen' : List Token} {P : β → List Token → Prop}

theorem Traced.pure {b : β} (h : P b []) : Traced pre seen (pure b) P := by
  intro r a s _ _ run
  cases run
  exact ⟨[], .stay _ _, fun _ => h⟩

theorem Traced.starved : Traced pre seen (Read.starved : Read β) P :=
  fun _ _ _ _ _ run => nomatch run

theorem Traced.mono {Q : β → List Token → Prop} {m : Read β} (h : Traced pre seen m P)
    (weaker : ∀ b ts, P b ts → Q b ts) : Traced pre seen m Q := by
  intro r b s spelled before run
  obtain ⟨ts, path, known⟩ := h r b s spelled before run
  exact ⟨ts, path, fun clean => weaker b _ (known clean)⟩

/-- Where nothing need be known of the reader, more may be. -/
theorem Traced.of_anywhere {m : Read β} (h : Traced Anywhere seen m P) : Traced pre seen m P :=
  fun r b s spelled _ run => h r b s spelled trivial run

theorem Traced.weaken {m : Read β} (h : Traced pre seen m P) (more : seen ⊆ seen') :
    Traced pre seen' m P := by
  intro r b s spelled before run
  obtain ⟨ts, path, known⟩ := h r b s spelled before run
  exact ⟨ts, path.weaken more, known⟩

theorem Traced.bind {Q : α → List Token → Prop} {m : Read α} {f : α → Read β}
    (first : Traced pre seen m Q)
    (second : ∀ a, Traced Anywhere seen (f a) fun b us => ∀ ts, Q a ts → P b (ts ++ us)) :
    Traced pre seen (m >>= f) P := by
  intro r b u spelled before run
  obtain ⟨a, s, here, there⟩ := bind_eq_some.mp run
  obtain ⟨ts, path, known⟩ := first r a s spelled before here
  obtain ⟨us, path', known'⟩ := second a s b u (path.spelled spelled) trivial there
  refine ⟨ts ++ us, path.trans path', fun clean => ?_⟩
  rw [significant_append]
  exact known' clean _ (known (path'.clean clean))

/-! ## Moves -/

theorem Traced.look {f : Token → Read β}
    (h : ∀ t, Spelled t → Traced (At t) (t :: seen) (f t) P) :
    Traced pre seen (look >>= f) P := by
  intro r b s spelled _ run
  rw [bind_of_eq (look_eq r)] at run
  obtain ⟨ts, path, known⟩ := h r.token spelled.token r.looked b s spelled.looked
    r.looked_lookahead run
  exact ⟨ts, .look path, known⟩

theorem Traced.use {t : Token} {f : PUnit → Read β} (inText : t.kind ≠ .endOfInput)
    (h : Traced Anywhere seen (f ⟨⟩) fun b us => P b (significant [t] ++ us)) :
    Traced (At t) seen (use >>= f) P := by
  intro r b s _ next run
  obtain ⟨ts, path, known⟩ := h r.used b s (fun _ found => nomatch found) trivial run
  refine ⟨t :: ts, .use next inText path, fun clean => ?_⟩
  rw [← List.singleton_append, significant_append]
  exact known clean

theorem Traced.useSeparator {t : Token} {f : PUnit → Read β} (separator : t.kind ∈ separators)
    (h : Traced Anywhere seen (f ⟨⟩) P) : Traced (At t) seen (Read.use >>= f) P := by
  refine .use (inText_of_separator separator) ?_
  rw [significant_separator separator]
  exact h

theorem Traced.useWord {t : Token} {f : PUnit → Read β} (inText : t.kind ≠ .endOfInput)
    (word : t.kind ∉ separators) (h : Traced Anywhere seen (f ⟨⟩) fun b us => P b (t :: us)) :
    Traced (At t) seen (Read.use >>= f) P := by
  refine .use inText ?_
  rw [significant_word word]
  exact h

/-- A complaint, after which nothing has to be shown of what is read. -/
theorem Traced.report {d : Diagnostic} {f : PUnit → Read β} (known : d.token ∈ seen)
    (h : Traced pre seen (f ⟨⟩) fun _ _ => True)
    (keeps : ∀ r, pre r → pre (r.reported d)) : Traced pre seen (report d >>= f) P := by
  intro r b s spelled before run
  rw [bind_of_eq (report_eq d r)] at run
  have spelled' : (r.reported d).Spelled := by
    unfold Reader.reported
    split <;> exact spelled
  obtain ⟨ts, path, _⟩ := h _ b s spelled' (keeps r before) run
  exact ⟨ts, .report known path, fun clean => absurd (path.clean clean)
    (Reader.not_clean_reported d)⟩

/-- Once the entry has been given up, nothing has to be shown of what is read. -/
theorem Traced.isAbandoned {f : Bool → Read β}
    (h : ∀ b, Traced pre seen (f b) fun c us => b = false → P c us) :
    Traced pre seen (isAbandoned >>= f) P := by
  intro r b s spelled before run
  obtain ⟨ts, path, known⟩ := h r.abandoned r b s spelled before run
  exact ⟨ts, path, fun clean => known clean (path.clean clean).abandoned⟩

theorem at_reported (t : Token) (d : Diagnostic) (r : Reader) (h : At t r) :
    At t (r.reported d) := by
  unfold Reader.reported
  split <;> exact h

/-- A piece that uses only separators, before the rest. -/
theorem Traced.passing {m : Read α} {f : α → Read β} (first : Traced pre seen m fun _ ts => ts = [])
    (second : ∀ a, Traced Anywhere seen (f a) P) : Traced pre seen (m >>= f) P := by
  refine first.bind fun a => (second a).mono fun b us known ts none => ?_
  rw [none, List.nil_append]
  exact known

variable {kind : Kind}

/-- What comes after a token that may stand there. -/
theorem Traced.accept (inText : kind ≠ .endOfInput) {yes no : Read β}
    (isNext : ∀ t, t.kind = kind → Traced Anywhere seen yes fun b us => P b (significant [t] ++ us))
    (isNot : Traced Anywhere seen no P) :
    Traced pre seen (Read.accept kind >>= fun next => if next then yes else no) P := by
  unfold Read.accept accept?
  rw [bind_assoc, bind_assoc]
  refine .look fun t _ => ?_
  split
  · next same =>
    rw [bind_assoc]
    exact .use (same ▸ inText) ((isNext t same).weaken (List.subset_cons_self t seen))
  · exact (isNot.weaken (List.subset_cons_self t seen)).of_anywhere

theorem Traced.acceptSeparator (separator : kind ∈ separators) {yes no : Read β}
    (isNext : Traced Anywhere seen yes P) (isNot : Traced Anywhere seen no P) :
    Traced pre seen (Read.accept kind >>= fun next => if next then yes else no) P := by
  refine .accept (inText_of_separator separator) (fun t is => ?_) isNot
  rw [significant_separator (is ▸ separator)]
  exact isNext

theorem Traced.acceptWord (inText : kind ≠ .endOfInput) (word : kind ∉ separators)
    {yes no : Read β}
    (isNext : ∀ t, t.kind = kind → Traced Anywhere seen yes fun b us => P b (t :: us))
    (isNot : Traced Anywhere seen no P) :
    Traced pre seen (Read.accept kind >>= fun next => if next then yes else no) P := by
  refine .accept inText (fun t is => ?_) isNot
  rw [significant_word (is ▸ word)]
  exact isNext t is

theorem accept?_traced (inText : kind ≠ .endOfInput) :
    Traced pre seen (accept? kind) fun found ts =>
      ts = significant found.toList ∧ ∀ t, found = some t → t.kind = kind := by
  refine .look fun t _ => ?_
  split
  · next same =>
    refine .use (same ▸ inText) (.pure ⟨List.append_nil _, fun _ found => ?_⟩)
    cases found
    exact same
  · exact .pure ⟨rfl, fun _ found => nomatch found⟩

/-- Passing over a separator that may stand there. -/
theorem accept_traced (separator : kind ∈ separators) :
    Traced pre seen (Read.accept kind) fun _ ts => ts = [] := by
  refine (accept?_traced (inText_of_separator separator)).bind fun found => .pure ?_
  rintro _ ⟨rfl, same⟩
  rw [List.append_nil]
  cases found with
  | none => rfl
  | some t => exact significant_separator (same t rfl ▸ separator)

theorem isNext_traced (kind : Kind) :
    Traced pre seen (isNext kind) fun _ ts => ts = [] :=
  .look fun _ _ => .pure rfl

/-- A token that has to stand there does, if there is nothing to complain about. -/
theorem expect?_traced (inText : kind ≠ .endOfInput) :
    Traced pre seen (expect? kind) fun found ts =>
      ∃ t, found = some t ∧ t.kind = kind ∧ ts = significant [t] := by
  refine .look fun t _ => ?_
  split
  · next same =>
    exact .use (same ▸ inText) (.pure ⟨t, rfl, same, List.append_nil _⟩)
  · refine .report List.mem_cons_self ?_ (at_reported t _)
    cases ends : endsStatement t.kind with
    | true => exact .pure trivial
    | false =>
      have goesOn : t.kind ≠ .endOfInput := by
        intro isEnd
        rw [isEnd] at ends
        cases ends
      refine .isAbandoned fun abandoned => ?_
      split
      · exact .pure fun _ => trivial
      · exact .use goesOn (.pure fun _ => trivial)

theorem expect_traced (separator : kind ∈ separators) :
    Traced pre seen (expect kind) fun _ ts => ts = [] := by
  refine (expect?_traced (inText_of_separator separator)).bind fun found => .pure ?_
  rintro _ ⟨t, _, same, rfl⟩
  rw [List.append_nil]
  exact significant_separator (same ▸ separator)

theorem acceptOperator?_traced (level : Level) :
    Traced pre seen (acceptOperator? level) fun found ts =>
      ts = significant found.toList ∧ ∀ t, found = some t → level.has t.kind ∧ Spelled t := by
  refine .look fun t spelled => ?_
  split
  · next has =>
    have inText : t.kind ≠ .endOfInput := by
      intro isEnd
      rw [isEnd] at has
      cases level <;> cases has
    refine .use inText (.pure ⟨List.append_nil _, fun _ found => ?_⟩)
    cases found
    exact ⟨has, spelled⟩
  · exact .pure ⟨rfl, fun _ found => nomatch found⟩

/-! ## Moves that repeat -/

variable {fuel : Nat}

theorem skipClosers_traced : Traced pre seen (skipClosers fuel) fun _ ts => ts = [] := by
  induction fuel generalizing pre with
  | zero => exact .starved
  | succ fuel ih =>
    exact .acceptSeparator (by decide) ih (.pure rfl)

theorem skipLine_traced : Traced pre seen (skipLine fuel) fun _ _ => True := by
  induction fuel generalizing pre seen with
  | zero => exact .starved
  | succ fuel ih =>
    refine .look fun t _ => ?_
    split
    · exact .pure trivial
    · next goesOn =>
      refine .use ?_ ih
      intro isEnd
      rw [isEnd] at goesOn
      exact goesOn rfl

/-- After giving up there is something to complain about. -/
theorem giveUp_traced : Traced pre seen (giveUp fuel) fun _ _ => False := by
  intro r a s spelled _ run
  have gaveUp := giveUp_abandoned run
  rw [giveUp_eq] at run
  split at run
  · cases run
    exact ⟨[], .stay _ _, fun clean => nomatch gaveUp.symm.trans clean.abandoned⟩
  · next notYet =>
    have skips : Traced Anywhere (r.token :: seen) (skipLine fuel) fun _ _ => True :=
      skipLine_traced
    obtain ⟨ts, path, _⟩ := skips (r.looked.gaveUp r.token) a s spelled.looked trivial run
    refine ⟨ts, .look (.giveUp List.mem_cons_self ?_ path), fun clean => ?_⟩
    · exact r.looked_abandoned.trans (Bool.not_eq_true _ ▸ notYet)
    · cases gaveUp.symm.trans clean.abandoned

variable {ctx : Context} {rule : Context → Read Node} {Q : Node → List Token → Prop}

theorem nested_traced (h : ∀ ctx, Traced Anywhere seen (rule ctx) Q) :
    Traced pre seen (nested fuel ctx rule) Q := by
  unfold nested
  split
  · exact giveUp_traced.bind fun _ => .pure fun _ never => never.elim
  · exact (h _).of_anywhere

theorem chained_traced (h : ∀ ctx, Traced Anywhere seen (rule ctx) Q) :
    Traced pre seen (chained fuel ctx rule) Q := by
  unfold chained
  split
  · exact giveUp_traced.bind fun _ => .pure fun _ never => never.elim
  · exact (h _).of_anywhere

end

end Read

end ComplexScript.Entry
