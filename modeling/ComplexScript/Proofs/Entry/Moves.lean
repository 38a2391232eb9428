import ComplexScript.Entry.Grammar
import ComplexScript.Proofs.Token.Scanning
set_option autoImplicit false

/-!
# Two readers in step

A relation between readers that the moves of reading neither tell apart nor break is a
`Read.Simulation`.  `Read.Sim` says of two pieces of the grammar that they read the same over
related readers, with `Q` known of the result; here it is shown of the moves.

The second piece may have the greater limits.  Where it goes on and the first one gives up, the
second reader is lost: the relation has `none` in its place, and the comparison says nothing more
about it.
-/

namespace ComplexScript.Entry

open ComplexScript.Program (Node)
open ComplexScript.Token (Kind)
open ComplexScript.Token.Scan (Lexed)

/-! ## What a move does to a reader -/

namespace Reader

/-- The next token. -/
def token (r : Reader) : Token := r.lookahead.getD (Token.Scan.next r.cursor).1.token

/-- The reader that has looked at the next token. -/
def looked (r : Reader) : Reader :=
  match r.lookahead with
  | some _ => r
  | none => Read.fetched r (Token.Scan.next r.cursor).1 (Token.Scan.next r.cursor).2

/-- The reader that has used the token it looked at. -/
def used (r : Reader) : Reader := { r with lookahead := none }

/-- The reader that has reported a complaint. -/
def reported (d : Diagnostic) (r : Reader) : Reader :=
  if r.abandoned then r else { r with diagnostics := r.diagnostics ++ [d] }

/-- The reader that has given up at a token. -/
def gaveUp (t : Token) (r : Reader) : Reader :=
  { r with diagnostics := r.diagnostics ++ [⟨t, .nestingTooDeep⟩], abandoned := true }

theorem looked_lookahead (r : Reader) : r.looked.lookahead = some r.token := by
  unfold looked token
  cases h : r.lookahead with
  | some t => exact h
  | none => rfl

theorem looked_of_some {r : Reader} {t : Token} (h : r.lookahead = some t) : r.looked = r := by
  rw [looked, h]

@[simp] theorem token_looked (r : Reader) : r.looked.token = r.token := by
  rw [token, looked_lookahead]
  rfl

@[simp] theorem looked_looked (r : Reader) : r.looked.looked = r.looked :=
  looked_of_some (looked_lookahead r)

@[simp] theorem looked_abandoned (r : Reader) : r.looked.abandoned = r.abandoned := by
  unfold looked
  split <;> rfl

end Reader

namespace Read

variable {α β : Type}

theorem look_eq (r : Reader) : look r = some (r.token, r.looked) := by
  unfold look Reader.token Reader.looked
  cases r.lookahead <;> rfl

theorem report_eq (d : Diagnostic) (r : Reader) : report d r = some (⟨⟩, r.reported d) := rfl

theorem bind_eq_some {m : Read α} {f : α → Read β} {r s : Reader} {b : β} :
    (m >>= f) r = some (b, s) ↔ ∃ a t, m r = some (a, t) ∧ f a t = some (b, s) := by
  show (m r).bind (fun p => f p.1 p.2) = some (b, s) ↔ _
  rw [Option.bind_eq_some_iff]
  exact ⟨fun ⟨⟨a, t⟩, first, second⟩ => ⟨a, t, first, second⟩,
    fun ⟨a, t, first, second⟩ => ⟨(a, t), first, second⟩⟩

theorem bind_of_eq {m : Read α} {f : α → Read β} {r s : Reader} {a : α}
    (h : m r = some (a, s)) : (m >>= f) r = f a s := by
  show (m r).bind (fun p => f p.1 p.2) = f a s
  rw [h, Option.bind_some]

/-! ## What accepting a token does -/

theorem accept?_eq (kind : Kind) (r : Reader) :
    accept? kind r = if r.token.kind = kind then some (some r.token, r.looked.used)
      else some (none, r.looked) := by
  rw [accept?, bind_of_eq (look_eq r)]
  split <;> rfl

theorem accept_of_eq {kind : Kind} {r : Reader} (h : r.token.kind = kind) :
    accept kind r = some (true, r.looked.used) := by
  rw [accept, bind_of_eq ((accept?_eq kind r).trans (if_pos h))]
  rfl

theorem accept_of_ne {kind : Kind} {r : Reader} (h : r.token.kind ≠ kind) :
    accept kind r = some (false, r.looked) := by
  rw [accept, bind_of_eq ((accept?_eq kind r).trans (if_neg h))]
  rfl

/-- What comes after a token that may stand there. -/
theorem acceptOr_eq (kind : Kind) (yes no : Read β) (r : Reader) :
    (accept kind >>= fun next => if next then yes else no) r =
      if r.token.kind = kind then yes r.looked.used else no r.looked := by
  split
  · next same => rw [bind_of_eq (accept_of_eq same), if_pos rfl]
  · next other => rw [bind_of_eq (accept_of_ne other), if_neg Bool.false_ne_true]

theorem isNextOr_eq (kind : Kind) (yes no : Read β) (r : Reader) :
    (isNext kind >>= fun next => if next then yes else no) r =
      if r.token.kind = kind then yes r.looked else no r.looked := by
  have looked : isNext kind r = some (decide (r.token.kind = kind), r.looked) := by
    rw [isNext, bind_of_eq (look_eq r)]
    rfl
  rw [bind_of_eq looked]
  by_cases same : r.token.kind = kind
  · rw [decide_eq_true same, if_pos rfl, if_pos same]
  · rw [decide_eq_false same, if_neg Bool.false_ne_true, if_neg same]

theorem expect_of_eq {kind : Kind} {r : Reader} (h : r.token.kind = kind) :
    expect kind r = some (true, r.looked.used) := by
  have expected : expect? kind r = some (some r.token, r.looked.used) := by
    rw [expect?, bind_of_eq (look_eq r), if_pos h]
    rfl
  rw [expect, bind_of_eq expected]
  rfl

theorem acceptOperator?_of_not {level : Level} {r : Reader} (h : level.has r.token.kind = false) :
    acceptOperator? level r = some (none, r.looked) := by
  rw [acceptOperator?, bind_of_eq (look_eq r), if_neg (by rw [h]; exact Bool.false_ne_true)]
  rfl

/-! ## Simulations -/

/-- A relation between readers that moves neither tell apart nor break. -/
structure Simulation (T : Reader → Option Reader → Prop) : Prop where
  token : ∀ {r o}, T r o → ∀ r', o = some r' → r.token = r'.token
  lexed : ∀ {r o}, T r o → Lexed r.token
  abandoned : ∀ {r o}, T r o → ∀ r', o = some r' → r.abandoned = r'.abandoned
  look : ∀ {r o}, T r o → T r.looked (o.map (·.looked))
  use : ∀ {r o}, T r o → T r.used (o.map (·.used))
  report : ∀ {r o}, T r o → ∀ d, T (r.reported d) (o.map (·.reported d))
  giveUp : ∀ {r o}, T r o → r.abandoned = false → ∀ t, T (r.gaveUp t) (o.map (·.gaveUp t))

/-- Over related readers, what the first piece reads has the property `Q`, and the second one reads
the same and leaves a related reader, unless it is lost. -/
def Sim (T : Reader → Option Reader → Prop) (Q : α → Prop) (m m' : Read α) : Prop :=
  ∀ r o, T r o → ∀ a s, m r = some (a, s) →
    Q a ∧ ∃ o', T s o' ∧ ∀ s', o' = some s' → ∃ r', o = some r' ∧ m' r' = some (a, s')

section

variable {T : Reader → Option Reader → Prop} {Q : α → Prop}

theorem Sim.pure {a : α} (h : Q a) : Sim T Q (pure a : Read α) (Pure.pure a) := by
  intro r o related b s run
  cases run
  exact ⟨h, o, related, fun s' same => ⟨s', same, rfl⟩⟩

theorem Sim.starved {m' : Read α} : Sim T Q Read.starved m' := fun _ _ _ _ _ run => nomatch run

theorem Sim.mono {P : α → Prop} {m m' : Read α} (h : Sim T P m m') (weaker : ∀ a, P a → Q a) :
    Sim T Q m m' := by
  intro r o related a s run
  obtain ⟨known, rest⟩ := h r o related a s run
  exact ⟨weaker a known, rest⟩

theorem Sim.bind {P : α → Prop} {Q : β → Prop} {m m' : Read α} {f f' : α → Read β}
    (first : Sim T P m m') (second : ∀ a, P a → Sim T Q (f a) (f' a)) :
    Sim T Q (m >>= f) (m' >>= f') := by
  intro r o related b s run
  obtain ⟨a, t, here, there⟩ := bind_eq_some.mp run
  obtain ⟨known, o₁, related₁, first'⟩ := first r o related a t here
  obtain ⟨known', o₂, related₂, second'⟩ := second a known t o₁ related₁ b s there
  refine ⟨known', o₂, related₂, fun s' same => ?_⟩
  obtain ⟨t', same', there'⟩ := second' s' same
  obtain ⟨r', same'', here'⟩ := first' t' same'
  exact ⟨r', same'', bind_eq_some.mpr ⟨a, t', here', there'⟩⟩

/-- A move that always has a result, and the same one on both sides. -/
theorem Sim.of_move {m m' : Read α} (result : Reader → α) (after : Reader → Reader)
    (left : ∀ r, m r = some (result r, after r)) (right : ∀ r, m' r = some (result r, after r))
    (known : ∀ r o, T r o → Q (result r)) (related : ∀ r o, T r o → T (after r) (o.map after))
    (same : ∀ r o, T r o → ∀ r', o = some r' → result r = result r') : Sim T Q m m' := by
  intro r o h a s run
  rw [left r] at run
  cases run
  refine ⟨known r o h, o.map after, related r o h, fun s' eq => ?_⟩
  obtain ⟨r', found, rfl⟩ := Option.map_eq_some_iff.mp eq
  exact ⟨r', found, by rw [right r', same r o h r' found]⟩

end

section

variable {T : Reader → Option Reader → Prop} (sim : Simulation T)

include sim

theorem look_sim : Sim T Lexed look look :=
  .of_move _ _ look_eq look_eq (fun _ _ => sim.lexed) (fun _ _ => sim.look)
    fun _ _ => sim.token

theorem use_sim : Sim T (fun _ => True) use use :=
  .of_move _ Reader.used (fun _ => rfl) (fun _ => rfl) (fun _ _ _ => trivial) (fun _ _ => sim.use)
    fun _ _ _ _ _ => rfl

theorem isAbandoned_sim : Sim T (fun _ => True) isAbandoned isAbandoned := by
  refine .of_move Reader.abandoned id (fun _ => rfl) (fun _ => rfl) (fun _ _ _ => trivial)
    (fun r o h => ?_) fun _ _ => sim.abandoned
  rw [Option.map_id]
  exact h

theorem report_sim (d : Diagnostic) : Sim T (fun _ => True) (report d) (report d) :=
  .of_move _ _ (report_eq d) (report_eq d) (fun _ _ _ => trivial) (fun _ _ h => sim.report h d)
    fun _ _ _ _ _ => rfl

theorem isNext_sim (kind : Kind) : Sim T (fun _ => True) (isNext kind) (isNext kind) :=
  (look_sim sim).bind fun _ _ => .pure trivial

theorem accept?_sim (kind : Kind) :
    Sim T (fun o => ∀ t, o = some t → t.kind = kind ∧ Lexed t) (accept? kind) (accept? kind) := by
  refine (look_sim sim).bind fun t lexed => ?_
  split
  · next same =>
    refine (use_sim sim).bind fun _ _ => .pure fun u found => ?_
    cases found
    exact ⟨same, lexed⟩
  · exact .pure fun _ found => nomatch found

theorem accept_sim (kind : Kind) : Sim T (fun _ => True) (accept kind) (accept kind) :=
  (accept?_sim sim kind).bind fun _ _ => .pure trivial

theorem expect?_sim (kind : Kind) :
    Sim T (fun o => ∀ t, o = some t → t.kind = kind ∧ Lexed t) (expect? kind) (expect? kind) := by
  refine (look_sim sim).bind fun t lexed => ?_
  split
  · next same =>
    refine (use_sim sim).bind fun _ _ => .pure fun u found => ?_
    cases found
    exact ⟨same, lexed⟩
  · refine (report_sim sim _).bind fun _ _ => ?_
    cases endsStatement t.kind with
    | true => exact .pure fun _ found => nomatch found
    | false =>
      refine (isAbandoned_sim sim).bind fun abandoned _ => ?_
      split
      · exact .pure fun _ found => nomatch found
      · exact (use_sim sim).bind fun _ _ => .pure fun _ found => nomatch found

theorem expect_sim (kind : Kind) : Sim T (fun _ => True) (expect kind) (expect kind) :=
  (expect?_sim sim kind).bind fun _ _ => .pure trivial

theorem acceptOperator?_sim (level : Level) :
    Sim T (fun _ => True) (acceptOperator? level) (acceptOperator? level) := by
  refine (look_sim sim).bind fun t _ => ?_
  split
  · exact (use_sim sim).bind fun _ _ => .pure trivial
  · exact .pure trivial

end

/-! ## Giving up -/

theorem skipLine_succ (fuel : Nat) (r : Reader) :
    skipLine (fuel + 1) r =
      if endsStatement r.token.kind then some (⟨⟩, r.looked) else skipLine fuel r.looked.used := by
  simp only [skipLine, bind, StateT.bind, look_eq, Option.bind_some]
  split <;> rfl

theorem giveUp_eq (fuel : Nat) (r : Reader) :
    giveUp fuel r =
      if r.abandoned then some (⟨⟩, r) else skipLine fuel (r.looked.gaveUp r.token) := by
  simp only [giveUp, bind, StateT.bind, isAbandoned, Option.bind_some]
  cases abandoned : r.abandoned with
  | true => rfl
  | false =>
    simp only [Bool.false_eq_true, if_false, StateT.bind, look_eq, report_eq, abandon, bind,
      Option.bind_some, Reader.reported, Reader.looked_abandoned, abandoned]
    rfl

theorem skipLine_abandoned {fuel : Nat} {r s : Reader} {u : PUnit}
    (run : skipLine fuel r = some (u, s)) : s.abandoned = r.abandoned := by
  induction fuel generalizing r with
  | zero => cases run
  | succ fuel ih =>
    rw [skipLine_succ] at run
    split at run
    · cases run
      exact Reader.looked_abandoned r
    · exact (ih run).trans (Reader.looked_abandoned r)

/-- After giving up the entry has been given up. -/
theorem giveUp_abandoned {fuel : Nat} {r s : Reader} {u : PUnit}
    (run : giveUp fuel r = some (u, s)) : s.abandoned = true := by
  rw [giveUp_eq] at run
  split at run
  · next abandoned =>
    cases run
    exact abandoned
  · exact skipLine_abandoned run

/-- The second context is the first one, or differs from it in greater limits, and then a second
reader may be lost when the first one has given up. -/
structure Admits (T : Reader → Option Reader → Prop) (ctx ctx' : Context) : Prop where
  depth : ctx.depth = ctx'.depth
  chain : ctx.chain = ctx'.chain
  groups : ctx.groups = ctx'.groups
  limits : ctx.limits = ctx'.limits ∨
    ctx.limits.nesting ≤ ctx'.limits.nesting ∧ ctx.limits.chain ≤ ctx'.limits.chain ∧
      ∀ r o, T r o → r.abandoned = true → T r none

theorem Admits.refl (T : Reader → Option Reader → Prop) (ctx : Context) : Admits T ctx ctx :=
  ⟨rfl, rfl, rfl, .inl rfl⟩

section

variable {T : Reader → Option Reader → Prop} (sim : Simulation T) {fuel fuel' : Nat}
  {ctx ctx' : Context}

theorem Admits.deeper (h : Admits T ctx ctx') :
    Admits T { ctx with depth := ctx.depth + 1 } { ctx' with depth := ctx'.depth + 1 } :=
  ⟨congrArg (· + 1) h.depth, h.chain, h.groups, h.limits⟩

theorem Admits.further (h : Admits T ctx ctx') :
    Admits T { ctx with chain := ctx.chain + 1 } { ctx' with chain := ctx'.chain + 1 } :=
  ⟨h.depth, congrArg (· + 1) h.chain, h.groups, h.limits⟩

theorem Admits.inGroup (h : Admits T ctx ctx') :
    Admits T { ctx with groups := ctx.groups + 1 } { ctx' with groups := ctx'.groups + 1 } :=
  ⟨h.depth, h.chain, congrArg (· + 1) h.groups, h.limits⟩

include sim

theorem skipLine_sim (le : fuel ≤ fuel') :
    Sim T (fun _ => True) (skipLine fuel) (skipLine fuel') := by
  induction fuel generalizing fuel' with
  | zero => exact .starved
  | succ fuel ih =>
    obtain ⟨fuel', rfl⟩ := Nat.exists_eq_add_of_lt le
    refine (look_sim sim).bind fun t _ => ?_
    split
    · exact .pure trivial
    · exact (use_sim sim).bind fun _ _ => ih (by omega)

theorem giveUp_sim (le : fuel ≤ fuel') : Sim T (fun _ => True) (giveUp fuel) (giveUp fuel') := by
  intro r o related a s run
  rw [giveUp_eq] at run
  cases abandoned : r.abandoned with
  | true =>
    rw [abandoned, if_pos rfl] at run
    cases run
    refine ⟨trivial, o, related, fun s' same => ⟨s', same, ?_⟩⟩
    rw [giveUp_eq, ← sim.abandoned related s' same, abandoned, if_pos rfl]
  | false =>
    rw [abandoned, if_neg Bool.false_ne_true] at run
    have begun := sim.giveUp (sim.look related) (r.looked_abandoned.trans abandoned) r.token
    obtain ⟨_, o', related', goesOn⟩ := skipLine_sim sim le _ _ begun a s run
    refine ⟨trivial, o', related', fun s' same => ?_⟩
    obtain ⟨t', found, run'⟩ := goesOn s' same
    rw [Option.map_map, Option.map_eq_some_iff] at found
    obtain ⟨r', isSecond, rfl⟩ := found
    refine ⟨r', isSecond, ?_⟩
    rw [giveUp_eq, ← sim.abandoned related r' isSecond, abandoned, if_neg Bool.false_ne_true,
      ← sim.token related r' isSecond]
    exact run'

/-- Where the first piece gives up, the second one does too or is lost. -/
theorem giveUp_lost {Q : Node → Prop} (known : Q .noOp)
    (lose : ∀ r o, T r o → r.abandoned = true → T r none) (m' : Read Node) :
    Sim T Q (do giveUp fuel; return .noOp) m' := by
  intro r o related a s run
  obtain ⟨u, t, here, there⟩ := bind_eq_some.mp run
  cases there
  obtain ⟨_, o', related', _⟩ := giveUp_sim sim (Nat.le_refl fuel) r o related u s here
  exact ⟨known, none, lose s o' related' (giveUp_abandoned here), fun _ none => nomatch none⟩

/-- A guard that the second piece has too, and that only a lost reader is spared. -/
theorem guarded_sim {Q : Node → Prop} (known : Q .noOp) (le : fuel ≤ fuel') {p p' : Prop}
    [Decidable p] [Decidable p'] (weaker : p' → p)
    (lose : p → ¬ p' → ∀ r o, T r o → r.abandoned = true → T r none) {m m' : Read Node}
    (inside : Sim T Q m m') :
    Sim T Q (if p then do giveUp fuel; return .noOp else m)
      (if p' then do giveUp fuel'; return .noOp else m') := by
  by_cases first : p
  · rw [if_pos first]
    by_cases second : p'
    · rw [if_pos second]
      exact (giveUp_sim sim le).bind fun _ _ => .pure known
    · exact giveUp_lost sim known (lose first second) _
  · rw [if_neg first, if_neg fun second => first (weaker second)]
    exact inside

theorem nested_sim {Q : Node → Prop} (known : Q .noOp) (le : fuel ≤ fuel')
    (admits : Admits T ctx ctx') {rule rule' : Context → Read Node}
    (h : ∀ deeper deeper', Admits T deeper deeper' → Sim T Q (rule deeper) (rule' deeper')) :
    Sim T Q (nested fuel ctx rule) (nested fuel' ctx' rule') := by
  have inside := h _ _ admits.deeper
  obtain ⟨depth, _, _, same | ⟨nesting, _, lose⟩⟩ := admits
  · refine guarded_sim sim known le ?_ (fun first second => absurd ?_ second) inside
    · rw [same, depth]
      exact id
    · rw [← same, ← depth]
      exact first
  · exact guarded_sim sim known le (by omega) (fun _ _ => lose) inside

theorem chained_sim {Q : Node → Prop} (known : Q .noOp) (le : fuel ≤ fuel')
    (admits : Admits T ctx ctx') {rule rule' : Context → Read Node}
    (h : ∀ further further', Admits T further further' → Sim T Q (rule further) (rule' further')) :
    Sim T Q (chained fuel ctx rule) (chained fuel' ctx' rule') := by
  have inside := h _ _ admits.further
  obtain ⟨_, chain, _, same | ⟨_, greater, lose⟩⟩ := admits
  · refine guarded_sim sim known le ?_ (fun first second => absurd ?_ second) inside
    · rw [same, chain]
      exact id
    · rw [← same, ← chain]
      exact first
  · exact guarded_sim sim known le (by omega) (fun _ _ => lose) inside

end

end Read

end ComplexScript.Entry
