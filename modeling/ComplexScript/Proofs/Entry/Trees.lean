import ComplexScript.Entry.Basic
import ComplexScript.Proofs.Entry.Rules
set_option autoImplicit false

/-!
# The trees of entries

A clean entry is a plain tree, or the definition of a function that has a plain body and not the
name of a built-in function (`next_sane`).  A definition can stand inside a tree only where the
text after a function does not end as it should, and then the entry has a complaint: complaints
are never taken back.  A property of readers that all moves keep is kept by whole entries
(`Read.Invariant`, `entry_invariant`).
-/

namespace ComplexScript.Entry

open ComplexScript.Program
open ComplexScript.Token (Kind)
open ComplexScript.Token.Scan (Lexed)
open Read

/-! ## Properties that moves keep -/

/-- The token looked at is one that the scanner has read. -/
def Reader.Sane (r : Reader) : Prop := ∀ t, r.lookahead = some t → Lexed t

theorem Reader.Sane.lexed {r : Reader} (sane : r.Sane) : Lexed r.token := by
  unfold Reader.token
  cases h : r.lookahead with
  | none => exact Token.Scan.next_lexed r.cursor
  | some t => exact sane t h

/-- A property of readers that all moves keep. -/
structure Read.Invariant (I : Reader → Prop) : Prop where
  sane : ∀ r, I r → r.Sane
  look : ∀ r, I r → I r.looked
  use : ∀ r, I r → I r.used
  report : ∀ r d, I r → I (r.reported d)
  giveUp : ∀ r t, I r → r.abandoned = false → I (r.gaveUp t)

/-- A reader is in step with itself. -/
theorem Read.Invariant.simulation {I : Reader → Prop} (invariant : Invariant I) :
    Simulation fun r o => o = some r ∧ I r where
  token := by
    rintro r _ ⟨rfl, _⟩ r' same
    rw [Option.some.inj same]
  lexed := by
    rintro r _ ⟨_, h⟩
    exact (invariant.sane r h).lexed
  abandoned := by
    rintro r _ ⟨rfl, _⟩ r' same
    rw [Option.some.inj same]
  look := by
    rintro r _ ⟨rfl, h⟩
    exact ⟨rfl, invariant.look r h⟩
  use := by
    rintro r _ ⟨rfl, h⟩
    exact ⟨rfl, invariant.use r h⟩
  report := by
    rintro r _ ⟨rfl, h⟩ d
    exact ⟨rfl, invariant.report r d h⟩
  giveUp := by
    rintro r _ ⟨rfl, h⟩ notYet t
    exact ⟨rfl, invariant.giveUp r t h notYet⟩

/-- A reader is in step with itself until it gives up, and may be lost from then on. -/
theorem Read.Invariant.lossy {I : Reader → Prop} (invariant : Invariant I) :
    Simulation fun r o => I r ∧ (o = some r ∨ o = none ∧ r.abandoned = true) where
  token := by
    rintro r _ ⟨_, rfl | ⟨rfl, _⟩⟩ r' ⟨⟩
    rfl
  lexed h := (invariant.sane _ h.1).lexed
  abandoned := by
    rintro r _ ⟨_, rfl | ⟨rfl, _⟩⟩ r' ⟨⟩
    rfl
  look := by
    rintro r _ ⟨h, rfl | ⟨rfl, abandoned⟩⟩
    · exact ⟨invariant.look r h, .inl rfl⟩
    · exact ⟨invariant.look r h, .inr ⟨rfl, r.looked_abandoned.trans abandoned⟩⟩
  use := by
    rintro r _ ⟨h, rfl | ⟨rfl, abandoned⟩⟩
    · exact ⟨invariant.use r h, .inl rfl⟩
    · exact ⟨invariant.use r h, .inr ⟨rfl, abandoned⟩⟩
  report := by
    rintro r _ ⟨h, rfl | ⟨rfl, abandoned⟩⟩ d
    · exact ⟨invariant.report r d h, .inl rfl⟩
    · refine ⟨invariant.report r d h, .inr ⟨rfl, ?_⟩⟩
      rw [Reader.reported, if_pos abandoned]
      exact abandoned
  giveUp := by
    rintro r _ ⟨h, rfl | ⟨rfl, abandoned⟩⟩ notYet t
    · exact ⟨invariant.giveUp r t h notYet, .inl rfl⟩
    · cases notYet.symm.trans abandoned

/-- What a reader in step with itself reads, and how it is left. -/
theorem Read.Sim.self {α : Type} {I : Reader → Prop} {Q : α → Prop} {m m' : Read α}
    (h : Sim (fun r o => o = some r ∧ I r) Q m m') {r s : Reader} {a : α} (before : I r)
    (run : m r = some (a, s)) : Q a ∧ I s := by
  obtain ⟨known, _, ⟨_, after⟩, _⟩ := h r (some r) ⟨rfl, before⟩ a s run
  exact ⟨known, after⟩

theorem invariant_sane : Invariant Reader.Sane where
  sane _ h := h
  look r h := by
    intro t found
    rw [Reader.looked_lookahead] at found
    cases found
    exact h.lexed
  use _ _ := fun _ found => nomatch found
  report r d h := by
    unfold Reader.reported
    split <;> exact h
  giveUp _ _ h _ := h

/-- A complaint is never taken back. -/
theorem invariant_complained : Invariant fun r => r.Sane ∧ r.diagnostics ≠ [] where
  sane _ h := h.1
  look r h := by
    refine ⟨invariant_sane.look r h.1, ?_⟩
    unfold Reader.looked
    split
    · exact h.2
    · exact List.append_ne_nil_of_left_ne_nil h.2 _
  use r h := ⟨invariant_sane.use r h.1, h.2⟩
  report r d h := by
    refine ⟨invariant_sane.report r d h.1, ?_⟩
    unfold Reader.reported
    split
    · exact h.2
    · exact List.append_ne_nil_of_left_ne_nil h.2 _
  giveUp r t h notYet :=
    ⟨invariant_sane.giveUp r t h.1 notYet, List.append_ne_nil_of_left_ne_nil h.2 _⟩

/-- What was given up has a complaint that says so. -/
structure Reader.Candid (r : Reader) : Prop where
  sane : r.Sane
  gaveUp : r.abandoned = true → ∃ d ∈ r.diagnostics, d.cause = .nestingTooDeep

theorem invariant_candid : Invariant Reader.Candid where
  sane _ h := h.sane
  look r h := by
    refine ⟨invariant_sane.look r h.sane, fun abandoned => ?_⟩
    obtain ⟨d, mem, tooDeep⟩ := h.gaveUp (r.looked_abandoned.symm.trans abandoned)
    refine ⟨d, ?_, tooDeep⟩
    unfold Reader.looked
    split
    · exact mem
    · exact List.mem_append_left _ mem
  use r h := ⟨invariant_sane.use r h.sane, h.gaveUp⟩
  report r d h := by
    unfold Reader.reported
    split
    · exact h
    · next notYet => exact ⟨h.sane, fun given => absurd given notYet⟩
  giveUp r t h _ :=
    ⟨h.sane, fun _ => ⟨⟨t, .nestingTooDeep⟩, List.mem_append_right _ (List.mem_singleton_self _),
      rfl⟩⟩

/-! ## Functions -/

section

variable {T : Reader → Option Reader → Prop} {fuel fuel' : Nat} {ctx ctx' : Context}

theorem moreParams_sim (sim : Simulation T) (le : fuel ≤ fuel') :
    Sim T (fun _ => True) (moreParams fuel) (moreParams fuel') := by
  induction fuel generalizing fuel' with
  | zero => exact .starved
  | succ fuel ih =>
    obtain ⟨fuel', rfl⟩ := Nat.exists_eq_add_of_lt le
    refine (accept_sim sim _).bind fun more _ => ?_
    split
    · refine (expect?_sim sim _).bind fun param _ => ?_
      exact (ih (by omega)).bind fun params _ => .pure trivial
    · exact .pure trivial

theorem params_sim (sim : Simulation T) (le : fuel ≤ fuel') :
    Sim T (fun _ => True) (params fuel) (params fuel') := by
  refine (accept?_sim sim _).bind fun first _ => ?_
  cases first with
  | none => exact .pure trivial
  | some first => exact (moreParams_sim sim le).bind fun _ _ => .pure trivial

theorem definition_sim (sim : Simulation T) (le : fuel ≤ fuel') (admits : Admits T ctx ctx') :
    Sim T (fun node => node.IsEntry ∧ ∀ z ∈ node.literals, z.Bounded) (definition fuel ctx)
      (definition fuel' ctx') := by
  refine (expect?_sim sim _).bind fun name known => (expect_sim sim _).bind fun _ _ => ?_
  refine (params_sim sim le).bind fun params _ => (expect_sim sim _).bind fun _ _ => ?_
  refine (accept_sim sim _).bind fun _ _ => ?_
  refine (Rule.sim sim le .block admits).bind fun body built => .pure ⟨?_, fun _ => built.bounded⟩
  refine .definition ?_ built.plain
  cases name with
  | none => decide
  | some t =>
    obtain ⟨identifier, lexed⟩ := known t rfl
    exact lexed.identifier identifier

theorem entry_sim (sim : Simulation T) (le : fuel ≤ fuel') (admits : Admits T ctx ctx') :
    Sim T (fun _ => True) (entry fuel ctx) (entry fuel' ctx') := by
  refine (accept_sim sim _).bind fun isFunction _ => ?_
  split
  · refine (definition_sim sim le admits).bind fun node _ => ?_
    exact (Rule.sim sim le (.terminated false node) admits).mono fun _ _ => trivial
  · exact (Rule.sim sim le (.statement false) admits).mono fun _ _ => trivial

end

/-! ## Statements and their ends -/

theorem terminated_succ (fuel : Nat) (ctx : Context) (inBlock : Bool) (node : Node) (r : Reader) :
    terminated (fuel + 1) ctx inBlock node r =
      if r.token.kind = .lineBreak then some (node, r.looked.used)
      else if r.token.kind = .semicolon then some (node, r.looked.used)
      else if r.token.kind = .endOfInput then some (node, r.looked)
      else if r.abandoned then some (node, r.looked)
      else if inBlock && (r.token.kind = .closeBrace || node.endsWithBlock) then
        some (node, r.looked)
      else
        (do
          let rest ← chained fuel ctx fun ctx => statement fuel ctx inBlock
          return Node.block [node, rest]) (r.looked.reported ⟨r.token, .expected .lineBreak⟩) := by
  have abandoned : ∀ s : Reader, isAbandoned s = some (s.abandoned, s) := fun _ => rfl
  rw [terminated, acceptOr_eq]
  refine ite_congr rfl (fun _ => rfl) fun _ => ?_
  rw [acceptOr_eq, Reader.token_looked, Reader.looked_looked]
  refine ite_congr rfl (fun _ => rfl) fun _ => ?_
  rw [isNextOr_eq, Reader.token_looked, Reader.looked_looked]
  refine ite_congr rfl (fun _ => rfl) fun _ => ?_
  rw [bind_of_eq (abandoned _), Reader.looked_abandoned]
  split
  · rfl
  · rw [bind_of_eq (look_eq _), Reader.token_looked, Reader.looked_looked]
    split
    · rfl
    · exact bind_of_eq (report_eq _ _)

theorem statement_succ (fuel : Nat) (ctx : Context) (inBlock : Bool) (r : Reader) :
    statement (fuel + 1) ctx inBlock r =
      if r.token.kind = .lineBreak then some (.noOp, r.looked.used)
      else if r.token.kind = .semicolon then some (.noOp, r.looked.used)
      else if r.token.kind = .endOfInput then some (.endOfInput, r.looked)
      else (instruction fuel ctx >>= terminated fuel ctx inBlock) r.looked := by
  rw [statement, acceptOr_eq]
  refine ite_congr rfl (fun _ => rfl) fun _ => ?_
  rw [acceptOr_eq, Reader.token_looked, Reader.looked_looked]
  refine ite_congr rfl (fun _ => rfl) fun _ => ?_
  rw [isNextOr_eq, Reader.token_looked, Reader.looked_looked]
  rfl

/-- An item keeps its tree, or a complaint is made about what follows it and that is read as another
statement. -/
theorem terminated_cases {fuel : Nat} {ctx : Context} {inBlock : Bool} {node tree : Node}
    {r s : Reader} (run : terminated fuel ctx inBlock node r = some (tree, s)) :
    tree = node ∨ r.abandoned = false ∧ ∃ fuel' rest,
      chained fuel' ctx (fun ctx => statement fuel' ctx inBlock)
        (r.looked.reported ⟨r.token, .expected .lineBreak⟩) = some (rest, s) ∧
      tree = .block [node, rest] := by
  cases fuel with
  | zero => cases run
  | succ fuel =>
    have same : ∀ t, some (node, t) = some (tree, s) → tree = node := by
      rintro t ⟨⟩
      rfl
    rw [terminated_succ] at run
    split at run
    · exact .inl (same _ run)
    split at run
    · exact .inl (same _ run)
    split at run
    · exact .inl (same _ run)
    split at run
    · exact .inl (same _ run)
    next notYet =>
    split at run
    · exact .inl (same _ run)
    obtain ⟨rest, t, here, there⟩ := bind_eq_some.mp run
    cases there
    exact .inr ⟨Bool.eq_false_iff.mpr notYet, fuel, rest, here, rfl⟩

/-- What is read as another statement is read in step and is built. -/
theorem runTogether_sim {T : Reader → Option Reader → Prop} (sim : Simulation T) (fuel : Nat)
    (ctx : Context) :
    Sim T Node.Built (chained fuel ctx fun ctx => statement fuel ctx false)
      (chained fuel ctx fun ctx => statement fuel ctx false) :=
  chained_sim sim trivial (Nat.le_refl fuel) (.refl _ ctx) fun _ _ further =>
    Rule.sim sim (Nat.le_refl fuel) (.statement false) further

/-- An item keeps its tree, or the text after it brings a complaint. -/
theorem terminated_clean {fuel : Nat} {ctx : Context} {node tree : Node} {r s : Reader}
    (sane : r.Sane) (run : terminated fuel ctx false node r = some (tree, s)) :
    tree = node ∨ s.diagnostics ≠ [] := by
  rcases terminated_cases run with same | ⟨notYet, fuel, rest, here, rfl⟩
  · exact .inl same
  · refine .inr ?_
    have complained := (runTogether_sim invariant_complained.simulation fuel ctx).self ?_ here
    · exact complained.2.2
    · refine ⟨invariant_sane.report _ _ (invariant_sane.look r sane), ?_⟩
      rw [Reader.reported, Reader.looked_abandoned, notYet, if_neg Bool.false_ne_true]
      exact List.append_ne_nil_of_right_ne_nil _ (List.cons_ne_nil _ _)

/-! ## Entries -/

/-- A property that moves keep is kept by whole entries. -/
theorem entry_invariant {I : Reader → Prop} (invariant : Invariant I) {fuel : Nat} {ctx : Context}
    {r s : Reader} {node : Node} (before : I r) (run : entry fuel ctx r = some (node, s)) : I s :=
  ((entry_sim invariant.simulation (Nat.le_refl fuel) (.refl _ ctx)).self before run).2

/-- The tree of an entry without complaints. -/
theorem entry_clean {fuel : Nat} {ctx : Context} {r s : Reader} {node : Node} (sane : r.Sane)
    (run : entry fuel ctx r = some (node, s)) : node.IsEntry ∨ s.diagnostics ≠ [] := by
  have sim := invariant_sane.simulation
  obtain ⟨_, r, here, run⟩ := bind_eq_some.mp run
  obtain ⟨_, sane⟩ := (accept_sim sim _).self sane here
  split at run
  · obtain ⟨function, r, here, run⟩ := bind_eq_some.mp run
    obtain ⟨accepted, sane⟩ :=
      (definition_sim sim (Nat.le_refl fuel) (.refl _ ctx)).self sane here
    rcases terminated_clean sane run with rfl | complained
    · exact .inl accepted.1
    · exact .inr complained
  · obtain ⟨built, _⟩ := (Rule.sim sim (Nat.le_refl fuel) (.statement false) (.refl _ ctx)).self
      sane run
    exact .inl (.plain built.plain)

/-- No number in the tree of an entry has an infinite part, whatever is wrong with its text. -/
theorem entry_bounded {fuel : Nat} {ctx : Context} {r s : Reader} {node : Node} (sane : r.Sane)
    (run : entry fuel ctx r = some (node, s)) : ∀ z ∈ node.literals, z.Bounded := by
  have sim := invariant_sane.simulation
  obtain ⟨_, r, here, run⟩ := bind_eq_some.mp run
  obtain ⟨_, sane⟩ := (accept_sim sim _).self sane here
  split at run
  · obtain ⟨function, r, here, run⟩ := bind_eq_some.mp run
    obtain ⟨⟨_, bounded⟩, sane⟩ :=
      (definition_sim sim (Nat.le_refl fuel) (.refl _ ctx)).self sane here
    rcases terminated_cases run with rfl | ⟨_, fuel, rest, here, rfl⟩
    · exact bounded
    · have sane := invariant_sane.report _ ⟨r.token, .expected .lineBreak⟩
        (invariant_sane.look r sane)
      obtain ⟨built, _⟩ := (runTogether_sim sim fuel _).self sane here
      intro z mem
      simp only [Node.literals, Node.literalsAll, List.append_nil, List.mem_append] at mem
      exact mem.elim (bounded z) built.bounded
  · exact fun z => ((Rule.sim sim (Nat.le_refl fuel) (.statement false) (.refl _ ctx)).self
      sane run).1.bounded

theorem next?_eq_some {fuel : Nat} {limits : Limits} {r s : Reader} {e : Entry} :
    next? fuel limits r = some (e, s) ↔
      ∃ node t, entry fuel { limits := limits } { r with abandoned := false } = some (node, t) ∧
        e = ⟨node, t.diagnostics, t.cursor.raw⟩ ∧
        s = { t with diagnostics := [], cursor := t.cursor.beginEntry } := by
  unfold next?
  constructor
  · intro run
    obtain ⟨⟨node, t⟩, here, there⟩ := Option.bind_eq_some_iff.mp run
    cases there
    exact ⟨node, t, here, rfl, rfl⟩
  · rintro ⟨node, t, here, rfl, rfl⟩
    exact Option.bind_eq_some_iff.mpr ⟨(node, t), here, rfl⟩

theorem next_of_entry {limits : Limits} {r t : Reader} {node : Node}
    (run : entry (budget r) { limits := limits } { r with abandoned := false } = some (node, t)) :
    next limits r =
      (⟨node, t.diagnostics, t.cursor.raw⟩,
        { t with diagnostics := [], cursor := t.cursor.beginEntry }) := by
  have read := next?_eq_some.mpr ⟨node, t, run, rfl, rfl⟩
  rw [next, read, Option.getD_some]

/-- Reading an entry leaves a sane reader, and a clean entry is a plain tree or a function.  No
number in an entry has an infinite part. -/
theorem next_sane (limits : Limits) {r : Reader} (sane : r.Sane) :
    (next limits r).2.Sane ∧
      ((next limits r).1.diagnostics = [] → (next limits r).1.node.IsEntry) ∧
        ∀ z ∈ (next limits r).1.node.literals, z.Bounded := by
  unfold next
  cases run : next? (budget r) limits r with
  | none => exact ⟨sane, fun _ => .plain trivial, nofun⟩
  | some result =>
    obtain ⟨node, t, run, first, second⟩ := next?_eq_some.mp run
    rw [Option.getD_some, first, second]
    have sane : Reader.Sane { r with abandoned := false } := sane
    have after := entry_invariant invariant_sane sane run
    refine ⟨after, fun clean => ?_, entry_bounded sane run⟩
    exact (entry_clean sane run).resolve_right (not_not_intro clean)

end ComplexScript.Entry
