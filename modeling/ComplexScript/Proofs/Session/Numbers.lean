import ComplexScript.Proofs.Entry.Fetching
import ComplexScript.Proofs.Machine.Numbers
import ComplexScript.Proofs.Session.Responses
import ComplexScript.Proofs.Token.DigitTokens
set_option autoImplicit false

/-!
# The numbers of a session

No number in a session has an infinite part: none that stands in an entry, none that a variable is
bound to, none that a run comes across on its way, and none that is shown (`session_bounded`).  A
literal enters through the check of its value, and one that is out of range is a complaint about the
entry that it stands in (`literal_reported`); from there on it is the runs that keep the numbers of
a session bounded, one step after another (`step_bounded`).
-/

namespace ComplexScript

open ComplexScript.Machine
open ComplexScript.Program
open ComplexScript.Token (Lexeme Literal Scan)

namespace Session

variable {s : Session} {fuel : Nat}

/-! ## Steps -/

theorem conclude_environment (outcome : Outcome) (s : Session) :
    (s.conclude outcome).2.environment = s.environment := by
  obtain ⟨sink, session⟩ := (conclude_eq outcome s).1
  rw [session]
  rfl

/-- A run leaves the environment that it ends with, or the one that a fault takes it back to. -/
theorem run_environment (fuel : Nat) (node : Node) (before s : Session) :
    (run fuel node before s).2.environment =
        ((evaluate s.options.callDepth fuel node).after s.state).environment ∨
      (run fuel node before s).2.environment = before.environment.topLevel := by
  unfold run
  split
  · next evaluated =>
    refine .inl ?_
    rw [Eval.after_of_ok evaluated]
    dsimp only
    split
    · exact conclude_environment _ _
    · split
      · exact conclude_environment _ _
      · rfl
  · next evaluated =>
    rw [Eval.after_of_error evaluated]
    exact .inl rfl
  · next evaluated =>
    rw [Eval.after_of_error evaluated]
    exact .inl rfl
  · refine .inr ?_
    dsimp only
    split
    · exact conclude_environment _ _
    · rfl

/-- No number in the next entry has an infinite part. -/
theorem entry_literals (sane : s.reader.Sane) : ∀ z ∈ s.entry.node.literals, z.Bounded :=
  (Entry.next_sane s.options.limits sane).2.2

/-- A step takes bounded numbers to bounded numbers, whatever it ends with. -/
theorem step_bounded (fuel : Nat) (sane : s.reader.Sane) (before : s.environment.Bounded) :
    (s.step fuel).2.environment.Bounded := by
  rcases unrun_or_accepted fuel s with unrun | accepted
  · rw [unrun.1]
    exact before
  · rw [step_of_accepted accepted]
    rcases run_environment fuel s.entry.node s.advanced
      { s.advanced with scope := s.checked.1 } with ran | undone
    · rw [ran]
      exact (Task.bounded (.tree s.entry.node) ⟨s.entry_literals sane, .empty⟩ before).after
    · rw [undone]
      exact before.topLevel

/-! ## Sessions -/

/-- The complaint about a literal that is out of range, where it is read. -/
def outOfRange (l : Literal) (c : Text.Cursor) : Diagnostic :=
  ⟨(Lexeme.faulty .literalOutOfRange l.text (Scan.afterBlanks c).position).token,
    .lexical .literalOutOfRange⟩

/-- What would have an infinite part is a complaint or a fault instead. -/
structure Checks (s : Session) : Prop where
  /-- Wherever a literal is out of range, a placeholder is read in its place. -/
  literal : ∀ (c : Text.Cursor) (l : Literal), c.Sound → l.Next c → l.OutOfRange →
    (Scan.next c).1 = .faulty .literalOutOfRange l.text (Scan.afterBlanks c).position
  /-- Nothing else that starts with a digit has a value, but for the zero alone. -/
  numeral : ∀ (c : Text.Cursor) (bs cs : List Char) (first : Char), c.Sound →
    (∀ x ∈ bs, Token.isBlank x = true) → Token.isDecimalDigit first = true →
    c.ahead = bs ++ first :: cs → Scan.AtDigit c (Scan.next c).1
  /-- With too many digits it is out of range whatever they are. -/
  long : ∀ l : Literal, l.Valid → l.Long → l.OutOfRange
  /-- Tokens are fetched for the next entry, at least one if none is waiting, and each such literal
  among them is a complaint about it. -/
  complaint : ∃ n, (s.reader.lookahead = none → 0 < n) ∧
    (Entry.next s.options.limits s.reader).2.cursor =
      (Scan.after n s.reader.cursor).beginEntry ∧
    ∀ m < n, ∀ l : Literal, l.Next (Scan.after m s.reader.cursor) → l.OutOfRange →
      outOfRange l (Scan.after m s.reader.cursor) ∈ s.entry.diagnostics
  operator : ∀ (fuel : Nat) (op : Operator) (left right : Node) (z w : Number) (t u v : State),
    valueOf s.options.callDepth fuel left t = .ok (.number z) u →
    valueOf s.options.callDepth fuel right u = .ok (.number w) v →
    (Number.Divides op → w.equal .zero = false) →
    (∃ result ∈ Number.computed op z w, ¬ result.Bounded) →
      ∃ f, evaluate s.options.callDepth (fuel + 1) (.binary op left right) t =
        .error (.fault (.arithmetic f)) v ∧ f.OutOfRange
  root : ∀ (fuel : Nat) (argument : Node) (arguments : List Node) (z : Number) (t u : State),
    valueOf s.options.callDepth fuel argument t = .ok (.number z) u → z.re.sqrt.isInf = true →
      ∃ f, evaluate s.options.callDepth (fuel + 1) (.builtin .sqrt (argument :: arguments)) t =
        .error (.fault (.arithmetic f)) u ∧ f.OutOfRange

/-- A literal that is out of range is a complaint about the entry that it is fetched for. -/
theorem literal_reported (ready : s.reader.Ready) :
    ∃ n, (s.reader.lookahead = none → 0 < n) ∧
      (Entry.next s.options.limits s.reader).2.cursor =
        (Scan.after n s.reader.cursor).beginEntry ∧
      ∀ m < n, ∀ l : Literal, l.Next (Scan.after m s.reader.cursor) → l.OutOfRange →
        outOfRange l (Scan.after m s.reader.cursor) ∈ s.entry.diagnostics := by
  obtain ⟨n, d, some, ⟨rfl, faults⟩, cursor⟩ := Entry.next_fetches s.options.limits ready
  refine ⟨n, some, cursor, fun m less l here out => ?_⟩
  have read := Scan.next_outOfRange (Scan.sound_after m ready.sound) here out
  have reported := faults m less
  rw [read] at reported
  exact reported _ rfl

theorem checks (ready : s.reader.Ready) : Checks s where
  literal _ _ sound here out := Scan.next_outOfRange sound here out
  numeral _ _ _ _ sound blanks digit ahead := Scan.next_atDigit sound blanks digit ahead
  long _ valid long := long.outOfRange valid
  complaint := literal_reported ready
  operator _ _ _ _ _ _ _ _ _ left right divisor infinite :=
    binary_out_of_range left right divisor infinite
  root _ _ _ _ _ _ argument infinite := sqrt_out_of_range argument infinite

/-- A number that is shown was yielded by the run of an entry. -/
theorem shown_bounded (sane : s.reader.Sane) (before : s.environment.Bounded) {z : Number}
    (done : (s.step fuel).1 = .done (.evaluated (some z))) : z.Bounded := by
  generalize same : Outcome.evaluated (some z) = outcome at done
  cases step_done done with
  | @evaluated flow t _ run _ =>
    have known : flow.Bounded :=
      ((Task.bounded (.tree _) ⟨s.entry_literals sane, .empty⟩ before).of_ok run).2
    exact known.printable (Outcome.evaluated.inj same).symm
  | _ => cases same

theorem environment_bounded (feed : Text.Feed) (options : Options) (sink : Sink) (fuel : Nat → Nat)
    (n : Nat) : ((start feed options sink).after fuel n).environment.Bounded := by
  induction n with
  | zero =>
    refine ⟨fun frame mem => ?_, fun name f found => ?_⟩
    · obtain rfl := List.mem_singleton.mp mem
      exact .empty
    · simp [Session.after, Session.start, Session.environment] at found
  | succ n ih => exact step_bounded (fuel n) (after_readable feed options sink fuel n).2.1 ih

theorem after_ready (feed : Text.Feed) (options : Options) (sink : Sink) (fuel : Nat → Nat)
    (n : Nat) : ((start feed options sink).after fuel n).reader.Ready := by
  induction n with
  | zero => exact Entry.ready_ofFeed feed
  | succ n ih =>
    obtain ⟨_, t, _, _, read, _, ready, _⟩ := Entry.next_path
      ((start feed options sink).after fuel n).options.limits ih
    rw [Session.after, (step_keeps (fuel n) _).2, advanced, read]
    exact ⟨ready.sound, ready.spelled⟩

/-- After any number of steps on any text, no number in a session has an infinite part: no variable
is bound to one, none stands in the next entry or in the body of a function, the run of the entry
comes across none, and none is shown.  What would have one is a complaint or a fault instead. -/
theorem session_bounded (feed : Text.Feed) (options : Options) (sink : Sink) (fuel : Nat → Nat)
    (n : Nat) :
    let s := (start feed options sink).after fuel n
    s.environment.Bounded ∧ (∀ z ∈ s.entry.node.literals, z.Bounded) ∧
      (∀ budget, BoundedThroughout s.options.callDepth budget (.tree s.entry.node) s.state) ∧
      (∀ budget z, (s.step budget).1 = .done (.evaluated (some z)) → z.Bounded) ∧ s.Checks := by
  intro s
  have sane : s.reader.Sane := (after_readable feed options sink fuel n).2.1
  have before : s.environment.Bounded := environment_bounded feed options sink fuel n
  have literals := s.entry_literals sane
  exact ⟨before, literals, fun _ => Task.boundedThroughout ⟨literals, .empty⟩ before,
    fun _ _ => shown_bounded sane before, checks (after_ready feed options sink fuel n)⟩

/-- Four hundred nines, a decimal literal. -/
def nines (imaginary : Bool) : Literal :=
  { base := .decimal, whole := List.replicate 400 '9', imaginary := imaginary }

theorem nines_valid (imaginary : Bool) : (nines imaginary).Valid where
  whole d mem := by
    rw [List.eq_of_mem_replicate mem]
    rfl
  places := nofun
  nonempty _ := List.cons_ne_nil '9' (List.replicate 399 '9')
  zero _ zero := nomatch (show some '9' = some '0' from zero)

theorem nines_long (imaginary : Bool) : (nines imaginary).Long := by
  have noZero : (List.replicate 400 '9').dropWhile (· = '0') = List.replicate 400 '9' :=
    List.dropWhile_cons_of_neg (by decide)
  show 1024 ≤ (((List.replicate 400 '9').dropWhile (· = '0')).length - 1) * Nat.log2 10
  rw [noZero, List.length_replicate]
  decide +kernel

/-- A line with the literal, and nothing read yet. -/
def ninesFeed (imaginary : Bool) : Text.Feed :=
  ⟨[.line (String.ofList (nines imaginary).text)], []⟩

theorem nines_ahead (imaginary : Bool) :
    (Text.Cursor.ofFeed (ninesFeed imaginary)).ahead = (nines imaginary).text ++ ['\n'] := by
  have noBreak : '\n' ∉ (String.ofList (nines imaginary).text).toList := by
    rw [String.toList_ofList]
    cases imaginary <;> decide +kernel
  rw [ninesFeed, Token.ahead_of_word noBreak, String.toList_ofList]

theorem nines_next (imaginary : Bool) :
    (nines imaginary).Next (.ofFeed (ninesFeed imaginary)) := by
  refine ⟨nines_valid imaginary, [], '\n', [], nofun, fun _ => ?_, nines_ahead imaginary⟩
  exact ⟨rfl, by decide, fun _ => by decide⟩

theorem nines_start (imaginary : Bool) :
    (Scan.afterBlanks (.ofFeed (ninesFeed imaginary))).position = ⟨0, 1, 1⟩ := by
  let c := Text.Cursor.ofFeed (ninesFeed imaginary)
  have shown : c.peek.1 = '9' := (Text.Cursor.peek_of_ahead (nines_ahead imaginary)).1
  have noBlanks : Scan.afterBlanks c = c.peek.2 := by
    rw [Scan.afterBlanks, Text.Cursor.takeRun_of_not (by rw [shown]; decide),
      Text.Cursor.peek_peek]
  have fetched : c.fetched = ['9'] := by
    rw [Text.Cursor.peek_of_released rfl] at shown
    show (if c.fetch.1 = Text.endOfText then [] else [c.fetch.1]) = ['9']
    rw [shown]
    rfl
  rw [noBlanks, Text.Cursor.peek_position, fetched]
  rfl

/-- Four hundred nines are a complaint, with and without the suffix.  A product that is too great is
a fault, and so is the root of an infinity, which no program can write down. -/
theorem nines_out_of_range :
    let s (imaginary : Bool) := start (ninesFeed imaginary)
    let complaint (imaginary : Bool) : Diagnostic :=
      ⟨{ kind := .empty, text := String.ofList (nines imaginary).text, position := ⟨0, 1, 1⟩ },
        .lexical .literalOutOfRange⟩
    let great : Number := ⟨1e200, 0.0⟩
    complaint false ∈ (s false).entry.diagnostics ∧ complaint true ∈ (s true).entry.diagnostics ∧
      (∃ f, evaluate 1000 3 (.binary .multiply (.literal great) (.literal great)) (s false).state =
        .error (.fault (.arithmetic f)) (s false).state ∧ f.OutOfRange) ∧
      ∃ f, evaluate 1000 3 (.builtin .sqrt [.literal ⟨infinity, 0.0⟩]) (s false).state =
        .error (.fault (.arithmetic f)) (s false).state ∧ f.OutOfRange := by
  intro s complaint great
  have checks (imaginary : Bool) : (s imaginary).Checks :=
    (session_bounded _ _ _ (fun _ => 0) 0).2.2.2.2
  have complains (imaginary : Bool) : complaint imaginary ∈ (s imaginary).entry.diagnostics := by
    obtain ⟨n, some, -, reported⟩ := (checks imaginary).complaint
    have first := reported 0 (some rfl) _ (nines_next imaginary)
      ((checks imaginary).long _ (nines_valid imaginary) (nines_long imaginary))
    change outOfRange _ (.ofFeed (ninesFeed imaginary)) ∈ _ at first
    rw [outOfRange, nines_start] at first
    exact first
  have value (z : Number) (t : State) :
      valueOf 1000 2 (.literal z) t = .ok (.number z) t := rfl
  refine ⟨complains false, complains true, ?_, ?_⟩
  · refine (checks false).operator 2 .multiply (.literal great) (.literal great) great great _ _ _
      (value great _) (value great _) ?_ ?_
    · exact fun divides => divides.elim nofun nofun
    · decide +kernel
  · exact (checks false).root 2 _ [] _ _ _ (value _ _) (by decide +kernel)

end Session

end ComplexScript
