import ComplexScript.Proofs.Entry.Height
import ComplexScript.Proofs.Entry.Trees
set_option autoImplicit false

/-!
# Calls nested without bound

The text `f(f(...f()...))` of any depth is read into as many calls inside each other, whatever the
limits are (`next_nestedCalls`): arguments are read by rules that pass no guard.  So no constant
bounds the heights of entries by their limits (`limits_do_not_bound_height`).
-/

namespace ComplexScript.Entry

open ComplexScript.Program
open ComplexScript.Text
open ComplexScript.Token (Kind Scan)
open Read

/-! ## Where a reader stands -/

/-- No token and no character is waiting, and the line goes on with `cs`. -/
structure At (r : Reader) (cs : List Char) : Prop where
  lookahead : r.lookahead = none
  held : r.cursor.held = none
  line : r.cursor.line = cs

/-- The next token has a kind, and `cs` comes after it. -/
def Sees (r : Reader) (kind : Kind) (cs : List Char) : Prop :=
  r.token.kind = kind ∧ At r.looked.used cs

/-- The next tokens begin a call of `f`, and `cs` comes after its opening parenthesis. -/
def Begins (r : Reader) (cs : List Char) : Prop :=
  r.token.kind = .identifier ∧ r.token.text = "f" ∧ Sees r.looked.used .openParenthesis cs

theorem Begins.looked {r : Reader} {cs : List Char} (h : Begins r cs) : Begins r.looked cs := by
  rw [Begins, Reader.token_looked, Reader.looked_looked]
  exact h

/-! ## Tokens -/

theorem At.sees_close {r : Reader} {cs : List Char} (h : At r (')' :: cs)) :
    Sees r .closeParenthesis cs := by
  obtain ⟨⟨feed, line, held, ended, position, raw, failure⟩, lookahead, diagnostics, abandoned⟩ := r
  obtain ⟨rfl, rfl, rfl⟩ := h
  refine ⟨rfl, rfl, rfl, rfl⟩

theorem At.sees_lineBreak {r : Reader} {cs : List Char} (h : At r ('\n' :: cs)) :
    Sees r .lineBreak cs := by
  obtain ⟨⟨feed, line, held, ended, position, raw, failure⟩, lookahead, diagnostics, abandoned⟩ := r
  obtain ⟨rfl, rfl, rfl⟩ := h
  refine ⟨rfl, rfl, rfl, rfl⟩

theorem At.begins {r : Reader} {cs : List Char} (h : At r ('f' :: '(' :: cs)) : Begins r cs := by
  obtain ⟨⟨feed, line, held, ended, position, raw, failure⟩, lookahead, diagnostics, abandoned⟩ := r
  obtain ⟨rfl, rfl, rfl⟩ := h
  refine ⟨rfl, rfl, rfl, rfl, rfl, rfl⟩

/-! ## The text and its tree -/

/-- The text of `n + 1` calls in each other, after the opening parenthesis of the outermost. -/
def callsAfterOpening : Nat → List Char
  | 0 => [')']
  | n + 1 => 'f' :: '(' :: (callsAfterOpening n ++ [')'])

/-- The tree of `n + 1` calls in each other. -/
def calls : Nat → Node
  | 0 => .call "f" []
  | n + 1 => .call "f" [calls n]

/-- A line of `n + 1` calls in each other. -/
def nestedCalls (n : Nat) : String :=
  String.ofList ('f' :: '(' :: (callsAfterOpening n ++ ['\n']))

theorem height_calls (n : Nat) : (calls n).height = n + 1 := by
  induction n with
  | zero => rfl
  | succ n ih => simp [calls, Node.height, Node.maxHeight, ih]

/-! ## Rules -/

section

variable {r : Reader} {ctx : Context} {cs : List Char} {fuel n : Nat}

/-- The outermost call in a text of calls, read by the rule of primary expressions. -/
def ReadsCalls (fuel : Nat) (ctx : Context) (r : Reader) (n : Nat) (cs : List Char) : Prop :=
  ∃ s, primary fuel ctx r = some (calls n, s) ∧ At s cs

/-- An expression of a level ends with its first operand if no operator of the level follows. -/
theorem rightOperand_of_not {level : Level} {node : Node} {s : Reader}
    (h : level.has s.token.kind = false) :
    rightOperand fuel ctx level node s = some (node, s.looked) := by
  rw [rightOperand, bind_of_eq (acceptOperator?_of_not h)]
  rfl

/-- A relational expression is a primary one if it ends where no operator follows. -/
theorem relational_of_primary {node : Node} {s : Reader} (run : primary fuel ctx r = some (node, s))
    (ends : ∀ level : Level, level.has s.token.kind = false) :
    binary (fuel + 5) ctx .relational r = some (node, s.looked) := by
  have tighter : ∀ {fuel : Nat} {level tighter : Level}, level.tighter? = some tighter →
      binary fuel ctx tighter r = some (node, s.looked) →
      binary (fuel + 1) ctx level r = some (node, s.looked) := by
    intro fuel level tighter h run
    have ends : level.has s.looked.token.kind = false := by
      rw [Reader.token_looked]
      exact ends level
    rw [binary_of_tighter h, bind_of_eq run, rightOperand_of_not ends, Reader.looked_looked]
  have tightest : binary (fuel + 1) ctx .multiplicative r = some (node, s.looked) := by
    rw [binary_of_tightest rfl, bind_of_eq run, rightOperand_of_not (ends _)]
  have additive : binary (fuel + 2) ctx .additive r = some (node, s.looked) := tighter rfl tightest
  have power : binary (fuel + 3) ctx .power r = some (node, s.looked) := tighter rfl additive
  have logical : binary (fuel + 4) ctx .logical r = some (node, s.looked) := tighter rfl power
  exact tighter rfl logical

/-- The primary expression at a call reads its arguments. -/
theorem primary_of_begins (h : Begins r cs) (args : List Node) {s : Reader}
    (run : arguments fuel ctx r.looked.used.looked.used = some (args, s)) :
    primary (fuel + 1) ctx r = some (.call "f" args, s) := by
  obtain ⟨kind, text, opens, _⟩ := h
  rw [primary, bind_of_eq (look_eq r), kind]
  dsimp only
  rw [bind_of_eq (s := r.looked.used) (a := ⟨⟩) rfl, bind_of_eq (accept_of_eq opens), if_pos rfl,
    bind_of_eq run, text]
  rfl

theorem readsCalls (begins : Begins r (callsAfterOpening n ++ cs)) (enough : 8 * n + 2 ≤ fuel) :
    ReadsCalls fuel ctx r n cs := by
  induction n generalizing r ctx cs fuel with
  | zero =>
    obtain ⟨fuel, rfl⟩ : ∃ k, fuel = k + 2 := ⟨fuel - 2, by omega⟩
    have after : At r.looked.used.looked.used (')' :: cs) := begins.2.2.2
    obtain ⟨kind, done⟩ := after.sees_close
    refine ⟨_, primary_of_begins begins [] ?_, done⟩
    rw [arguments, bind_of_eq (accept_of_eq kind)]
    rfl
  | succ n ih =>
    obtain ⟨fuel, rfl⟩ : ∃ k, fuel = k + 8 := ⟨fuel - 8, by omega⟩
    have after : At r.looked.used.looked.used
        ('f' :: '(' :: (callsAfterOpening n ++ ')' :: cs)) := by
      have line := begins.2.2.2
      simp only [callsAfterOpening, List.cons_append, List.append_assoc, List.nil_append] at line
      exact line
    have inner := after.begins
    obtain ⟨s, run, closing⟩ : ReadsCalls fuel { ctx with groups := ctx.groups + 1 }
        r.looked.used.looked.used.looked n (')' :: cs) := ih inner.looked (by omega)
    obtain ⟨kind, done⟩ := closing.sees_close
    have argument := relational_of_primary run (by rw [kind]; intro level; cases level <;> rfl)
    have notClose : r.looked.used.looked.used.token.kind ≠ .closeParenthesis := by
      rw [inner.1]
      decide
    have kind : s.looked.token.kind = .closeParenthesis := by
      rw [Reader.token_looked]
      exact kind
    have list : argumentList (fuel + 6) { ctx with groups := ctx.groups + 1 }
        r.looked.used.looked.used.looked = some ([calls n], s.looked.looked) := by
      rw [argumentList, bind_of_eq argument, bind_of_eq (accept_of_ne (by rw [kind]; decide))]
      rfl
    rw [Reader.looked_looked] at list
    refine ⟨s.looked.looked.used, primary_of_begins begins [calls n] ?_, ?_⟩
    · rw [arguments, bind_of_eq (accept_of_ne notClose), if_neg Bool.false_ne_true,
        bind_of_eq list, bind_of_eq (expect_of_eq kind)]
      rfl
    · rw [Reader.looked_looked]
      exact done

/-- A line of calls is read as the calls in each other. -/
theorem entry_of_begins (begins : Begins r (callsAfterOpening n ++ ['\n']))
    (enough : 8 * n + 20 ≤ fuel) : ∃ s, entry fuel ctx r = some (calls n, s) := by
  obtain ⟨fuel, rfl⟩ : ∃ k, fuel = k + 8 := ⟨fuel - 8, by omega⟩
  obtain ⟨s, run, ending⟩ : ReadsCalls fuel ctx r.looked n ['\n'] :=
    readsCalls begins.looked (by omega)
  obtain ⟨kind, done⟩ := ending.sees_lineBreak
  have relational := relational_of_primary run (by rw [kind]; intro level; cases level <;> rfl)
  have kind : s.looked.token.kind = .lineBreak := by
    rw [Reader.token_looked]
    exact kind
  have refused : ∀ kind : Kind, kind ≠ .identifier →
      accept kind r.looked = some (false, r.looked) := by
    intro kind different
    have notNext : r.looked.token.kind ≠ kind := by
      rw [Reader.token_looked, begins.1]
      exact different.symm
    rw [accept_of_ne notNext, Reader.looked_looked]
  have expression : assignment (fuel + 6) ctx r.looked = some (calls n, s.looked) := by
    rw [assignment, bind_of_eq (look_eq r.looked), Reader.looked_looked, bind_of_eq relational,
      bind_of_eq (accept_of_ne (by rw [kind]; decide)), Reader.looked_looked]
    rfl
  have plain : instruction (fuel + 7) ctx r.looked = some (calls n, s.looked) := by
    rw [instruction, bind_of_eq (refused _ (by decide)), if_neg Bool.false_ne_true,
      bind_of_eq (refused _ (by decide)), if_neg Bool.false_ne_true,
      bind_of_eq (refused _ (by decide)), if_neg Bool.false_ne_true,
      bind_of_eq (refused _ (by decide)), if_neg Bool.false_ne_true,
      bind_of_eq (refused _ (by decide)), if_neg Bool.false_ne_true]
    exact expression
  have notEnd : isNext .endOfInput r.looked = some (false, r.looked) := by
    rw [isNext, bind_of_eq (look_eq r.looked), Reader.looked_looked, Reader.token_looked, begins.1]
    rfl
  have ended : terminated (fuel + 7) ctx false (calls n) s.looked =
      some (calls n, s.looked.looked.used) := by
    rw [terminated, bind_of_eq (accept_of_eq kind)]
    rfl
  have notFunction : r.token.kind ≠ .funKeyword := by
    rw [begins.1]
    decide
  refine ⟨s.looked.looked.used, ?_⟩
  rw [entry, bind_of_eq (accept_of_ne notFunction), if_neg Bool.false_ne_true]
  rw [statement, bind_of_eq (refused _ (by decide)), if_neg Bool.false_ne_true,
    bind_of_eq (refused _ (by decide)), if_neg Bool.false_ne_true, bind_of_eq notEnd,
    if_neg Bool.false_ne_true, bind_of_eq plain]
  exact ended

end

/-! ## Entries -/

theorem length_callsAfterOpening (n : Nat) : (callsAfterOpening n).length = 3 * n + 1 := by
  induction n with
  | zero => rfl
  | succ n ih =>
    simp only [callsAfterOpening, List.length_cons, List.length_append, ih, List.length_nil]
    omega

theorem getLast?_callsAfterOpening (n : Nat) : (callsAfterOpening n).getLast? = some ')' := by
  cases n with
  | zero => rfl
  | succ n =>
    rw [callsAfterOpening, ← List.cons_append, ← List.cons_append]
    exact List.getLast?_concat

/-- The line of calls is read as it is written. -/
theorem normalized_nestedCalls (n : Nat) :
    normalized (nestedCalls n).toList = 'f' :: '(' :: (callsAfterOpening n ++ ['\n']) := by
  obtain ⟨others, last⟩ := List.getLast?_eq_some_iff.mp (getLast?_callsAfterOpening n)
  have reversed : ('f' :: '(' :: (callsAfterOpening n ++ ['\n'])).reverse =
      '\n' :: ')' :: ('f' :: '(' :: others).reverse := by
    simp [last]
  rw [nestedCalls, String.toList_ofList, normalized, reversed]
  rfl

/-- At its start a reader stands before the first line. -/
theorem begins_ofFeed (n : Nat) (asked : List Bool) :
    Begins (.ofFeed ⟨[.line (nestedCalls n)], asked⟩) (callsAfterOpening n ++ ['\n']) := by
  have line := normalized_nestedCalls n
  -- the first look fetches the line; from there on the reader is one that stands before it
  let fetched : Reader :=
    { cursor :=
        { feed := ⟨[], false :: asked⟩
          line := 'f' :: '(' :: (callsAfterOpening n ++ ['\n']) } }
  have peeked : (Reader.ofFeed ⟨[.line (nestedCalls n)], asked⟩).cursor.peek =
      fetched.cursor.peek := by
    simp only [Reader.ofFeed, Cursor.ofFeed, Cursor.peek, Cursor.fetch, Feed.next, line, fetched]
    rfl
  have scanned := Scan.next_of_peek peeked
  have begins : Begins fetched (callsAfterOpening n ++ ['\n']) := At.begins ⟨rfl, rfl, rfl⟩
  have sameToken : (Reader.ofFeed ⟨[.line (nestedCalls n)], asked⟩).token = fetched.token :=
    congrArg (·.1.token) scanned
  have sameLooked : (Reader.ofFeed ⟨[.line (nestedCalls n)], asked⟩).looked = fetched.looked := by
    show Read.fetched _ _ _ = Read.fetched _ _ _
    rw [scanned]
    rfl
  rw [Begins, sameToken, sameLooked]
  exact begins

theorem next_of_line (limits : Limits) (n : Nat) :
    (next limits (.ofFeed ⟨[.line (nestedCalls n)], []⟩)).1.node = calls n := by
  have size : 3 * n + 5 ≤ (Reader.ofFeed ⟨[.line (nestedCalls n)], []⟩).cursor.size := by
    have text := Feed.length_text_le ⟨[.line (nestedCalls n)], []⟩
    simp only [Feed.text, joined, normalized_nestedCalls, List.append_nil, List.length_cons,
      List.length_append, length_callsAfterOpening, List.length_nil] at text
    simp only [Reader.ofFeed, Cursor.ofFeed, Cursor.size, List.length_nil]
    omega
  have enough : 8 * n + 20 ≤ budget (.ofFeed ⟨[.line (nestedCalls n)], []⟩) := by
    unfold budget
    omega
  obtain ⟨s, run⟩ : ∃ s, entry (budget (.ofFeed ⟨[.line (nestedCalls n)], []⟩))
      { limits := limits } (.ofFeed ⟨[.line (nestedCalls n)], []⟩) = some (calls n, s) :=
    entry_of_begins (begins_ofFeed n []) enough
  rw [next_of_entry run]

/-- A text whose only line break is its last character is one line. -/
theorem cutAfter_go_concat {p : Char → Bool} {cs : List Char} (last : Char)
    (inside : ∀ ch ∈ cs, p ch = false) (ends : p last = true) (piece : List Char)
    (pieces : List (List Char)) :
    cutAfter.go p (cs ++ [last]) piece pieces =
      ((piece.reverse ++ (cs ++ [last])) :: pieces).reverse := by
  induction cs generalizing piece with
  | nil => simp [cutAfter.go, ends]
  | cons ch cs ih =>
    have first := inside ch List.mem_cons_self
    have rest := ih (fun x mem => inside x (List.mem_cons_of_mem ch mem)) (ch :: piece)
    simp [cutAfter.go, first, rest]

theorem ofString_nestedCalls (n : Nat) :
    Feed.ofString (nestedCalls n) = ⟨[.line (nestedCalls n)], []⟩ := by
  have inside : ∀ n, ∀ ch ∈ callsAfterOpening n, decide (ch = '\n') = false := by
    intro n
    induction n with
    | zero => simp [callsAfterOpening]
    | succ n ih =>
      simp only [callsAfterOpening, List.mem_cons, List.mem_append, List.not_mem_nil, or_false]
      rintro ch (rfl | rfl | mem | rfl)
      · decide
      · decide
      · exact ih ch mem
      · decide
  have whole : ∀ ch ∈ 'f' :: '(' :: callsAfterOpening n, decide (ch = '\n') = false :=
    List.forall_mem_cons.mpr ⟨rfl, List.forall_mem_cons.mpr ⟨rfl, inside n⟩⟩
  have cut := cutAfter_go_concat '\n' whole rfl [] []
  rw [Feed.ofString, nestedCalls, String.toList_ofList, cutAfter, ← List.cons_append,
    ← List.cons_append, cut]
  rfl

/-- Whatever the limits are, the text of calls in each other is read as calls in each other. -/
theorem next_nestedCalls (limits : Limits) (n : Nat) :
    (next limits (.ofFeed (.ofString (nestedCalls n)))).1.node = calls n := by
  rw [ofString_nestedCalls]
  exact next_of_line limits n

/-- No constant bounds the heights of entries by their limits. -/
theorem limits_do_not_bound_height :
    ¬ ∃ c, ∀ (limits : Limits) (text : String),
      (next limits (.ofFeed (.ofString text))).1.node.height ≤
        c * (limits.nesting + limits.chain + 1) := by
  rintro ⟨c, bound⟩
  have tooHigh := bound { nesting := 0, chain := 0 } (nestedCalls c)
  rw [next_nestedCalls, height_calls] at tooHigh
  dsimp only at tooHigh
  omega

end ComplexScript.Entry
