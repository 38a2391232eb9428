import ComplexScript.Proofs.Token.Scanning
set_option autoImplicit false

/-!
# What the text of a token spells

The kind of a token says what its text and its value are good for: a number has its value, the
name of a built-in function is one, and an operator spells one of the language (`Spelled`).  This
holds of every token that the scanner reads (`Scan.next_spelled`), so the grammar never meets a
token of a kind that it can make nothing of.
-/

namespace ComplexScript.Token

open ComplexScript.Program
open ComplexScript.Text

/-- The kinds of the tokens that are binary operators. -/
def operatorKinds : List Kind :=
  [.relationalOperator, .logicalAnd, .logicalOr, .powerOperator, .additiveOperator,
    .multiplicativeOperator]

/-- The text and the value of a token fit its kind. -/
structure Spelled (t : Token) : Prop where
  number : t.kind = .number → ∃ z, t.value = some z
  builtin : t.kind = .builtInFunction → ∃ b, Builtin.ofName? t.text = some b
  operator : t.kind ∈ operatorKinds → ∃ op, Operator.ofSymbol? t.text = some op

/-- A token of any other kind may have any text. -/
theorem spelled_of_kind {t : Token} (kind : Kind) (same : t.kind = kind)
    (other : kind ≠ .number ∧ kind ≠ .builtInFunction ∧ kind ∉ operatorKinds) : Spelled t := by
  subst same
  exact ⟨fun is => absurd is other.1, fun is => absurd is other.2.1, fun is => absurd is other.2.2⟩

namespace Scan

/-- A number has its value. -/
def Valued (x : Lexeme) : Prop := x.token.kind = .number → ∃ z, x.token.value = some z

theorem ofLiteral_valued (text : List Char) (start : Position)
    (value : Except ArithmeticFault Number) : Valued (Lexeme.ofLiteral text start value) := by
  cases value with
  | ok z => exact fun _ => ⟨z, rfl⟩
  | error f => exact fun kind => nomatch kind

theorem suffix_valued (text : List Char) (v : Float) (start : Position) :
    Gives Valued (suffix text v start) := by
  refine .bind fun c => ?_
  split
  · exact .bind fun _ => .pure (ofLiteral_valued _ start _)
  · exact .pure (ofLiteral_valued _ start _)

theorem digits_valued (b : Base) (opening : List Char) (v : Float) (start : Position) :
    Gives Valued (digits b opening v start) := by
  refine .bind fun whole => .bind fun point => ?_
  split
  · refine .bind fun _ => .bind fun digit => ?_
    split
    · exact .bind fun _ => suffix_valued _ _ start
    · exact .pure fun kind => nomatch kind
  · exact suffix_valued _ _ start

theorem number_valued (ch : Char) (start : Position) : Gives Valued (number ch start) := by
  refine .bind fun second => ?_
  split
  · exact .pure fun _ => ⟨.zero, rfl⟩
  · exact digits_valued _ _ _ start
  · exact .bind fun _ => digits_valued _ _ _ start

/-- The operators of two characters and their first ones spell what their kinds say. -/
theorem pair_spelled {ch : Char} {p : Pairing} (is : Pairing.of? ch = some p) (start : Position) :
    Gives (fun x => Spelled x.token) (pair ch p start) := by
  have spelled : Spelled (Lexeme.plain p.paired [ch, p.second] start).token ∧
      ∀ kind, p.alone = some kind → Spelled (Lexeme.plain kind [ch] start).token := by
    unfold Pairing.of? at is
    split at is <;> cases is <;>
      refine ⟨⟨nofun, nofun, fun _ => ⟨_, rfl⟩⟩, fun kind alone => ?_⟩ <;> cases alone
    · exact spelled_of_kind .assignment rfl (by decide)
    · exact spelled_of_kind .negation rfl (by decide)
    · exact ⟨nofun, nofun, fun _ => ⟨_, rfl⟩⟩
    · exact ⟨nofun, nofun, fun _ => ⟨_, rfl⟩⟩
  refine .bind fun second => ?_
  split
  · exact .bind fun _ => .pure spelled.1
  · split
    · next alone => exact .pure (spelled.2 _ alone)
    · exact .pure (spelled_of_kind .empty rfl (by decide))

/-- A word is the name of a built-in function, or its kind asks for nothing. -/
theorem ofWord_cases (word : String) :
    Kind.ofWord word = .builtInFunction ∧ (∃ b, Builtin.ofName? word = some b) ∨
      Kind.ofWord word ≠ .number ∧ Kind.ofWord word ≠ .builtInFunction ∧
        Kind.ofWord word ∉ operatorKinds := by
  unfold Kind.ofWord
  split <;> try exact .inr (by decide)
  split
  · next isBuiltin => exact .inl ⟨rfl, Option.isSome_iff_exists.mp isBuiltin⟩
  · split <;> exact .inr (by decide)

theorem word_spelled (word : String) (start : Position) :
    Spelled ⟨Kind.ofWord word, word, start, none⟩ := by
  rcases ofWord_cases word with ⟨kind, b⟩ | other
  · rw [kind]
    exact ⟨nofun, fun _ => b, nofun⟩
  · exact spelled_of_kind _ rfl other

/-- A character that is a token is an operator, or its kind asks for nothing. -/
theorem ofCharacter_cases {ch : Char} {kind : Kind} (is : Kind.ofCharacter? ch = some kind) :
    kind ≠ .number ∧ kind ≠ .builtInFunction ∧
      ((∃ op, Operator.ofSymbol? (String.ofList [ch]) = some op) ∨ kind ∉ operatorKinds) := by
  unfold Kind.ofCharacter? at is
  split at is <;> cases is <;> refine ⟨nofun, nofun, ?_⟩
  all_goals first
    | exact .inl ⟨_, rfl⟩
    | exact .inr (by decide)

theorem single_spelled {ch : Char} {kind : Kind} (is : Kind.ofCharacter? ch = some kind)
    (start : Position) : Spelled (Lexeme.plain kind [ch] start).token := by
  obtain ⟨notNumber, notBuiltin, op | other⟩ := ofCharacter_cases is
  · exact ⟨fun is => absurd is notNumber, fun is => absurd is notBuiltin, fun _ => op⟩
  · exact spelled_of_kind kind rfl ⟨notNumber, notBuiltin, other⟩

theorem Scanned.spelled {d : Cursor} {r : Lexeme × Cursor} (scanned : Scanned d r) :
    Spelled r.1.token := by
  cases scanned with
  | ended held => exact spelled_of_kind .endOfInput rfl (by decide)
  | lineBreak held is => exact spelled_of_kind .lineBreak rfl (by decide)
  | @number ch held is =>
    refine ⟨number_valued ch d.position d, fun builtin => ?_, fun mem => ?_⟩
    · rcases number_ofNumber ch d.position d with kind | kind <;> cases kind.symm.trans builtin
    · rcases number_ofNumber ch d.position d with kind | kind <;> rw [kind] at mem <;>
        exact absurd mem (by decide)
  | word held is => exact word_spelled _ d.position
  | pair held is => exact pair_spelled is d.position d
  | single held is => exact single_spelled is d.position
  | invalid held inText => exact spelled_of_kind .empty rfl (by decide)

/-- Every token is spelled as its kind says. -/
theorem next_spelled (c : Cursor) : Spelled (next c).1.token := (next_scanned c).spelled

end Scan

end ComplexScript.Token
