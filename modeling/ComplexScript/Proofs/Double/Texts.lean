import ComplexScript.Proofs.Double.Bits
import ComplexScript.Proofs.Double.Reading
import ComplexScript.Proofs.Double.Shortest
set_option autoImplicit false

/-!
# A double is known by its text

The text of a double has a sign and then what begins with no sign, which tells the infinities and
what is no number by its first character and is read back as the shortest decimal else: no two
doubles have the same text (`text_injective`).  Texts of doubles can be told apart within a longer
text too, since no plus stands in them, and a minus only at the beginning and after the mark of an
exponent (`Solid`).
-/

namespace ComplexScript.Double

variable {cs ds : List Char} {v w : View} {x y : Float}

/-! ## The shape of a text -/

/-- A minus stands after the mark of an exponent. -/
def MarksMinus (a b : Char) : Prop := b = '-' → a = 'e'

/-- A text that can be told from what stands around it. -/
structure Solid (cs : List Char) : Prop where
  nonempty : cs ≠ []
  noPlus : '+' ∉ cs
  minus : cs.IsChain MarksMinus
  last : ∀ c ∈ cs.getLast?, c ≠ 'e' ∧ c ≠ 'i'

/-- Digits with or without a point, and an exponent or none. -/
inductive Written : List Char → Prop where
  | plain {cs : List Char} (nonempty : cs ≠ []) (plain : AllPlain cs) : Written cs
  | scientific {cs : List Char} (nonempty : cs ≠ []) (plain : AllPlain cs) (exponent : Int) :
      Written (cs ++ 'e' :: Layout.integer exponent)

theorem written_positional (h : AllDigits cs) (point : Int) :
    Written (Layout.positional cs point) := by
  obtain ⟨whole, fraction, laid, digits, digits', some, _⟩ := positional_cases h point
  rw [laid]
  exact .plain (List.append_ne_nil_of_left_ne_nil some _) (allPlain_pointed digits digits')

theorem written_decimal {d : Decimal} (pos : 0 < d.significand) :
    Written (numberLayout.decimal d) := by
  obtain ⟨cs, point, digits, some, laid | laid, _⟩ := exists_digits pos
  · rw [laid]
    exact written_positional digits point
  · obtain ⟨mantissa, form, plain, some, _⟩ := scientific_cases digits some point
    rw [laid, form]
    exact .scientific some plain _

/-- The first character is a digit or the point. -/
theorem Written.head (h : Written cs) : ∃ c ∈ cs.head?, isPlain c = true := by
  cases h with
  | plain nonempty plain =>
    obtain ⟨c, rest, rfl⟩ := List.exists_cons_of_ne_nil nonempty
    exact ⟨c, rfl, plain c List.mem_cons_self⟩
  | scientific nonempty plain exponent =>
    obtain ⟨c, rest, rfl⟩ := List.exists_cons_of_ne_nil nonempty
    exact ⟨c, rfl, plain c List.mem_cons_self⟩

theorem isChain_of_noMinus (h : '-' ∉ cs) : cs.IsChain MarksMinus := by
  refine List.Pairwise.isChain (List.pairwise_of_forall_mem_list fun _ _ b mem isMinus => ?_)
  exact absurd (isMinus ▸ mem) h

theorem AllPlain.solid (plain : AllPlain cs) (nonempty : cs ≠ []) : Solid cs where
  nonempty := nonempty
  noPlus := plain.not_mem rfl
  minus := isChain_of_noMinus (plain.not_mem rfl)
  last c mem := by
    have mem : c ∈ cs := List.mem_of_getLast? mem
    constructor
    · rintro rfl
      exact plain.not_mem rfl mem
    · rintro rfl
      exact plain.not_mem rfl mem

/-- A sign in front. -/
theorem Solid.neg (h : Solid cs) (noSign : cs.head? ≠ some '-') : Solid ('-' :: cs) where
  nonempty := nofun
  noPlus := List.not_mem_cons_of_ne_of_not_mem (by decide) h.noPlus
  minus := h.minus.cons fun _ mem isMinus => absurd (isMinus ▸ mem) noSign
  last c mem := by
    obtain ⟨first, rest, rfl⟩ := List.exists_cons_of_ne_nil h.nonempty
    exact h.last c mem

theorem solid_integer (n : Int) : Solid (Layout.integer n) := by
  have plain : AllPlain (digits n.natAbs) := (allDigits_digits n.natAbs).plain
  have unsigned : Solid (digits n.natAbs) := plain.solid Nat.toDigits_ne_nil
  unfold Layout.integer
  split
  · exact unsigned.neg fun isSign => plain.not_mem rfl (List.mem_of_head? isSign)
  · exact unsigned

/-- An exponent behind the mark, with a sign or without. -/
theorem Solid.exponent (plain : AllPlain cs) (h : Solid ds) : Solid (cs ++ 'e' :: ds) where
  nonempty := List.append_ne_nil_of_right_ne_nil cs (List.cons_ne_nil _ _)
  noPlus := by
    rw [List.mem_append, not_or]
    exact ⟨plain.not_mem rfl, List.not_mem_cons_of_ne_of_not_mem (by decide) h.noPlus⟩
  minus := by
    refine (isChain_of_noMinus (plain.not_mem rfl)).append (h.minus.cons fun _ _ _ => rfl) ?_
    rintro _ _ _ ⟨⟩ isMinus
    exact absurd isMinus (by decide)
  last c mem := by
    obtain ⟨first, rest, rfl⟩ := List.exists_cons_of_ne_nil h.nonempty
    refine h.last c ?_
    rwa [List.getLast?_append, List.getLast?_cons_cons, List.getLast?_cons, Option.some_or,
      ← List.getLast?_cons] at mem

theorem Written.solid (h : Written cs) : Solid cs := by
  cases h with
  | plain nonempty plain => exact plain.solid nonempty
  | scientific _ plain exponent => exact .exponent plain (solid_integer exponent)

/-! ## Views without their sign -/

namespace View

/-- Whether the text of a double has a sign. -/
def isNegative : View → Bool
  | nan => false
  | infinite negative => negative
  | finite negative _ _ => negative

/-- The text without the sign. -/
def unsigned : View → List Char
  | nan => numberLayout.nan.toList
  | infinite _ => numberLayout.infinity.toList
  | finite _ m q => if m = 0 then Layout.positional ['0'] 1 else numberLayout.decimal (shortest m q)

/-- The text of a sign. -/
def sign (negative : Bool) : List Char := if negative then ['-'] else []

theorem layout_eq (v : View) : numberLayout.view v = sign v.isNegative ++ v.unsigned := by
  cases v <;> rfl

/-- A view that a double can have. -/
def Possible (v : View) : Prop := ∀ negative m q, v = .finite negative m q → Canonical m q

theorem possible_view (x : Float) : (view x).Possible := fun _ _ _ same => canonical_viewBits same

section

variable {negative : Bool} {m : Nat} {q : Int}

theorem significand_shortest_pos (canonical : Canonical m q) (pos : 0 < m) :
    0 < (shortest m q).significand :=
  Decimal.significand_pos (value_shortest_pos canonical pos)

theorem written_unsigned (canonical : Canonical m q) : Written (finite negative m q).unsigned := by
  rw [unsigned]
  split
  · exact written_positional (allDigits_zeros 1) 1
  · next notZero =>
    exact written_decimal (significand_shortest_pos canonical (Nat.pos_of_ne_zero notZero))

/-- The text of a number is read as the value that was written. -/
theorem reading_unsigned (canonical : Canonical m q) :
    reading (finite negative m q).unsigned = writtenValue m q := by
  rw [unsigned, writtenValue]
  split
  · have digit : Nat.ofDigitChars 10 (List.replicate 1 '0') 0 = 0 := rfl
    have zero := reading_positional (allDigits_zeros 1) 1
    rwa [digit, Nat.cast_zero, zero_mul] at zero
  · next notZero =>
    exact reading_decimal (significand_shortest_pos canonical (Nat.pos_of_ne_zero notZero))

end

theorem unsigned_nan : nan.unsigned = ['N', 'a', 'N'] := rfl

theorem unsigned_infinite (negative : Bool) : (infinite negative).unsigned = ['i', 'n', 'f'] := rfl

theorem solid_letters {c : Char} (noPlus : '+' ∉ cs ++ [c]) (noMinus : '-' ∉ cs ++ [c])
    (last : c ≠ 'e' ∧ c ≠ 'i') : Solid (cs ++ [c]) where
  nonempty := List.append_ne_nil_of_right_ne_nil cs (List.cons_ne_nil c [])
  noPlus := noPlus
  minus := isChain_of_noMinus noMinus
  last d mem := by
    rw [List.getLast?_concat] at mem
    cases mem
    exact last

/-- What stands after the sign is no sign. -/
theorem solid_unsigned (possible : v.Possible) :
    Solid v.unsigned ∧ v.unsigned.head? ≠ some '-' := by
  cases v with
  | nan =>
    rw [unsigned_nan]
    exact ⟨@solid_letters ['N', 'a'] 'N' (by decide) (by decide) (by decide), by decide⟩
  | infinite negative =>
    rw [unsigned_infinite]
    exact ⟨@solid_letters ['i', 'n'] 'f' (by decide) (by decide) (by decide), by decide⟩
  | finite negative m q =>
    have written : Written (finite negative m q).unsigned :=
      written_unsigned (possible negative m q rfl)
    refine ⟨written.solid, fun isSign => ?_⟩
    obtain ⟨c, first, plain⟩ := written.head
    cases first.symm.trans isSign
    cases plain

/-- The text of a double can be told from what stands around it. -/
theorem solid_layout (possible : v.Possible) : Solid (numberLayout.view v) := by
  obtain ⟨solid, noSign⟩ := solid_unsigned possible
  rw [layout_eq, sign]
  split
  · exact solid.neg noSign
  · exact solid

/-- Signs come off a text in one way. -/
theorem sign_injective {s t : Bool} (noSign : cs.head? ≠ some '-') (noSign' : ds.head? ≠ some '-')
    (same : sign s ++ cs = sign t ++ ds) : s = t ∧ cs = ds := by
  cases s <;> cases t
  · exact ⟨rfl, same⟩
  · exact absurd (congrArg List.head? same) noSign
  · exact absurd (congrArg List.head? same.symm) noSign'
  · exact ⟨rfl, List.tail_eq_of_cons_eq same⟩

/-- A view is known by its sign and its text without that. -/
theorem unsigned_injective (possible : v.Possible) (possible' : w.Possible)
    (signs : v.isNegative = w.isNegative) (same : v.unsigned = w.unsigned) : v = w := by
  have number {s : Bool} {m : Nat} {q : Int} (canonical : Canonical m q) {c : Char}
      {cs : List Char} (letters : c :: cs = (finite s m q).unsigned) : isPlain c = true := by
    obtain ⟨d, first, plain⟩ := (written_unsigned canonical).head
    rw [← letters] at first
    cases first
    exact plain
  cases v with
  | nan =>
    cases w with
    | nan => rfl
    | infinite t =>
      rw [unsigned_nan, unsigned_infinite] at same
      exact absurd same (by decide)
    | finite t n p => exact absurd (number (possible' t n p rfl) same) (by decide)
  | infinite s =>
    cases w with
    | nan =>
      rw [unsigned_nan, unsigned_infinite] at same
      exact absurd same (by decide)
    | infinite t => exact congrArg infinite signs
    | finite t n p => exact absurd (number (possible' t n p rfl) same) (by decide)
  | finite s m q =>
    have canonical := possible s m q rfl
    cases w with
    | nan => exact absurd (number canonical same.symm) (by decide)
    | infinite t => exact absurd (number canonical same.symm) (by decide)
    | finite t n p =>
      have canonical' := possible' t n p rfl
      obtain rfl : s = t := signs
      have values := congrArg reading same
      rw [reading_unsigned canonical, reading_unsigned canonical'] at values
      obtain ⟨rfl, rfl⟩ := writtenValue_injective canonical canonical' values
      rfl

theorem layout_injective (possible : v.Possible) (possible' : w.Possible)
    (same : numberLayout.view v = numberLayout.view w) : v = w := by
  rw [layout_eq, layout_eq] at same
  obtain ⟨signs, same⟩ :=
    sign_injective (solid_unsigned possible).2 (solid_unsigned possible').2 same
  exact unsigned_injective possible possible' signs same

end View

/-! ## Texts of doubles -/

theorem solid_text (x : Float) : Solid (text x).toList := by
  rw [text, String.toList_ofList]
  exact View.solid_layout (View.possible_view x)

/-- Two doubles with the same text are the same. -/
theorem text_injective (same : text x = text y) : x = y := by
  have same : numberLayout.view (view x) = numberLayout.view (view y) :=
    String.ofList_injective same
  exact view_injective
    (View.layout_injective (View.possible_view x) (View.possible_view y) same)

end ComplexScript.Double
