import ComplexScript.Proofs.Double.Growth
import ComplexScript.Proofs.Token.Locality
set_option autoImplicit false

/-!
# Number literals and their tokens

A literal is digits in a base, some of them after a point perhaps, with or without the imaginary
suffix.  Wherever one comes next it is read as one token, up to its end (`Scan.next_literal`): a
number if its digits add up to a double that is no infinity, and else a placeholder with the fault
`Fault.literalOutOfRange`.

Digits add up in doubles, each sum being rounded, so where exactly they come to an infinity is up to
the rounding.  With enough digits in its whole part a literal is out of range whatever they are
(`Literal.Long.outOfRange`).
-/

namespace ComplexScript.Token

open ComplexScript.Text
open Double (Holds NotNegative Reaches holds_ofNat)

variable {b : Base} {ds : List Char} {d : Char} {v : Float} {n k : Nat}

/-! ## Literals -/

/-- What stands before the digits of a literal that is not decimal. -/
def Base.lead : Base → List Char
  | decimal => []
  | octal => ['0']
  | hexadecimal => ['0', 'x']
  | binary => ['0', 'b']

/-- Digits after the point, with the point.  Where there are none there is no point. -/
def fraction : List Char → List Char
  | [] => []
  | places => '.' :: places

/-- The end of a literal. -/
def imaginarySuffix (imaginary : Bool) : List Char := if imaginary then ['i'] else []

/-- The number with one part `v`, the other one being zero. -/
def onePart (imaginary : Bool) (v : Float) : Number := if imaginary then ⟨0.0, v⟩ else ⟨v, 0.0⟩

/-- The token of a literal with a value: a placeholder if that is an infinity. -/
def Lexeme.ofValue (text : List Char) (start : Position) (imaginary : Bool) (v : Float) : Lexeme :=
  if v.isInf then .faulty .literalOutOfRange text start
  else .number text start (onePart imaginary v)

/-- A number literal. -/
structure Literal where
  base : Base
  /-- The digits before the point. -/
  whole : List Char
  /-- The digits after the point. -/
  places : List Char := []
  imaginary : Bool := false
  deriving DecidableEq, Repr, Inhabited

namespace Literal

variable (l : Literal)

/-- The literal as it is written. -/
def text : List Char :=
  l.base.lead ++ l.whole ++ fraction l.places ++ imaginarySuffix l.imaginary

/-- What the digits add up to in doubles. -/
def sum : Float := l.base.addPlaces (l.base.extend 0.0 l.whole) l.places

/-- The sum of the digits, rounded to as many places as are written. -/
def value : Float := roundHalfUp l.sum l.places.length

/-- The digits add up to an infinity. -/
def OutOfRange : Prop := l.sum.isInf = true

/-- The token of the literal. -/
def lexeme (start : Position) : Lexeme := .ofValue l.text start l.imaginary l.value

/-- The literal is written as it has to be: with digits of its base, and with one at least before
the point unless a letter marks the base.  A decimal that starts with a zero has no other whole
digit, and without a point or the suffix it is no decimal. -/
structure Valid : Prop where
  whole : ∀ d ∈ l.whole, l.base.isDigit d = true
  places : ∀ d ∈ l.places, l.base.isDigit d = true
  nonempty : l.base = .decimal ∨ l.base = .octal → l.whole ≠ []
  zero : l.base = .decimal → l.whole.head? = some '0' →
    l.whole = ['0'] ∧ (l.places ≠ [] ∨ l.imaginary = true)

/-- The character does not go on with the literal.  After the suffix none does, and after a point
and digits no second point does. -/
def Ends (stop : Char) : Prop :=
  l.imaginary = false → l.base.isDigit stop = false ∧ stop ≠ 'i' ∧ (l.places = [] → stop ≠ '.')

/-- After blanks the literal comes next, up to a character that does not go on with it. -/
def Next (c : Cursor) : Prop :=
  l.Valid ∧ ∃ bs stop rest, (∀ x ∈ bs, isBlank x = true) ∧ l.Ends stop ∧
    c.ahead = bs ++ (l.text ++ stop :: rest)

/-- So many digits before the point, leading zeros apart, are too many for a double. -/
def Long : Prop :=
  1024 ≤ ((l.whole.dropWhile (· = '0')).length - 1) * l.base.radix.log2

end Literal

/-! ## Digits -/

theorem Base.radix_le (b : Base) : 0 < b.radix ∧ b.radix ≤ 2 ^ 53 := by
  cases b <;> decide

/-- A digit counts less than sixteen, in whatever base. -/
theorem digit_lt (digit : b.isDigit d = true) : (digit? d).getD 0 < 16 := by
  have radix : b.radix ≤ 16 := by cases b <;> decide
  unfold Base.isDigit at digit
  split at digit
  · next found =>
    rw [found]
    exact Nat.lt_of_lt_of_le (of_decide_eq_true digit) radix
  · cases digit

theorem holds_digitValue (digit : b.isDigit d = true) :
    Holds (digitValue d) ((digit? d).getD 0) :=
  holds_ofNat (Nat.le_trans (Nat.le_of_lt (digit_lt digit)) (by decide))

theorem zero_mul_add_ofNat (b : Base) :
    ∀ n < 16, (0.0 : Float) * Float.ofNat b.radix + Float.ofNat n = Float.ofNat n := by
  cases b <;> decide +kernel

/-- The first digit counts as it is. -/
theorem Base.extend_zero_cons (digit : b.isDigit d = true) (ds : List Char) :
    b.extend 0.0 (d :: ds) = b.extend (digitValue d) ds := by
  rw [Base.extend_cons, digitValue, zero_mul_add_ofNat b _ (digit_lt digit)]

/-- No digit but zero counts nothing. -/
theorem digit_pos (digit : b.isDigit d = true) (notZero : d ≠ '0') : 0 < (digit? d).getD 0 := by
  unfold Base.isDigit at digit
  cases found : digit? d with
  | none =>
    rw [found] at digit
    cases digit
  | some n =>
    rw [Option.getD_some, Nat.pos_iff_ne_zero]
    rintro rfl
    unfold digit? at found
    split at found
    · next range =>
      have value : d.toNat = '0'.toNat :=
        Nat.le_antisymm (Nat.sub_eq_zero_iff_le.mp (Option.some.inj found)) range.1
      exact notZero (Char.toNat_inj.mp value)
    split at found
    · cases found
    split at found
    · cases found
    · cases found

/-! ## Values that are out of range -/

/-- Rounding to places leaves infinities, and makes none. -/
theorem isInf_roundHalfUp (v : Float) (n : Nat) : (roundHalfUp v n).isInf = v.isInf := by
  cases infinite : v.isInf with
  | true =>
    have rounded (m : Nat) : m < 16 →
        (roundHalfUp infinity m).isInf = true ∧ (roundHalfUp (-infinity) m).isInf = true := by
      revert m
      decide +kernel
    rcases Nat.lt_or_ge n maxRoundedPlaces with few | many
    · rcases Double.eq_of_isInf infinite with rfl | rfl
      · exact (rounded n few).1
      · exact (rounded n few).2
    · rw [roundHalfUp, if_pos (.inr many)]
      exact infinite
  | false =>
    unfold roundHalfUp
    split
    · exact infinite
    · dsimp only
      split
      · next finite => exact Double.isInf_of_isFinite finite
      · exact infinite

namespace Base

/-- Each digit more takes the value as many places further as a digit of the base has bits. -/
theorem reaches_extend (reaches : Reaches v k) (inBase : ∀ d ∈ ds, b.isDigit d = true) :
    Reaches (b.extend v ds) (k + ds.length * b.radix.log2) := by
  induction ds generalizing v k with
  | nil =>
    rw [List.length_nil, Nat.zero_mul]
    exact reaches
  | cons d ds ih =>
    obtain ⟨digit, others⟩ := List.forall_mem_cons.mp inBase
    have shifted := reaches.mul (holds_ofNat b.radix_le.2) (Nat.log2_self_le b.radix_le.1.ne')
    have further := ih (shifted.add (holds_digitValue digit).notNegative) others
    rw [extend_cons, List.length_cons, Nat.add_one_mul, Nat.add_comm (_ * _), ← Nat.add_assoc]
    exact further

/-- Digits after the point do not take the value back. -/
theorem reaches_addPlaces (reaches : Reaches v k) (inBase : ∀ d ∈ ds, b.isDigit d = true) :
    Reaches (b.addPlaces v ds) k := by
  suffices go : ∀ power, Reaches power 0 → Reaches (ds.foldl
      (fun (s : Float × Float) c => (s.1 + digitValue c / s.2, s.2 * Float.ofNat b.radix))
      (v, power)).1 k from
    go _ ((holds_ofNat b.radix_le.2).reaches b.radix_le.1)
  induction ds generalizing v with
  | nil => exact fun _ _ => reaches
  | cons d ds ih =>
    intro power positive
    obtain ⟨digit, others⟩ := List.forall_mem_cons.mp inBase
    have place := positive.div (holds_digitValue digit)
    have next : Reaches (power * Float.ofNat b.radix) (0 + 0) :=
      positive.mul (holds_ofNat b.radix_le.2) b.radix_le.1
    exact ih (reaches.add place) others _ next

/-- Leading zeros count nothing. -/
theorem extend_dropWhile (b : Base) (ds : List Char) :
    b.extend 0.0 (ds.dropWhile (· = '0')) = b.extend 0.0 ds := by
  induction ds with
  | nil => rfl
  | cons d ds ih =>
    rw [List.dropWhile_cons]
    split
    · next zero =>
      obtain rfl : d = '0' := of_decide_eq_true zero
      have digit : b.isDigit '0' = true := by cases b <;> rfl
      rw [ih, extend_zero_cons digit]
      rfl
    · rfl

end Base

/-- Beyond `2 ^ 1024` there is no double but an infinity. -/
theorem Literal.Long.outOfRange {l : Literal} (long : l.Long) (valid : l.Valid) :
    l.OutOfRange := by
  obtain ⟨base, whole, places, imaginary⟩ := l
  change 1024 ≤ ((whole.dropWhile (· = '0')).length - 1) * base.radix.log2 at long
  have inBase : ∀ d ∈ whole.dropWhile (· = '0'), base.isDigit d = true :=
    fun d mem => valid.whole d ((List.dropWhile_suffix _).subset mem)
  cases significant : whole.dropWhile (· = '0') with
  | nil =>
    rw [significant, List.length_nil, Nat.zero_sub, Nat.zero_mul] at long
    cases long
  | cons first others =>
    rw [significant] at long inBase
    obtain ⟨digit, rest⟩ := List.forall_mem_cons.mp inBase
    have notZero : first ≠ '0' := by
      rintro rfl
      have kept := List.head?_dropWhile_not (· = '0') whole
      rw [significant] at kept
      cases kept
    have start : Reaches (digitValue first) 0 :=
      (holds_digitValue digit).reaches (digit_pos digit notZero)
    have reached : Reaches (base.extend 0.0 whole) (0 + others.length * base.radix.log2) := by
      rw [← Base.extend_dropWhile, significant, Base.extend_zero_cons digit]
      exact Base.reaches_extend start rest
    rw [List.length_cons, Nat.add_sub_cancel] at long
    exact (Base.reaches_addPlaces reached valid.places).isInf (by omega)

/-! ## Reading a literal -/

namespace Scan

variable {c : Cursor} {opening text rest : List Char} {first stop : Char} {start : Position}
  {imaginary : Bool} {l : Literal}

/-- A number with one part is built unless that part is an infinity. -/
theorem ofLiteral_onePart (text : List Char) (start : Position) (imaginary : Bool) (v : Float) :
    Lexeme.ofLiteral text start
        (Number.ofParts (onePart imaginary v).re (onePart imaginary v).im) =
      .ofValue text start imaginary v := by
  have zero : (0.0 : Float).isInf = false := Number.bounded_zero.re
  have bounded : (onePart imaginary v).Bounded ↔ v.isInf = false := by
    cases imaginary
    · exact ⟨Number.Bounded.re, fun h => ⟨h, zero⟩⟩
    · exact ⟨Number.Bounded.im, fun h => ⟨zero, h⟩⟩
  unfold Lexeme.ofValue
  generalize onePart imaginary v = z at bounded ⊢
  by_cases built : z.Bounded
  · rw [Number.ofParts_of_bounded built, bounded.mp built]
    rfl
  · obtain ⟨f, failed, _⟩ := Number.ofParts_of_not_bounded built
    rw [failed, Bool.eq_true_of_not_eq_false (mt bounded.mpr built)]
    rfl

theorem suffix_read (ends : imaginary = false → stop ≠ 'i')
    (ahead : c.ahead = imaginarySuffix imaginary ++ stop :: rest) :
    (suffix text v start c).1 = .ofValue (text ++ imaginarySuffix imaginary) start imaginary v ∧
      (suffix text v start c).2.ahead = stop :: rest := by
  cases imaginary with
  | false =>
    obtain ⟨shown, looked⟩ : c.peek.1 = stop ∧ c.peek.2.ahead = stop :: rest :=
      Cursor.peek_of_ahead ahead
    simp only [suffix, bind, StateT.bind, peek, shown, if_neg (ends rfl)]
    refine ⟨?_, looked⟩
    rw [imaginarySuffix, if_neg Bool.false_ne_true, List.append_nil]
    exact ofLiteral_onePart text start false v
  | true =>
    have shown : c.peek.1 = 'i' := (Cursor.peek_of_ahead ahead).1
    simp only [suffix, bind, StateT.bind, peek, release, shown, if_true]
    exact ⟨ofLiteral_onePart _ start true v, Cursor.peek_release_of_ahead ahead⟩

/-- What comes after digits is the suffix or the character that ends the literal. -/
theorem after_digits (rest : List Char)
    (ends : imaginary = false → b.isDigit stop = false ∧ stop ≠ 'i') :
    ∃ ch more, imaginarySuffix imaginary ++ stop :: rest = ch :: more ∧ b.isDigit ch = false ∧
      ((imaginary = false → stop ≠ '.') → ch ≠ '.') := by
  cases imaginary with
  | false => exact ⟨stop, rest, rfl, (ends rfl).1, fun notPoint => notPoint rfl⟩
  | true => exact ⟨'i', stop :: rest, rfl, by cases b <;> decide, fun _ => by decide⟩

/-- From its first digits on a literal is read up to its end. -/
theorem digits_read (valid : l.Valid) (ends : l.Ends stop)
    (inBase : ∀ d ∈ ds, l.base.isDigit d = true) (sound : c.Sound)
    (ahead : c.ahead = ds ++ (fraction l.places ++ (imaginarySuffix l.imaginary ++ stop :: rest))) :
    (digits l.base opening v start c).1 =
        .ofValue (opening ++ ds ++ fraction l.places ++ imaginarySuffix l.imaginary) start
          l.imaginary (roundHalfUp (l.base.addPlaces (l.base.extend v ds) l.places)
            l.places.length) ∧
      (digits l.base opening v start c).2.ahead = stop :: rest := by
  obtain ⟨base, whole, places, imaginary⟩ := l
  obtain ⟨ch, more, after, notDigit, notPoint⟩ :=
    after_digits rest fun noSuffix => ⟨(ends noSuffix).1, (ends noSuffix).2.1⟩
  have notI : imaginary = false → stop ≠ 'i' := fun noSuffix => (ends noSuffix).2.1
  cases places with
  | nil =>
    have notPoint : ch ≠ '.' := notPoint fun noSuffix => (ends noSuffix).2.2 rfl
    rw [fraction, List.nil_append, after] at ahead
    obtain ⟨run, behind⟩ := Cursor.takeRun_of_ahead (stops_isDigit base) sound ahead inBase notDigit
    obtain ⟨shown, looked⟩ := Cursor.peek_of_ahead behind
    simp only [digits, bind, StateT.bind, takeRun, peek, run, shown, if_neg notPoint]
    rw [fraction, List.append_nil]
    exact suffix_read notI (looked.trans after.symm)
  | cons p ps =>
    have digit : base.isDigit p = true := valid.places p List.mem_cons_self
    have pointEnds : base.isDigit '.' = false := by cases base <;> rfl
    obtain ⟨run, behind⟩ :=
      Cursor.takeRun_of_ahead (stops_isDigit base) sound ahead inBase pointEnds
    have shown : (c.takeRun base.isDigit).2.peek.1 = '.' := (Cursor.peek_of_ahead behind).1
    have soundBehind : (c.takeRun base.isDigit).2.peek.2.release.Sound :=
      (sound.takeRun (stops_isDigit base)).peek.release
    obtain ⟨shown', looked⟩ := Cursor.peek_of_ahead (Cursor.peek_release_of_ahead behind)
    rw [after] at looked
    obtain ⟨run', behind'⟩ := Cursor.takeRun_of_ahead (stops_isDigit base) soundBehind.peek looked
      valid.places notDigit
    simp only [digits, bind, StateT.bind, takeRun, peek, release, run, shown, shown', digit, run',
      if_true]
    exact suffix_read notI (behind'.trans after.symm)

/-- Without a digit after it a point ends the literal, and spoils it. -/
theorem digits_malformed {x : Char} (inBase : ∀ d ∈ ds, b.isDigit d = true)
    (notDigit : b.isDigit x = false) (sound : c.Sound) (ahead : c.ahead = ds ++ '.' :: x :: rest) :
    (digits b opening v start c).1 =
      .faulty (.malformedFraction (String.ofList (opening ++ ds ++ ['.'])))
        (opening ++ ds ++ ['.']) start := by
  have pointEnds : b.isDigit '.' = false := by cases b <;> rfl
  obtain ⟨run, behind⟩ := Cursor.takeRun_of_ahead (stops_isDigit b) sound ahead inBase pointEnds
  have shown : (c.takeRun b.isDigit).2.peek.1 = '.' := (Cursor.peek_of_ahead behind).1
  have shown' : (c.takeRun b.isDigit).2.peek.2.release.peek.1 = x :=
    (Cursor.peek_of_ahead (Cursor.peek_release_of_ahead behind)).1
  simp only [digits, bind, StateT.bind, takeRun, peek, release, run, shown, shown', notDigit,
    if_true]
  rfl

/-! ## The characters before the digits -/

section

variable {whole others more : List Char} {ch : Char}

/-- From its first character on a literal is digits of its base: all its whole digits, or those
after the first one. -/
theorem afterDigit_eq (start : Position) (chars : b.lead ++ whole = first :: others)
    (inBase : ∀ d ∈ whole, b.isDigit d = true) (octal : b = .octal → whole ≠ [])
    (decimal : b = .decimal → first = '0' → Base.opening '0' c.peek.1 = .plain .decimal)
    (sound : c.Sound) (ahead : c.ahead = others ++ ch :: more) :
    ∃ opening ds v d, afterDigit first start c = digits b opening v start d ∧
      opening ++ ds = first :: others ∧ b.extend v ds = b.extend 0.0 whole ∧
      (∀ d ∈ ds, b.isDigit d = true) ∧ d.Sound ∧ d.ahead = ds ++ ch :: more := by
  have goesOn : others ++ ch :: more ≠ [] := by simp
  have looked : c.peek.2.ahead = others ++ ch :: more := (Cursor.Takes.looked c).ahead ahead goesOn
  have plain (opened : Base.opening first c.peek.1 = .plain b) :
      afterDigit first start c = digits b [first] (digitValue first) start c.peek.2 := by
    simp only [afterDigit, bind, StateT.bind, peek, opened]
  have marked (mark : Char) (shown : c.peek.1 = mark)
      (opened : Base.opening first mark = .marked b) : afterDigit first start c =
        digits b [first, mark] (digitValue first) start c.peek.2.release := by
    simp only [afterDigit, bind, StateT.bind, peek, release, shown, opened]
  cases b with
  | decimal =>
    obtain rfl : whole = first :: others := chars
    obtain ⟨digit, rest⟩ := List.forall_mem_cons.mp inBase
    have opened : Base.opening first c.peek.1 = .plain .decimal := by
      by_cases zero : first = '0'
      · rw [zero]
        exact decimal rfl zero
      · exact if_neg zero
    exact ⟨_, others, _, _, plain opened, rfl, (Base.extend_zero_cons digit others).symm, rest,
      sound.peek, looked⟩
  | octal =>
    obtain ⟨rfl, rfl⟩ := List.cons.inj chars
    obtain ⟨d, ds, rfl⟩ := List.exists_cons_of_ne_nil (octal rfl)
    have digit : Base.octal.isDigit d = true := inBase d List.mem_cons_self
    have shown : c.peek.1 = d := (Cursor.peek_of_ahead ahead).1
    have notMark (mark : Char) (notDigit : Base.octal.isDigit mark = false) : d ≠ mark := by
      rintro rfl
      cases digit.symm.trans notDigit
    have opened : Base.opening '0' c.peek.1 = .plain .octal := by
      rw [shown, Base.opening, if_pos rfl, if_neg (notMark 'x' rfl),
        if_neg (notMark 'b' rfl), if_pos digit]
    exact ⟨_, _, _, _, plain opened, rfl, rfl, inBase, sound.peek, looked⟩
  | hexadecimal | binary =>
    obtain ⟨rfl, rfl⟩ := List.cons.inj chars
    exact ⟨_, _, _, _, marked _ (Cursor.peek_of_ahead ahead).1 rfl, rfl, rfl, inBase,
      sound.peek.release, Cursor.peek_release_of_ahead ahead⟩

theorem isDecimalDigit_of_isDigit {ch : Char} (h : Base.decimal.isDigit ch = true) :
    isDecimalDigit ch = true := by
  unfold Base.isDigit digit? at h
  split at h
  · next found =>
    split at found
    · next range => simp [isDecimalDigit, range.1, range.2]
    split at found
    · cases found
      simp [Base.radix] at h
    split at found
    · cases found
      simp [Base.radix] at h
    · cases found
  · cases h

theorem not_isBlank_of_isDecimalDigit {ch : Char} (h : isDecimalDigit ch = true) :
    isBlank ch = false := by
  rw [Bool.eq_false_iff, isBlank, Ne, Bool.or_eq_true, decide_eq_true_iff, decide_eq_true_iff]
  rintro (rfl | rfl) <;> cases h

/-- A literal starts with a decimal digit, in whatever base it is written. -/
theorem exists_first (inBase : ∀ d ∈ whole, b.isDigit d = true)
    (nonempty : b = .decimal ∨ b = .octal → whole ≠ []) :
    ∃ first others, b.lead ++ whole = first :: others ∧ isDecimalDigit first = true := by
  cases b with
  | decimal =>
    obtain ⟨first, others, rfl⟩ := List.exists_cons_of_ne_nil (nonempty (.inl rfl))
    exact ⟨first, others, rfl, isDecimalDigit_of_isDigit (inBase first List.mem_cons_self)⟩
  | _ => exact ⟨_, _, rfl, by decide⟩

/-- At a digit the token is a number literal. -/
theorem next_of_digit {ch : Char} (held : (afterBlanks c).held = some ch)
    (digit : isDecimalDigit ch = true) :
    next c = afterDigit ch (afterBlanks c).position (afterBlanks c).release := by
  have shown : (c.takeRun isBlank).2.peek.1 = ch :=
    Option.some.inj ((Cursor.peek_held _).symm.trans held)
  have inText : ch ≠ endOfText := by
    rintro rfl
    cases digit
  have inLine : ¬ (ch = '\n' ∨ ch = '\r') := by
    rintro (rfl | rfl) <;> cases digit
  simp only [next, bind, StateT.bind, takeRun, peek, position, shown]
  rw [if_neg inText, if_neg inLine, if_pos digit]
  rfl

/-- A token that starts with a digit is read from the digits of its base on. -/
theorem next_eq_digits {bs : List Char} (inBase : ∀ d ∈ whole, b.isDigit d = true)
    (nonempty : b = .decimal ∨ b = .octal → whole ≠ [])
    (decimal : b = .decimal → whole.head? = some '0' →
      whole = ['0'] ∧ Base.opening '0' ch = .plain .decimal)
    (sound : c.Sound) (blanks : ∀ x ∈ bs, isBlank x = true)
    (ahead : c.ahead = bs ++ (b.lead ++ whole ++ ch :: more)) :
    ∃ opening ds v d, next c = digits b opening v (afterBlanks c).position d ∧
      opening ++ ds = b.lead ++ whole ∧ b.extend v ds = b.extend 0.0 whole ∧
      (∀ d ∈ ds, b.isDigit d = true) ∧ d.Sound ∧ d.ahead = ds ++ ch :: more := by
  obtain ⟨first, others, chars, digit⟩ := exists_first inBase nonempty
  rw [chars, List.cons_append] at ahead
  obtain ⟨held, there⟩ :=
    afterBlanks_held sound ahead blanks (not_isBlank_of_isDecimalDigit digit)
  have behind := Cursor.release_of_ahead held there
  have sound' : (afterBlanks c).release.Sound := (sound.takeRun stops_isBlank).peek.release
  rw [next_of_digit held digit, chars]
  refine afterDigit_eq _ chars inBase (fun octal => nonempty (.inr octal)) ?_ sound' behind
  rintro rfl rfl
  obtain rfl : whole = '0' :: others := chars
  obtain ⟨alone, opened⟩ := decimal rfl rfl
  obtain rfl : others = [] := (List.cons.inj alone).2
  rw [(Cursor.peek_of_ahead behind).1]
  exact opened

end

/-! ## Reading a literal -/

/-- What comes after the whole digits of a literal. -/
theorem after_whole (valid : l.Valid) (stop : Char) (rest : List Char) :
    ∃ ch more, fraction l.places ++ (imaginarySuffix l.imaginary ++ stop :: rest) = ch :: more ∧
      (l.base = .decimal → l.whole.head? = some '0' →
        l.whole = ['0'] ∧ Base.opening '0' ch = .plain .decimal) := by
  obtain ⟨base, whole, places, imaginary⟩ := l
  cases places with
  | cons p ps => exact ⟨'.', _, rfl, fun decimal zero => ⟨(valid.zero decimal zero).1, rfl⟩⟩
  | nil =>
    cases imaginary with
    | true => exact ⟨'i', _, rfl, fun decimal zero => ⟨(valid.zero decimal zero).1, rfl⟩⟩
    | false =>
      refine ⟨stop, rest, rfl, fun decimal zero => ?_⟩
      exact ((valid.zero decimal zero).2.elim (fun some => some rfl) nofun).elim

/-- A literal is one token, wherever it stands and whatever comes after it that does not go on with
it.  The character after it is still to be read. -/
theorem next_literal {bs : List Char} (valid : l.Valid) (ends : l.Ends stop) (sound : c.Sound)
    (blanks : ∀ x ∈ bs, isBlank x = true) (ahead : c.ahead = bs ++ (l.text ++ stop :: rest)) :
    (next c).1 = l.lexeme (afterBlanks c).position ∧ (next c).2.ahead = stop :: rest := by
  obtain ⟨ch, more, after, decimal⟩ := after_whole valid stop rest
  rw [Literal.text, List.append_assoc, List.append_assoc, after] at ahead
  obtain ⟨opening, ds, v, d, here, chars, value, inBase, sound', ahead'⟩ :=
    next_eq_digits valid.whole valid.nonempty decimal sound blanks ahead
  rw [here, Literal.lexeme, Literal.text, Literal.value, Literal.sum, ← chars, ← value]
  exact digits_read valid ends inBase sound' (ahead'.trans (congrArg (ds ++ ·) after.symm))

/-- A literal that is out of range is a placeholder with the fault that says so. -/
theorem next_outOfRange (sound : c.Sound) (here : l.Next c) (out : l.OutOfRange) :
    (next c).1 = .faulty .literalOutOfRange l.text (afterBlanks c).position := by
  obtain ⟨valid, bs, stop, rest, blanks, ends, ahead⟩ := here
  have infinite : l.value.isInf = true := (isInf_roundHalfUp _ _).trans out
  rw [(next_literal valid ends sound blanks ahead).1, Literal.lexeme, Lexeme.ofValue,
    if_pos infinite]

end Scan

end ComplexScript.Token
