import ComplexScript.Token.Scan
set_option autoImplicit false

/-!
# Edges

A blank, the end of a line and a character that is a token wherever it stands are edges: whatever
comes before one ends there, since no token but its own goes on with it
(`Scan.not_isDigit_of_isEdge`, `Scan.not_isWordCharacter_of_isEdge`, `Scan.opening_of_isEdge`).
What tokens do go on with after their first character are the inner characters.
-/

namespace ComplexScript.Token

/-- The characters that keep tokens apart. -/
def isGap (ch : Char) : Bool := isBlank ch || ch = '\n'

/-- The kind of a character that is a token by itself, whatever comes after it. -/
def Kind.alone? (ch : Char) : Option Kind :=
  if ch = '\n' then some .lineBreak else Kind.ofCharacter? ch

/-- The characters that no token but their own goes on with. -/
def isEdge (ch : Char) : Bool := isBlank ch || (Kind.alone? ch).isSome

theorem isEdge_of_isGap {ch : Char} (h : isGap ch = true) : isEdge ch = true := by
  unfold isGap at h
  unfold isEdge Kind.alone?
  by_cases lineBreak : ch = '\n' <;> simp_all

theorem isEdge_of_alone {ch : Char} {kind : Kind} (h : Kind.alone? ch = some kind) :
    isEdge ch = true := by
  rw [isEdge, h, Option.isSome_some, Bool.or_true]

/-- The edges one by one. -/
def edges : List Char :=
  [' ', '\t', '\n', '+', '-', '*', '/', '%', '^', '(', ')', '{', '}', ',', ';']

theorem mem_edges {ch : Char} (h : isEdge ch = true) : ch ∈ edges := by
  unfold isEdge Kind.alone? Kind.ofCharacter? at h
  unfold edges
  split at h
  · simp_all
  · split at h <;> simp_all [isBlank]

/-- What holds of the edges one by one holds of every edge. -/
theorem of_edges {P : Char → Prop} [DecidablePred P] (all : edges.all (fun ch => P ch) = true)
    {ch : Char} (edge : isEdge ch = true) : P ch :=
  of_decide_eq_true (List.all_eq_true.mp all ch (mem_edges edge))

/-- The characters that a token goes on with after its first one. -/
def isInner (ch : Char) : Bool :=
  isWordCharacter ch || ch = '.' || ch = '=' || ch = '&' || ch = '|'

theorem not_isEdge_of_isInner {ch : Char} (h : isInner ch = true) : isEdge ch = false := by
  rw [Bool.eq_false_iff]
  intro edge
  have outside : isInner ch = false :=
    of_edges (P := fun ch => isInner ch = false) (by decide) edge
  cases outside.symm.trans h

theorem isInner_of_isWordCharacter (ch : Char) (h : isWordCharacter ch = true) :
    isInner ch = true := by
  simp [isInner, h]

namespace Scan

theorem not_isDigit_of_isEdge (b : Base) (ch : Char) (h : isEdge ch = true) :
    b.isDigit ch = false :=
  of_edges (P := fun ch => b.isDigit ch = false) (by cases b <;> decide) h

theorem not_isWordCharacter_of_isEdge (ch : Char) (h : isEdge ch = true) :
    isWordCharacter ch = false :=
  of_edges (P := fun ch => isWordCharacter ch = false) (by decide) h

/-- Before an edge a leading zero is the whole literal. -/
theorem opening_of_isEdge (first : Char) {ch : Char} (h : isEdge ch = true) :
    Base.opening first ch = if first = '0' then .zero else .plain .decimal := by
  obtain ⟨notHexadecimal, notBinary, notOctal, notDecimal⟩ : ch ≠ 'x' ∧ ch ≠ 'b' ∧
      Base.octal.isDigit ch = false ∧ ¬ (ch = '.' ∨ ch = 'i') :=
    of_edges (P := fun ch => ch ≠ 'x' ∧ ch ≠ 'b' ∧ Base.octal.isDigit ch = false ∧
      ¬ (ch = '.' ∨ ch = 'i')) (by decide) h
  rw [Base.opening, if_neg notHexadecimal, if_neg notBinary, notOctal, if_neg Bool.false_ne_true,
    if_neg notDecimal]

/-! ## Inner characters -/

theorem isWordCharacter_of_isDigit (b : Base) (ch : Char) (h : b.isDigit ch = true) :
    isWordCharacter ch = true := by
  unfold Base.isDigit digit? at h
  unfold isWordCharacter isLetter isDecimalDigit
  split at h
  · next found =>
    split at found
    · next range => simp [range.1, range.2]
    split at found
    · next range => simp [range.1, range.2]
    split at found
    · next range => simp [range.1, range.2]
    · cases found
  · cases h

end Scan

end ComplexScript.Token
