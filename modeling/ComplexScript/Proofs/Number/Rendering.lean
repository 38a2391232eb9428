import ComplexScript.Number.Value
import ComplexScript.Proofs.Double.Texts
set_option autoImplicit false

/-!
# A value is known by its text

A number is written in one of four ways (`Shown`), which share no text: the imaginary unit at the
end tells the real part alone from the others, and the plus or the minus between two parts is no
character of theirs, but where a minus opens a text or stands in an exponent.  So the text of a
value without a part that is no number tells what the value is equal to
(`Value.equal_of_render_eq`).  Zeros of both signs are equal and yet decide by themselves what is
written, so equal values may have different texts.
-/

namespace ComplexScript

open Double (Solid text solid_text text_injective neg_injective)

/-! ## Cutting the text of a number -/

namespace Double

variable {as bs cs ds : List Char}

/-- No text of a double goes on with a minus where another one ends. -/
theorem Solid.ne_append_minus (h : Solid as) (h' : Solid bs) (cs : List Char) :
    as ≠ bs ++ '-' :: cs := by
  rintro rfl
  obtain ⟨_, _, next⟩ := List.isChain_append.mp h.minus
  have last := List.getLast?_eq_some_getLast h'.nonempty
  exact (h'.last _ last).1 (next _ last '-' rfl rfl)

theorem Solid.ne_append_plus (h : Solid as) (bs cs : List Char) : as ≠ bs ++ '+' :: cs := by
  rintro rfl
  exact h.noPlus (List.mem_append_right bs List.mem_cons_self)

theorem Solid.ne_append_unit (h : Solid as) (bs : List Char) : as ≠ bs ++ ['i'] := by
  rintro rfl
  exact (h.last 'i' List.getLast?_concat).2 rfl

theorem Solid.minus_ne_plus (h : Solid as) (h' : Solid cs) (bs ds : List Char) :
    as ++ '-' :: cs ≠ bs ++ '+' :: ds := by
  intro same
  have plus : '+' ∈ as ++ '-' :: cs := same ▸ List.mem_append_right bs List.mem_cons_self
  rcases List.mem_append.mp plus with mem | mem
  · exact h.noPlus mem
  · exact h'.noPlus ((List.mem_cons.mp mem).resolve_left (by decide))

/-- Texts are cut at a mark in one way, if neither goes on with the mark where the other ends. -/
theorem cut_at {mark : Char} (left : ∀ es, as ≠ bs ++ mark :: es)
    (right : ∀ es, bs ≠ as ++ mark :: es) (same : as ++ mark :: cs = bs ++ mark :: ds) :
    as = bs ∧ cs = ds := by
  rcases List.append_eq_append_iff.mp same with ⟨es, further, rest⟩ | ⟨es, further, rest⟩
  · cases es with
    | nil => exact ⟨by rw [further, List.append_nil], List.tail_eq_of_cons_eq rest⟩
    | cons e es =>
      obtain ⟨rfl, _⟩ := List.cons.inj rest
      exact absurd further (right es)
  · cases es with
    | nil => exact ⟨by rw [further, List.append_nil], (List.tail_eq_of_cons_eq rest).symm⟩
    | cons e es =>
      obtain ⟨rfl, _⟩ := List.cons.inj rest
      exact absurd further (left es)

theorem Solid.cut_minus (h : Solid as) (h' : Solid bs)
    (same : as ++ '-' :: cs = bs ++ '-' :: ds) : as = bs ∧ cs = ds :=
  cut_at (h.ne_append_minus h') (h'.ne_append_minus h) same

theorem Solid.cut_plus (h : Solid as) (h' : Solid bs)
    (same : as ++ '+' :: cs = bs ++ '+' :: ds) : as = bs ∧ cs = ds :=
  cut_at (h.ne_append_plus bs) (h'.ne_append_plus as) same

end Double

namespace Number

variable {z w : Number} {cs ds : List Char}

/-! ## Layouts -/

/-- What is written of a number with an imaginary part, in front of the imaginary unit. -/
inductive Parts (z : Number) : List Char → Prop where
  | imaginary (zero : (z.re == 0.0) = true) : Parts z (text z.im).toList
  | difference : Parts z ((text z.re).toList ++ '-' :: (text (-z.im)).toList)
  | sum : Parts z ((text z.re).toList ++ '+' :: (text z.im).toList)

/-- What is written of a number. -/
inductive Shown (z : Number) : List Char → Prop where
  | real (zero : (z.im == 0.0) = true) : Shown z (text z.re).toList
  | parts {cs : List Char} (parts : Parts z cs) : Shown z (cs ++ ['i'])

theorem shown_render (z : Number) : Shown z z.render.toList := by
  unfold render
  split
  · next zero => exact .real zero
  split
  · next _ zero =>
    rw [String.toList_append]
    exact .parts (.imaginary zero)
  split
  · have form : (text z.re ++ "-" ++ text (-z.im) ++ "i").toList =
        (text z.re).toList ++ '-' :: (text (-z.im)).toList ++ ['i'] := by
      simp
    rw [form]
    exact .parts .difference
  · have form : (text z.re ++ "+" ++ text z.im ++ "i").toList =
        (text z.re).toList ++ '+' :: (text z.im).toList ++ ['i'] := by
      simp
    rw [form]
    exact .parts .sum

/-! ## What a text tells -/

/-- Two doubles that are the same, or zeros of any signs. -/
def SamePart (x y : Float) : Prop := x = y ∨ (x == 0.0) = true ∧ (y == 0.0) = true

/-- Numbers whose parts are the same but for the signs of zeros. -/
structure SameParts (z w : Number) : Prop where
  re : SamePart z.re w.re
  im : SamePart z.im w.im

/-- A double is known by the characters of its text. -/
theorem eq_of_characters {x y : Float} (same : (text x).toList = (text y).toList) : x = y :=
  text_injective (String.toList_inj.mp same)

theorem Parts.same (h : Parts z cs) (h' : Parts w cs) : SameParts z w := by
  generalize same : cs = ds at h'
  -- texts of different layouts differ, and those of one layout are cut in one way
  cases h with
  | imaginary zero =>
    cases h' with
    | imaginary zero' =>
      exact ⟨.inr ⟨zero, zero'⟩, .inl (eq_of_characters same)⟩
    | difference => exact absurd same ((solid_text _).ne_append_minus (solid_text _) _)
    | sum => exact absurd same ((solid_text _).ne_append_plus _ _)
  | difference =>
    cases h' with
    | imaginary => exact absurd same.symm ((solid_text _).ne_append_minus (solid_text _) _)
    | difference =>
      obtain ⟨re, im⟩ := (solid_text z.re).cut_minus (solid_text w.re) same
      have negated : -z.im = -w.im := eq_of_characters im
      exact ⟨.inl (eq_of_characters re), .inl (neg_injective negated)⟩
    | sum => exact absurd same ((solid_text _).minus_ne_plus (solid_text _) _ _)
  | sum =>
    cases h' with
    | imaginary => exact absurd same.symm ((solid_text _).ne_append_plus _ _)
    | difference => exact absurd same.symm ((solid_text _).minus_ne_plus (solid_text _) _ _)
    | sum =>
      obtain ⟨re, im⟩ := (solid_text z.re).cut_plus (solid_text w.re) same
      exact ⟨.inl (eq_of_characters re), .inl (eq_of_characters im)⟩

theorem Shown.same (h : Shown z cs) (h' : Shown w cs) : SameParts z w := by
  generalize same : cs = ds at h'
  cases h with
  | real zero =>
    cases h' with
    | real zero' => exact ⟨.inl (eq_of_characters same), .inr ⟨zero, zero'⟩⟩
    | parts => exact absurd same ((solid_text _).ne_append_unit _)
  | parts parts =>
    cases h' with
    | real => exact absurd same.symm ((solid_text _).ne_append_unit _)
    | parts parts' =>
      obtain rfl := List.append_cancel_right same
      exact parts.same parts'

/-- No text of a number ends as the text of nothing does. -/
theorem Shown.getLast?_ne (h : Shown z cs) : cs.getLast? ≠ some 'e' := by
  intro last
  cases h with
  | real zero => exact ((solid_text _).last 'e' last).1 rfl
  | parts =>
    rw [List.getLast?_concat] at last
    cases last

/-! ## Equality -/

/-- No part is what is no number. -/
structure Definite (z : Number) : Prop where
  re : z.re.isNaN = false
  im : z.im.isNaN = false

theorem SamePart.beq {x y : Float} (h : SamePart x y) (isNumber : x.isNaN = false) :
    (x == y) = true := by
  rcases h with rfl | ⟨zero, zero'⟩
  · rw [Float.beq_self_iff]
    rwa [Float.isNaN_eq_decide_eq_nan, decide_eq_false_iff_not] at isNumber
  · exact BEq.trans zero (BEq.symm zero')

theorem SameParts.equal (h : SameParts z w) (definite : z.Definite) : z.equal w = true := by
  rw [Number.equal, h.re.beq definite.re, h.im.beq definite.im]
  rfl

end Number

namespace Value

/-- The number of a value, if it has one, has no part that is no number. -/
def Definite (v : Value) : Prop := ∀ z, v.number? = some z → z.Definite

/-- Values with the same text are equal, if the parts of one of them are numbers. -/
theorem equal_of_render_eq {v w : Value} (definite : v.Definite) (same : v.render = w.render) :
    v.equal w = true := by
  have number_ne (z : Number) : z.render ≠ "none" := by
    intro same
    exact (same ▸ z.shown_render).getLast?_ne (by decide)
  cases v with
  | number z =>
    cases w with
    | number w =>
      have same : z.render = w.render := same
      have parts : Number.SameParts z w := z.shown_render.same (same ▸ w.shown_render)
      exact parts.equal (definite z rfl)
    | none => exact absurd same (number_ne z)
  | none =>
    cases w with
    | number w => exact absurd same.symm (number_ne w)
    | none => rfl

/-- Zeros of either sign leave the same text to the imaginary part, its minus and its exponent. -/
theorem equal_of_signed_zeros :
    (number ⟨-0.0, -1e-7⟩).Definite ∧ (number ⟨-0.0, -1e-7⟩).render = "-1e-7i" ∧
      (number ⟨0.0, -1e-7⟩).render = "-1e-7i" ∧
      (number ⟨-0.0, -1e-7⟩).equal (number ⟨0.0, -1e-7⟩) = true := by
  have definite : (number ⟨-0.0, -1e-7⟩).Definite := by
    rintro z ⟨⟩
    exact ⟨by decide +kernel, by decide +kernel⟩
  have negative : (number ⟨-0.0, -1e-7⟩).render = "-1e-7i" := by decide +kernel
  have positive : (number ⟨0.0, -1e-7⟩).render = "-1e-7i" := by decide +kernel
  exact ⟨definite, negative, positive, equal_of_render_eq definite (negative.trans positive.symm)⟩

end Value

end ComplexScript
