import ComplexScript.Proofs.Entry.Paths
import ComplexScript.Proofs.Token.Counting
set_option autoImplicit false

/-!
# The tokens still to be used

What a reader has still to read is known beforehand by its tokens (`Reader.contents`): looking at
the next one changes nothing about them, using it takes it away (`Path.contents`), and an entry
begins without any being used.
-/

namespace ComplexScript.Entry

open ComplexScript.Text
open ComplexScript.Token (Kind Scan)

/-- What the tokens hold that a reader has still to use, up to the end of the text. -/
def Reader.contents (r : Reader) : List (Kind × String × Option Number) :=
  match r.lookahead with
  | none => Scan.contents r.cursor
  | some t => if t.kind = .endOfInput then [] else Scan.content t :: Scan.contents r.cursor

namespace Reader

variable {r : Reader}

theorem looked_contents (sound : r.cursor.Sound) : r.looked.contents = r.contents := by
  cases found : r.lookahead with
  | some t => rw [looked_of_some found]
  | none =>
    have fetched : r.looked.contents = if (Scan.next r.cursor).1.token.kind = .endOfInput then []
        else Scan.content (Scan.next r.cursor).1.token :: Scan.contents (Scan.next r.cursor).2 := by
      rw [looked, found]
      rfl
    have unread : r.contents = Scan.contents r.cursor := by rw [contents, found]
    rw [fetched, unread]
    split
    · next isEnd => exact (Scan.contents_of_end isEnd).symm
    · next notEnd => exact (Scan.contents_of_not_end sound notEnd).symm

theorem contents_of_use {t : Token} (next : r.lookahead = some t)
    (inText : t.kind ≠ .endOfInput) : r.contents = Scan.content t :: r.used.contents := by
  rw [contents, next]
  exact if_neg inText

/-- Where the end of the text comes next, nothing is left to be used. -/
theorem contents_of_end (sound : r.cursor.Sound) (isEnd : r.token.kind = .endOfInput) :
    r.contents = [] := by
  rw [← looked_contents sound, contents, looked_lookahead]
  exact if_pos isEnd

theorem contents_ofFeed (feed : Feed) : (ofFeed feed).contents = Scan.contents (.ofFeed feed) := rfl

/-- To begin an entry uses nothing. -/
theorem contents_begun (r : Reader) (sound : r.cursor.Sound) :
    contents { r with diagnostics := [], cursor := r.cursor.beginEntry } = r.contents := by
  have abreast : r.cursor.beginEntry.Abreast r.cursor := ⟨rfl, rfl, sound, sound⟩
  simp only [contents, Scan.contents_of_abreast abreast]

end Reader

/-- The tokens used on a path are the first of those to be used. -/
theorem Path.contents {seen ts : List Token} {r s : Reader} (h : Path seen r ts s)
    (sound : r.cursor.Sound) :
    r.contents = ts.map Scan.content ++ s.contents := by
  induction h with
  | stay => rfl
  | look _ ih => rw [← Reader.looked_contents sound, ih (Reader.looked_left sound).1]
  | use next inText _ ih =>
    rw [Reader.contents_of_use next inText, ih sound]
    rfl
  | report _ _ ih =>
    rw [← ih] <;> unfold Reader.reported <;> split <;> first | rfl | exact sound
  | giveUp _ _ _ ih => exact ih sound

end ComplexScript.Entry
