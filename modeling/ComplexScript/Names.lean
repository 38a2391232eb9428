import Std.Data.ExtTreeMap
import Std.Data.ExtTreeSet
set_option autoImplicit false

/-!
# Tables and sets of names

What a program knows by name is kept in finite maps and sets that are equal as soon as they hold
the same: a table that has been changed and changed back is the table it was.
-/

namespace ComplexScript

/-- What names stand for. -/
abbrev Table (α : Type) : Type := Std.ExtTreeMap String α

/-- A set of names. -/
abbrev NameSet : Type := Std.ExtTreeSet String

/-- Give a name back what it stood for, which may be nothing. -/
def Table.reset {α : Type} (t : Table α) (name : String) (previous : Option α) : Table α :=
  match previous with
  | some a => t.insert name a
  | none => t.erase name

/-- After a name is bound it stands for what it was bound to, and the others for what they did. -/
theorem Table.getElem?_insert {α : Type} (t : Table α) (name : String) (a : α) (x : String) :
    (t.insert name a)[x]? = if x = name then some a else t[x]? := by
  rw [Std.ExtTreeMap.getElem?_insert]
  by_cases h : x = name
  · subst h; simp
  · have h' : compare name x ≠ .eq := fun e => h (Std.LawfulEqCmp.eq_of_compare e).symm
    simp [h, h']

/-- After a reset the name stands for what it was given back, and the others for what they did. -/
theorem Table.getElem?_reset {α : Type} (t : Table α) (name : String) (previous : Option α)
    (x : String) :
    (t.reset name previous)[x]? = if x = name then previous else t[x]? := by
  unfold Table.reset
  cases previous with
  | some a => exact Table.getElem?_insert t name a x
  | none =>
    rw [Std.ExtTreeMap.getElem?_erase]
    by_cases h : x = name
    · subst h; simp
    · have h' : compare name x ≠ .eq := fun e => h (Std.LawfulEqCmp.eq_of_compare e).symm
      simp [h, h']

/-- Binding a name and giving it back what it stood for changes nothing. -/
theorem Table.reset_insert {α : Type} (t : Table α) (name : String) (a : α) :
    Table.reset (t.insert name a) name t[name]? = t := by
  apply Std.ExtTreeMap.ext_getElem?
  intro x
  rw [Table.getElem?_reset]
  split
  · next h => rw [h]
  · next h => rw [Table.getElem?_insert, if_neg h]

end ComplexScript
