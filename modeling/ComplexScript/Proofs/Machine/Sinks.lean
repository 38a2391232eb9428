import ComplexScript.Proofs.Machine.Lockstep
set_option autoImplicit false

/-!
# Sinks that cannot be told apart

A program never sees what it has written: a write tells it only whether it was refused.  So two
sinks that refuse alike from now on (`Sink.RefusesAlike`) take the same texts from one program and
from the other (`lockstep_alike`).  What a sink refuses is settled beforehand: one that refuses
nothing (`Sink.RefusesNothing`) refuses nothing after a run either (`evaluate_refusesNothing`).
-/

namespace ComplexScript.Machine

namespace Sink

variable {base base' : String} {k k' : Sink}

/-- From their present counts on, two sinks refuse the same writes and flushes. -/
structure RefusesAlike (k k' : Sink) : Prop where
  writes : ∀ n, k.writeRefusal (k.writes + n) = k'.writeRefusal (k'.writes + n)
  flushes : ∀ n, k.flushRefusal (k.flushes + n) = k'.flushRefusal (k'.flushes + n)

/-- Two sinks that refuse alike and have taken the same text since they held `base` and `base'`. -/
structure Alike (base base' : String) (k k' : Sink) : Prop extends RefusesAlike k k' where
  added : ∃ text, k.text = base ++ text ∧ k'.text = base' ++ text

theorem RefusesAlike.alike (h : RefusesAlike k k') : Alike k.text k'.text k k' where
  toRefusesAlike := h
  added := ⟨"", String.append_empty.symm, String.append_empty.symm⟩

theorem Alike.write (h : Alike base base' k k') (text : String) :
    (k.write text).1 = (k'.write text).1 ∧ Alike base base' (k.write text).2 (k'.write text).2 := by
  obtain ⟨⟨writes, flushes⟩, added, here, there⟩ := h
  have now : k.writeRefusal k.writes = k'.writeRefusal k'.writes := writes 0
  have later : ∀ n, k.writeRefusal (k.writes + 1 + n) = k'.writeRefusal (k'.writes + 1 + n) := by
    intro n
    rw [Nat.add_assoc, Nat.add_assoc]
    exact writes (1 + n)
  unfold Sink.write
  rw [← now]
  cases k.writeRefusal k.writes with
  | some cause => exact ⟨rfl, ⟨later, flushes⟩, added, here, there⟩
  | none =>
    refine ⟨rfl, ⟨later, flushes⟩, added ++ text, ?_, ?_⟩
    · rw [here, String.append_assoc]
    · rw [there, String.append_assoc]

theorem Alike.flush (h : Alike base base' k k') :
    k.flush.1 = k'.flush.1 ∧ Alike base base' k.flush.2 k'.flush.2 := by
  refine ⟨h.flushes 0, ⟨h.writes, fun n => ?_⟩, h.added⟩
  show k.flushRefusal (k.flushes + 1 + n) = k'.flushRefusal (k'.flushes + 1 + n)
  rw [Nat.add_assoc, Nat.add_assoc]
  exact h.flushes (1 + n)

theorem Alike.writeAll (h : Alike base base' k k') (texts : List String) :
    (k.writeAll texts).1 = (k'.writeAll texts).1 ∧
      Alike base base' (k.writeAll texts).2 (k'.writeAll texts).2 := by
  induction texts generalizing k k' with
  | nil => exact ⟨rfl, h⟩
  | cons text texts ih =>
    obtain ⟨same, related⟩ := h.write text
    rcases hk : k.write text with ⟨refused, after⟩
    rcases hk' : k'.write text with ⟨refused', after'⟩
    rw [hk, hk'] at same related
    obtain rfl : refused = refused' := same
    rw [Sink.writeAll, Sink.writeAll, hk, hk']
    cases refused with
    | none => exact ih related
    | some cause => exact ⟨rfl, related⟩

/-- The sink takes every write and every flush. -/
structure RefusesNothing (k : Sink) : Prop where
  writes : ∀ n, k.writeRefusal n = none
  flushes : ∀ n, k.flushRefusal n = none

theorem RefusesNothing.write (h : RefusesNothing k) (text : String) :
    (k.write text).1 = none ∧ RefusesNothing (k.write text).2 := by
  rw [Sink.write, h.writes]
  exact ⟨rfl, h.writes, h.flushes⟩

theorem RefusesNothing.writeAll (h : RefusesNothing k) (texts : List String) :
    (k.writeAll texts).1 = none ∧ RefusesNothing (k.writeAll texts).2 := by
  induction texts generalizing k with
  | nil => exact ⟨rfl, h⟩
  | cons text texts ih =>
    obtain ⟨taken, after⟩ := h.write text
    rcases hk : k.write text with ⟨refused, k'⟩
    rw [hk] at taken after
    obtain rfl : refused = none := taken
    rw [Sink.writeAll, hk]
    exact ih after

theorem RefusesNothing.flush (h : RefusesNothing k) :
    k.flush.1 = none ∧ RefusesNothing k.flush.2 :=
  ⟨h.flushes _, h.writes, h.flushes⟩

end Sink

/-- Runs in equal environments keep in step over alike sinks. -/
theorem lockstep_alike (base base' : String) :
    Lockstep fun _ s t => s.environment = t.environment ∧ Sink.Alike base base' s.sink t.sink where
  value h x := by rw [h.1]
  functions h := by rw [h.1]
  callDepth h := by rw [h.1]
  modifyActive h f := ⟨congrArg (·.modifyActive f) h.1, h.2⟩
  define h name f := ⟨congrArg (·.define name f) h.1, h.2⟩
  push h frame := ⟨congrArg (·.push frame) h.1, h.2⟩
  pop h := ⟨congrArg (·.pop) h.1, h.2⟩
  write h text := ⟨(h.2.write text).1, h.1, (h.2.write text).2⟩

/-- A state with a sink that refuses nothing is in step with itself. -/
theorem lockstep_refusesNothing : Lockstep fun _ s t => s = t ∧ s.sink.RefusesNothing where
  value h _ := by rw [h.1]
  functions h := by rw [h.1]
  callDepth h := by rw [h.1]
  modifyActive h _ := ⟨by rw [h.1], h.2⟩
  define h _ _ := ⟨by rw [h.1], h.2⟩
  push h _ := ⟨by rw [h.1], h.2⟩
  pop h := ⟨by rw [h.1], h.2⟩
  write h text := by
    obtain ⟨rfl, nothing⟩ := h
    exact ⟨rfl, rfl, (nothing.write text).2⟩

/-- However a run ends, its sink refuses no more than before. -/
theorem evaluate_refusesNothing {limit fuel : Nat} {node : Program.Node} {s : State}
    (nothing : s.sink.RefusesNothing) :
    ((evaluate limit fuel node).after s).sink.RefusesNothing := by
  have agree : Eval.Agrees (fun s t => s = t ∧ s.sink.RefusesNothing) (fun _ => False)
      (evaluate limit fuel node) (evaluate limit fuel node) s s :=
    Task.agrees lockstep_refusesNothing (.inl rfl) (.inl rfl) (.tree node) (d := 0) ⟨rfl, nothing⟩
  cases run : evaluate limit fuel node s with
  | ok flow t =>
    rw [Eval.after_of_ok run]
    obtain ⟨_, _, _, kept⟩ := agree.1 flow t run
    exact kept
  | error halt t =>
    rw [Eval.after_of_error run]
    obtain ⟨_, _, _, kept⟩ := agree.2 halt t run id
    exact kept

end ComplexScript.Machine
