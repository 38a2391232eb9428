import ComplexScript.Proofs.Machine.Tasks
set_option autoImplicit false

/-!
# What a run achieves and which faults it may end in

`Eval.Meets allowed post m s` is a triple with the state `s` for its precondition: if the run `m`
ends with a result, `post` holds of the result and the state it leaves, and if it ends in a fault,
the fault is an allowed one.  Nothing is said of a run whose budget is used up. `Eval.Leaves I post
m s` says of the environment that `I` holds of it however the run ends, and of the result that
`post` does.  There is one rule for each move of a run, and a law about all runs is put together
from them by one induction on the budget.
-/

namespace ComplexScript.Machine.Eval

open ComplexScript.Program

variable {α β : Type} {allowed allowed' : Fault → Prop} {s t : State}

/-- A result of the run is as required, and a fault of it is allowed. -/
def Meets (allowed : Fault → Prop) (post : α → State → Prop) (m : Eval α) (s : State) : Prop :=
  (∀ a t, m s = .ok a t → post a t) ∧ ∀ f t, m s = .error (.fault f) t → allowed f

namespace Meets

section

variable {post : α → State → Prop} {m : Eval α}

theorem of_ok {a : α} (run : m s = .ok a t) (h : post a t) : Meets allowed post m s := by
  refine ⟨fun b u other => ?_, fun f u other => ?_⟩
  · rw [run] at other
    cases other
    exact h
  · rw [run] at other
    cases other

theorem of_fault {f : Fault} (run : m s = .error (.fault f) t) (h : allowed f) :
    Meets allowed post m s := by
  refine ⟨fun a u other => ?_, fun g u other => ?_⟩
  · rw [run] at other
    cases other
  · rw [run] at other
    cases other
    exact h

theorem of_outOfFuel (run : m s = .error .outOfFuel t) : Meets allowed post m s := by
  refine ⟨fun a u other => ?_, fun g u other => ?_⟩ <;>
  · rw [run] at other
    cases other

theorem ok {a : α} (h : post a s) : Meets allowed post (pure a) s := of_ok rfl h

theorem fail {f : Fault} (h : allowed f) : Meets allowed post (Eval.fail f) s := of_fault rfl h

theorem starved : Meets allowed post (Eval.starved : Eval α) s := of_outOfFuel rfl

/-- Every run is as required if nothing is. -/
theorem any (m : Eval α) (s : State) : Meets (fun _ => True) (fun _ _ => True) m s :=
  ⟨fun _ _ _ => trivial, fun _ _ _ => trivial⟩

theorem mono {post' : α → State → Prop} (h : Meets allowed post m s)
    (faults : ∀ f, allowed f → allowed' f) (results : ∀ a t, m s = .ok a t → post a t → post' a t) :
    Meets allowed' post' m s :=
  ⟨fun a t run => results a t run (h.1 a t run), fun f t run => faults f (h.2 f t run)⟩

end

theorem bind {middle : α → State → Prop} {post : β → State → Prop} {m : Eval α} {f : α → Eval β}
    (first : Meets allowed middle m s)
    (second : ∀ a t, m s = .ok a t → middle a t → Meets allowed post (f a) t) :
    Meets allowed post (m >>= f) s := by
  cases run : m s with
  | ok a t =>
    rw [Meets, bind_of_ok run]
    exact second a t run (first.1 a t run)
  | error halt t =>
    cases halt with
    | fault g => exact of_fault (bind_of_error run) (first.2 g t run)
    | outOfFuel => exact of_outOfFuel (bind_of_error run)

theorem map {post : β → State → Prop} {m : Eval α} {f : α → β}
    (h : Meets allowed (fun a t => post (f a) t) m s) :
    Meets allowed post (m >>= fun a => pure (f a)) s :=
  h.bind fun _ _ _ known => ok known

/-- A run may depend on the environment that it begins in. -/
theorem environment {post : β → State → Prop} {f : Environment → Eval β}
    (h : Meets allowed post (f s.environment) s) : Meets allowed post (Eval.environment >>= f) s :=
  h

/-- What comes after a change of the environment begins in the changed one. -/
theorem modifyEnvironment {post : β → State → Prop} {f : Environment → Environment} {m : Eval β}
    (h : Meets allowed post m { s with environment := f s.environment }) :
    Meets allowed post (Eval.modifyEnvironment f >>= fun _ => m) s :=
  h

theorem ofArithmetic {post : α → State → Prop} {r : Except ArithmeticFault α}
    (faults : ∀ f, allowed (.arithmetic f)) (results : ∀ a, r = .ok a → post a s) :
    Meets allowed post (Eval.ofArithmetic r) s := by
  cases r with
  | ok a => exact ok (results a rfl)
  | error f => exact fail (faults f)

theorem write {post : PUnit → State → Prop} {text : String}
    (faults : ∀ cause, allowed (.output cause)) (result : ∀ sink, post ⟨⟩ { s with sink := sink }) :
    Meets allowed post (Eval.write text) s := by
  rcases written : s.sink.write text with ⟨_ | cause, sink⟩
  · exact of_ok (by rw [Eval.write, written]) (result sink)
  · exact of_fault (by rw [Eval.write, written]) (faults cause)

/-- What is always done after a run is done to the state that the condition on results speaks
of. -/
theorem thenAlways {post : α → State → Prop} {m : Eval α} {f : Environment → Environment}
    (h : Meets allowed (fun a t => post a { t with environment := f t.environment }) m s) :
    Meets allowed post (Eval.thenAlways m f) s := by
  cases run : m s with
  | ok a t => exact of_ok (by rw [Eval.thenAlways, run]) (h.1 a t run)
  | error halt t =>
    cases halt with
    | fault g => exact of_fault (by rw [Eval.thenAlways, run]) (h.2 g t run)
    | outOfFuel => exact of_outOfFuel (by rw [Eval.thenAlways, run])

/-- A built-in function can fail in its arithmetic or in writing.  It leaves the environment as it
is, and its outcome is never a signal. -/
theorem runBuiltin {post : Flow → State → Prop} {b : Builtin} {v : Value}
    (arithmetic : b = .sqrt → ∀ f, allowed (.arithmetic f))
    (output : b ≠ .sqrt → ∀ cause, allowed (.output cause))
    (result : ∀ flow sink, flow.isSignal = false → post flow { s with sink := sink }) :
    Meets allowed post (Machine.runBuiltin b v) s := by
  cases b with
  | print => exact .map (.write (output nofun) fun sink => result _ sink rfl)
  | println => exact .map (.write (output nofun) fun sink => result _ sink rfl)
  | sqrt =>
    cases v with
    | number z => exact .map (.ofArithmetic (arithmetic rfl) fun w _ => result _ s.sink rfl)
    | none => exact .ok (result _ s.sink rfl)

end Meets

/-! ## What a run leaves, however it ends -/

section

variable {I : Environment → Prop} {post : α → Prop}

/-- However the run ends, it leaves an environment in `I`, and what it yields is in `post`. -/
def Leaves (I : Environment → Prop) (post : α → Prop) (m : Eval α) (s : State) : Prop :=
  match m s with
  | .ok a t => I t.environment ∧ post a
  | .error _ t => I t.environment

namespace Leaves

theorem ok {a : α} (before : I s.environment) (h : post a) : Leaves I post (pure a) s := ⟨before, h⟩

theorem fail {f : Fault} (before : I s.environment) : Leaves I post (Eval.fail f) s := before

theorem starved (before : I s.environment) : Leaves I post (Eval.starved : Eval α) s := before

theorem of_ok {m : Eval α} {a : α} {t : State} (h : Leaves I post m s) (run : m s = .ok a t) :
    I t.environment ∧ post a := by
  rw [Leaves, run] at h
  exact h

theorem after {m : Eval α} (h : Leaves I post m s) : I (m.after s).environment := by
  rw [Leaves] at h
  rw [Eval.after]
  cases run : m s with
  | ok a t =>
    rw [run] at h
    exact h.1
  | error halt t =>
    rw [run] at h
    exact h

theorem mono {post' : α → Prop} {m : Eval α} (h : Leaves I post m s)
    (weaker : ∀ a, post a → post' a) : Leaves I post' m s := by
  unfold Leaves at h ⊢
  cases run : m s with
  | ok a t =>
    rw [run] at h
    exact ⟨h.1, weaker a h.2⟩
  | error halt t =>
    rw [run] at h
    exact h

theorem bind {P : α → Prop} {post : β → Prop} {m : Eval α} {f : α → Eval β}
    (first : Leaves I P m s)
    (second : ∀ a t, I t.environment → P a → Leaves I post (f a) t) :
    Leaves I post (m >>= f) s := by
  unfold Leaves at first ⊢
  cases run : m s with
  | ok a t =>
    rw [run] at first
    rw [bind_of_ok run]
    exact second a t first.1 first.2
  | error halt t =>
    rw [run] at first
    rw [bind_of_error run]
    exact first

theorem map {post : β → Prop} {m : Eval α} {f : α → β} (h : Leaves I (fun a => post (f a)) m s) :
    Leaves I post (m >>= fun a => pure (f a)) s :=
  h.bind fun _ _ after known => .ok after known

/-- A run may depend on the environment that it begins in. -/
theorem environment {f : Environment → Eval α} (h : Leaves I post (f s.environment) s) :
    Leaves I post (Eval.environment >>= f) s := h

theorem modifyEnvironment {f : Environment → Environment} {m : Eval α}
    (h : Leaves I post m { s with environment := f s.environment }) :
    Leaves I post (Eval.modifyEnvironment f >>= fun _ => m) s := h

theorem ofArithmetic {r : Except ArithmeticFault α} (before : I s.environment)
    (h : ∀ a, r = .ok a → post a) : Leaves I post (Eval.ofArithmetic r) s := by
  cases r with
  | ok a => exact ⟨before, h a rfl⟩
  | error f => exact before

theorem write {text : String} (before : I s.environment) :
    Leaves I (fun _ => True) (Eval.write text) s := by
  unfold Leaves Eval.write
  rcases s.sink.write text with ⟨_ | _, sink⟩
  · exact ⟨before, trivial⟩
  · exact before

theorem thenAlways {m : Eval α} {f : Environment → Environment} (h : Leaves I post m s)
    (keeps : ∀ e, I e → I (f e)) : Leaves I post (Eval.thenAlways m f) s := by
  unfold Leaves Eval.thenAlways at *
  cases run : m s with
  | ok a t =>
    rw [run] at h
    exact ⟨keeps _ h.1, h.2⟩
  | error halt t =>
    rw [run] at h
    exact keeps _ h

end Leaves

end

end ComplexScript.Machine.Eval
