import ComplexScript.Proofs.Machine.Parts
import ComplexScript.Proofs.Program.Literals
set_option autoImplicit false

/-!
# The numbers of a run

A run takes its numbers from the literals of its trees and of the bodies of functions, from the
frames and from the operators, and only bounded ones come from there.  So if a run begins where no
number has an infinite part (`Environment.Bounded`), none has one at any point that it comes to,
however it ends, and neither has what it yields (`Task.bounded`, `Reaches.bounded`).  An operator
whose result would have one ends the run in an overflow or an underflow instead
(`binary_out_of_range`).
-/

namespace ComplexScript.Machine

open ComplexScript.Program
open Eval

/-! ## Where the numbers are -/

/-- No number in the frame has an infinite part. -/
def Frame.Bounded (frame : Frame) : Prop :=
  ∀ (x : String) (z : Number), frame[x]? = some z → z.Bounded

/-- No number in any frame or in the body of a function has an infinite part. -/
structure Environment.Bounded (e : Environment) : Prop where
  frames : ∀ frame ∈ e.frames, Frame.Bounded frame
  bodies : ∀ (name : String) (f : Function), e.functions[name]? = some f →
    ∀ z ∈ f.body.literals, z.Bounded

namespace Frame.Bounded

theorem empty : Frame.Bounded ∅ := by
  intro x z found
  simp at found

theorem insert {frame : Frame} {z : Number} (h : Frame.Bounded frame) (bounded : z.Bounded)
    (name : String) : Frame.Bounded (frame.insert name z) := by
  intro x w found
  rw [Table.getElem?_insert] at found
  split at found
  · cases found
    exact bounded
  · exact h x w found

theorem reset {frame : Frame} {previous : Option Number} (h : Frame.Bounded frame)
    (bounded : ∀ z, previous = some z → z.Bounded) (name : String) :
    Frame.Bounded (Table.reset frame name previous) := by
  intro x w found
  rw [Table.getElem?_reset] at found
  split at found
  · exact bounded w found
  · exact h x w found

end Frame.Bounded

namespace Environment

variable {e : Environment}

theorem frames_modifyActive (e : Environment) (f : Frame → Frame) :
    (e.modifyActive f).frames = f e.active :: e.frames.tail := by
  unfold modifyActive frames active
  cases e.calls <;> rfl

theorem active_mem_frames (e : Environment) : e.active ∈ e.frames := by
  unfold frames active
  cases e.calls <;> exact List.mem_cons_self

namespace Bounded

theorem get? (h : e.Bounded) {name : String} {z : Number} (found : e.get? name = some z) :
    z.Bounded := h.frames e.active e.active_mem_frames name z found

theorem modifyActive (h : e.Bounded) {f : Frame → Frame}
    (change : Frame.Bounded e.active → Frame.Bounded (f e.active)) :
    (e.modifyActive f).Bounded where
  frames := by
    rw [frames_modifyActive]
    exact List.forall_mem_cons.mpr ⟨change (h.frames _ e.active_mem_frames),
      fun frame mem => h.frames frame (List.mem_of_mem_tail mem)⟩
  bodies := by
    rw [modifyActive_functions]
    exact h.bodies

theorem set (h : e.Bounded) {z : Number} (bounded : z.Bounded) (name : String) :
    (e.set name z).Bounded := h.modifyActive fun frame => frame.insert bounded name

theorem reset (h : e.Bounded) {previous : Option Number}
    (bounded : ∀ z, previous = some z → z.Bounded) (name : String) :
    (e.reset name previous).Bounded := h.modifyActive fun frame => frame.reset bounded name

theorem define (h : e.Bounded) {f : Function} (bounded : ∀ z ∈ f.body.literals, z.Bounded)
    (name : String) : (e.define name f).Bounded where
  frames := h.frames
  bodies := by
    intro x g found
    rw [Environment.define, Table.getElem?_insert] at found
    split at found
    · cases found
      exact bounded
    · exact h.bodies x g found

theorem push (h : e.Bounded) {frame : Frame} (bounded : Frame.Bounded frame) :
    (e.push frame).Bounded :=
  ⟨List.forall_mem_cons.mpr ⟨bounded, h.frames⟩, h.bodies⟩

theorem pop (h : e.Bounded) : e.pop.Bounded :=
  ⟨fun frame mem => h.frames frame ((List.mem_append.mp mem).elim
    (fun mem => List.mem_append_left _ (List.mem_of_mem_tail mem)) (List.mem_append_right _)),
    h.bodies⟩

/-- The top level is one of the frames. -/
theorem topLevel (h : e.Bounded) : e.topLevel.Bounded :=
  ⟨fun frame mem => h.frames frame (List.mem_append_right _ mem), h.bodies⟩

end Bounded

end Environment

/-! ## The law -/

/-- The number of an outcome, if it has one, is bounded. -/
def Flow.Bounded (flow : Flow) : Prop := flow.toValue.Bounded

theorem Flow.Bounded.ofBlock {flow : Flow} (h : flow.Bounded) : flow.ofBlock.Bounded := by
  unfold Flow.ofBlock
  split
  · exact h
  · exact Value.bounded_none

theorem Flow.Bounded.ofCall {flow : Flow} (h : flow.Bounded) : flow.ofCall.Bounded := by
  cases flow <;> exact h

/-- A number that is shown is bounded if the outcome is. -/
theorem Flow.Bounded.printable {flow : Flow} (h : flow.Bounded) {z : Number}
    (shown : flow.printable? = some z) : z.Bounded := by
  cases flow with
  | value v => exact h z shown
  | silent | returning | breaking | continuing => cases shown

namespace Task

/-- The numbers in the trees of a task. -/
def literals : Task → List Number
  | tree node | value node => node.literals
  | all nodes | bind _ nodes _ => Node.literalsAll nodes
  | loop init condition step body =>
    init.literals ++ condition.literals ++ body.literals ++ step.literals
  | rounds condition step body => condition.literals ++ body.literals ++ step.literals

/-- The frame that a task is binding parameters in. -/
def frame : Task → Frame
  | bind _ _ frame => frame
  | _ => ∅

/-- No number that a task is given has an infinite part. -/
structure Bounded (task : Task) : Prop where
  literals : ∀ z ∈ task.literals, z.Bounded
  frame : Frame.Bounded task.frame

/-- No number that a task yields has an infinite part. -/
def Yields : (task : Task) → task.Result → Prop
  | value _, v => v.Bounded
  | bind .., frame => Frame.Bounded frame
  | tree _, flow | all _, flow | loop .., flow | rounds .., flow => flow.Bounded

end Task

/-- The law holds of all tasks on the budget `fuel`. -/
def Secured (limit fuel : Nat) : Prop :=
  ∀ (task : Task) (s : State), task.Bounded → s.environment.Bounded →
    (task.run limit fuel).Leaves Environment.Bounded task.Yields s

theorem runBuiltin_leaves {b : Builtin} {v : Value} {s : State} (before : s.environment.Bounded) :
    (runBuiltin b v).Leaves Environment.Bounded Flow.Bounded s := by
  cases b with
  | print => exact .bind (.write before) fun _ _ after _ => .ok after Value.bounded_none
  | println => exact .bind (.write before) fun _ _ after _ => .ok after Value.bounded_none
  | sqrt =>
    cases v with
    | number z =>
      exact .map (.ofArithmetic before fun w root =>
        Value.bounded_number (Number.bounded_of_ofParts root))
    | none => exact .ok before Value.bounded_none

section

variable {limit fuel fuel' : Nat} {task part task' : Task} {s t : State}

theorem Secured.tree (ih : Secured limit fuel) {node : Node}
    (bounded : ∀ z ∈ node.literals, z.Bounded) (before : s.environment.Bounded) :
    (Machine.evaluate limit fuel node).Leaves Environment.Bounded Flow.Bounded s :=
  ih (.tree node) s ⟨bounded, .empty⟩ before

theorem Secured.value (ih : Secured limit fuel) {node : Node}
    (bounded : ∀ z ∈ node.literals, z.Bounded) (before : s.environment.Bounded) :
    (valueOf limit fuel node).Leaves Environment.Bounded Value.Bounded s :=
  ih (.value node) s ⟨bounded, .empty⟩ before

/-- The parameters of a call are bound to values of arguments, and a body is that of a function. -/
theorem Secured.call (ih : Secured limit fuel) {name : String} {arguments : List Node}
    (bounded : ∀ z ∈ Node.literalsAll arguments, z.Bounded) (before : s.environment.Bounded) :
    (Machine.evaluate limit (fuel + 1) (.call name arguments)).Leaves Environment.Bounded
      Flow.Bounded s := by
  rw [Machine.evaluate]
  refine .environment ?_
  cases found : s.environment.functions[name]? with
  | none => exact .fail before
  | some f =>
    dsimp only
    split
    · exact .fail before
    · refine .bind (ih (.bind f.params arguments ∅) s ⟨bounded, .empty⟩ before) ?_
      intro frame t bound frameBounded
      exact .modifyEnvironment (.bind
        (.thenAlways (ih.tree (before.bodies name f found) (bound.push frameBounded))
          fun e h => h.pop)
        fun _ _ after known => .ok after known.ofCall)

theorem Secured.evaluate (ih : Secured limit fuel) (node : Node)
    (bounded : ∀ z ∈ node.literals, z.Bounded) (before : s.environment.Bounded) :
    (Machine.evaluate limit (fuel + 1) node).Leaves Environment.Bounded Flow.Bounded s := by
  cases node with
  | literal z => exact .ok before (Value.bounded_number (bounded z List.mem_cons_self))
  | returnNothing | «break» | «continue» | noOp | endOfInput => exact .ok before Value.bounded_none
  | identifier name =>
    rw [Machine.evaluate]
    refine .environment ?_
    cases found : s.environment.get? name with
    | none => exact .fail before
    | some z => exact .ok before (Value.bounded_number (before.get? found))
  | negation operand =>
    exact .bind (ih.value bounded before) fun v _ after _ => .ok after (Value.bounded_negate v)
  | binary op left right =>
    obtain ⟨ofLeft, ofRight⟩ := List.forall_mem_append.mp bounded
    rw [Machine.evaluate]
    refine .bind (ih.value ofLeft before) fun l t afterLeft leftBounded => ?_
    refine .bind (ih.value ofRight afterLeft) fun r u afterRight _ => ?_
    exact .map (.ofArithmetic afterRight fun _ result => Value.bounded_of_binary leftBounded result)
  | assignment target value =>
    rw [Machine.evaluate]
    refine .bind (ih.value bounded before) fun v t after known => ?_
    exact .modifyEnvironment (.ok (after.set known.numberOrZero target)
      (Value.bounded_number known.numberOrZero))
  | block statements => exact ih (.all statements) s ⟨bounded, .empty⟩ before
  | ifThen condition thenBlock =>
    obtain ⟨ofCondition, ofThen⟩ := List.forall_mem_append.mp bounded
    rw [Machine.evaluate]
    refine .bind (ih.value ofCondition before) fun v t after _ => ?_
    split
    · exact .bind (ih.tree ofThen after) fun _ _ after known => .ok after known.ofBlock
    · exact .ok after Value.bounded_none
  | ifElse condition thenBlock elseBlock =>
    obtain ⟨ofBoth, ofElse⟩ := List.forall_mem_append.mp bounded
    obtain ⟨ofCondition, ofThen⟩ := List.forall_mem_append.mp ofBoth
    rw [Machine.evaluate]
    refine .bind (ih.value ofCondition before) fun v t after _ => ?_
    split
    · exact .bind (ih.tree ofThen after) fun _ _ after known => .ok after known.ofBlock
    · exact .bind (ih.tree ofElse after) fun _ _ after known => .ok after known.ofBlock
  | loop init condition step body =>
    have whole : (evaluateLoop limit fuel init condition step body).Leaves Environment.Bounded
        Flow.Bounded s := ih (.loop init condition step body) s ⟨bounded, .empty⟩ before
    rw [Machine.evaluate]
    cases init.assignedName with
    | none => exact whole
    | some name =>
      exact .environment (.thenAlways whole fun e h => h.reset (fun _ => before.get?) name)
  | definition name params body =>
    exact .modifyEnvironment (.ok (before.define bounded name) Value.bounded_none)
  | call name arguments => exact ih.call bounded before
  | builtin b arguments =>
    cases arguments with
    | nil => exact runBuiltin_leaves before
    | cons argument arguments =>
      rw [Machine.evaluate]
      exact .bind (ih.value (List.forall_mem_append.mp bounded).1 before) fun _ _ after _ =>
        runBuiltin_leaves after
  | returnValue value =>
    exact .bind (ih.value bounded before) fun _ _ after known => .ok after known

/-- One more unit of budget keeps the law. -/
theorem Secured.succ (ih : Secured limit fuel) : Secured limit (fuel + 1) := by
  intro task s ⟨bounded, frameBounded⟩ before
  cases task with
  | tree node => exact ih.evaluate node bounded before
  | value node => exact .map (ih.tree bounded before)
  | all statements =>
    cases statements with
    | nil => exact .ok before Value.bounded_none
    | cons statement statements =>
      obtain ⟨ofFirst, ofOthers⟩ := List.forall_mem_append.mp bounded
      rw [Task.run, evaluateAll]
      refine .bind (ih.tree ofFirst before) fun flow t after known => ?_
      split
      · exact .ok after known
      · exact ih (.all statements) t ⟨ofOthers, .empty⟩ after
  | loop init condition step body =>
    simp only [Task.literals, List.forall_mem_append] at bounded
    obtain ⟨⟨⟨ofInit, ofCondition⟩, ofBody⟩, ofStep⟩ := bounded
    rw [Task.run, evaluateLoop]
    refine .bind (ih.tree ofInit before) fun flow t after _ => ?_
    refine ih (.rounds condition step body) t ⟨?_, .empty⟩ after
    simp only [Task.literals, List.forall_mem_append]
    exact ⟨⟨ofCondition, ofBody⟩, ofStep⟩
  | rounds condition step body =>
    have whole := bounded
    simp only [Task.literals, List.forall_mem_append] at bounded
    obtain ⟨⟨ofCondition, ofBody⟩, ofStep⟩ := bounded
    rw [Task.run, Machine.rounds]
    refine .bind (ih.value ofCondition before) fun v t after _ => ?_
    split
    · refine .bind (ih.tree ofBody after) fun flow u after known => ?_
      split
      · exact .ok after Value.bounded_none
      · exact .ok after known
      · refine .bind (ih.tree ofStep after) fun _ w after _ => ?_
        exact ih (.rounds condition step body) w ⟨whole, .empty⟩ after
    · exact .ok after Value.bounded_none
  | bind params arguments frame =>
    cases params with
    | nil => exact .ok before frameBounded
    | cons param params =>
      cases arguments with
      | nil => exact .ok before frameBounded
      | cons argument arguments =>
        obtain ⟨ofFirst, ofOthers⟩ := List.forall_mem_append.mp bounded
        rw [Task.run, bindAll]
        refine .bind (ih.value ofFirst before) fun v t after known => ?_
        exact ih (.bind params arguments _) t
          ⟨ofOthers, frameBounded.insert known.numberOrZero param⟩ after

/-- However a run of bounded numbers ends, there are only bounded ones after it, and what it yields
is bounded. -/
theorem Task.bounded (task : Task) (bounded : task.Bounded) (before : s.environment.Bounded) :
    (task.run limit fuel).Leaves Environment.Bounded task.Yields s := by
  have secured : Secured limit fuel := by
    clear bounded before
    induction fuel with
    | zero =>
      intro task s _ before
      rw [run_zero]
      exact .starved before
    | succ fuel ih => exact ih.succ
  exact secured task s bounded before

/-! ## Points of a run -/

/-- A number in a part stands in the task or in the body of a function. -/
theorem Part.literals (next : Part limit fuel task s part t) {z : Number} (h : z ∈ part.literals) :
    z ∈ task.literals ∨ ∃ (name : String) (f : Function),
      s.environment.functions[name]? = some f ∧ z ∈ f.body.literals := by
  cases next with
  | body found _ _ => exact .inr ⟨_, _, found, h⟩
  | _ =>
    refine .inl ?_
    simp only [Task.literals, Node.literals, Node.literalsAll, List.mem_append] at h ⊢
    grind

/-- The frame that a part binds parameters in is empty or comes from its task. -/
theorem Part.bounded (next : Part limit fuel task s part t) (bounded : task.Bounded)
    (before : s.environment.Bounded) : part.Bounded ∧ t.environment.Bounded := by
  have literals : ∀ z ∈ part.literals, z.Bounded := by
    intro z mem
    rcases next.literals mem with mem | ⟨name, f, found, mem⟩
    · exact bounded.literals z mem
    · exact before.bodies name f found z mem
  have value : ∀ {node : Node} {v : Value} {t : State}, valueOf limit fuel node s = .ok v t →
      (∀ z ∈ node.literals, z.Bounded) → t.environment.Bounded ∧ v.Bounded :=
    fun run known => (Task.bounded (.value _) ⟨known, .empty⟩ before).of_ok run
  have tree : ∀ {node : Node} {flow : Flow} {t u : State}, evaluate limit fuel node t = .ok flow u →
      t.environment.Bounded → (∀ z ∈ node.literals, z.Bounded) → u.environment.Bounded :=
    fun run before known =>
      ((Task.bounded (.tree _) ⟨known, .empty⟩ before).of_ok run).1
  have all := bounded.literals
  simp only [Task.literals] at all
  cases next with
  | negation | left | assignment | block | ifCondition | elseCondition | loop | arguments |
      argument | returned | value | first | init | condition | firstArgument =>
    exact ⟨⟨literals, .empty⟩, before⟩
  | right run | ifThen run _ =>
    exact ⟨⟨literals, .empty⟩, (value run (List.forall_mem_append.mp all).1).1⟩
  | thenBlock run _ | elseBlock run _ =>
    simp only [Node.literals, List.forall_mem_append] at all
    exact ⟨⟨literals, .empty⟩, (value run all.1.1).1⟩
  | body _ _ run =>
    obtain ⟨after, frame⟩ := (Task.bounded (.bind _ _ ∅) ⟨all, .empty⟩ before).of_ok run
    exact ⟨⟨literals, .empty⟩, after.push frame⟩
  | others run _ =>
    exact ⟨⟨literals, .empty⟩, tree run before (List.forall_mem_append.mp all).1⟩
  | rounds run =>
    simp only [List.forall_mem_append] at all
    exact ⟨⟨literals, .empty⟩, tree run before all.1.1.1⟩
  | round run _ =>
    simp only [List.forall_mem_append] at all
    exact ⟨⟨literals, .empty⟩, (value run all.1.1).1⟩
  | step run _ round _ _ =>
    simp only [List.forall_mem_append] at all
    exact ⟨⟨literals, .empty⟩, tree round (value run all.1.1).1 all.1.2⟩
  | again run _ round _ _ stepped =>
    simp only [List.forall_mem_append] at all
    exact ⟨⟨literals, .empty⟩, tree stepped (tree round (value run all.1.1).1 all.1.2) all.2⟩
  | otherArguments run =>
    obtain ⟨after, known⟩ := value run (List.forall_mem_append.mp all).1
    exact ⟨⟨literals, bounded.frame.insert known.numberOrZero _⟩, after⟩

/-- At every point of a run of bounded numbers there are only bounded ones. -/
theorem Reaches.bounded (reaches : Reaches limit fuel task s fuel' task' t) (bounded : task.Bounded)
    (before : s.environment.Bounded) : task'.Bounded ∧ t.environment.Bounded := by
  induction reaches with
  | here => exact ⟨bounded, before⟩
  | inside next _ ih =>
    obtain ⟨bounded, before⟩ := next.bounded bounded before
    exact ih bounded before

/-- At no point of a run is there a number with an infinite part: none is given to it there, none is
bound, and none is in what is left and yielded there. -/
def BoundedThroughout (limit fuel : Nat) (task : Task) (s : State) : Prop :=
  ∀ (fuel' : Nat) (task' : Task) (t : State), Reaches limit fuel task s fuel' task' t →
    task'.Bounded ∧ t.environment.Bounded ∧
      (task'.run limit fuel').Leaves Environment.Bounded task'.Yields t

theorem Task.boundedThroughout (bounded : task.Bounded) (before : s.environment.Bounded) :
    BoundedThroughout limit fuel task s := by
  intro fuel' task' t reaches
  obtain ⟨here, now⟩ := reaches.bounded bounded before
  exact ⟨here, now, task'.bounded here now⟩

/-! ## Operations without a bounded result -/

/-- An operator that would compute an infinite part is an overflow or an underflow, and nothing has
changed but what the operands did. -/
theorem binary_out_of_range {op : Operator} {left right : Node} {z w : Number} {u : State}
    (ofLeft : valueOf limit fuel left s = .ok (.number z) t)
    (ofRight : valueOf limit fuel right t = .ok (.number w) u)
    (divisor : Number.Divides op → w.equal .zero = false)
    (infinite : ∃ v ∈ Number.computed op z w, ¬ v.Bounded) :
    ∃ f, evaluate limit (fuel + 1) (.binary op left right) s = .error (.fault (.arithmetic f)) u ∧
      f.OutOfRange := by
  obtain ⟨f, failed, range⟩ := Number.apply_out_of_range divisor infinite
  refine ⟨f, ?_, range⟩
  have failed : Value.binary op (.number z) (.number w) = .error f := by
    rw [Value.binary, failed]
    rfl
  rw [Machine.evaluate, bind_of_ok ofLeft, bind_of_ok ofRight, failed]
  rfl

/-- A root with an infinite part is an overflow or an underflow. -/
theorem sqrt_out_of_range {argument : Node} {arguments : List Node} {z : Number}
    (ofArgument : valueOf limit fuel argument s = .ok (.number z) t)
    (infinite : z.re.sqrt.isInf = true) :
    ∃ f, evaluate limit (fuel + 1) (.builtin .sqrt (argument :: arguments)) s =
      .error (.fault (.arithmetic f)) t ∧ f.OutOfRange := by
  have unbounded : ¬ Number.Bounded ⟨z.re.sqrt, 0.0⟩ := fun h => by
    rw [h.re] at infinite
    cases infinite
  obtain ⟨f, failed, range⟩ := Number.ofParts_of_not_bounded unbounded
  refine ⟨f, ?_, range⟩
  have failed : z.sqrt = .error f := failed
  rw [Machine.evaluate, bind_of_ok ofArgument, runBuiltin, failed]
  rfl

end

end ComplexScript.Machine
