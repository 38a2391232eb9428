import ComplexScript.Proofs.Program.Tree
import ComplexScript.Scope
set_option autoImplicit false

/-!
# What a check does to the scope

Checking a tree only ever adds to the initialized variables (`mem_check_of_mem`), a tree without
mistakes adds everything that it assigns (`mem_check_of_assigned`), and only a definition touches
the signatures: a plain tree leaves them alone (`check_signatures`), and a definition with mistakes
gives its name back the signature it had (`check_definition`).  The calls in a plain tree without
mistakes are of functions with as many parameters as they have arguments (`signature_of_mem_calls`).
-/

namespace ComplexScript.Scope

open ComplexScript.Program

variable {place : Place} {s : Scope} {x : String}

/-! ## Names -/

@[simp] theorem mem_assign {name : String} :
    x ∈ (s.assign name).initialized ↔ name = x ∨ x ∈ s.initialized := by
  simp [assign, Std.ExtTreeSet.mem_insert]

@[simp] theorem mem_forget {name : String} :
    x ∈ (s.forget name).initialized ↔ name ≠ x ∧ x ∈ s.initialized := by
  simp [forget, Std.ExtTreeSet.mem_erase]

theorem isInitialized_iff : s.isInitialized x = true ↔ x ∈ s.initialized := Iff.rfl

/-- The variable that a loop brings in is one that its start assigns and that was not known. -/
theorem fresh?_eq_some_iff {init : Node} :
    s.fresh? init = some x ↔ init.assignedName = some x ∧ x ∉ s.initialized := by
  simp [fresh?, Option.filter_eq_some_iff, ← isInitialized_iff]

/-- A loop's scope at its end has every name but the one that the loop brought in. -/
theorem mem_forgotten {init : Node} {after : Scope} :
    x ∈ ((s.fresh? init).elim after after.forget).initialized ↔
      s.fresh? init ≠ some x ∧ x ∈ after.initialized := by
  cases s.fresh? init <;> simp

/-! ## Initialized variables -/

/-- A check forgets no variable that was known before it. -/
theorem mem_check_of_mem {node : Node} (h : x ∈ s.initialized) :
    x ∈ (check place node s).1.initialized := by
  have all : ∀ nodes : List Node,
      (∀ n ∈ nodes, ∀ {place : Place} {s : Scope}, x ∈ s.initialized →
        x ∈ (check place n s).1.initialized) →
      ∀ {place : Place} {s : Scope}, x ∈ s.initialized →
        x ∈ (checkAll place nodes s).1.initialized := by
    intro nodes ih
    induction nodes with
    | nil => intro place s h; exact h
    | cons n nodes tail =>
      intro place s h
      exact tail (fun m hm => ih m (List.mem_cons_of_mem n hm))
        (ih n List.mem_cons_self h)
  induction node generalizing place s with
  | negation operand ih => exact ih h
  | binary op left right ihl ihr => exact ihr (ihl h)
  | assignment target value ih => exact mem_assign.mpr (.inr (ih h))
  | block statements ih => exact all statements ih h
  | ifThen condition thenBlock ihc iht => exact iht (ihc h)
  | ifElse condition thenBlock elseBlock ihc iht ihe => exact ihe (iht (ihc h))
  | loop init condition step body ihi ihc ihs ihb =>
    exact mem_forgotten.mpr ⟨fun fresh => (fresh?_eq_some_iff.mp fresh).2 h,
      ihs (ihb (ihc (ihi h)))⟩
  | call name arguments ih => exact all arguments ih h
  | builtin b arguments ih => exact all arguments ih h
  | returnValue value ih =>
    simp only [check]
    split
    · exact ih h
    · exact h
  | literal | identifier | definition | returnNothing | «break» | «continue» | noOp | endOfInput =>
    exact h

/-- Checking trees in order forgets no variable that was known before. -/
theorem mem_checkAll_of_mem {nodes : List Node} (h : x ∈ s.initialized) :
    x ∈ (checkAll place nodes s).1.initialized := by
  induction nodes generalizing s with
  | nil => exact h
  | cons n nodes ih => exact ih (mem_check_of_mem h)

/-- A tree without mistakes initializes every variable that it assigns. -/
theorem mem_check_of_assigned {node : Node} (clean : (check place node s).2 = [])
    (h : x ∈ node.assigned) : x ∈ (check place node s).1.initialized := by
  have all : ∀ nodes : List Node,
      (∀ n ∈ nodes, ∀ {place : Place} {s : Scope}, (check place n s).2 = [] → x ∈ n.assigned →
        x ∈ (check place n s).1.initialized) →
      ∀ {place : Place} {s : Scope}, (checkAll place nodes s).2 = [] →
        x ∈ Node.assignedAll nodes → x ∈ (checkAll place nodes s).1.initialized := by
    intro nodes ih
    induction nodes with
    | nil => intro place s _ h; simp [Node.assignedAll] at h
    | cons n nodes tail =>
      intro place s clean h
      simp only [checkAll, List.append_eq_nil_iff] at clean ⊢
      obtain ⟨cleanHead, cleanTail⟩ := clean
      rcases List.mem_append.mp h with h | h
      · exact mem_checkAll_of_mem (ih n List.mem_cons_self cleanHead h)
      · exact tail (fun m hm => ih m (List.mem_cons_of_mem n hm)) cleanTail h
  induction node generalizing place s with
  | negation operand ih => exact ih clean h
  | binary op left right ihl ihr =>
    simp only [check, List.append_eq_nil_iff] at clean ⊢
    obtain ⟨cleanLeft, cleanRight⟩ := clean
    rcases List.mem_append.mp h with h | h
    · exact mem_check_of_mem (ihl cleanLeft h)
    · exact ihr cleanRight h
  | assignment target value ih =>
    rcases List.mem_cons.mp h with rfl | h
    · exact mem_assign.mpr (.inl rfl)
    · exact mem_assign.mpr (.inr (ih clean h))
  | block statements ih => exact all statements ih clean h
  | ifThen condition thenBlock ihc iht =>
    simp only [check, List.append_eq_nil_iff] at clean ⊢
    obtain ⟨cleanCondition, cleanThen⟩ := clean
    rcases List.mem_append.mp h with h | h
    · exact mem_check_of_mem (ihc cleanCondition h)
    · exact iht cleanThen h
  | ifElse condition thenBlock elseBlock ihc iht ihe =>
    simp only [check, List.append_eq_nil_iff] at clean ⊢
    simp only [Node.assigned, List.mem_append] at h
    obtain ⟨⟨cleanCondition, cleanThen⟩, cleanElse⟩ := clean
    rcases h with (h | h) | h
    · exact mem_check_of_mem (mem_check_of_mem (ihc cleanCondition h))
    · exact mem_check_of_mem (iht cleanThen h)
    · exact ihe cleanElse h
  | loop init condition step body ihi ihc ihs ihb =>
    simp only [check, List.append_eq_nil_iff] at clean
    obtain ⟨⟨⟨cleanInit, cleanCondition⟩, cleanBody⟩, cleanStep⟩ := clean
    obtain ⟨own, inside⟩ := Node.mem_assigned_loop.mp h
    refine mem_forgotten.mpr ⟨fun fresh => own (fresh?_eq_some_iff.mp fresh).1, ?_⟩
    rcases inside with h | h | h | h
    · exact mem_check_of_mem (mem_check_of_mem (mem_check_of_mem (ihi cleanInit h)))
    · exact mem_check_of_mem (mem_check_of_mem (ihc cleanCondition h))
    · exact mem_check_of_mem (ihb cleanBody h)
    · exact ihs cleanStep h
  | call name arguments ih => exact all arguments ih (List.append_eq_nil_iff.mp clean).1 h
  | builtin b arguments ih => exact all arguments ih (List.append_eq_nil_iff.mp clean).1 h
  | returnValue value ih =>
    simp only [check] at clean ⊢
    split at clean
    · next inFunction =>
      rw [if_pos inFunction]
      exact ih clean h
    · cases clean
  | literal | identifier | definition | returnNothing | «break» | «continue» | noOp | endOfInput =>
    simp [Node.assigned] at h

/-- A check makes no variable known but those that the tree assigns. -/
theorem mem_of_mem_check {node : Node} (h : x ∈ (check place node s).1.initialized) :
    x ∈ s.initialized ∨ x ∈ node.assigned := by
  have all : ∀ nodes : List Node,
      (∀ n ∈ nodes, ∀ {place : Place} {s : Scope}, x ∈ (check place n s).1.initialized →
        x ∈ s.initialized ∨ x ∈ n.assigned) →
      ∀ {place : Place} {s : Scope}, x ∈ (checkAll place nodes s).1.initialized →
        x ∈ s.initialized ∨ x ∈ Node.assignedAll nodes := by
    intro nodes ih
    induction nodes with
    | nil => intro place s h; exact .inl h
    | cons n nodes tail =>
      intro place s h
      rw [Node.assignedAll, List.mem_append]
      rcases tail (fun m hm => ih m (List.mem_cons_of_mem n hm)) h with h | h
      · exact (ih n List.mem_cons_self h).imp_right .inl
      · exact .inr (.inr h)
  induction node generalizing place s with
  | negation operand ih => exact ih h
  | binary op left right ihl ihr =>
    rw [Node.assigned, List.mem_append]
    rcases ihr h with h | h
    · exact (ihl h).imp_right .inl
    · exact .inr (.inr h)
  | assignment target value ih =>
    rw [Node.assigned, List.mem_cons]
    rcases mem_assign.mp h with same | h
    · exact .inr (.inl same.symm)
    · exact (ih h).imp_right .inr
  | block statements ih => exact all statements ih h
  | ifThen condition thenBlock ihc iht =>
    rw [Node.assigned, List.mem_append]
    rcases iht h with h | h
    · exact (ihc h).imp_right .inl
    · exact .inr (.inr h)
  | ifElse condition thenBlock elseBlock ihc iht ihe =>
    simp only [Node.assigned, List.mem_append]
    rcases ihe h with h | h
    · rcases iht h with h | h
      · exact (ihc h).imp_right fun mem => .inl (.inl mem)
      · exact .inr (.inl (.inr h))
    · exact .inr (.inr h)
  | loop init condition step body ihi ihc ihs ihb =>
    obtain ⟨other, h⟩ := mem_forgotten.mp h
    by_cases known : x ∈ s.initialized
    · exact .inl known
    · have own : init.assignedName ≠ some x := fun same =>
        other (fresh?_eq_some_iff.mpr ⟨same, known⟩)
      refine .inr (Node.mem_assigned_loop.mpr ⟨own, ?_⟩)
      grind
  | call name arguments ih => exact all arguments ih h
  | builtin b arguments ih => exact all arguments ih h
  | returnValue value ih =>
    simp only [check] at h
    split at h
    · exact ih h
    · exact .inl h
  | literal | identifier | definition | returnNothing | «break» | «continue» | noOp | endOfInput =>
    exact .inl h

/-! ## Signatures -/

/-- A plain tree defines nothing. -/
theorem check_signatures {node : Node} (plain : node.Plain) :
    (check place node s).1.signatures = s.signatures := by
  have all : ∀ nodes : List Node,
      (∀ n ∈ nodes, ∀ {place : Place} {s : Scope}, n.Plain →
        (check place n s).1.signatures = s.signatures) →
      ∀ {place : Place} {s : Scope}, Node.AllPlain nodes →
        (checkAll place nodes s).1.signatures = s.signatures := by
    intro nodes ih
    induction nodes with
    | nil => intro place s _; rfl
    | cons n nodes tail =>
      intro place s plain
      rw [checkAll]
      rw [tail (fun m hm => ih m (List.mem_cons_of_mem n hm)) plain.2,
        ih n List.mem_cons_self plain.1]
  induction node generalizing place s with
  | negation operand ih => exact ih plain
  | binary op left right ihl ihr => exact (ihr plain.2).trans (ihl plain.1)
  | assignment target value ih => exact ih plain
  | block statements ih => exact all statements ih plain
  | ifThen condition thenBlock ihc iht => exact (iht plain.2).trans (ihc plain.1)
  | ifElse condition thenBlock elseBlock ihc iht ihe =>
    exact (ihe plain.2.2).trans ((iht plain.2.1).trans (ihc plain.1))
  | loop init condition step body ihi ihc ihs ihb =>
    obtain ⟨plainInit, plainCondition, plainStep, plainBody⟩ := plain
    rw [check]
    cases s.fresh? init <;>
      exact (ihs plainStep).trans
        ((ihb plainBody).trans ((ihc plainCondition).trans (ihi plainInit)))
  | definition => exact plain.elim
  | call name arguments ih => exact all arguments ih plain.2
  | builtin b arguments ih => exact all arguments ih plain
  | returnValue value ih =>
    simp only [check]
    split
    · exact ih plain
    · rfl
  | literal | identifier | returnNothing | «break» | «continue» | noOp | endOfInput => rfl

/-- A function with a plain body is registered if the body has no mistakes; if it has, its name
stands for what it stood for before.  The variables known outside stay the same. -/
theorem check_definition {name : String} {params : List String} {body : Node}
    (plain : body.Plain) :
    (check place (.definition name params body) s).1 =
      if (check place (.definition name params body) s).2 = [] then s.define name params.length
      else s := by
  have signatures : (check { inFunction := true } body
      ((s.define name params.length).body params)).1.signatures =
        ((s.define name params.length).body params).signatures :=
    check_signatures plain
  simp only [check, List.isEmpty_iff, signatures]
  split
  · rfl
  · rw [show ((s.define name params.length).body params).signatures =
      s.signatures.insert name params.length from rfl, Table.reset_insert]

/-- Checking plain trees one after another defines nothing. -/
theorem checkAll_signatures {nodes : List Node} (plain : Node.AllPlain nodes) :
    (checkAll place nodes s).1.signatures = s.signatures := by
  induction nodes generalizing s with
  | nil => rfl
  | cons n nodes ih => exact (ih plain.2).trans (check_signatures plain.1)

/-- A call that is no mistake is of a function with as many parameters as it has arguments. -/
theorem signature_of_checkCall {name : String} {got : Nat} (free : Builtin.ofName? name = none)
    (clean : s.checkCall name got = []) : s.signatures[name]? = some got := by
  unfold checkCall at clean
  split at clean
  · next arity =>
    rw [arity?, free] at arity
    simpa using arity
  · cases clean

/-- In a plain tree without mistakes every call is of a known function, with as many arguments as
it has parameters. -/
theorem signature_of_mem_calls {node : Node} (plain : node.Plain)
    (clean : (check place node s).2 = []) {c : String × Nat} (h : c ∈ node.calls) :
    s.signatures[c.1]? = some c.2 := by
  have all : ∀ nodes : List Node,
      (∀ n ∈ nodes, ∀ {place : Place} {s : Scope}, n.Plain → (check place n s).2 = [] →
        c ∈ n.calls → s.signatures[c.1]? = some c.2) →
      ∀ {place : Place} {s : Scope}, Node.AllPlain nodes → (checkAll place nodes s).2 = [] →
        c ∈ Node.callsAll nodes → s.signatures[c.1]? = some c.2 := by
    intro nodes ih
    induction nodes with
    | nil => intro place s _ _ h; simp [Node.callsAll] at h
    | cons n nodes tail =>
      intro place s plain clean h
      obtain ⟨plainHead, plainTail⟩ := plain
      obtain ⟨cleanHead, cleanTail⟩ := List.append_eq_nil_iff.mp clean
      rcases List.mem_append.mp h with h | h
      · exact ih n List.mem_cons_self plainHead cleanHead h
      · rw [← check_signatures plainHead]
        exact tail (fun m hm => ih m (List.mem_cons_of_mem n hm)) plainTail cleanTail h
  induction node generalizing place s with
  | negation operand ih => exact ih plain clean h
  | binary op left right ihl ihr =>
    obtain ⟨plainLeft, plainRight⟩ := plain
    obtain ⟨cleanLeft, cleanRight⟩ := List.append_eq_nil_iff.mp clean
    rcases List.mem_append.mp h with h | h
    · exact ihl plainLeft cleanLeft h
    · rw [← check_signatures plainLeft]
      exact ihr plainRight cleanRight h
  | assignment target value ih => exact ih plain clean h
  | block statements ih => exact all statements ih plain clean h
  | ifThen condition thenBlock ihc iht =>
    obtain ⟨plainCondition, plainThen⟩ := plain
    obtain ⟨cleanCondition, cleanThen⟩ := List.append_eq_nil_iff.mp clean
    rcases List.mem_append.mp h with h | h
    · exact ihc plainCondition cleanCondition h
    · rw [← check_signatures plainCondition]
      exact iht plainThen cleanThen h
  | ifElse condition thenBlock elseBlock ihc iht ihe =>
    obtain ⟨plainCondition, plainThen, plainElse⟩ := plain
    simp only [check, List.append_eq_nil_iff] at clean
    obtain ⟨⟨cleanCondition, cleanThen⟩, cleanElse⟩ := clean
    simp only [Node.calls, List.mem_append] at h
    rcases h with (h | h) | h
    · exact ihc plainCondition cleanCondition h
    · rw [← check_signatures plainCondition]
      exact iht plainThen cleanThen h
    · rw [← check_signatures plainCondition, ← check_signatures plainThen]
      exact ihe plainElse cleanElse h
  | loop init condition step body ihi ihc ihs ihb =>
    obtain ⟨plainInit, plainCondition, plainStep, plainBody⟩ := plain
    simp only [check, List.append_eq_nil_iff] at clean
    obtain ⟨⟨⟨cleanInit, cleanCondition⟩, cleanBody⟩, cleanStep⟩ := clean
    simp only [Node.calls, List.mem_append] at h
    rcases h with ((h | h) | h) | h
    · exact ihi plainInit cleanInit h
    · rw [← check_signatures plainInit]
      exact ihc plainCondition cleanCondition h
    · rw [← check_signatures plainInit, ← check_signatures plainCondition]
      exact ihb plainBody cleanBody h
    · rw [← check_signatures plainInit, ← check_signatures plainCondition,
        ← check_signatures plainBody]
      exact ihs plainStep cleanStep h
  | definition => exact plain.elim
  | call name arguments ih =>
    obtain ⟨free, allPlain⟩ := plain
    obtain ⟨cleanArguments, cleanCall⟩ := List.append_eq_nil_iff.mp clean
    rcases List.mem_cons.mp h with rfl | h
    · rw [← checkAll_signatures allPlain]
      exact signature_of_checkCall free cleanCall
    · exact all arguments ih allPlain cleanArguments h
  | builtin b arguments ih => exact all arguments ih plain (List.append_eq_nil_iff.mp clean).1 h
  | returnValue value ih =>
    simp only [check] at clean
    split at clean
    · exact ih plain clean h
    · cases clean
  | literal | identifier | returnNothing | «break» | «continue» | noOp | endOfInput =>
    simp [Node.calls] at h

end ComplexScript.Scope
