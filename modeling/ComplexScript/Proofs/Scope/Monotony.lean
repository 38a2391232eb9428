import ComplexScript.Proofs.Scope.Checking
set_option autoImplicit false

/-!
# Checking with more variables known

What a check finds depends on the variables that are known before it in one direction only: with
more of them it finds the same mistakes less some, registers the same functions and leaves more
variables known (`check_fewer`).  A loop is the place where this is not plain from the text: it
takes back the variable that it brought in, and whether it brought one in depends on what was known
before.  A definition does not look at those variables at all (`check_definition_alike`).
-/

namespace ComplexScript.Scope

open ComplexScript.Program

/-- Every variable that the first scope knows is known to the second, and both know the same
functions. -/
structure Below (s t : Scope) : Prop where
  signatures : s.signatures = t.signatures
  known {x : String} : x ∈ s.initialized → x ∈ t.initialized

variable {s t : Scope}

namespace Below

theorem refl (s : Scope) : Below s s := ⟨rfl, id⟩

theorem isInitialized (below : Below s t) {x : String} (h : s.isInitialized x = true) :
    t.isInitialized x = true :=
  isInitialized_iff.mpr (below.known (isInitialized_iff.mp h))

theorem assign (below : Below s t) (name : String) : Below (s.assign name) (t.assign name) := by
  refine ⟨below.signatures, fun h => ?_⟩
  rw [mem_assign] at h ⊢
  exact h.imp_right below.known

/-- With more known before a loop it brings in no variable that it does not bring in with less. -/
theorem fresh (below : Below s t) {init : Node} {x : String} (h : t.fresh? init = some x) :
    s.fresh? init = some x := by
  rw [fresh?_eq_some_iff] at h ⊢
  exact ⟨h.1, fun known => h.2 (below.known known)⟩

/-- What a loop takes back at its end keeps the order of the scopes, also where it takes its
variable back from the lower one alone. -/
theorem forgotten (below : Below s t) {init : Node} {after after' : Scope}
    (end' : Below after after') :
    Below ((s.fresh? init).elim after after.forget)
      ((t.fresh? init).elim after' after'.forget) := by
  refine ⟨?_, fun h => ?_⟩
  · cases s.fresh? init <;> cases t.fresh? init <;> exact end'.signatures
  · rw [mem_forgotten] at h ⊢
    exact ⟨fun own => h.1 (below.fresh own), end'.known h.2⟩

theorem arity? (below : Below s t) (name : String) : s.arity? name = t.arity? name := by
  rw [Scope.arity?, Scope.arity?, below.signatures]

theorem checkCall (below : Below s t) (name : String) (got : Nat) :
    s.checkCall name got = t.checkCall name got := by
  rw [Scope.checkCall, Scope.checkCall, below.arity?]

theorem checkBuiltin (below : Below s t) (b : Builtin) (got : Nat) :
    s.checkBuiltin b got = t.checkBuiltin b got := by
  rw [Scope.checkBuiltin, Scope.checkBuiltin, below.arity?]

/-- A function's body is checked in the same scope from both. -/
theorem body (below : Below s t) (name : String) (params : List String) :
    (s.define name params.length).body params = (t.define name params.length).body params := by
  rw [Scope.body, Scope.body, define, define, below.signatures]

end Below

/-- Two checks of the same text, the first with fewer variables known before it. -/
structure Fewer (r r' : Scope × List Mistake) : Prop where
  scope : Below r.1 r'.1
  mistakes : r'.2.Sublist r.2

namespace Fewer

variable {r r' : Scope × List Mistake} {s' t' : Scope} {ms ms' : List Mistake}

theorem of_below (below : Below s t) : Fewer (s, ms) (t, ms) := ⟨below, .refl ms⟩

/-- What comes after a text is checked in the scope that the text leaves. -/
theorem append (first : Fewer r r') (second : Fewer (s', ms) (t', ms')) :
    Fewer (s', r.2 ++ ms) (t', r'.2 ++ ms') :=
  ⟨second.scope, first.mistakes.append second.mistakes⟩

end Fewer

/-- With more variables known before it, a check finds the same mistakes less some, in the same
order, and leaves the same functions and more variables known. -/
theorem check_fewer (place : Place) {node : Node} (below : Below s t) :
    Fewer (check place node s) (check place node t) := by
  have all : ∀ nodes : List Node,
      (∀ n ∈ nodes, ∀ {s t : Scope} (place : Place), Below s t →
        Fewer (check place n s) (check place n t)) →
      ∀ {s t : Scope} (place : Place), Below s t →
        Fewer (checkAll place nodes s) (checkAll place nodes t) := by
    intro nodes ih
    induction nodes with
    | nil => intro s t place below; exact .of_below below
    | cons n nodes tail =>
      intro s t place below
      have head := ih n List.mem_cons_self place below
      have others := tail (fun m mem => ih m (List.mem_cons_of_mem n mem)) place head.scope
      exact head.append others
  induction node generalizing place s t with
  | literal | noOp | endOfInput | returnNothing | «break» | «continue» => exact .of_below below
  | identifier name =>
    refine ⟨below, ?_⟩
    by_cases known : s.isInitialized name = true
    · simp [check, known, below.isInitialized known]
    · -- the lower scope complains, so whatever the other one finds is no more
      rw [check, check, if_neg known]
      split
      · exact List.nil_sublist _
      · exact .refl _
  | negation operand ih => exact ih place below
  | binary op left right ihl ihr =>
    have l := ihl place below
    exact l.append (ihr place l.scope)
  | assignment target value ih =>
    have v := ih place below
    exact ⟨v.scope.assign target, v.mistakes⟩
  | block statements ih => exact all statements ih place below
  | ifThen condition thenBlock ihc iht =>
    have c := ihc place below
    exact c.append (iht place c.scope)
  | ifElse condition thenBlock elseBlock ihc iht ihe =>
    have c := ihc place below
    have thn := c.append (iht place c.scope)
    exact thn.append (ihe place thn.scope)
  | loop init condition step body ihi ihc ihs ihb =>
    have i := ihi place below
    have c := i.append (ihc place i.scope)
    have b := c.append (ihb { place with inLoop := true } c.scope)
    have whole := b.append (ihs place b.scope)
    exact ⟨below.forgotten whole.scope, whole.mistakes⟩
  | definition name params body ih =>
    rw [check, check, below.body, below.signatures]
    exact .of_below ⟨rfl, below.known⟩
  | call name arguments ih =>
    have a := all arguments ih place below
    rw [check, check, a.scope.checkCall]
    exact a.append (.of_below a.scope)
  | builtin b arguments ih =>
    have a := all arguments ih place below
    rw [check, check, a.scope.checkBuiltin]
    exact a.append (.of_below a.scope)
  | returnValue value ih =>
    rw [check, check]
    split
    · exact ih place below
    · exact .of_below below

/-- A definition is checked alike whatever variables are known where it stands, and it leaves them
as they are. -/
theorem check_definition_alike (place : Place) (below : Below s t) (name : String)
    (params : List String) (body : Node) :
    (check place (.definition name params body) s).2 =
        (check place (.definition name params body) t).2 ∧
      (check place (.definition name params body) s).1.initialized = s.initialized := by
  rw [check, check, below.body]
  exact ⟨rfl, rfl⟩

/-- Checks of one tree from scopes with the same functions, the first with no variable that the
second does not know: the mistakes of the second are those of the first less some, in the same
order, and the scopes after them stand as those before them did.  If the tree is a definition, both
have the same mistakes and the variables that they had. -/
theorem more_known_fewer_mistakes (place : Place) (node : Node) (s t : Scope)
    (functions : s.signatures = t.signatures)
    (known : ∀ x, x ∈ s.initialized → x ∈ t.initialized) :
    let fewer := check place node s
    let more := check place node t
    more.2.Sublist fewer.2 ∧
      fewer.1.signatures = more.1.signatures ∧
      (∀ x, x ∈ fewer.1.initialized → x ∈ more.1.initialized) ∧
      ((∃ name params body, node = .definition name params body) →
        fewer.2 = more.2 ∧ fewer.1.initialized = s.initialized ∧
          more.1.initialized = t.initialized) := by
  have below : Below s t := ⟨functions, known _⟩
  have both : Fewer (check place node s) (check place node t) := check_fewer place below
  refine ⟨both.mistakes, both.scope.signatures, fun x h => both.scope.known h, ?_⟩
  rintro ⟨name, params, body, rfl⟩
  obtain ⟨mistakes, kept⟩ := check_definition_alike place below name params body
  have kept' := (check_definition_alike place (.refl t) name params body).2
  exact ⟨mistakes, kept, kept'⟩

/-- A loop that uses its variable for another loop in its round, and after it a statement that
reads the variable. -/
def loopsAndUse : List Node :=
  let loop (body : Node) : Node := .loop (.assignment "i" (.literal .zero)) (.identifier "i")
    (.assignment "i" (.literal .one)) body
  [loop (loop .noOp), .identifier "i"]

/-- Only where the variable was known before the loops is it known after them.  In a function the
loops find it unknown either way. -/
theorem loopsAndUse_mistakes :
    let bound := ({} : Scope).assign "i"
    let function := Node.definition "f" [] (.block loopsAndUse)
    (check {} (.block loopsAndUse) {}).2 = [.uninitialized "i"] ∧
      (check {} (.block loopsAndUse) bound).2 = [] ∧
      (check {} (.block loopsAndUse) bound).2.Sublist (check {} (.block loopsAndUse) {}).2 ∧
      (check {} function {}).2 = (check {} function bound).2 := by
  intro bound function
  have functions : ({} : Scope).signatures = bound.signatures := rfl
  have known (x : String) (h : x ∈ ({} : Scope).initialized) : x ∈ bound.initialized :=
    mem_assign.mpr (.inr h)
  obtain ⟨fewer, -⟩ := more_known_fewer_mistakes {} (.block loopsAndUse) {} bound functions known
  obtain ⟨-, -, -, same⟩ := more_known_fewer_mistakes {} function {} bound functions known
  exact ⟨by decide +kernel, by decide +kernel, fewer, (same ⟨_, _, _, rfl⟩).1⟩

end ComplexScript.Scope
