import ComplexScript.Proofs.Scope.Checking
set_option autoImplicit false

/-!
# Variables that are known too early

The check follows the text, so it also learns of variables from assignments that a run may pass by:
those in the blocks of conditionals and in the rounds and steps of loops.  `Scope.tentative` lists
the variables that a check comes to know there.  A loop's own variable does not count when its start
assigns it, because it is no longer known after the loop.  Where nothing is tentative, the check of
a block learns of no variable (`mem_of_mem_check_of_certain`), so that what it knows after a tree
without mistakes (`Scope.Sure`) has been assigned by any run that comes to the end of the tree.
-/

namespace ComplexScript.Scope

open ComplexScript.Program

/-! ## Tentative variables -/

/-- Whether a tree stands where a run may pass it by, and the variable that the loop whose start it
stands in brings in for itself. -/
structure Site where
  passable : Bool := false
  own : Option String := none

/-- The site of a block of a conditional, and of a round or a step of a loop. -/
def Site.inside : Site := { passable := true }

mutual

/-- The variables that the check of a tree comes to know where a run may pass by. -/
def tentative (place : Place) (site : Site) : Node → Scope → List String
  | .negation operand, s => tentative place site operand s
  | .binary _ left right, s =>
    tentative place site left s ++ tentative place site right (check place left s).1
  | .assignment target value, s =>
    let known := (check place value s).1.isInitialized target
    tentative place site value s ++
      if site.passable && site.own != some target && !known then [target] else []
  | .block statements, s => tentativeAll place site statements s
  | .ifThen condition thenBlock, s =>
    let c := check place condition s
    tentative place site condition s ++ tentative place .inside thenBlock c.1
  | .ifElse condition thenBlock elseBlock, s =>
    let c := check place condition s
    let t := check place thenBlock c.1
    tentative place site condition s ++ tentative place .inside thenBlock c.1 ++
      tentative place .inside elseBlock t.1
  | .loop init condition step body, s =>
    let i := check place init s
    let c := check place condition i.1
    let b := check { place with inLoop := true } body c.1
    tentative place { site with own := init.assignedName } init s ++
      tentative place site condition i.1 ++
      tentative { place with inLoop := true } .inside body c.1 ++ tentative place .inside step b.1
  | .definition name params body, s =>
    tentative { inFunction := true } {} body ((s.define name params.length).body params)
  | .call _ arguments, s => tentativeAll place site arguments s
  | .builtin _ arguments, s => tentativeAll place site arguments s
  | .returnValue value, s => if place.inFunction then tentative place site value s else []
  | _, _ => []

/-- The variables that the check of trees one after another comes to know where a run may pass
by. -/
def tentativeAll (place : Place) (site : Site) : List Node → Scope → List String
  | [], _ => []
  | node :: nodes, s =>
    tentative place site node s ++ tentativeAll place site nodes (check place node s).1

end

variable {place : Place} {site : Site} {s : Scope} {x : String}

/-- Where a run may pass by, a check that finds nothing tentative makes no variable known but one
that a loop brings in for itself. -/
theorem mem_of_mem_check_of_certain {node : Node} (passable : site.passable = true)
    (certain : tentative place site node s = []) (h : x ∈ (check place node s).1.initialized) :
    x ∈ s.initialized ∨ site.own = some x := by
  have all : ∀ nodes : List Node,
      (∀ n ∈ nodes, ∀ {place : Place} {site : Site} {s : Scope}, site.passable = true →
        tentative place site n s = [] → x ∈ (check place n s).1.initialized →
        x ∈ s.initialized ∨ site.own = some x) →
      ∀ {place : Place} {site : Site} {s : Scope}, site.passable = true →
        tentativeAll place site nodes s = [] → x ∈ (checkAll place nodes s).1.initialized →
        x ∈ s.initialized ∨ site.own = some x := by
    intro nodes ih
    induction nodes with
    | nil => intro place site s _ _ h; exact .inl h
    | cons n nodes tail =>
      intro place site s passable certain h
      obtain ⟨certainHead, certainTail⟩ := List.append_eq_nil_iff.mp certain
      rcases tail (fun m hm => ih m (List.mem_cons_of_mem n hm)) passable certainTail h with h | h
      · exact ih n List.mem_cons_self passable certainHead h
      · exact .inr h
  induction node generalizing place site s with
  | negation operand ih => exact ih passable certain h
  | binary op left right ihl ihr =>
    obtain ⟨certainLeft, certainRight⟩ := List.append_eq_nil_iff.mp certain
    rcases ihr passable certainRight h with h | h
    · exact ihl passable certainLeft h
    · exact .inr h
  | assignment target value ih =>
    obtain ⟨certainValue, known⟩ := List.append_eq_nil_iff.mp certain
    rcases mem_assign.mp h with rfl | h
    · by_cases own : site.own = some target
      · exact .inr own
      · refine ih passable certainValue ?_
        simpa [passable, own, isInitialized_iff] using known
    · exact ih passable certainValue h
  | block statements ih => exact all statements ih passable certain h
  | ifThen condition thenBlock ihc iht =>
    obtain ⟨certainCondition, certainThen⟩ := List.append_eq_nil_iff.mp certain
    exact ihc passable certainCondition ((iht rfl certainThen h).resolve_right nofun)
  | ifElse condition thenBlock elseBlock ihc iht ihe =>
    simp only [tentative, List.append_eq_nil_iff] at certain
    obtain ⟨⟨certainCondition, certainThen⟩, certainElse⟩ := certain
    have h := (ihe rfl certainElse h).resolve_right nofun
    exact ihc passable certainCondition ((iht rfl certainThen h).resolve_right nofun)
  | loop init condition step body ihi ihc ihs ihb =>
    simp only [tentative, List.append_eq_nil_iff] at certain
    obtain ⟨⟨⟨certainInit, certainCondition⟩, certainBody⟩, certainStep⟩ := certain
    obtain ⟨other, h⟩ := mem_forgotten.mp h
    have h := (ihs rfl certainStep h).resolve_right nofun
    have h := (ihb rfl certainBody h).resolve_right nofun
    have passableInit : { site with own := init.assignedName }.passable = true := passable
    rcases ihc passable certainCondition h with h | h
    · rcases ihi passableInit certainInit h with h | own
      · exact .inl h
      · by_cases known : x ∈ s.initialized
        · exact .inl known
        · exact absurd (fresh?_eq_some_iff.mpr ⟨own, known⟩) other
    · exact .inr h
  | call name arguments ih => exact all arguments ih passable certain h
  | builtin b arguments ih => exact all arguments ih passable certain h
  | returnValue value ih =>
    simp only [check, tentative] at h certain
    split at h
    · next inFunction =>
      rw [if_pos inFunction] at certain
      exact ih passable certain h
    · exact .inl h
  | literal | identifier | definition | returnNothing | «break» | «continue» | noOp | endOfInput =>
    exact .inl h

/-! ## Trees that are sure -/

/-- A tree has no mistakes and brings in no variable where a run may pass by. -/
structure Sure (place : Place) (site : Site) (node : Node) (s : Scope) : Prop where
  clean : (check place node s).2 = []
  certain : tentative place site node s = []

/-- Trees one after another have no mistakes and bring in no variable where a run may pass by. -/
structure AllSure (place : Place) (site : Site) (nodes : List Node) (s : Scope) : Prop where
  clean : (checkAll place nodes s).2 = []
  certain : tentativeAll place site nodes s = []

/-- What stands inside of a tree learns of no variable if it is sure. -/
theorem Sure.known {node : Node} (sure : Sure place .inside node s)
    (h : x ∈ (check place node s).1.initialized) : x ∈ s.initialized :=
  (mem_of_mem_check_of_certain rfl sure.certain h).resolve_right nofun

theorem AllSure.cons {node : Node} {nodes : List Node} (h : AllSure place site (node :: nodes) s) :
    Sure place site node s ∧ AllSure place site nodes (check place node s).1 := by
  obtain ⟨clean, certain⟩ := h
  simp only [checkAll, tentativeAll, List.append_eq_nil_iff] at clean certain
  exact ⟨⟨clean.1, certain.1⟩, clean.2, certain.2⟩

namespace Sure

theorem binary {op : Operator} {left right : Node} (h : Sure place site (.binary op left right) s) :
    Sure place site left s ∧ Sure place site right (check place left s).1 := by
  obtain ⟨clean, certain⟩ := h
  simp only [check, tentative, List.append_eq_nil_iff] at clean certain
  exact ⟨⟨clean.1, certain.1⟩, clean.2, certain.2⟩

theorem assignment {target : String} {value : Node}
    (h : Sure place site (.assignment target value) s) : Sure place site value s :=
  ⟨h.clean, (List.append_eq_nil_iff.mp h.certain).1⟩

theorem ifThen {condition thenBlock : Node} (h : Sure place site (.ifThen condition thenBlock) s) :
    Sure place site condition s ∧ Sure place .inside thenBlock (check place condition s).1 := by
  obtain ⟨clean, certain⟩ := h
  simp only [check, tentative, List.append_eq_nil_iff] at clean certain
  exact ⟨⟨clean.1, certain.1⟩, clean.2, certain.2⟩

theorem ifElse {condition thenBlock elseBlock : Node}
    (h : Sure place site (.ifElse condition thenBlock elseBlock) s) :
    Sure place site condition s ∧ Sure place .inside thenBlock (check place condition s).1 ∧
      Sure place .inside elseBlock (check place thenBlock (check place condition s).1).1 := by
  obtain ⟨clean, certain⟩ := h
  simp only [check, tentative, List.append_eq_nil_iff] at clean certain
  exact ⟨⟨clean.1.1, certain.1.1⟩, ⟨clean.1.2, certain.1.2⟩, clean.2, certain.2⟩

theorem call {name : String} {arguments : List Node}
    (h : Sure place site (.call name arguments) s) :
    AllSure place site arguments s ∧
      (checkAll place arguments s).1.checkCall name arguments.length = [] := by
  obtain ⟨clean, certain⟩ := h
  simp only [check, tentative, List.append_eq_nil_iff] at clean certain
  exact ⟨⟨clean.1, certain⟩, clean.2⟩

theorem builtin {b : Builtin} {arguments : List Node}
    (h : Sure place site (.builtin b arguments) s) :
    AllSure place site arguments s ∧
      (checkAll place arguments s).1.checkBuiltin b arguments.length = [] := by
  obtain ⟨clean, certain⟩ := h
  simp only [check, tentative, List.append_eq_nil_iff] at clean certain
  exact ⟨⟨clean.1, certain⟩, clean.2⟩

/-- A value is returned inside a function only. -/
theorem returnValue {value : Node} (h : Sure place site (.returnValue value) s) :
    place.inFunction = true ∧ Sure place site value s := by
  obtain ⟨clean, certain⟩ := h
  simp only [check, tentative] at clean certain
  split at clean
  · next inFunction =>
    rw [if_pos inFunction] at certain
    exact ⟨inFunction, clean, certain⟩
  · cases clean

end Sure

/-- The rounds of a loop have no mistakes and bring in no variable where a run may pass by.  The
parts are checked from `s` on, in the order of the text. -/
structure SureRounds (place : Place) (site : Site) (condition step body : Node) (s : Scope) :
    Prop where
  ofCondition : Sure place site condition s
  ofBody : Sure { place with inLoop := true } .inside body (check place condition s).1
  ofStep : Sure place .inside step
    (check { place with inLoop := true } body (check place condition s).1).1

theorem Sure.loop {init condition step body : Node}
    (h : Sure place site (.loop init condition step body) s) :
    Sure place { site with own := init.assignedName } init s ∧
      SureRounds place site condition step body (check place init s).1 := by
  obtain ⟨clean, certain⟩ := h
  simp only [check, tentative, List.append_eq_nil_iff] at clean certain
  obtain ⟨⟨⟨cleanInit, cleanCondition⟩, cleanBody⟩, cleanStep⟩ := clean
  obtain ⟨⟨⟨certainInit, certainCondition⟩, certainBody⟩, certainStep⟩ := certain
  exact ⟨⟨cleanInit, certainInit⟩, ⟨cleanCondition, certainCondition⟩, ⟨cleanBody, certainBody⟩,
    cleanStep, certainStep⟩

end ComplexScript.Scope
