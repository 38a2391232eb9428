import ComplexScript.Proofs.Entry.Blocks
import ComplexScript.Proofs.Entry.Independence
set_option autoImplicit false

/-!
# Programs are read as they are written

The entries of a program are its items, in their order, each with its own text and nothing to
complain about, and after them the end (`program_read`).  One item is read from where an entry
begins, and the next one begins right after it (`next_item`), so the rest is an induction on the
program (`nth_program`).
-/

namespace ComplexScript

open ComplexScript.Program
open ComplexScript.Text

namespace Entry

open ComplexScript.Token (Kind)
open Read

/-! ## Items -/

section

variable {fuel : Nat} {ctx : Context} {rest : List Mark}

theorem moreParams_attempts (params : List Name) :
    Attempts True (marks (params.flatMap fun param => [.comma, .name param]))
      (.word .closeParenthesis :: rest) (moreParams fuel) (params.map (·.text)) := by
  induction params generalizing fuel with
  | nil =>
    apply Attempts.budgeted fuel rfl fun fuel => ?_
    exact .pass (by rintro ⟨⟩) .pure
  | cons param params ih =>
    apply Attempts.budgeted fuel rfl fun fuel => ?_
    refine .accept rfl (.expectToken rfl fun t is => ?_)
    have text : t.text = param.text := is.text
    rw [List.map_cons, ← text]
    exact ih.map

theorem params_attempts (params : List Name) :
    Attempts True (marks (paramWords params)) (.word .closeParenthesis :: rest)
      (Entry.params fuel) (params.map (·.text)) := by
  cases params with
  | nil => exact .absentToken (by rintro ⟨⟩) .pure
  | cons param params =>
    refine .acceptToken rfl fun t is => ?_
    have text : t.text = param.text := is.text
    rw [List.map_cons, ← text]
    exact (moreParams_attempts params).map

theorem definition_attempts {name : Name} {params : List Name} {body : List Statement} {n : Nat}
    (room : ctx.Room n) (le : (braced (Statement.marksAll body)).length ≤ n) :
    Attempts True
      (.word (.name name) ::
        (parenthesized (paramWords params) ++ braced (Statement.marksAll body)))
      rest (definition fuel ctx) (Item.definition name params body).tree := by
  rw [parenthesized, List.cons_append, List.append_assoc, ← List.append_nil (braced _)]
  refine .expectToken rfl fun t is => .expect rfl ((params_attempts params).andThen ?_)
  have text : t.text = name.text := is.text
  rw [Item.tree, ← text]
  exact body_attempts (Statement.reads_all body) room le .pure

/-- An item is read with its line break. -/
theorem Item.reads (item : Item) (room : ctx.Room item.line.length) :
    Attempts True item.line rest (entry fuel ctx) item.tree := by
  have length : item.line.length = item.marks.length + 1 := List.length_append
  rw [length] at room
  rw [entry, Item.line]
  cases item with
  | statement s =>
    refine .pass ?_ (s.reads.statement (room.mono (Nat.le_succ _)))
    rw [Item.marks, List.append_assoc]
    exact s.head_ne rfl _
  | definition name params body =>
    refine .accept rfl (Attempts.andThen ?_ (terminated_attempts _))
    refine definition_attempts room ?_
    simp only [Item.marks, List.length_cons, List.length_append]
    omega

end

/-! ## Where an item ends -/

/-- What is read of an entry and what is still to come stay together. -/
theorem invariant_splits (whole : List Char) :
    Invariant fun r => r.Sane ∧ r.cursor.Splits whole where
  sane _ h := h.1
  look r h := by
    refine ⟨invariant_sane.look r h.1, ?_⟩
    unfold Reader.looked
    split
    · exact h.2
    · exact (Token.Scan.next_sim (Cursor.bisimulation_splits whole) _ _ ⟨rfl, h.2⟩).2.2
  use r h := ⟨invariant_sane.use r h.1, h.2⟩
  report r d h := by
    refine ⟨invariant_sane.report r d h.1, ?_⟩
    unfold Reader.reported
    split <;> exact h.2
  giveUp r t h notYet := ⟨invariant_sane.giveUp r t h.1 notYet, h.2⟩

section

variable {limits : Limits} {feed : Feed} {r : Reader} {tail : List Char}

/-- Where an entry begins with the text of an item, the rule of entries reads the item, and leaves
what comes after its text. -/
theorem entry_item {fuel : Nat} {node : Node} {t : Reader} (begun : Begun feed r) (p : Rendering)
    (upcoming : r.cursor.upcoming = p.text.toList ++ tail)
    (nesting : p.item.line.length ≤ limits.nesting) (chain : p.item.line.length ≤ limits.chain)
    (run : entry fuel { limits := limits } r = some (node, t)) :
    node = p.item.tree ∧ t.diagnostics = [] ∧ t.lookahead = none ∧ t.cursor.ahead = tail := by
  have poised : r.Poised tail (p.item.line ++ []) := by
    refine ⟨.fresh begun.lookahead begun.cursor.sound ?_, begun.diagnostics, begun.abandoned⟩
    rw [Cursor.ahead_of_released begun.held, upcoming, List.append_nil]
    exact p.laid.append tail
  have room : Context.Room { limits := limits } p.item.line.length :=
    ⟨(Nat.zero_add _).symm ▸ nesting, (Nat.zero_add _).symm ▸ chain⟩
  obtain ⟨same, after⟩ := (p.item.reads room tail r node t poised run).1 trivial
  obtain ⟨fresh, _, laid⟩ := after.sees
  cases laid
  exact ⟨same, after.clean.diagnostics, fresh, rfl⟩

/-- At the text of an item the next entry is that item, and the entry after it begins right after
its text. -/
theorem next_item (begun : Begun feed r) (p : Rendering)
    (upcoming : r.cursor.upcoming = p.text.toList ++ tail) (inText : endOfText ∉ tail)
    (nesting : p.item.line.length ≤ limits.nesting) (chain : p.item.line.length ≤ limits.chain) :
    (next limits r).1 = p.entry ∧ Begun feed (next limits r).2 ∧
      (next limits r).2.cursor.upcoming = tail := by
  obtain ⟨node, t, run, read, _⟩ := next_read limits begun.cursor.sound
  have start : { r with abandoned := false } = r := by rw [← begun.abandoned]
  rw [start] at run
  obtain ⟨rfl, clean, fresh, left⟩ := entry_item begun p upcoming nesting chain run
  have splits : r.cursor.Splits (p.text.toList ++ tail) := by
    refine ⟨begun.cursor.sound, ?_, ?_⟩
    · rw [begun.raw, upcoming]
      rfl
    · rw [upcoming, List.mem_append]
      exact not_or.mpr ⟨p.laid.inText, inText⟩
  obtain ⟨_, after⟩ := entry_invariant (invariant_splits _) ⟨begun.reading.sane, splits⟩ run
  have ending : (∀ d ∈ (next limits r).1.diagnostics, d.cause ≠ .nestingTooDeep) → _ :=
    next_begun begun
  rw [read, clean] at ending ⊢
  rcases ending (List.forall_mem_nil _) with ⟨begun', _⟩ | ended
  · have released : t.cursor.held = none := begun'.held
    rw [Cursor.ahead_of_released released] at left
    have whole := after.whole
    rw [left] at whole
    have text : t.cursor.raw = p.text := String.toList_inj.mp (List.append_cancel_right whole)
    rw [text]
    exact ⟨rfl, begun', left⟩
  · obtain ⟨u, found, _⟩ := ended.lookahead
    cases fresh.symm.trans found

/-- Where no character is left the next entry is the end. -/
theorem next_end (limits : Limits) (begun : Begun feed r) (upcoming : r.cursor.upcoming = []) :
    (next limits r).1 = endEntry ∧ Ended (next limits r).2 := by
  obtain ⟨isEnd, raw⟩ :=
    Token.Scan.next_of_ahead_nil ((Cursor.ahead_of_released begun.held).trans upcoming)
  have looked : r.looked = fetched r (Token.Scan.next r.cursor).1 (Token.Scan.next r.cursor).2 := by
    rw [Reader.looked, begun.lookahead]
  have token : r.token = (Token.Scan.next r.cursor).1.token := by
    rw [Reader.token, begun.lookahead]
    rfl
  refine next_of_endOfInput ?_ ?_ ?_
  · rw [token, isEnd]
    rfl
  · rw [looked]
    exact raw.trans begun.raw
  · rw [looked, fetched, isEnd, begun.diagnostics]
    rfl

/-! ## Programs -/

/-- What comes after the first entry. -/
theorem nth_succ (limits : Limits) (n : Nat) (r : Reader) :
    nth limits (n + 1) r = nth limits n (next limits r).2 := by
  have after : r.after limits (n + 1) = (next limits r).2.after limits n := by
    induction n with
    | zero => rfl
    | succ n ih => rw [Reader.after, ih, Reader.after]
  rw [nth, nth, after]

/-- From where an entry begins, the items of a program are read one after another, and then the end,
as often as asked for. -/
theorem nth_program (begun : Begun feed r) (program : List Rendering)
    (upcoming : r.cursor.upcoming = Rendering.textAll program)
    (room : ∀ p ∈ program,
      p.item.line.length ≤ limits.nesting ∧ p.item.line.length ≤ limits.chain) (n : Nat) :
    nth limits n r = (program[n]?.map Rendering.entry).getD endEntry := by
  induction program generalizing r n with
  | nil =>
    obtain ⟨isEnd, ended⟩ := next_end limits begun upcoming
    cases n with
    | zero => exact isEnd
    | succ n =>
      rw [nth_succ]
      exact nth_ended ended n
  | cons p program ih =>
    obtain ⟨nesting, chain⟩ := room p List.mem_cons_self
    obtain ⟨isItem, begun', upcoming'⟩ :=
      next_item begun p upcoming (Rendering.inText_textAll program) nesting chain
    cases n with
    | zero => exact isItem
    | succ n =>
      rw [nth_succ]
      exact ih begun' upcoming' (fun p mem => room p (List.mem_cons_of_mem _ mem)) n

end

/-- Programs are read as they are written.  If the nesting and the chains that are allowed are at
least the marks of each item, the entries of the text of a program are its items in their order,
each with its own tree, no complaints and its own text, and after them the end. -/
theorem program_read (limits : Limits) (feed : Feed) (program : List Rendering)
    (text : feed.text = Rendering.textAll program)
    (room : ∀ p ∈ program,
      p.item.line.length ≤ limits.nesting ∧ p.item.line.length ≤ limits.chain) (n : Nat) :
    nth limits n (.ofFeed feed) = (program[n]?.map Rendering.entry).getD endEntry :=
  nth_program (begun_ofFeed feed) program text room n

/-- A function with a loop, and in it a conditional that has all its parts. -/
def search : Item :=
  let first : Name := ⟨"first", by decide +kernel⟩
  let last : Name := ⟨"last", by decide +kernel⟩
  let i : Name := ⟨"i", by decide +kernel⟩
  let next : Name := ⟨"next", by decide +kernel⟩
  .definition ⟨"search", by decide +kernel⟩ [first, last]
    [.loop (.assignment i (.identifier first)) (.binary .less (.identifier i) (.identifier last))
      (.assignment i (.call next [.identifier i]))
      [.conditional <| .elseIf (.binary .equal (.identifier i) (.identifier last))
        [.returnValue (.assignment last (.identifier i))]
        (.ifElse (.negation (.identifier last)) [.break] [.continue])],
    .returnNothing]

/-- A call of the function.  The left operand needs its parentheses. -/
def searchCall : Item :=
  let i : Name := ⟨"i", by decide +kernel⟩
  .statement <| .expression <| .call ⟨"search", by decide +kernel⟩
    [.binary .subtract (.binary .subtract (.identifier i) (.identifier i)) (.identifier i),
      .identifier i]

/-- The text of the function, with blanks only where they are needed. -/
def searchText : String :=
  "fun search(first,last)\x7b\nfor(i = first;i < last;i = next(i))\x7b\nif(i == last)\x7b\n" ++
    "return last = i\n\x7delse if(! last)\x7b\nbreak\n\x7delse\x7b\ncontinue\n\x7d\n\x7d\n" ++
    "return\n\x7d\n"

/-- The lines of the function and of the call. -/
def searchFeed : Feed :=
  ⟨[.line "fun search(first,last)\x7b\n", .line "for(i = first;i < last;i = next(i))\x7b\n",
    .line "if(i == last)\x7b\n", .line "return last = i\n", .line "\x7delse if(! last)\x7b\n",
    .line "break\n", .line "\x7delse\x7b\n", .line "continue\n", .line "\x7d\n", .line "\x7d\n",
    .line "return\n", .line "\x7d\n", .line "search((i-i)-i,i)\n"], []⟩

theorem search_read :
    nth ⟨66, 66⟩ 0 (.ofFeed searchFeed) =
        ⟨.definition "search" ["first", "last"] (.block
          [.loop (.assignment "i" (.identifier "first"))
            (.binary .less (.identifier "i") (.identifier "last"))
            (.assignment "i" (.call "next" [.identifier "i"]))
            (.block [.ifElse (.binary .equal (.identifier "i") (.identifier "last"))
              (.block [.returnValue (.assignment "last" (.identifier "i"))])
              (.ifElse (.negation (.identifier "last")) (.block [.break]) (.block [.continue]))]),
          .returnNothing]), [], searchText⟩ ∧
      nth ⟨66, 66⟩ 1 (.ofFeed searchFeed) =
        ⟨.call "search" [.binary .subtract (.binary .subtract (.identifier "i") (.identifier "i"))
          (.identifier "i"), .identifier "i"], [], "search((i-i)-i,i)\n"⟩ ∧
      nth ⟨66, 66⟩ 2 (.ofFeed searchFeed) = endEntry := by
  have text : searchFeed.text = Rendering.textAll [.ofItem search, .ofItem searchCall] := by
    decide +kernel
  have room : ∀ p ∈ [Rendering.ofItem search, .ofItem searchCall],
      p.item.line.length ≤ 66 ∧ p.item.line.length ≤ 66 := by
    decide +kernel
  have read := program_read ⟨66, 66⟩ searchFeed [.ofItem search, .ofItem searchCall] text room
  have function : (Rendering.ofItem search).text = searchText := by decide +kernel
  have call : (Rendering.ofItem searchCall).text = "search((i-i)-i,i)\n" := by decide +kernel
  refine ⟨(read 0).trans ?_, (read 1).trans ?_, read 2⟩
  · exact congrArg (Entry.mk _ _) function
  · exact congrArg (Entry.mk _ _) call

end Entry

end ComplexScript
