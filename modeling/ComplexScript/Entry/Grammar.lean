import ComplexScript.Entry.Reader
set_option autoImplicit false

/-!
# The grammar

The rules of the language, each reading one construct.  Every rule takes a budget first, which
bounds how deep the rules call each other; `Entry.next?` gives them one that is enough.

All binary operators group to the right: the right operand of an operator is read by the rule of
the operator itself, one link further along the chain.
-/

namespace ComplexScript.Entry

open ComplexScript.Program
open ComplexScript.Token (Kind)
open Read

/-! ## Levels of binary operators -/

/-- How tightly a binary operator binds. -/
inductive Level where
  | relational | logical | power | additive | multiplicative
  deriving DecidableEq, Repr, Inhabited

namespace Level

/-- The next tighter level; the operands of the tightest one are primary expressions. -/
def tighter? : Level → Option Level
  | relational => some logical
  | logical => some power
  | power => some additive
  | additive => some multiplicative
  | multiplicative => none

/-- Whether the operators of a level are tokens of a kind. -/
def has : Level → Kind → Bool
  | relational, .relationalOperator => true
  | logical, .logicalAnd => true
  | logical, .logicalOr => true
  | power, .powerOperator => true
  | additive, .additiveOperator => true
  | multiplicative, .multiplicativeOperator => true
  | _, _ => false

end Level

/-- Use the next token if it is an operator of a level. -/
def acceptOperator? (level : Level) : Read (Option Token) := do
  let t ← look
  if level.has t.kind then
    use
    return some t
  else return none

/-- The tree of an operator token and its operands. -/
def operation (t : Token) (left right : Node) : Node :=
  match Operator.ofSymbol? t.text with
  | some op => .binary op left right
  | none => .noOp

/-- The kinds before which a `return` has no value. -/
def endsReturn (kind : Kind) : Bool :=
  endsStatement kind || kind = .semicolon || kind = .closeBrace

/-- Skip closing parentheses. -/
def skipClosers : Nat → Read PUnit
  | 0 => starved
  | fuel + 1 => do
    if ← accept .closeParenthesis then skipClosers fuel else return ⟨⟩

/-- The parameters after the first, each after a comma. -/
def moreParams : Nat → Read (List String)
  | 0 => starved
  | fuel + 1 => do
    if ← accept .comma then
      let param ← expect? .identifier
      let params ← moreParams fuel
      return param.toList.map (·.text) ++ params
    else return []

/-- The parameters of a function. -/
def params (fuel : Nat) : Read (List String) := do
  match ← accept? .identifier with
  | some first => return first.text :: (← moreParams fuel)
  | none => return []

/-! ## The rules -/

mutual

/-- One statement with its terminator, at top level or in a block. -/
def statement : Nat → Context → Bool → Read Node
  | 0, _, _ => starved
  | fuel + 1, ctx, inBlock => do
    if ← accept .lineBreak then return .noOp
    else if ← accept .semicolon then return .noOp
    else if ← isNext .endOfInput then return .endOfInput
    else
      let node ← instruction fuel ctx
      terminated fuel ctx inBlock node

/-- The end of a statement: a line break, a semicolon or the end of the text, and in a block also
before the closing brace or after a brace of its own.  Anything else is reported, and what follows
is read as another statement. -/
def terminated : Nat → Context → Bool → Node → Read Node
  | 0, _, _, _ => starved
  | fuel + 1, ctx, inBlock, node => do
    if ← accept .lineBreak then return node
    else if ← accept .semicolon then return node
    else if ← isNext .endOfInput then return node
    else if ← isAbandoned then return node
    else
      let t ← look
      if inBlock && (t.kind = .closeBrace || node.endsWithBlock) then return node
      else
        report ⟨t, .expected .lineBreak⟩
        let rest ← chained fuel ctx fun ctx => statement fuel ctx inBlock
        return .block [node, rest]

/-- A statement without its terminator. -/
def instruction : Nat → Context → Read Node
  | 0, _ => starved
  | fuel + 1, ctx => do
    if ← accept .breakKeyword then return .break
    else if ← accept .continueKeyword then return .continue
    else if ← accept .forKeyword then loop fuel ctx
    else if ← accept .ifKeyword then conditional fuel ctx
    else if ← accept .returnKeyword then
      if endsReturn (← look).kind then return .returnNothing
      else return .returnValue (← assignment fuel ctx)
    else assignment fuel ctx

/-- A block in braces.  Empty statements in it are dropped. -/
def block : Nat → Context → Read Node
  | 0, _ => starved
  | fuel + 1, ctx => do
    if ← expect .openBrace then
      nested fuel ctx fun ctx => return .block (← statements fuel ctx)
    else return .block []

/-- The statements of a block and its closing brace. -/
def statements : Nat → Context → Read (List Node)
  | 0, _ => starved
  | fuel + 1, ctx => do
    if ← accept .closeBrace then return []
    else
      let t ← look
      if (← isAbandoned) || t.kind = .endOfInput then
        report ⟨t, .expected .closeBrace⟩
        return []
      else
        let node ← statement fuel ctx true
        let rest ← statements fuel ctx
        return if node.isNoOp then rest else node :: rest

/-- A loop after its keyword. -/
def loop : Nat → Context → Read Node
  | 0, _ => starved
  | fuel + 1, ctx => do
    let _ ← expect .openParenthesis
    let header := { ctx with groups := ctx.groups + 1 }
    let init ← assignment fuel header
    let _ ← expect .semicolon
    let condition ← binary fuel header .relational
    let _ ← expect .semicolon
    let step ← assignment fuel header
    let _ ← expect .closeParenthesis
    let _ ← accept .lineBreak
    let body ← block fuel ctx
    return .loop init condition step body

/-- A conditional after its keyword. -/
def conditional : Nat → Context → Read Node
  | 0, _ => starved
  | fuel + 1, ctx => do
    let _ ← expect .openParenthesis
    let condition ← assignment fuel { ctx with groups := ctx.groups + 1 }
    let _ ← expect .closeParenthesis
    let _ ← accept .lineBreak
    let thenBlock ← block fuel ctx
    if ← accept .elseKeyword then
      if ← accept .ifKeyword then
        return .ifElse condition thenBlock (← nested fuel ctx fun ctx => conditional fuel ctx)
      else return .ifElse condition thenBlock (← block fuel ctx)
    else return .ifThen condition thenBlock

/-- An expression, or an assignment to a variable.  The value may be another assignment. -/
def assignment : Nat → Context → Read Node
  | 0, _ => starved
  | fuel + 1, ctx => do
    let start ← look
    let target ← binary fuel ctx .relational
    if ← accept .assignment then
      let value ← chained fuel ctx fun ctx => assignment fuel ctx
      match target with
      | .identifier name => return .assignment name value
      | _ =>
        report ⟨start, .expected .identifier⟩
        return .noOp
    else return target

/-- An expression of a level of binary operators. -/
def binary : Nat → Context → Level → Read Node
  | 0, _, _ => starved
  | fuel + 1, ctx, level => do
    let left ←
      match level.tighter? with
      | some tighter => binary fuel ctx tighter
      | none => primary fuel ctx
    match ← acceptOperator? level with
    | some t =>
      let right ← chained fuel ctx fun ctx => binary fuel ctx level
      return operation t left right
    | none => return left

/-- A primary expression, or one behind a prefix operator.  An operand that is missing at a closing
parenthesis or at the end of the statement reads as an empty statement. -/
def primary : Nat → Context → Read Node
  | 0, _ => starved
  | fuel + 1, ctx => do
    let t ← look
    match t.kind with
    | .openParenthesis =>
      use
      nested fuel ctx fun ctx => group fuel ctx
    | .number =>
      use
      return .literal (t.value.getD .zero)
    | .builtInFunction =>
      use
      let _ ← expect .openParenthesis
      let args ← arguments fuel ctx
      match Builtin.ofName? t.text with
      | some b => return .builtin b args
      | none => return .noOp
    | .identifier =>
      use
      if ← accept .openParenthesis then return .call t.text (← arguments fuel ctx)
      else return .identifier t.text
    | .negation =>
      use
      nested fuel ctx fun ctx => return .negation (← binary fuel ctx .relational)
    | .additiveOperator =>
      use
      nested fuel ctx fun ctx => return operation t (.literal .zero) (← primary fuel ctx)
    | .closeParenthesis =>
      use
      return .noOp
    | .lineBreak => return .noOp
    | .endOfInput => return .noOp
    | _ =>
      report ⟨t, .unexpectedToken⟩
      use
      return .noOp

/-- A group after its opening parenthesis.  Closing parentheses too many after an outermost group
are dropped. -/
def group : Nat → Context → Read Node
  | 0, _ => starved
  | fuel + 1, ctx => do
    let inner ← assignment fuel { ctx with groups := ctx.groups + 1 }
    let _ ← expect .closeParenthesis
    if ctx.groups = 0 then
      skipClosers fuel
    return inner

/-- The arguments of a call after its opening parenthesis, through the closing one. -/
def arguments : Nat → Context → Read (List Node)
  | 0, _ => starved
  | fuel + 1, ctx => do
    if ← accept .closeParenthesis then return []
    else
      let args ← argumentList fuel { ctx with groups := ctx.groups + 1 }
      let _ ← expect .closeParenthesis
      return args

/-- One argument or more, with commas between them. -/
def argumentList : Nat → Context → Read (List Node)
  | 0, _ => starved
  | fuel + 1, ctx => do
    let first ← binary fuel ctx .relational
    if ← accept .comma then return first :: (← argumentList fuel ctx)
    else return [first]

end

/-- A function after its keyword.  A name that is missing is empty. -/
def definition (fuel : Nat) (ctx : Context) : Read Node := do
  let name ← expect? .identifier
  let _ ← expect .openParenthesis
  let params ← params fuel
  let _ ← expect .closeParenthesis
  let _ ← accept .lineBreak
  let body ← block fuel ctx
  return .definition ((name.map (·.text)).getD "") params body

/-- An entry: a function or one statement. -/
def entry (fuel : Nat) (ctx : Context) : Read Node := do
  if ← accept .funKeyword then
    let node ← definition fuel ctx
    terminated fuel ctx false node
  else statement fuel ctx false

end ComplexScript.Entry
