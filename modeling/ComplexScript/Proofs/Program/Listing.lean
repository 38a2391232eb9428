import ComplexScript.Program.Node
import ComplexScript.Proofs.Token.Spelling
set_option autoImplicit false

/-!
# What a tree is written with

`Node.Lists` gives the tokens that a tree is written with, in the order of the text and without
those that only hold it together: brackets, commas, semicolons and line breaks.  A tree need not
determine them, since a number can be written in several ways, and the zero that a prefix operator
is applied to is not written.
-/

namespace ComplexScript.Program

open ComplexScript.Token (operatorKinds)

mutual

/-- The tree is written with these tokens. -/
inductive Node.Lists : Node → List Token → Prop where
  | literal {t : Token} {z : Number} (kind : t.kind = .number) (value : t.value = some z) :
      Lists (.literal z) [t]
  | identifier {t : Token} (kind : t.kind = .identifier) : Lists (.identifier t.text) [t]
  | negation {t : Token} {e : Node} {ts : List Token} (kind : t.kind = .negation)
      (operand : e.Lists ts) : Lists (.negation e) (t :: ts)
  /-- A sign before its operand. -/
  | sign {t : Token} {op : Operator} {e : Node} {ts : List Token}
      (kind : t.kind = .additiveOperator) (text : t.text = op.symbol) (operand : e.Lists ts) :
      Lists (.binary op (.literal .zero) e) (t :: ts)
  | binary {t : Token} {op : Operator} {e f : Node} {ts us : List Token}
      (kind : t.kind ∈ operatorKinds) (text : t.text = op.symbol) (left : e.Lists ts)
      (right : f.Lists us) : Lists (.binary op e f) (ts ++ t :: us)
  | assignment {t u : Token} {e : Node} {ts : List Token} (kind : t.kind = .identifier)
      (sign : u.kind = .assignment) (value : e.Lists ts) :
      Lists (.assignment t.text e) (t :: u :: ts)
  | block {es : List Node} {ts : List Token} (statements : Node.ListsAll es ts) :
      Lists (.block es) ts
  | ifThen {t : Token} {e f : Node} {ts us : List Token} (keyword : t.kind = .ifKeyword)
      (condition : e.Lists ts) (thenBlock : f.Lists us) : Lists (.ifThen e f) (t :: ts ++ us)
  | ifElse {t u : Token} {e f g : Node} {ts us vs : List Token} (keyword : t.kind = .ifKeyword)
      (condition : e.Lists ts) (thenBlock : f.Lists us) (keyword' : u.kind = .elseKeyword)
      (elseBlock : g.Lists vs) : Lists (.ifElse e f g) (t :: ts ++ us ++ u :: vs)
  | loop {t : Token} {e f g h : Node} {ts us vs ws : List Token} (keyword : t.kind = .forKeyword)
      (init : e.Lists ts) (condition : f.Lists us) (step : g.Lists vs) (body : h.Lists ws) :
      Lists (.loop e f g h) (t :: ts ++ us ++ vs ++ ws)
  | definition {t u : Token} {ps ts : List Token} {e : Node} (keyword : t.kind = .funKeyword)
      (name : u.kind = .identifier) (params : ∀ p ∈ ps, p.kind = .identifier)
      (body : e.Lists ts) : Lists (.definition u.text (ps.map (·.text)) e) (t :: u :: ps ++ ts)
  | call {t : Token} {es : List Node} {ts : List Token} (kind : t.kind = .identifier)
      (arguments : Node.ListsAll es ts) : Lists (.call t.text es) (t :: ts)
  | builtin {t : Token} {b : Builtin} {es : List Node} {ts : List Token}
      (kind : t.kind = .builtInFunction) (text : t.text = b.name)
      (arguments : Node.ListsAll es ts) : Lists (.builtin b es) (t :: ts)
  | returnNothing {t : Token} (keyword : t.kind = .returnKeyword) : Lists .returnNothing [t]
  | returnValue {t : Token} {e : Node} {ts : List Token} (keyword : t.kind = .returnKeyword)
      (value : e.Lists ts) : Lists (.returnValue e) (t :: ts)
  | break {t : Token} (keyword : t.kind = .breakKeyword) : Lists .break [t]
  | continue {t : Token} (keyword : t.kind = .continueKeyword) : Lists .continue [t]
  | noOp : Lists .noOp []
  | endOfInput : Lists .endOfInput []

/-- The trees are written one after another with these tokens. -/
inductive Node.ListsAll : List Node → List Token → Prop where
  | nil : Node.ListsAll [] []
  | cons {e : Node} {es : List Node} {ts us : List Token} (first : e.Lists ts)
      (rest : Node.ListsAll es us) : Node.ListsAll (e :: es) (ts ++ us)

end

end ComplexScript.Program
