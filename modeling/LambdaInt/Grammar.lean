import LambdaInt.Token
import LambdaInt.Statement

/-!
The grammar of the language, as a relation between flat lists of tokens and what they stand for.
It says nothing about how tokens are read; parentheses are tokens like any other.
-/

namespace LambdaInt.Grammar

/-- The token binds the name: it is a name token, and not that of a builtin. -/
def Binds (token : Token) (x : String) : Prop :=
  token.kind = .name ∧ token.text = x ∧ Builtin.ofName? x = none

mutual

inductive IsTerm : List Token → Term → Prop
  | function {mark binder dot : Token} {x : String} {body : List Token} {t : Term}
      (mark_kind : mark.kind = .lambda) (binds : Binds binder x) (dot_kind : dot.kind = .dot)
      (isTerm : IsTerm body t) : IsTerm (mark :: binder :: dot :: body) (.fn x t)
  | row {tokens : List Token} {head : Term} {args : List Term}
      (atoms : AreAtoms tokens (head :: args)) : IsTerm tokens (head.application args)

inductive IsAtom : List Token → Term → Prop
  | builtin {token : Token} {op : Builtin} (kind : token.kind = .name)
      (name : Builtin.ofName? token.text = some op) : IsAtom [token] (.builtin op)
  | var {token : Token} (kind : token.kind = .name)
      (name : Builtin.ofName? token.text = none) : IsAtom [token] (.var token.text)
  | number {token : Token} {value : Int64} (kind : token.kind = .number)
      (numeral : Numeral.int64? token.text = some value) : IsAtom [token] (.lit value)
  | group {left right : Token} {tokens : List Token} {t : Term}
      (left_kind : left.kind = .leftParen) (isTerm : IsTerm tokens t)
      (right_kind : right.kind = .rightParen) : IsAtom (left :: tokens ++ [right]) t

inductive AreAtoms : List Token → List Term → Prop
  | one {tokens : List Token} {t : Term} (isAtom : IsAtom tokens t) : AreAtoms tokens [t]
  | more {first rest : List Token} {t : Term} {ts : List Term} (isAtom : IsAtom first t)
      (atoms : AreAtoms rest ts) : AreAtoms (first ++ rest) (t :: ts)

end

inductive IsStatement : List Token → Statement → Prop
  | define {keyword binder mark : Token} {x : String} {body : List Token} {t : Term}
      (keyword_kind : keyword.kind = .letKeyword) (binds : Binds binder x)
      (mark_kind : mark.kind = .equals) (isTerm : IsTerm body t) :
      IsStatement (keyword :: binder :: mark :: body) (.define x t)
  | evaluate {tokens : List Token} {t : Term} (isTerm : IsTerm tokens t) :
      IsStatement tokens (.evaluate t)

end LambdaInt.Grammar
