import LambdaInt.TokenTree
import LambdaInt.Statement

/-!
Reading a statement. A term is a function, whose body is all that follows its dot, or a row of
atoms, which is their application. The kind of a token decides; its text matters only for names
and numbers. The error that is reported is the first one met from left to right, after grouping.
-/

namespace LambdaInt

/-- The error of a rule that met `found`, or the end of its trees. -/
def SyntaxError.expecting (what : Expectation) (found : Option TokenTree) : SyntaxError :=
  .expected what (found.map TokenTree.text)

namespace TokenTree

/-- The name that the tree may bind: a name token that is no builtin. -/
def binder? : TokenTree → Option String
  | leaf ⟨.name, text⟩ => if (Builtin.ofName? text).isNone then some text else none
  | _ => none

end TokenTree

namespace Token

/-- The term of a token that stands alone. -/
def atom (token : Token) : Except SyntaxError Term :=
  match token.kind with
  | .name =>
      match Builtin.ofName? token.text with
      | some op => .ok (.builtin op)
      | none => .ok (.var token.text)
  | .number =>
      match Numeral.int64? token.text with
      | some value => .ok (.lit value)
      | none => .error (.invalidInteger token.text)
  | _ => .error (.unexpectedToken token.text)

end Token

namespace Term

mutual

def ofTrees : List TokenTree → Except SyntaxError Term
  | [] => .error (.expecting .expression none)
  | tree :: rest =>
      if tree.kind? = some .lambda then functionOfTrees rest
      else do
        let head ← ofTree tree
        return application head (← argsOfTrees rest)

/-- The term of a tree that stands alone. -/
def ofTree : TokenTree → Except SyntaxError Term
  | .leaf token => token.atom
  | .group trees => ofTrees trees

def argsOfTrees : List TokenTree → Except SyntaxError (List Term)
  | [] => .ok []
  | tree :: rest => do
      let arg ← ofTree tree
      return arg :: (← argsOfTrees rest)

/-- The function of the trees after its mark. -/
def functionOfTrees : List TokenTree → Except SyntaxError Term
  | [] => .error (.expecting .parameter none)
  | binder :: rest =>
      match binder.binder? with
      | none => .error (.expecting .parameter binder)
      | some param =>
          match rest with
          | [] => .error (.expecting .dot none)
          | mark :: body =>
              if mark.kind? ≠ some .dot then .error (.expecting .dot mark)
              else if body = [] then .error (.expecting (.body param) none)
              else do return fn param (← ofTrees body)

end

end Term

namespace Statement

/-- The definition of the trees after its keyword. -/
def definitionOfTrees : List TokenTree → Except SyntaxError Statement
  | [] => .error (.expecting .definedName none)
  | binder :: rest =>
      match binder.binder? with
      | none => .error (.expecting .definedName binder)
      | some name =>
          match rest with
          | [] => .error (.expecting (.equals name) none)
          | mark :: body =>
              if mark.kind? ≠ some .equals then .error (.expecting (.equals name) mark)
              else if body = [] then .error (.expecting (.definition name) none)
              else do return define name (← Term.ofTrees body)

def ofTrees : List TokenTree → Except SyntaxError Statement
  | [] => .error (.expecting .expression none)
  | tree :: rest =>
      if tree.kind? = some .letKeyword then definitionOfTrees rest
      else do return evaluate (← Term.ofTrees (tree :: rest))

/-- The statement that the tokens of a line make up. -/
def ofTokens (tokens : List Token) : Except SyntaxError Statement := do
  ofTrees (← TokenTree.ofTokens tokens)

def ofText (text : String) : Except SyntaxError Statement :=
  ofTokens (Token.scan text)

end Statement
end LambdaInt
