import LambdaInt.RuntimeError
import LambdaInt.Scope
import LambdaInt.Term.Rename

/-!
Reduction of terms to normal form. Nothing is substituted in place: a parameter is bound to its
argument in a new frame, and the body is reduced in it. `used` holds the parameters of the
functions around the term reached; such a name stands for itself, and a function whose parameter
is used already is renamed apart, so that no variable is captured.

Reduction is bounded by a depth, which every step into a member, a body or a value uses up by one.
A term without a normal form therefore ends in an error.
-/

namespace LambdaInt

/-- The builtin on reduced arguments without free variables. -/
def Builtin.apply (op : Builtin) (args : List Term) : Except RuntimeError Term :=
  match Term.literals? args with
  | none => .error (.builtinMisuse op)
  | some values =>
      if op.takes values.length then
        match op.value? values with
        | some value => .ok (.lit value)
        | none => .error (.integerOverflow op)
      else .error (.builtinMisuse op)

namespace Term

/-- Applies a reduced head to reduced arguments, where `beta` applies a function to one argument.
Functions take their arguments one by one. A builtin waits until no argument has a free variable
and then takes all of them. A variable waits for ever, and an application that waits takes the
arguments in. -/
def applyTo (beta : String → Term → Term → Except RuntimeError Term) :
    Term → List Term → Except RuntimeError Term
  | head, [] => .ok head
  | fn param body, arg :: args => do
      let head ← beta param body arg
      applyTo beta head args
  | builtin op, arg :: args =>
      if (arg :: args).all isClosed then op.apply (arg :: args)
      else .ok (app (builtin op :: arg :: args))
  | lit _, _ :: _ => .error .appliedLiteral
  | app terms, arg :: args => .ok (app (terms ++ arg :: args))
  | var x, arg :: args => .ok (app (var x :: arg :: args))

/-- Applies a function to one argument: its parameter, renamed apart, is bound to the argument in a
new frame, and `reduceIn` reduces the body there. -/
def betaBy (reduceIn : Scope → Term → Except RuntimeError Term) (used : List String)
    (scope : Scope) (param : String) (body arg : Term) : Except RuntimeError Term :=
  let (param, body) := renameApart used param body
  reduceIn (scope.child.set param arg) body

/-- Reduces a term to normal form. The values of names are reduced again where they are used, so
that their parameters, too, differ from the names used there. -/
def reduce : Nat → List String → Scope → Term → Except RuntimeError Term
  | 0, _, _, _ => .error .depthExceeded
  | depth + 1, used, scope, fn param body => do
      let (param, body) := renameApart used param body
      let scope := scope.child.set param (var param)
      return fn param (← reduce depth (param :: used) scope body)
  | _ + 1, _, _, app [] => .ok (app [])
  | depth + 1, used, scope, app (head :: args) => do
      let head ← reduce depth used scope head
      let args ← args.mapM (reduce depth used scope)
      applyTo (betaBy (reduce depth used) used scope) head args
  | depth + 1, used, scope, var x =>
      if x ∈ used then .ok (var x)
      else
        match scope.find? x with
        | some value => reduce depth used scope value
        | none => .error (.undefinedVariable x)
  | _ + 1, _, _, lit n => .ok (lit n)
  | _ + 1, _, _, builtin op => .ok (builtin op)

@[simp] theorem reduce_lit (depth : Nat) (used : List String) (scope : Scope) (n : Int64) :
    reduce (depth + 1) used scope (lit n) = .ok (lit n) :=
  rfl

@[simp] theorem reduce_builtin (depth : Nat) (used : List String) (scope : Scope) (op : Builtin) :
    reduce (depth + 1) used scope (builtin op) = .ok (builtin op) :=
  rfl

theorem reduce_var_of_mem {depth : Nat} {used : List String} {scope : Scope} {x : String}
    (h : x ∈ used) : reduce (depth + 1) used scope (var x) = .ok (var x) := by
  simp [reduce, h]

theorem reduce_var_of_find? {depth : Nat} {used : List String} {scope : Scope} {x : String}
    {value : Term} (h : x ∉ used) (hfind : scope.find? x = some value) :
    reduce (depth + 1) used scope (var x) = reduce depth used scope value := by
  simp [reduce, h, hfind]

theorem reduce_var_of_unbound {depth : Nat} {used : List String} {scope : Scope} {x : String}
    (h : x ∉ used) (hfind : scope.find? x = none) :
    reduce (depth + 1) used scope (var x) = .error (.undefinedVariable x) := by
  simp [reduce, h, hfind]

theorem reduce_fn (depth : Nat) (used : List String) (scope : Scope) (p : String) (b : Term) :
    reduce (depth + 1) used scope (fn p b) =
      let (q, c) := renameApart used p b
      (reduce depth (q :: used) (scope.child.set q (var q)) c).map (fn q) := by
  simp only [reduce]
  cases reduce depth _ _ _ <;> rfl

theorem reduce_app_cons (depth : Nat) (used : List String) (scope : Scope) (head : Term)
    (args : List Term) :
    reduce (depth + 1) used scope (app (head :: args)) =
      (reduce depth used scope head).bind fun head =>
        (args.mapM (reduce depth used scope)).bind fun args =>
          applyTo (betaBy (reduce depth used) used scope) head args :=
  rfl

end Term
end LambdaInt
