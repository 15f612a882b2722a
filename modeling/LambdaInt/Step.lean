import LambdaInt.Nameless
import Mathlib

/-!
Reduction steps of nameless terms, at any place. A step applies a function to its first argument,
puts the integer that the rules of a builtin give in the place of a call on integers, or joins an
application at the head of another to it. The rules of the builtins are stated in whole numbers.
-/

namespace LambdaInt

/-- The rules of the builtins, in whole numbers. Two or more integers come to their exact sum, and
that only if the sum of every first part of them is an integer of the machine, too, as the addition
is from left to right. A single integer comes to the next. -/
inductive Builtin.Yields : Builtin → List Int64 → Int64 → Prop
  | plus {values : List Int64} {value : Int64} (two : 2 ≤ values.length)
      (partials : ∀ first, first <+: values → ∃ n : Int64, n.toInt = (first.map Int64.toInt).sum)
      (sum : value.toInt = (values.map Int64.toInt).sum) : Yields plus values value
  | increment {n value : Int64} (succ : value.toInt = n.toInt + 1) : Yields increment [n] value

namespace Nameless

inductive Step : Nameless → Nameless → Prop
  | beta (body arg : Nameless) (args : List Nameless) :
      Step (app (fn body :: arg :: args)) (application (instantiate body arg) args)
  | delta {op : Builtin} {values : List Int64} {value : Int64} (yields : op.Yields values value) :
      Step (app (builtin op :: values.map lit)) (lit value)
  | merge (terms args : List Nameless) : Step (app (app terms :: args)) (app (terms ++ args))
  | body {b c : Nameless} (step : Step b c) : Step (fn b) (fn c)
  | member (before after : List Nameless) {t u : Nameless} (step : Step t u) :
      Step (app (before ++ t :: after)) (app (before ++ u :: after))

/-- Zero or more steps. -/
abbrev Steps : Nameless → Nameless → Prop :=
  Relation.ReflTransGen Step

/-- No infinite row of steps begins at the term. -/
def Terminates (t : Nameless) : Prop :=
  Acc (fun u t => Step t u) t

theorem Steps.body {b c : Nameless} (h : Steps b c) : Steps (fn b) (fn c) :=
  Relation.ReflTransGen.lift Nameless.fn (fun _ _ step => Step.body step) _ _ h

theorem Steps.member (before after : List Nameless) {t u : Nameless} (h : Steps t u) :
    Steps (app (before ++ t :: after)) (app (before ++ u :: after)) :=
  Relation.ReflTransGen.lift (fun t => app (before ++ t :: after))
    (fun _ _ step => Step.member before after step) _ _ h

end Nameless
end LambdaInt
