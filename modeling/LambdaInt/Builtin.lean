/-!
The builtin functions on machine integers. Addition takes two or more integers and is carried out
from left to right; the successor takes one. Arithmetic is exact: a result that does not fit is
no result.
-/

namespace LambdaInt

inductive Builtin
  | plus
  | increment
  deriving DecidableEq

namespace Builtin

/-- Every builtin, in the order in which they are numbered. -/
def all : List Builtin :=
  [plus, increment]

def name : Builtin → String
  | plus => "+"
  | increment => "1+"

def ofName? (name : String) : Option Builtin :=
  all.find? fun op => op.name == name

def index (op : Builtin) : Nat :=
  all.idxOf op

/-- How many integers the builtin may be given. -/
def takes : Builtin → Nat → Bool
  | plus, n => 2 ≤ n
  | increment, n => n == 1

/-- The sum of two integers, if it fits. -/
def add? (m n : Int64) : Option Int64 :=
  let sum := m.toInt + n.toInt
  if Int64.minValue.toInt ≤ sum ∧ sum ≤ Int64.maxValue.toInt then some (Int64.ofInt sum) else none

/-- The result on as many integers as the builtin takes, if it and every partial sum fit. -/
def value? : Builtin → List Int64 → Option Int64
  | plus, args => args.foldlM add? 0
  | increment, [n] => add? n 1
  | increment, _ => none

theorem ofName?_name (op : Builtin) : ofName? op.name = some op := by
  cases op <;> decide

theorem ofName?_eq_some_iff {x : String} {op : Builtin} : ofName? x = some op ↔ x = op.name := by
  constructor
  · intro h
    have := List.find?_some h
    simpa using (beq_iff_eq.1 this).symm
  · rintro rfl
    exact ofName?_name op

theorem ofName?_eq_none_iff {x : String} : ofName? x = none ↔ x ≠ "+" ∧ x ≠ "1+" := by
  calc
    ofName? x = none ↔ ∀ op : Builtin, x ≠ op.name := by
      simp only [Option.eq_none_iff_forall_ne_some, ne_eq, ofName?_eq_some_iff]
    _ ↔ x ≠ "+" ∧ x ≠ "1+" :=
      ⟨fun h => ⟨h plus, h increment⟩, fun h op => op.casesOn h.1 h.2⟩

end Builtin
end LambdaInt
