import LambdaInt.Statement
import LambdaInt.Token

/-!
What can be written so that it is read back: names that are words of the language and neither
numbers nor reserved, integers without a sign, and applications with an argument.
-/

namespace LambdaInt

/-- A name that may be bound. -/
def IsIdentifier (x : String) : Prop :=
  x ≠ "" ∧ (∀ c ∈ x.toList, Token.isWordChar c = true) ∧ x ≠ "let" ∧
    x.toList.all Char.isDigit = false ∧ Builtin.ofName? x = none

instance (x : String) : Decidable (IsIdentifier x) :=
  inferInstanceAs (Decidable (_ ∧ _))

theorem IsIdentifier.ofWord {x : String} (h : IsIdentifier x) :
    Token.ofWord x.toList = ⟨.name, x⟩ := by
  obtain ⟨_, _, hlet, hdigits, _⟩ := h
  have hlet' : x.toList ≠ ['l', 'e', 't'] := fun e => hlet (String.toList_inj.1 e)
  simp [Token.ofWord, hlet', hdigits]

namespace Term

mutual

def Printable : Term → Prop
  | var x => IsIdentifier x
  | lit n => 0 ≤ n.toInt
  | builtin _ => True
  | fn p b => IsIdentifier p ∧ Printable b
  | app ts => 2 ≤ ts.length ∧ PrintableAll ts

def PrintableAll : List Term → Prop
  | [] => True
  | t :: ts => Printable t ∧ PrintableAll ts

end

theorem printableAll_iff {ts : List Term} : PrintableAll ts ↔ ∀ t ∈ ts, t.Printable := by
  induction ts with
  | nil => simp [PrintableAll]
  | cons t ts ih => simp [PrintableAll, ih]

theorem printable_app {ts : List Term} :
    (app ts).Printable ↔ 2 ≤ ts.length ∧ ∀ t ∈ ts, t.Printable := by
  simp [Printable, printableAll_iff]

end Term

def Statement.Printable : Statement → Prop
  | define x t => IsIdentifier x ∧ t.Printable
  | evaluate t => t.Printable

theorem Statement.Printable.term {s : Statement} (h : s.Printable) : s.term.Printable := by
  cases s with
  | define x t => exact h.2
  | evaluate t => exact h

end LambdaInt
