import LambdaInt.Term.Variables

/-!
Shapes of terms. Reading makes well-formed terms only, in which every application has an argument.
In a normal term nothing is left to do: every application waits for the value of a variable.
-/

namespace LambdaInt.Term

mutual

def WellFormed : Term → Prop
  | var _ | lit _ | builtin _ => True
  | fn _ b => WellFormed b
  | app ts => 2 ≤ ts.length ∧ WellFormedAll ts

def WellFormedAll : List Term → Prop
  | [] => True
  | t :: ts => WellFormed t ∧ WellFormedAll ts

end

theorem wellFormedAll_iff {ts : List Term} : WellFormedAll ts ↔ ∀ t ∈ ts, t.WellFormed := by
  induction ts with
  | nil => simp [WellFormedAll]
  | cons t ts ih => simp [WellFormedAll, ih]

theorem wellFormed_app {ts : List Term} :
    (app ts).WellFormed ↔ 2 ≤ ts.length ∧ ∀ t ∈ ts, t.WellFormed := by
  simp [WellFormed, wellFormedAll_iff]

/-- The head can do nothing with the arguments: it is a variable, or a builtin of which an argument
has a free variable. -/
def Waits : Term → List Term → Prop
  | var _, args => args ≠ []
  | builtin _, args => ∃ arg ∈ args, arg.freeVars ≠ []
  | _, _ => False

mutual

def Normal : Term → Prop
  | var _ | lit _ | builtin _ => True
  | fn _ b => Normal b
  | app [] => False
  | app (head :: args) => Waits head args ∧ NormalAll args

def NormalAll : List Term → Prop
  | [] => True
  | t :: ts => Normal t ∧ NormalAll ts

end

theorem normalAll_iff {ts : List Term} : NormalAll ts ↔ ∀ t ∈ ts, t.Normal := by
  induction ts with
  | nil => simp [NormalAll]
  | cons t ts ih => simp [NormalAll, ih]

theorem Waits.ne_nil {head : Term} {args : List Term} (h : Waits head args) : args ≠ [] := by
  cases head with
  | var _ => exact h
  | builtin _ =>
      obtain ⟨arg, harg, _⟩ := h
      exact List.ne_nil_of_mem harg
  | _ => exact h.elim

theorem Waits.normal {head : Term} {args : List Term} (h : Waits head args) : head.Normal := by
  cases head with
  | var _ | builtin _ => trivial
  | _ => exact h.elim

theorem normal_app_cons {head : Term} {args : List Term} :
    (app (head :: args)).Normal ↔ Waits head args ∧ ∀ t ∈ args, t.Normal := by
  simp [Normal, normalAll_iff]

theorem Normal.wellFormed {t : Term} (h : t.Normal) : t.WellFormed := by
  induction t with
  | var _ | lit _ | builtin _ => trivial
  | fn p b ih => exact ih h
  | app ts ih =>
      cases ts with
      | nil => exact h.elim
      | cons head args =>
          obtain ⟨hwaits, hargs⟩ := normal_app_cons.1 h
          have hlen : 1 ≤ args.length := List.length_pos_iff.2 hwaits.ne_nil
          refine wellFormed_app.2 ⟨by simpa using hlen, fun t ht => ih t ht ?_⟩
          rcases List.mem_cons.1 ht with rfl | ht
          · exact hwaits.normal
          · exact hargs t ht

end LambdaInt.Term
