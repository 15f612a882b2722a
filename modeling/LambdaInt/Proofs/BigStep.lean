import LambdaInt.Proofs.DepthGuard
import LambdaInt.Proofs.NormalForm

/-!
Reduction without the depth. A term evaluates to a value when some depth is enough, and then every
larger one is. The rules are those of a big-step semantics, one for each kind of term and one for
each thing that a head does with its arguments, so what they put together needs no count of depths.
-/

namespace LambdaInt.Term

/-- With enough depth, the term has the value. -/
def Evaluates (used : List String) (scope : Scope) (t v : Term) : Prop :=
  ∃ depth, t.reduce depth used scope = .ok v

/-- With enough depth, the head applied to the arguments, all of them values, has the value. -/
def Applied (used : List String) (scope : Scope) (head : Term) (args : List Term) (v : Term) :
    Prop :=
  ∃ depth, applyTo (betaBy (reduce depth used) used scope) head args = .ok v

section
variable {used : List String} {scope : Scope}

theorem Evaluates.eventually {t v : Term} (h : Evaluates used scope t v) :
    ∃ depth, ∀ m, depth ≤ m → t.reduce m used scope = .ok v := by
  obtain ⟨depth, hdepth⟩ := h
  exact ⟨depth, fun m hm => reduce_eq_ok_of_le hm hdepth⟩

theorem Evaluates.tidy {t v : Term} (h : Evaluates used scope t v) : Tidy used v := by
  obtain ⟨depth, hdepth⟩ := h
  exact tidy_of_reduce hdepth

/-- Values evaluate to themselves. -/
theorem Normal.evaluates {v : Term} (h : v.Normal) (tidy : Tidy used v) (scope : Scope) :
    Evaluates used scope v v :=
  ⟨v.height, h.reduce_self tidy (Nat.le_refl v.height) scope⟩

theorem evaluates_lit (n : Int64) : Evaluates used scope (lit n) (lit n) :=
  ⟨1, reduce_lit 0 used scope n⟩

theorem evaluates_builtin (op : Builtin) : Evaluates used scope (builtin op) (builtin op) :=
  ⟨1, reduce_builtin 0 used scope op⟩

theorem evaluates_var_of_mem {x : String} (hx : x ∈ used) :
    Evaluates used scope (var x) (var x) :=
  ⟨1, reduce_var_of_mem hx⟩

theorem Evaluates.var {x : String} {value v : Term} (hx : x ∉ used)
    (hfind : scope.find? x = some value) (h : Evaluates used scope value v) :
    Evaluates used scope (var x) v := by
  obtain ⟨depth, hdepth⟩ := h
  exact ⟨depth + 1, (reduce_var_of_find? hx hfind).trans hdepth⟩

theorem Evaluates.fn {p q : String} {b c v : Term} (hqc : renameApart used p b = (q, c))
    (h : Evaluates (q :: used) (scope.child.set q (.var q)) c v) :
    Evaluates used scope (fn p b) (fn q v) := by
  obtain ⟨depth, hdepth⟩ := h
  refine ⟨depth + 1, ?_⟩
  rw [reduce_fn_of_renameApart hqc, hdepth]
  rfl

theorem Evaluates.fn_of_not_mem {p : String} {b v : Term} (hp : p ∉ used)
    (h : Evaluates (p :: used) (scope.child.set p (.var p)) b v) :
    Evaluates used scope (.fn p b) (.fn p v) :=
  .fn (renameApart_of_not_mem b hp) h

/-- Terms that have values have them at one depth. -/
theorem exists_mapM_of_evaluates {ts vs : List Term}
    (h : List.Forall₂ (Evaluates used scope) ts vs) :
    ∃ depth, ts.mapM (reduce depth used scope) = .ok vs := by
  induction h with
  | nil => exact ⟨0, rfl⟩
  | cons ht _ ih =>
      obtain ⟨m, hm⟩ := ht
      obtain ⟨n, hn⟩ := ih
      refine ⟨max m n, ?_⟩
      rw [Except.mapM_cons, reduce_eq_ok_of_le (Nat.le_max_left m n) hm,
        mapM_reduce_eq_ok_of_le (Nat.le_max_right m n) hn]
      rfl

theorem Evaluates.app {head u v : Term} {args us : List Term}
    (hhead : Evaluates used scope head u) (hargs : List.Forall₂ (Evaluates used scope) args us)
    (happly : Applied used scope u us v) : Evaluates used scope (app (head :: args)) v := by
  obtain ⟨i, hi⟩ := hhead
  obtain ⟨j, hj⟩ := exists_mapM_of_evaluates hargs
  obtain ⟨k, hk⟩ := happly
  refine ⟨max i (max j k) + 1, reduce_app_eq_ok_iff.2 ⟨u, us, ?_, ?_, ?_⟩⟩
  · exact reduce_eq_ok_of_le (by omega) hi
  · exact mapM_reduce_eq_ok_of_le (by omega) hj
  · exact applyTo_eq_ok_of_le (by omega) hk

theorem applied_nil (v : Term) : Applied used scope v [] v :=
  ⟨0, applyTo_nil v⟩

theorem Applied.beta {p q : String} {a b c u v : Term} {args : List Term}
    (hqc : renameApart used p b = (q, c)) (hbody : Evaluates used (scope.child.set q a) c u)
    (hrest : Applied used scope u args v) : Applied used scope (fn p b) (a :: args) v := by
  obtain ⟨m, hm⟩ := hbody
  obtain ⟨n, hn⟩ := hrest
  refine ⟨max m n, ?_⟩
  rw [applyTo_fn, betaBy_of_renameApart hqc, reduce_eq_ok_of_le (Nat.le_max_left m n) hm]
  exact applyTo_eq_ok_of_le (Nat.le_max_right m n) hn

theorem Applied.beta_of_not_mem {p : String} {a b u v : Term} {args : List Term} (hp : p ∉ used)
    (hbody : Evaluates used (scope.child.set p a) b u) (hrest : Applied used scope u args v) :
    Applied used scope (fn p b) (a :: args) v :=
  .beta (renameApart_of_not_mem b hp) hbody hrest

theorem applied_of_waits {head : Term} {args : List Term} (h : Waits head args) :
    Applied used scope head args (app (head :: args)) :=
  ⟨0, applyTo_of_waits h⟩

theorem applied_builtin {op : Builtin} {args : List Term} {v : Term} (ne : args ≠ [])
    (hclosed : ∀ a ∈ args, a.freeVars = []) (h : op.apply args = .ok v) :
    Applied used scope (builtin op) args v := by
  have hall : args.all isClosed = true :=
    List.all_eq_true.2 fun a ha => isClosed_iff.2 (hclosed a ha)
  refine ⟨0, ?_⟩
  rw [applyTo_builtin op ne, if_pos hall, h]

end
end LambdaInt.Term
