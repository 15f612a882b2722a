import LambdaInt.Proofs.DepthGuard
import LambdaInt.Proofs.Failing

/-!
Application groups to the left. Arguments that are given in two portions are taken as if they came
in one row: wherever the first portion runs out, what it leaves behind goes on with the second. A
builtin would count the arguments of a portion, so there must be none. The inner application stands
one level deeper than the row, which is all that the depth has to make up for.
-/

namespace LambdaInt.Term

theorem keeps_builtinFree :
    Keeps (fun _ scope t => t.BuiltinFree ∧ scope.All BuiltinFree) fun _ => BuiltinFree where
  body hqc h := ⟨builtinFree_renameApart hqc h.1, h.2.set trivial⟩
  member h ht := ⟨builtinFree_app.1 h.1 _ ht, h.2⟩
  value h _ hfind := ⟨h.2 _ _ hfind, h.2⟩
  argument hqc h hf ha := ⟨builtinFree_renameApart hqc hf, h.2.set ha⟩
  var _ _ := trivial
  lit _ := trivial
  builtin h := h.1
  fn _ _ hr := hr
  nil h := h.1
  call _ _ := trivial
  wait _ hhead hargs := builtinFree_app.2 (List.forall_mem_cons.2 ⟨hhead, hargs⟩)
  extend hterms hargs :=
    builtinFree_app.2 (List.forall_mem_append.2 ⟨builtinFree_app.1 hterms, hargs⟩)

theorem builtinFree_betaBy {depth : Nat} {used : List String} {scope : Scope}
    (hscope : scope.All BuiltinFree) {p : String} {b a u : Term} (hb : (fn p b).BuiltinFree)
    (ha : a.BuiltinFree) (h : betaBy (reduce depth used) used scope p b a = .ok u) :
    u.BuiltinFree := by
  cases hqc : renameApart used p b with
  | mk q c =>
      rw [betaBy_of_renameApart hqc] at h
      exact keeps_builtinFree.reduce h ⟨builtinFree_renameApart hqc hb, hscope.set ha⟩

section
variable {beta : String → Term → Term → Except RuntimeError Term}

/-- An application that waits takes in any further arguments, even none. -/
theorem applyTo_waiting (terms args : List Term) :
    applyTo beta (app terms) args = .ok (app (terms ++ args)) := by
  cases args with
  | nil => rw [applyTo_nil, List.append_nil]
  | cons a args => exact applyTo_app terms (List.cons_ne_nil a args)

/-- Arguments can be taken in two portions. -/
theorem applyTo_append
    (hbeta : ∀ {p b a u}, BuiltinFree (fn p b) → BuiltinFree a → beta p b a = .ok u → BuiltinFree u)
    {head : Term} (hhead : head.BuiltinFree) {as : List Term} (has : ∀ a ∈ as, a.BuiltinFree)
    (bs : List Term) :
    applyTo beta head (as ++ bs) = (applyTo beta head as).bind fun u => applyTo beta u bs := by
  induction as generalizing head with
  | nil =>
      rw [applyTo_nil, List.nil_append]
      rfl
  | cons a as ih =>
      obtain ⟨ha, has⟩ := List.forall_mem_cons.1 has
      cases head with
      | var x => exact (applyTo_waiting (var x :: a :: as) bs).symm
      | lit n => rfl
      | builtin op => exact hhead.elim
      | fn p b =>
          rw [List.cons_append, applyTo_fn, applyTo_fn]
          cases hu : beta p b a with
          | error e => rfl
          | ok u => exact ih (hbeta hhead ha hu) has
      | app terms =>
          rw [List.cons_append, applyTo_waiting, applyTo_waiting, ← List.cons_append,
            ← List.append_assoc]
          exact (applyTo_waiting (terms ++ a :: as) bs).symm

end

section
variable {used : List String} {scope : Scope}

theorem mapM_append_eq_ok_iff {f : Term → Except RuntimeError Term} {as bs cs : List Term} :
    (as ++ bs).mapM f = .ok cs ↔
      ∃ as' bs', as.mapM f = .ok as' ∧ bs.mapM f = .ok bs' ∧ cs = as' ++ bs' := by
  rw [List.mapM_append]
  change ((as.mapM f).bind fun as' => (bs.mapM f).bind fun bs' => .ok (as' ++ bs')) = _ ↔ _
  simp only [Except.bind_eq_ok_iff, Except.ok.injEq, exists_and_left, @eq_comm _ _ cs]

section
variable {head : Term} {as bs : List Term} (hhead : head.BuiltinFree)
  (has : ∀ a ∈ as, a.BuiltinFree) (hscope : scope.All BuiltinFree)
include hhead has hscope

/-- On the reduced members, the row does what the portions do one after the other. -/
theorem applyTo_portions {depth : Nat} {head' : Term} {as' : List Term}
    (hred : head.reduce depth used scope = .ok head')
    (hreds : as.mapM (reduce depth used scope) = .ok as') (bs' : List Term) :
    applyTo (betaBy (reduce depth used) used scope) head' (as' ++ bs') =
      (applyTo (betaBy (reduce depth used) used scope) head' as').bind fun u =>
        applyTo (betaBy (reduce depth used) used scope) u bs' := by
  have hargs : ∀ a ∈ as', a.BuiltinFree := by
    intro a ha
    obtain ⟨t, ht, hred⟩ := exists_mem_of_forall₂ (Except.mapM_eq_ok_iff.1 hreds) ha
    exact keeps_builtinFree.reduce hred ⟨has t ht, hscope⟩
  exact applyTo_append (builtinFree_betaBy hscope) (keeps_builtinFree.reduce hred ⟨hhead, hscope⟩)
    hargs bs'

theorem reduce_row_of_nested {depth : Nat} {r : Term}
    (h : (app (app (head :: as) :: bs)).reduce depth used scope = .ok r) :
    (app (head :: as ++ bs)).reduce depth used scope = .ok r := by
  match depth, h with
  | depth + 1, h =>
      obtain ⟨u, bs', hinner, hbs, hrest⟩ := reduce_app_eq_ok_iff.1 h
      match depth, hinner with
      | depth + 1, hinner =>
          obtain ⟨head', as', hred, hreds, happly⟩ := reduce_app_eq_ok_iff.1 hinner
          have hle : depth ≤ depth + 1 := Nat.le_succ depth
          have hred := reduce_eq_ok_of_le hle hred
          have hreds := mapM_reduce_eq_ok_of_le hle hreds
          have happly := applyTo_eq_ok_of_le hle happly
          refine reduce_app_eq_ok_iff.2 ⟨head', as' ++ bs', hred, ?_, ?_⟩
          · exact mapM_append_eq_ok_iff.2 ⟨as', bs', hreds, hbs, rfl⟩
          · rw [applyTo_portions hhead has hscope hred hreds, happly]
            exact hrest

theorem reduce_nested_of_row {depth : Nat} {r : Term}
    (h : (app (head :: as ++ bs)).reduce depth used scope = .ok r) :
    (app (app (head :: as) :: bs)).reduce (depth + 1) used scope = .ok r := by
  match depth, h with
  | depth + 1, h =>
      obtain ⟨head', args', hred, hargs, happly⟩ := reduce_app_eq_ok_iff.1 h
      obtain ⟨as', bs', hreds, hbs, rfl⟩ := mapM_append_eq_ok_iff.1 hargs
      rw [applyTo_portions hhead has hscope hred hreds] at happly
      obtain ⟨u, hinner, hrest⟩ := Except.bind_eq_ok_iff.1 happly
      have hle : depth ≤ depth + 1 := Nat.le_succ depth
      refine reduce_app_eq_ok_iff.2 ⟨u, bs', ?_, mapM_reduce_eq_ok_of_le hle hbs, ?_⟩
      · exact reduce_app_eq_ok_iff.2 ⟨head', as', hred, hreds, hinner⟩
      · exact applyTo_eq_ok_of_le hle hrest

end

end

/-- An application whose head is an application without builtins reduces to a value exactly when the
row of all the arguments does, to the same value; the row takes no more depth, and at most one level
less. The second portion may even hold builtins. -/
theorem application_left_associative (used : List String) (scope : Scope) (head : Term)
    (as bs : List Term) (hhead : head.BuiltinFree) (has : ∀ a ∈ as, a.BuiltinFree)
    (hscope : ∀ x v, scope.find? x = some v → v.BuiltinFree) :
    (∀ depth r, (app (app (head :: as) :: bs)).reduce depth used scope = .ok r →
      (app (head :: as ++ bs)).reduce depth used scope = .ok r) ∧
    ∀ depth r, (app (head :: as ++ bs)).reduce depth used scope = .ok r →
      (app (app (head :: as) :: bs)).reduce (depth + 1) used scope = .ok r :=
  ⟨fun _ _ h => reduce_row_of_nested hhead has hscope h,
    fun _ _ h => reduce_nested_of_row hhead has hscope h⟩

def swappingScope : Scope :=
  .root (Frame.empty.set "k" (fn "x" (fn "f" (app [var "f", var "x"]))))

/-- The arguments of `k` in two portions. -/
def swappingNested : Term :=
  app [app [var "k", lit 1, var "y"], fn "w" (var "w"), var "y"]

/-- The arguments of `k` in one row. -/
def swappingRow : Term :=
  app [var "k", lit 1, var "y", fn "w" (var "w"), var "y"]

/-- The first portion ends in an application that waits, and the second is put behind it. The row
can do with one level less than the nested application needs. -/
theorem application_left_associative_waiting :
    (∀ x v, swappingScope.find? x = some v → v.BuiltinFree) ∧
    (swappingRow.reduce 6 ["y"] swappingScope =
      .ok (app [var "y", lit 1, fn "w" (var "w"), var "y"]) ∧
    swappingNested.reduce 7 ["y"] swappingScope =
      .ok (app [var "y", lit 1, fn "w" (var "w"), var "y"]) ∧
    swappingRow.reduce 7 ["y"] swappingScope =
      .ok (app [var "y", lit 1, fn "w" (var "w"), var "y"])) ∧
    swappingNested.reduce 6 ["y"] swappingScope = .error .depthExceeded := by
  have hscope (x : String) (v : Term) (hfind : swappingScope.find? x = some v) :
      v.BuiltinFree := by
    rw [swappingScope, Scope.find?_root, Frame.find?_set] at hfind
    split at hfind
    · cases hfind
      exact ⟨trivial, trivial, trivial⟩
    · cases hfind
  have has : ∀ a ∈ [lit 1, var "y"], a.BuiltinFree := by simp [BuiltinFree]
  have hrow : swappingRow.reduce 6 ["y"] swappingScope =
      .ok (app [var "y", lit 1, fn "w" (var "w"), var "y"]) := by cbv
  obtain ⟨toRow, toNested⟩ := application_left_associative ["y"] _ (var "k") [lit 1, var "y"]
    [fn "w" (var "w"), var "y"] trivial has hscope
  have hnested := toNested 6 _ hrow
  exact ⟨hscope, ⟨hrow, hnested, toRow 7 _ hnested⟩, by cbv⟩

end LambdaInt.Term
