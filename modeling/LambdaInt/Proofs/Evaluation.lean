import LambdaInt.Reduction
import LambdaInt.Term.Shape
import LambdaInt.Proofs.Arithmetic
import Mathlib.Data.List.Forall2

/-!
What a reduction that succeeds has done. The equations of `reduce` are turned round here once, so
that later proofs go by cases on the term and by induction on the arguments taken; nothing after
this module unfolds `reduce` or `applyTo`. `Keeps` packs the induction for properties of values.
-/

namespace LambdaInt

theorem Except.bind_eq_ok_iff {ε α β : Type} {x : Except ε α} {f : α → Except ε β} {b : β} :
    x.bind f = .ok b ↔ ∃ a, x = .ok a ∧ f a = .ok b := by
  cases x with
  | error e => simp [Except.bind]
  | ok a => simp [Except.bind]

theorem Except.bind_eq_error_iff {ε α β : Type} {x : Except ε α} {f : α → Except ε β} {e : ε} :
    x.bind f = .error e ↔ x = .error e ∨ ∃ a, x = .ok a ∧ f a = .error e := by
  cases x with
  | error e => simp [Except.bind]
  | ok a => simp [Except.bind]

theorem Except.mapM_cons {ε α β : Type} (f : α → Except ε β) (a : α) (as : List α) :
    (a :: as).mapM f = (f a).bind fun b => (as.mapM f).bind fun bs => .ok (b :: bs) :=
  List.mapM_cons

theorem Except.mapM_congr {ε α β : Type} {f g : α → Except ε β} {as : List α}
    (h : ∀ a ∈ as, f a = g a) : as.mapM f = as.mapM g := by
  induction as with
  | nil => rfl
  | cons a as ih =>
      obtain ⟨ha, has⟩ := List.forall_mem_cons.1 h
      rw [mapM_cons, mapM_cons, ha, ih has]

theorem Except.mapM_eq_ok_iff {ε α β : Type} {f : α → Except ε β} {as : List α} {bs : List β} :
    as.mapM f = .ok bs ↔ List.Forall₂ (fun a b => f a = .ok b) as bs := by
  induction as generalizing bs with
  | nil => simp [pure, Except.pure, eq_comm]
  | cons a as ih =>
      rw [Except.mapM_cons, Except.bind_eq_ok_iff]
      simp only [Except.bind_eq_ok_iff, ih, List.forall₂_cons_left_iff]
      constructor
      · rintro ⟨b, hb, bs', hbs, h⟩
        exact ⟨b, bs', hb, hbs, (Except.ok.inj h).symm⟩
      · rintro ⟨b, bs', hb, hbs, rfl⟩
        exact ⟨b, hb, bs', hbs, rfl⟩

/-- It fails at one member, and the members before it succeed. -/
theorem Except.mapM_eq_error_iff {ε α β : Type} {f : α → Except ε β} {as : List α} {e : ε} :
    as.mapM f = .error e ↔ ∃ before a after bs, as = before ++ a :: after ∧
      before.mapM f = .ok bs ∧ f a = .error e := by
  induction as with
  | nil =>
      constructor
      · intro h
        cases h
      · rintro ⟨before, a, after, bs, h, _⟩
        simp at h
  | cons a as ih =>
      rw [mapM_cons, bind_eq_error_iff]
      constructor
      · rintro (ha | ⟨b, hb, h⟩)
        · exact ⟨[], a, as, [], rfl, rfl, ha⟩
        · obtain has | ⟨bs, _, h⟩ := bind_eq_error_iff.1 h
          · obtain ⟨before, a', after, bs, rfl, hbefore, he⟩ := ih.1 has
            refine ⟨a :: before, a', after, b :: bs, rfl, ?_, he⟩
            rw [mapM_cons, hb, hbefore]
            rfl
          · cases h
      · rintro ⟨before, a', after, bs, heq, hbefore, he⟩
        cases before with
        | nil =>
            cases heq
            exact .inl he
        | cons b before =>
            cases heq
            rw [mapM_cons] at hbefore
            obtain ⟨c, hc, hbefore⟩ := bind_eq_ok_iff.1 hbefore
            obtain ⟨cs, hcs, _⟩ := bind_eq_ok_iff.1 hbefore
            have has := ih.2 ⟨before, a', after, cs, rfl, hcs, he⟩
            exact .inr ⟨c, hc, bind_eq_error_iff.2 (.inl has)⟩

theorem Except.mapM_eq_error {ε α β : Type} {f : α → Except ε β} {as : List α} {e : ε}
    (h : as.mapM f = .error e) : ∃ a ∈ as, f a = .error e := by
  obtain ⟨before, a, after, _, rfl, _, he⟩ := mapM_eq_error_iff.1 h
  exact ⟨a, List.mem_append_right _ List.mem_cons_self, he⟩

/-- A builtin that succeeds was given literals only, and the value is the literal that its rule
says. -/
theorem Builtin.apply_eq_ok_iff {op : Builtin} {args : List Term} {v : Term} :
    op.apply args = .ok v ↔ ∃ values value, Term.literals? args = some values ∧
      op.Yields values value ∧ v = .lit value := by
  simp only [Builtin.yields_iff]
  unfold Builtin.apply
  cases Term.literals? args with
  | none => simp
  | some values =>
      by_cases htakes : op.takes values.length = true
      · cases hvalue : op.value? values with
        | none => simp [htakes, hvalue]
        | some value => simp [htakes, hvalue, @eq_comm _ v]
      · simp [htakes]

namespace Term

theorem literals?_eq_some_iff {ts : List Term} {values : List Int64} :
    literals? ts = some values ↔ ts = values.map lit := by
  induction ts generalizing values with
  | nil => cases values <;> simp [literals?]
  | cons t ts ih =>
      cases values with
      | nil => cases t <;> simp [literals?]
      | cons n values => cases t <;> simp [literals?, ih, and_comm]

theorem isClosed_iff {t : Term} : t.isClosed = true ↔ t.freeVars = [] := by
  simp [isClosed]

/-- The successful applications of a reduced head to reduced arguments. -/
inductive Applies (beta : String → Term → Term → Except RuntimeError Term) :
    Term → List Term → Term → Prop
  | done (head : Term) : Applies beta head [] head
  | beta {p : String} {b a u r : Term} {args : List Term} (body : beta p b a = .ok u)
      (rest : Applies beta u args r) : Applies beta (fn p b) (a :: args) r
  | call {op : Builtin} {args : List Term} {v : Term} (ne : args ≠ [])
      (closed : ∀ a ∈ args, a.freeVars = []) (result : op.apply args = .ok v) :
      Applies beta (builtin op) args v
  | wait {head : Term} {args : List Term} (waits : Waits head args) :
      Applies beta head args (app (head :: args))
  | extend {terms args : List Term} (ne : args ≠ []) :
      Applies beta (app terms) args (app (terms ++ args))

section
variable {beta : String → Term → Term → Except RuntimeError Term}

theorem applyTo_nil (head : Term) : applyTo beta head [] = .ok head := by
  cases head <;> rfl

theorem applyTo_fn (p : String) (b a : Term) (args : List Term) :
    applyTo beta (fn p b) (a :: args) = (beta p b a).bind fun u => applyTo beta u args :=
  rfl

theorem applyTo_builtin (op : Builtin) {args : List Term} (ne : args ≠ []) :
    applyTo beta (builtin op) args =
      if args.all isClosed then op.apply args else .ok (app (builtin op :: args)) := by
  cases args with
  | nil => exact absurd rfl ne
  | cons a args => rfl

theorem applyTo_app (terms : List Term) {args : List Term} (ne : args ≠ []) :
    applyTo beta (app terms) args = .ok (app (terms ++ args)) := by
  cases args with
  | nil => exact absurd rfl ne
  | cons a args => rfl

theorem applyTo_of_waits {head : Term} {args : List Term} (h : Waits head args) :
    applyTo beta head args = .ok (app (head :: args)) := by
  cases head with
  | var x =>
      cases args with
      | nil => exact absurd rfl h.ne_nil
      | cons a args => rfl
  | builtin op =>
      rw [applyTo_builtin op h.ne_nil, if_neg]
      obtain ⟨arg, harg, hfree⟩ := h
      exact fun hall => hfree (isClosed_iff.1 (List.all_eq_true.1 hall arg harg))
  | _ => exact h.elim

theorem applies_of_applyTo {head : Term} {args : List Term} {r : Term}
    (h : applyTo beta head args = .ok r) : Applies beta head args r := by
  induction args generalizing head with
  | nil =>
      rw [applyTo_nil] at h
      cases h
      exact .done _
  | cons a args ih =>
      have ne : a :: args ≠ [] := List.cons_ne_nil a args
      cases head with
      | var x =>
          cases h
          exact Applies.wait (show Waits (var x) (a :: args) from ne)
      | lit n => cases h
      | builtin op =>
          rw [applyTo_builtin op ne] at h
          by_cases hall : (a :: args).all isClosed = true
          · rw [if_pos hall] at h
            exact .call ne (fun b hb => isClosed_iff.1 (List.all_eq_true.1 hall b hb)) h
          · rw [if_neg hall] at h
            cases h
            obtain ⟨b, hb, hopen⟩ := List.all_eq_false.1 (Bool.not_eq_true _ ▸ hall)
            exact .wait ⟨b, hb, fun hfree => hopen (isClosed_iff.2 hfree)⟩
      | fn p b =>
          rw [applyTo_fn] at h
          obtain ⟨u, hu, hrest⟩ := Except.bind_eq_ok_iff.1 h
          exact .beta hu (ih hrest)
      | app terms =>
          cases h
          exact .extend ne

end

theorem not_mem_of_renameApart {used : List String} {p q : String} {b c : Term}
    (h : renameApart used p b = (q, c)) : q ∉ used := by
  have hfst := fst_renameApart_not_mem used p b
  rwa [h] at hfst

theorem reduce_fn_of_renameApart {depth : Nat} {used : List String} {scope : Scope}
    {p q : String} {b c : Term} (h : renameApart used p b = (q, c)) :
    reduce (depth + 1) used scope (fn p b) =
      (reduce depth (q :: used) (scope.child.set q (var q)) c).map (fn q) := by
  rw [reduce_fn, h]

theorem betaBy_of_renameApart {reduceIn : Scope → Term → Except RuntimeError Term}
    {used : List String} {scope : Scope} {p q : String} {b c : Term}
    (h : renameApart used p b = (q, c)) (a : Term) :
    betaBy reduceIn used scope p b a = reduceIn (scope.child.set q a) c := by
  rw [betaBy, h]

section
variable {depth : Nat} {used : List String} {scope : Scope}

theorem reduce_fn_eq_ok {p q : String} {b c r : Term} (hqc : renameApart used p b = (q, c))
    (h : reduce (depth + 1) used scope (fn p b) = .ok r) :
    ∃ r', reduce depth (q :: used) (scope.child.set q (var q)) c = .ok r' ∧ r = fn q r' := by
  rw [reduce_fn_of_renameApart hqc] at h
  cases hbody : reduce depth (q :: used) (scope.child.set q (var q)) c with
  | error e =>
      rw [hbody] at h
      cases h
  | ok r' =>
      rw [hbody] at h
      exact ⟨r', rfl, (Except.ok.inj h).symm⟩

theorem reduce_fn_eq_error {p q : String} {b c : Term} {e : RuntimeError}
    (hqc : renameApart used p b = (q, c)) (h : reduce (depth + 1) used scope (fn p b) = .error e) :
    reduce depth (q :: used) (scope.child.set q (var q)) c = .error e := by
  rw [reduce_fn_of_renameApart hqc] at h
  cases hbody : reduce depth (q :: used) (scope.child.set q (var q)) c with
  | error e' =>
      rw [hbody] at h
      exact h
  | ok r =>
      rw [hbody] at h
      cases h

theorem reduce_app_eq_ok_iff {head r : Term} {args : List Term} :
    reduce (depth + 1) used scope (app (head :: args)) = .ok r ↔
      ∃ head' args', reduce depth used scope head = .ok head' ∧
        args.mapM (reduce depth used scope) = .ok args' ∧
        applyTo (betaBy (reduce depth used) used scope) head' args' = .ok r := by
  rw [reduce_app_cons]
  simp only [Except.bind_eq_ok_iff, exists_and_left]

/-- An application fails in a member or when the reduced members are applied. -/
theorem reduce_app_eq_error_iff {head : Term} {args : List Term} {e : RuntimeError} :
    reduce (depth + 1) used scope (app (head :: args)) = .error e ↔
      (head :: args).mapM (reduce depth used scope) = .error e ∨
      ∃ head' args', reduce depth used scope head = .ok head' ∧
        args.mapM (reduce depth used scope) = .ok args' ∧
        applyTo (betaBy (reduce depth used) used scope) head' args' = .error e := by
  rw [reduce_app_cons, Except.mapM_cons]
  cases head.reduce depth used scope with
  | error e' => simp [Except.bind]
  | ok head' => cases args.mapM (reduce depth used scope) <;> simp [Except.bind]

theorem reduce_app_eq_ok {head r : Term} {args : List Term}
    (h : reduce (depth + 1) used scope (app (head :: args)) = .ok r) :
    ∃ head' args', reduce depth used scope head = .ok head' ∧
      List.Forall₂ (fun t u => reduce depth used scope t = .ok u) args args' ∧
      Applies (betaBy (reduce depth used) used scope) head' args' r := by
  obtain ⟨head', args', hhead, hargs, happly⟩ := reduce_app_eq_ok_iff.1 h
  exact ⟨head', args', hhead, Except.mapM_eq_ok_iff.1 hargs, applies_of_applyTo happly⟩

/-- A variable that has a value stands for itself or for a value that is found. -/
theorem reduce_var_eq_ok {x : String} {r : Term}
    (h : reduce (depth + 1) used scope (var x) = .ok r) :
    x ∈ used ∧ r = var x ∨
      x ∉ used ∧ ∃ value, scope.find? x = some value ∧ reduce depth used scope value = .ok r := by
  by_cases hx : x ∈ used
  · rw [reduce_var_of_mem hx] at h
    exact .inl ⟨hx, (Except.ok.inj h).symm⟩
  · cases hfind : scope.find? x with
    | none =>
        rw [reduce_var_of_unbound hx hfind] at h
        cases h
    | some value =>
        rw [reduce_var_of_find? hx hfind] at h
        exact .inr ⟨hx, value, rfl, h⟩

end

theorem exists_mem_of_forall₂ {α β : Type} {R : α → β → Prop} {as : List α} {bs : List β}
    (h : List.Forall₂ R as bs) {b : β} (hb : b ∈ bs) : ∃ a ∈ as, R a b := by
  induction h with
  | nil => cases hb
  | cons hab _ ih =>
      obtain rfl | hb := List.mem_cons.1 hb
      · exact ⟨_, List.mem_cons_self, hab⟩
      · obtain ⟨a, ha, hR⟩ := ih hb
        exact ⟨a, List.mem_cons_of_mem _ ha, hR⟩

/-- Reduction of terms with `Pre` gives values with `Post`, as far as one step can tell: `Pre`
passes to all that is reduced on the way, and `Post` to what is put together from values. -/
structure Keeps (Pre : List String → Scope → Term → Prop) (Post : List String → Term → Prop) :
    Prop where
  body {used : List String} {scope : Scope} {p q : String} {b c : Term} :
    renameApart used p b = (q, c) → Pre used scope (fn p b) →
      Pre (q :: used) (scope.child.set q (var q)) c
  member {used : List String} {scope : Scope} {ts : List Term} {t : Term} :
    Pre used scope (app ts) → t ∈ ts → Pre used scope t
  value {used : List String} {scope : Scope} {x : String} {v : Term} :
    Pre used scope (var x) → x ∉ used → scope.find? x = some v → Pre used scope v
  argument {used : List String} {scope : Scope} {ts : List Term} {p q : String} {a b c : Term} :
    renameApart used p b = (q, c) → Pre used scope (app ts) → Post used (fn p b) → Post used a →
      Pre used (scope.child.set q a) c
  var {used : List String} {scope : Scope} {x : String} :
    Pre used scope (var x) → x ∈ used → Post used (var x)
  lit {used : List String} {scope : Scope} {n : Int64} : Pre used scope (lit n) → Post used (lit n)
  builtin {used : List String} {scope : Scope} {op : Builtin} :
    Pre used scope (builtin op) → Post used (builtin op)
  fn {used : List String} {scope : Scope} {q : String} {c r : Term} :
    Pre (q :: used) (scope.child.set q (Term.var q)) c → q ∉ used → Post (q :: used) r →
      Post used (fn q r)
  nil {used : List String} {scope : Scope} : Pre used scope (app []) → Post used (app [])
  call {used : List String} {op : Builtin} {values : List Int64} {value : Int64} :
    (∀ n ∈ values, Post used (.lit n)) → op.Yields values value → Post used (.lit value)
  wait {used : List String} {head : Term} {args : List Term} :
    Waits head args → Post used head → (∀ a ∈ args, Post used a) → Post used (app (head :: args))
  extend {used : List String} {terms args : List Term} :
    Post used (app terms) → (∀ a ∈ args, Post used a) → Post used (app (terms ++ args))

namespace Keeps
variable {Pre : List String → Scope → Term → Prop} {Post : List String → Term → Prop}

/-- The arguments are taken one after the other; what one takes over from the one before is a
value again. -/
theorem applies (keeps : Keeps Pre Post) {depth : Nat} {used : List String} {scope : Scope}
    {ts : List Term} (hpre : Pre used scope (app ts))
    (ih : ∀ {scope t r}, reduce depth used scope t = .ok r → Pre used scope t → Post used r)
    {head r : Term} {args : List Term}
    (h : Applies (betaBy (reduce depth used) used scope) head args r)
    (hhead : Post used head) (hargs : ∀ a ∈ args, Post used a) : Post used r := by
  induction h with
  | done _ => exact hhead
  | @beta p b a u r args body _ ihrest =>
      cases hqc : renameApart used p b with
      | mk q c =>
          rw [betaBy_of_renameApart hqc] at body
          have hu := ih body (keeps.argument hqc hpre hhead (hargs a List.mem_cons_self))
          exact ihrest hu fun a ha => hargs a (List.mem_cons_of_mem _ ha)
  | call _ _ result =>
      obtain ⟨values, value, hliterals, yields, rfl⟩ := Builtin.apply_eq_ok_iff.1 result
      rw [literals?_eq_some_iff.1 hliterals] at hargs
      exact keeps.call (fun n hn => hargs _ (List.mem_map_of_mem hn)) yields
  | wait waits => exact keeps.wait waits hhead hargs
  | extend _ => exact keeps.extend hhead hargs

theorem reduce (keeps : Keeps Pre Post) {depth : Nat} {used : List String} {scope : Scope}
    {t r : Term} (h : t.reduce depth used scope = .ok r) (hpre : Pre used scope t) :
    Post used r := by
  induction depth generalizing used scope t r with
  | zero => cases h
  | succ depth ih =>
      cases t with
      | var x =>
          obtain ⟨hx, rfl⟩ | ⟨hx, value, hfind, hvalue⟩ := reduce_var_eq_ok h
          · exact keeps.var hpre hx
          · exact ih hvalue (keeps.value hpre hx hfind)
      | lit n =>
          cases h
          exact keeps.lit hpre
      | builtin op =>
          cases h
          exact keeps.builtin hpre
      | fn p b =>
          cases hqc : renameApart used p b with
          | mk q c =>
              obtain ⟨r', hr', rfl⟩ := reduce_fn_eq_ok hqc h
              have hbody := keeps.body hqc hpre
              exact keeps.fn hbody (not_mem_of_renameApart hqc) (ih hr' hbody)
      | app ts =>
          cases ts with
          | nil =>
              cases h
              exact keeps.nil hpre
          | cons head args =>
              obtain ⟨head', args', hhead, hargs, happ⟩ := reduce_app_eq_ok h
              refine keeps.applies hpre ih happ (ih hhead (keeps.member hpre List.mem_cons_self)) ?_
              intro a ha
              obtain ⟨t, ht, hred⟩ := exists_mem_of_forall₂ hargs ha
              exact ih hred (keeps.member hpre (List.mem_cons_of_mem _ ht))

end Keeps
end Term
end LambdaInt
