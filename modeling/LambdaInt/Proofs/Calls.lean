import LambdaInt.Proofs.Evaluation
import LambdaInt.Proofs.Sessions

/-!
Calls of builtins. `Calls` follows a reduction as far as it gets and says which builtin it calls on
which arguments. It leaves out none: reduction fails by misuse or overflow of a builtin exactly when
a call of that builtin fails so. What reduction keeps of all values it keeps of the arguments too.
-/

namespace LambdaInt

/-- The failures that a builtin itself brings about. -/
def Builtin.Causes (op : Builtin) (e : RuntimeError) : Prop :=
  e = .builtinMisuse op ∨ e = .integerOverflow op

namespace Builtin

theorem causes_of_apply {op : Builtin} {args : List Term} {e : RuntimeError}
    (h : op.apply args = .error e) : op.Causes e := by
  unfold Builtin.apply at h
  split at h
  · exact .inl (Except.error.inj h).symm
  · split at h
    · split at h
      · cases h
      · exact .inr (Except.error.inj h).symm
    · exact .inl (Except.error.inj h).symm

theorem Causes.inj {op op' : Builtin} {e : RuntimeError} (h : op.Causes e) (h' : op'.Causes e) :
    op = op' := by
  obtain rfl | rfl := h <;> obtain h | h := h' <;> cases h <;> rfl

end Builtin

namespace Term

mutual

/-- Reducing the term calls the builtin on the arguments, whatever becomes of it afterwards. -/
inductive Calls (op : Builtin) (args : List Term) : Nat → List String → Scope → Term → Prop
  | body {depth : Nat} {used : List String} {scope : Scope} {p q : String} {b c : Term}
      (apart : renameApart used p b = (q, c))
      (calls : Calls op args depth (q :: used) (scope.child.set q (var q)) c) :
      Calls op args (depth + 1) used scope (fn p b)
  | value {depth : Nat} {used : List String} {scope : Scope} {x : String} {v : Term}
      (notUsed : x ∉ used) (found : scope.find? x = some v) (calls : Calls op args depth used scope v) :
      Calls op args (depth + 1) used scope (var x)
  | member {depth : Nat} {used : List String} {scope : Scope} {before after values : List Term}
      {t : Term} (reduced : before.mapM (reduce depth used scope) = .ok values)
      (calls : Calls op args depth used scope t) :
      Calls op args (depth + 1) used scope (app (before ++ t :: after))
  | applied {depth : Nat} {used : List String} {scope : Scope} {head head' : Term}
      {terms terms' : List Term} (head_reduced : head.reduce depth used scope = .ok head')
      (reduced : terms.mapM (reduce depth used scope) = .ok terms')
      (calls : CallsApplied op args depth used scope head' terms') :
      Calls op args (depth + 1) used scope (app (head :: terms))

/-- Applying the reduced head to the reduced terms calls the builtin on the arguments. -/
inductive CallsApplied (op : Builtin) (args : List Term) :
    Nat → List String → Scope → Term → List Term → Prop
  | here {depth : Nat} {used : List String} {scope : Scope} (ne : args ≠ [])
      (closed : ∀ a ∈ args, a.freeVars = []) : CallsApplied op args depth used scope (builtin op) args
  | body {depth : Nat} {used : List String} {scope : Scope} {p q : String} {a b c : Term}
      {terms : List Term} (apart : renameApart used p b = (q, c))
      (calls : Calls op args depth used (scope.child.set q a) c) :
      CallsApplied op args depth used scope (fn p b) (a :: terms)
  | rest {depth : Nat} {used : List String} {scope : Scope} {p : String} {a b u : Term}
      {terms : List Term} (reduced : betaBy (reduce depth used) used scope p b a = .ok u)
      (calls : CallsApplied op args depth used scope u terms) :
      CallsApplied op args depth used scope (fn p b) (a :: terms)

end

theorem applyTo_builtin_of_closed {beta : String → Term → Term → Except RuntimeError Term}
    (op : Builtin) {args : List Term} (ne : args ≠ []) (closed : ∀ a ∈ args, a.freeVars = []) :
    applyTo beta (builtin op) args = op.apply args := by
  rw [applyTo_builtin op ne, if_pos]
  exact List.all_eq_true.2 fun a ha => isClosed_iff.2 (closed a ha)

section
variable {op : Builtin} {args : List Term} {e : RuntimeError}

mutual

/-- A call that fails makes the whole reduction fail. -/
theorem Calls.reduce_eq_error (failure : op.apply args = .error e) : ∀ {depth used scope t},
    Calls op args depth used scope t → t.reduce depth used scope = .error e
  | _, _, _, _, .body apart calls => by
      rw [reduce_fn_of_renameApart apart, calls.reduce_eq_error failure]
      rfl
  | _, _, _, _, .value notUsed found calls => by
      rw [reduce_var_of_find? notUsed found, calls.reduce_eq_error failure]
  | _, _, _, _, @Calls.member _ _ _ _ _ before after values t reduced calls => by
      have hmembers := Except.mapM_eq_error_iff.2
        ⟨before, t, after, values, rfl, reduced, calls.reduce_eq_error failure⟩
      cases before with
      | nil => exact reduce_app_eq_error_iff.2 (.inl hmembers)
      | cons head before => exact reduce_app_eq_error_iff.2 (.inl hmembers)
  | _, _, _, _, .applied head_reduced reduced calls =>
      reduce_app_eq_error_iff.2 (.inr ⟨_, _, head_reduced, reduced, calls.applyTo_eq_error failure⟩)

theorem CallsApplied.applyTo_eq_error (failure : op.apply args = .error e) :
    ∀ {depth used scope head terms}, CallsApplied op args depth used scope head terms →
      applyTo (betaBy (reduce depth used) used scope) head terms = .error e
  | _, _, _, _, _, .here ne closed => by rw [applyTo_builtin_of_closed op ne closed, failure]
  | _, _, _, _, _, .body apart calls => by
      rw [applyTo_fn, betaBy_of_renameApart apart, calls.reduce_eq_error failure]
      rfl
  | _, _, _, _, _, .rest reduced calls => by
      rw [applyTo_fn, reduced]
      exact calls.applyTo_eq_error failure

end

end

section
variable {depth : Nat} {op : Builtin} {e : RuntimeError} (causes : op.Causes e)

/-- Failures that the builtin causes at this depth come from a call of it. -/
def CalledAt (op : Builtin) (e : RuntimeError) (depth : Nat) : Prop :=
  ∀ {used : List String} {scope : Scope} {t : Term}, t.reduce depth used scope = .error e →
    ∃ args, Calls op args depth used scope t ∧ op.apply args = .error e

include causes

theorem CalledAt.applied (called : CalledAt op e depth) {used : List String} {scope : Scope}
    {head : Term} {terms : List Term}
    (h : applyTo (betaBy (reduce depth used) used scope) head terms = .error e) :
    ∃ args, CallsApplied op args depth used scope head terms ∧ op.apply args = .error e := by
  induction terms generalizing head with
  | nil =>
      rw [applyTo_nil] at h
      cases h
  | cons a terms ih =>
      have ne : a :: terms ≠ [] := List.cons_ne_nil a terms
      cases head with
      | var x => cases h
      | lit n =>
          cases h
          obtain h | h := causes <;> cases h
      | builtin op' =>
          rw [applyTo_builtin op' ne] at h
          split at h
          · rename_i hall
            obtain rfl := causes.inj (Builtin.causes_of_apply h)
            have closed : ∀ b ∈ a :: terms, b.freeVars = [] :=
              fun b hb => isClosed_iff.1 (List.all_eq_true.1 hall b hb)
            exact ⟨_, .here ne closed, h⟩
          · cases h
      | fn p b =>
          rw [applyTo_fn] at h
          obtain hbody | ⟨u, hbody, h⟩ := Except.bind_eq_error_iff.1 h
          · cases hqc : renameApart used p b with
            | mk q c =>
                rw [betaBy_of_renameApart hqc] at hbody
                obtain ⟨args, calls, failure⟩ := called hbody
                exact ⟨args, .body hqc calls, failure⟩
          · obtain ⟨args, calls, failure⟩ := ih h
            exact ⟨args, .rest hbody calls, failure⟩
      | app terms' =>
          rw [applyTo_app terms' ne] at h
          cases h

theorem calledAt (depth : Nat) : CalledAt op e depth := by
  induction depth with
  | zero =>
      intro used scope t h
      cases h
      obtain h | h := causes <;> cases h
  | succ depth ih =>
      intro used scope t h
      cases t with
      | lit _ | builtin _ => cases h
      | var x =>
          by_cases hx : x ∈ used
          · rw [reduce_var_of_mem hx] at h
            cases h
          · cases hfind : scope.find? x with
            | none =>
                rw [reduce_var_of_unbound hx hfind] at h
                cases h
                obtain h | h := causes <;> cases h
            | some v =>
                rw [reduce_var_of_find? hx hfind] at h
                obtain ⟨args, calls, failure⟩ := ih h
                exact ⟨args, .value hx hfind calls, failure⟩
      | fn p b =>
          cases hqc : renameApart used p b with
          | mk q c =>
              obtain ⟨args, calls, failure⟩ := ih (reduce_fn_eq_error hqc h)
              exact ⟨args, .body hqc calls, failure⟩
      | app ts =>
          cases ts with
          | nil => cases h
          | cons head terms =>
              obtain hmembers | ⟨head', terms', hhead, hterms, happly⟩ :=
                reduce_app_eq_error_iff.1 h
              · obtain ⟨before, t, after, values, heq, hbefore, ht⟩ :=
                  Except.mapM_eq_error_iff.1 hmembers
                obtain ⟨args, calls, failure⟩ := ih ht
                rw [heq]
                exact ⟨args, .member hbefore calls, failure⟩
              · obtain ⟨args, calls, failure⟩ := CalledAt.applied causes ih happly
                exact ⟨args, .applied hhead hterms calls, failure⟩

/-- Reduction fails by a builtin exactly when it calls the builtin with arguments that make it
fail. -/
theorem reduce_eq_error_iff_calls {used : List String} {scope : Scope} {t : Term} :
    t.reduce depth used scope = .error e ↔
      ∃ args, Calls op args depth used scope t ∧ op.apply args = .error e := by
  constructor
  · exact fun h => calledAt causes depth h
  · rintro ⟨args, calls, failure⟩
    exact calls.reduce_eq_error failure

end

section
variable {Pre : List String → Scope → Term → Prop} {Post : Term → Prop}
  (keeps : Keeps Pre fun _ => Post) {op : Builtin} {args : List Term}
include keeps

mutual

/-- The arguments of a call are values like any other. -/
theorem Calls.args_keep : ∀ {depth used scope t}, Calls op args depth used scope t →
    Pre used scope t → ∀ a ∈ args, Post a
  | _, _, _, _, .body apart calls, hpre => calls.args_keep (keeps.body apart hpre)
  | _, _, _, _, .value notUsed found calls, hpre =>
      calls.args_keep (keeps.value hpre notUsed found)
  | _, _, _, _, .member _ calls, hpre =>
      calls.args_keep (keeps.member hpre (List.mem_append_right _ List.mem_cons_self))
  | _, _, _, _, .applied head_reduced reduced calls, hpre => by
      refine calls.args_keep hpre (keeps.reduce head_reduced (keeps.member hpre List.mem_cons_self)) ?_
      intro a ha
      obtain ⟨t, ht, hred⟩ := exists_mem_of_forall₂ (Except.mapM_eq_ok_iff.1 reduced) ha
      exact keeps.reduce hred (keeps.member hpre (List.mem_cons_of_mem _ ht))

theorem CallsApplied.args_keep : ∀ {depth used scope head terms},
    CallsApplied op args depth used scope head terms → ∀ {ts}, Pre used scope (app ts) →
      Post head → (∀ a ∈ terms, Post a) → ∀ a ∈ args, Post a
  | _, _, _, _, _, .here _ _, _, _, _, hterms => hterms
  | _, _, _, _, _, .body apart calls, _, hpre, hhead, hterms =>
      calls.args_keep (keeps.argument apart hpre hhead (hterms _ List.mem_cons_self))
  | _, _, _, _, _, @CallsApplied.rest _ _ _ _ _ p a b _ _ reduced calls, _, hpre, hhead, hterms => by
      obtain ⟨ha, hterms⟩ := List.forall_mem_cons.1 hterms
      cases hqc : renameApart _ p b with
      | mk q c =>
          rw [betaBy_of_renameApart hqc] at reduced
          exact calls.args_keep hpre (keeps.reduce reduced (keeps.argument hqc hpre hhead ha)) hterms

end

end

end Term

/-- Running the lines one after the other, the session calls the builtin on the arguments. -/
inductive Session.Calls (op : Builtin) (args : List Term) : Session → List String → Prop
  | here {session : Session} {line : String} {lines : List String} {statement : Statement}
      (read : Statement.ofText line = .ok statement)
      (calls : statement.term.Calls op args session.maxDepth [] (.root session.bindings)) :
      Session.Calls op args session (line :: lines)
  | later {session : Session} {line : String} {lines : List String}
      (calls : Session.Calls op args (session.runLine line).2 lines) :
      Session.Calls op args session (line :: lines)

end LambdaInt
