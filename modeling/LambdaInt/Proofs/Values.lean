import LambdaInt.Proofs.Readings
import LambdaInt.Proofs.Restoring
import LambdaInt.Proofs.Sessions

/-!
Values and the steps that are left in them: none. Every application in a value waits for a free
variable, at whatever depth it stands, so the nameless term makes no step, and reducing the value
once more gives it back. A session answers and binds closed values only, in which nothing can wait.
-/

namespace LambdaInt

namespace Nameless

theorem Normal.member {t : Nameless} {ts : List Nameless} (h : (app ts).Normal) (ht : t ∈ ts) :
    t.Normal := by
  cases ts with
  | nil => exact h.elim
  | cons head args =>
      obtain ⟨hwaits, hargs⟩ := normal_app_cons.1 h
      cases ht with
      | head => exact hwaits.normal
      | tail _ ht => exact hargs t ht

/-- A normal form makes no step, at no place. -/
theorem Normal.not_step {t u : Nameless} (h : t.Normal) : ¬ Step t u := by
  intro step
  induction step with
  | beta body arg args => exact (normal_app_cons.1 h).1
  | delta _ => exact not_waits_literals _ _ (normal_app_cons.1 h).1
  | merge terms args => exact (normal_app_cons.1 h).1
  | body _ ih => exact ih h
  | member before after _ ih =>
      exact ih (h.member (List.mem_append_right before List.mem_cons_self))

end Nameless

namespace Term

mutual

/-- The terms inside a term, at any depth, and the term itself. -/
def parts : Term → List Term
  | var x => [var x]
  | lit n => [lit n]
  | builtin op => [builtin op]
  | fn p b => fn p b :: parts b
  | app ts => app ts :: partsAll ts

def partsAll : List Term → List Term
  | [] => []
  | t :: ts => parts t ++ partsAll ts

end

theorem partsAll_eq_flatMap (ts : List Term) : partsAll ts = ts.flatMap parts := by
  induction ts with
  | nil => rfl
  | cons t ts ih => simp [partsAll, ih]

theorem mem_parts_app {t : Term} {ts : List Term} :
    t ∈ (app ts).parts ↔ t = app ts ∨ ∃ u ∈ ts, t ∈ u.parts := by
  simp [parts, partsAll_eq_flatMap]

/-- What `Normal` says of an application, it says of every application inside. -/
theorem normal_iff_parts {t : Term} :
    t.Normal ↔ ∀ ts, app ts ∈ t.parts → ∃ head args, ts = head :: args ∧ Waits head args := by
  induction t with
  | var _ | lit _ | builtin _ => simp [Normal, parts]
  | fn p b ih =>
      rw [Normal, ih]
      simp [parts]
  | app ts ih =>
      constructor
      · intro h us hus
        obtain ⟨head, args, rfl, hwaits, hargs⟩ := h.exists_waits
        obtain heq | ⟨t, ht, hus⟩ := mem_parts_app.1 hus
        · exact ⟨head, args, app.inj heq, hwaits⟩
        · have hmembers : ∀ t ∈ head :: args, t.Normal :=
            List.forall_mem_cons.2 ⟨hwaits.normal, hargs⟩
          exact (ih t ht).1 (hmembers t ht) us hus
      · intro h
        obtain ⟨head, args, rfl, hwaits⟩ := h ts (mem_parts_app.2 (.inl rfl))
        refine normal_app_cons.2 ⟨hwaits, fun t ht => ?_⟩
        have hmem : t ∈ head :: args := List.mem_cons_of_mem head ht
        exact (ih t hmem).2 fun us hus => h us (mem_parts_app.2 (.inr ⟨t, hmem, hus⟩))

/-- What a session can answer: a function, an integer or a builtin by itself. -/
def IsAnswer : Term → Prop
  | fn _ _ | lit _ | builtin _ => True
  | var _ | app _ => False

theorem Waits.freeVars_ne_nil {head : Term} {args : List Term} (h : Waits head args) :
    (app (head :: args)).freeVars ≠ [] := by
  cases head with
  | var x =>
      have hx : x ∈ (app (var x :: args)).freeVars :=
        mem_freeVars_app.2 ⟨var x, List.mem_cons_self, List.mem_cons_self⟩
      exact List.ne_nil_of_mem hx
  | builtin op =>
      obtain ⟨arg, harg, hfree⟩ := h
      obtain ⟨x, hx⟩ := List.exists_mem_of_ne_nil _ hfree
      exact List.ne_nil_of_mem (mem_freeVars_app.2 ⟨arg, List.mem_cons_of_mem _ harg, hx⟩)
  | _ => exact h.elim

/-- Without free variables there is nothing to wait for. -/
theorem Value.isAnswer {v : Term} (h : Value [] v) : v.IsAnswer := by
  have hclosed : v.freeVars = [] :=
    List.eq_nil_iff_forall_not_mem.2 fun x hx => List.not_mem_nil (h.inScope x hx)
  cases v with
  | fn _ _ | lit _ | builtin _ => trivial
  | var x => cases hclosed
  | app ts =>
      obtain ⟨head, args, rfl, hwaits, _⟩ := h.normal.exists_waits
      exact absurd hclosed hwaits.freeVars_ne_nil

end Term

open Term

namespace Session

/-- All bindings of the session are values. -/
def Reduced (session : Session) : Prop :=
  ∀ x v, session.bindings.find? x = some v → Value [] v

theorem reduced_start (depth : Nat) : (start depth).Reduced := by
  intro x v h
  cases h

theorem Reduced.evaluate (session : Session) (statement : Statement) (h : session.Reduced)
    (hs : statement.term.WellFormed) : (session.evaluate statement).2.Reduced ∧
      ∀ v, (session.evaluate statement).1 = .ok v → Value [] v := by
  have hscope : (Scope.root session.bindings).All (Value []) := by
    intro x v hfind
    rw [Scope.find?_root] at hfind
    exact h x v hfind
  exact evaluate_keeps (fun v hv => value_of_reduce hv hs hscope) (fun _ _ _ _ hv => hv) h

theorem reduced_evaluateAll (depth : Nat) {statements : List Statement}
    (h : ∀ s ∈ statements, s.term.WellFormed) :
    ((start depth).evaluateAll statements).2.Reduced ∧
      ∀ v, .ok v ∈ ((start depth).evaluateAll statements).1 → Value [] v :=
  evaluateAll_keeps Reduced.evaluate (reduced_start depth) h

theorem wellFormed_of_ofText {line : String} {s : Statement} (h : Statement.ofText line = .ok s) :
    s.term.WellFormed :=
  (Statement.printable_of_ofText h).term.wellFormed

theorem reduced_runLines (depth : Nat) (lines : List String) :
    ((start depth).runLines lines).2.Reduced ∧
      ∀ v, .ok v ∈ ((start depth).runLines lines).1 → Value [] v :=
  runLines_keeps Reduced.evaluate (reduced_start depth) fun _ _ _ hs => wellFormed_of_ofText hs

end Session

/-- Values are normal forms: inside one, every application waits for a free variable, and no step
is left. What a session answers or binds is a function, an integer or a builtin by itself, never an
application that waits. -/
theorem values_normal :
    (∀ (depth : Nat) (used : List String) (scope : Scope) (t r : Term), t.WellFormed →
      (∀ x v, scope.find? x = some v → v.WellFormed) → t.reduce depth used scope = .ok r →
        (∀ ts, app ts ∈ r.parts →
          2 ≤ ts.length ∧ ∃ head args, ts = head :: args ∧ Waits head args) ∧
        ∀ u, ¬ Nameless.Step (r.nameless []) u) ∧
    (∀ (depth : Nat) (statements : List Statement), (∀ s ∈ statements, s.term.WellFormed) →
      (∀ v, .ok v ∈ ((Session.start depth).evaluateAll statements).1 → v.IsAnswer) ∧
      ∀ x v, ((Session.start depth).evaluateAll statements).2.bindings.find? x = some v →
        v.IsAnswer) ∧
    ∀ (depth : Nat) (lines : List String),
      (∀ v, .ok v ∈ ((Session.start depth).runLines lines).1 → v.IsAnswer) ∧
      ∀ x v, ((Session.start depth).runLines lines).2.bindings.find? x = some v → v.IsAnswer := by
  refine ⟨?_, ?_, ?_⟩
  · intro depth used scope t r ht hscope h
    have hnormal : r.Normal := normal_of_reduce h ht hscope
    constructor
    · intro ts hts
      obtain ⟨head, args, rfl, hwaits⟩ := normal_iff_parts.1 hnormal ts hts
      have hlen : 1 ≤ args.length := List.length_pos_iff.2 hwaits.ne_nil
      exact ⟨Nat.succ_le_succ hlen, head, args, rfl, hwaits⟩
    · intro u
      rw [nameless_eq_resolve, named_nil]
      exact (normal_resolve hnormal isVariable_free).not_step
  · intro depth statements h
    obtain ⟨hbindings, hvalues⟩ := Session.reduced_evaluateAll depth h
    exact ⟨fun v hv => (hvalues v hv).isAnswer, fun x v hv => (hbindings x v hv).isAnswer⟩
  · intro depth lines
    obtain ⟨hbindings, hvalues⟩ := Session.reduced_runLines depth lines
    exact ⟨fun v hv => (hvalues v hv).isAnswer, fun x v hv => (hbindings x v hv).isAnswer⟩

def waitingCallScope : Scope :=
  .root (Frame.empty.set "f" (fn "g" (app [var "g", var "y"])))

def waitingCall : Term :=
  app [app [var "f", builtin .plus], lit 1]

def builtinStatements : List Statement :=
  [.define "k" (fn "x" (var "x")), .evaluate (app [var "k", builtin .plus])]

/-- A call that waits for `y` takes one more argument in; a builtin without arguments is a value. -/
theorem values_normal_extended :
    (waitingCall.WellFormed ∧
      (∀ x v, waitingCallScope.find? x = some v → v.WellFormed) ∧
      waitingCall.reduce 9 ["y"] waitingCallScope =
        .ok (app [builtin .plus, var "y", lit 1]) ∧
      (∀ ts, app ts ∈ (app [builtin .plus, var "y", lit 1]).parts →
        2 ≤ ts.length ∧ ∃ head args, ts = head :: args ∧ Waits head args) ∧
      ∀ u, ¬ Nameless.Step ((app [builtin .plus, var "y", lit 1]).nameless []) u) ∧
    (∀ s ∈ builtinStatements, s.term.WellFormed) ∧
      .ok (builtin .plus) ∈ ((Session.start 9).evaluateAll builtinStatements).1 ∧
      (builtin .plus).IsAnswer := by
  have ht : waitingCall.WellFormed := by simp [waitingCall, WellFormed, WellFormedAll]
  have hscope : ∀ x v, waitingCallScope.find? x = some v → v.WellFormed := by
    intro x v hfind
    rw [waitingCallScope, Scope.find?_root, Frame.find?_set] at hfind
    split at hfind
    · cases hfind
      simp [WellFormed, WellFormedAll]
    · cases hfind
  have h : waitingCall.reduce 9 ["y"] waitingCallScope =
      .ok (app [builtin .plus, var "y", lit 1]) := by cbv
  have hstatements : ∀ s ∈ builtinStatements, s.term.WellFormed := by
    simp [builtinStatements, Statement.term, WellFormed, WellFormedAll]
  have hresults : ((Session.start 9).evaluateAll builtinStatements).1 =
      [.ok (fn "x" (var "x")), .ok (builtin .plus)] := by cbv
  have hv : .ok (builtin .plus) ∈ ((Session.start 9).evaluateAll builtinStatements).1 := by
    rw [hresults]
    exact .tail _ (.head _)
  exact ⟨⟨ht, hscope, h, values_normal.1 9 ["y"] _ _ _ ht hscope h⟩, hstatements, hv,
    (values_normal.2.1 9 _ hstatements).1 _ hv⟩

/-- A value is its own value wherever the same names are used, name for name: at the depth that gave
it and at every larger one, and whatever the scope binds. -/
theorem reduce_idempotent (depth : Nat) (used : List String) (scope : Scope) (t r : Term)
    (ht : t.WellFormed) (hscope : ∀ x v, scope.find? x = some v → v.WellFormed)
    (h : t.reduce depth used scope = .ok r) (depth' : Nat) (hdepth : depth ≤ depth')
    (scope' : Scope) : r.reduce depth' used scope' = .ok r := by
  have hnormal : r.Normal := normal_of_reduce h ht hscope
  have hheight : r.height ≤ depth' := Nat.le_trans (height_le_of_reduce h) hdepth
  exact hnormal.reduce_self (tidy_of_reduce h) hheight scope'

def keepingScope : Scope :=
  .root (Frame.empty.set "k" (fn "x" (fn "y" (var "x"))))

/-- The second scope binds both names of the value; no smaller depth gives the value. -/
theorem reduce_idempotent_rebound :
    (app [var "k", var "y"]).WellFormed ∧
      (∀ x v, keepingScope.find? x = some v → v.WellFormed) ∧
      (app [var "k", var "y"]).reduce 5 ["y"] keepingScope = .ok (fn "y'" (var "y")) ∧
      5 ≤ 5 ∧
      (fn "y'" (var "y")).reduce 5 ["y"]
        (.root ((Frame.empty.set "y" (lit 7)).set "y'" (lit 8))) = .ok (fn "y'" (var "y")) := by
  have ht : (app [var "k", var "y"]).WellFormed := by simp [WellFormed, WellFormedAll]
  have hscope : ∀ x v, keepingScope.find? x = some v → v.WellFormed := by
    intro x v hfind
    rw [keepingScope, Scope.find?_root, Frame.find?_set] at hfind
    split at hfind
    · cases hfind
      trivial
    · cases hfind
  have h : (app [var "k", var "y"]).reduce 5 ["y"] keepingScope = .ok (fn "y'" (var "y")) := by
    cbv
  exact ⟨ht, hscope, h, Nat.le_refl 5,
    reduce_idempotent 5 ["y"] _ _ _ ht hscope h 5 (Nat.le_refl 5) _⟩

end LambdaInt
