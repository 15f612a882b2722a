import LambdaInt.Session

/-!
Runs of a session. What one statement preserves is preserved by every run, of statements or of
lines of text; a line that is malformed leaves the session as it is.
-/

namespace LambdaInt.Session

/-- Evaluates the statements one after the other, each in the session that the one before left. -/
def evaluateAll (session : Session) : List Statement → List (Except RuntimeError Term) × Session
  | [] => ([], session)
  | statement :: statements =>
      let (result, session) := session.evaluate statement
      let (results, session) := session.evaluateAll statements
      (result :: results, session)

/-- The sessions that statements lead to, from one without definitions. -/
inductive Reachable : Session → Prop
  | start (depth : Nat) : Reachable (start depth)
  | evaluate {session : Session} (before : Reachable session) (statement : Statement) :
      Reachable (session.evaluate statement).2

theorem runLine_cases (session : Session) (line : String) :
    (∃ e, session.runLine line = (.error (.malformed e), session)) ∨
      ∃ statement, Statement.ofText line = .ok statement ∧
        session.runLine line = ((session.evaluate statement).1.mapError .failed,
          (session.evaluate statement).2) := by
  unfold runLine
  cases h : Statement.ofText line with
  | error e => exact .inl ⟨e, rfl⟩
  | ok statement => exact .inr ⟨statement, rfl, rfl⟩

theorem runLine_of_malformed (session : Session) {line : String} {e : SyntaxError}
    (h : Statement.ofText line = .error e) :
    session.runLine line = (.error (.malformed e), session) := by
  rw [runLine, h]

theorem runLine_of_ofText (session : Session) {line : String} {statement : Statement}
    (h : Statement.ofText line = .ok statement) :
    session.runLine line = ((session.evaluate statement).1.mapError .failed,
      (session.evaluate statement).2) := by
  rw [runLine, h]

theorem Reachable.runLine {session : Session} (h : session.Reachable) (line : String) :
    (session.runLine line).2.Reachable := by
  obtain ⟨e, he⟩ | ⟨statement, _, hrun⟩ := runLine_cases session line
  · rw [he]
    exact h
  · rw [hrun]
    exact h.evaluate statement

theorem Reachable.runLines {session : Session} (h : session.Reachable) (lines : List String) :
    (session.runLines lines).2.Reachable := by
  induction lines generalizing session with
  | nil => exact h
  | cons line lines ih => exact ih (h.runLine line)

/-- The session after a statement whose term has the value. -/
def record (session : Session) (statement : Statement) (value : Term) : Session :=
  match statement with
  | .define name _ => { session with bindings := session.bindings.set name value }
  | .evaluate _ => session

theorem record_maxDepth (session : Session) (statement : Statement) (v : Term) :
    (session.record statement v).maxDepth = session.maxDepth := by
  cases statement <;> rfl

theorem evaluate_of_error {session : Session} {statement : Statement} {e : RuntimeError}
    (h : statement.term.reduce session.maxDepth [] (.root session.bindings) = .error e) :
    session.evaluate statement = (.error e, session) := by
  rw [evaluate, h]

theorem evaluate_of_ok {session : Session} {statement : Statement} {v : Term}
    (h : statement.term.reduce session.maxDepth [] (.root session.bindings) = .ok v) :
    session.evaluate statement = (.ok v, session.record statement v) := by
  rw [evaluate, h]
  cases statement <;> rfl

theorem fst_evaluate (session : Session) (statement : Statement) :
    (session.evaluate statement).1 =
      statement.term.reduce session.maxDepth [] (.root session.bindings) := by
  cases h : statement.term.reduce session.maxDepth [] (.root session.bindings) with
  | error e => rw [evaluate_of_error h]
  | ok v => rw [evaluate_of_ok h]

theorem evaluate_maxDepth (session : Session) (statement : Statement) :
    (session.evaluate statement).2.maxDepth = session.maxDepth := by
  cases h : statement.term.reduce session.maxDepth [] (.root session.bindings) with
  | error e => rw [evaluate_of_error h]
  | ok v =>
      rw [evaluate_of_ok h]
      exact record_maxDepth session statement v

section
variable {P : String → Term → Prop} {session : Session} {statement : Statement}

theorem record_keeps (h : ∀ x w, session.bindings.find? x = some w → P x w) {v : Term}
    (hv : ∀ x t, statement = .define x t → P x v) (x : String) (w : Term)
    (hfind : (session.record statement v).bindings.find? x = some w) : P x w := by
  cases statement with
  | evaluate t => exact h x w hfind
  | define y t =>
      change (session.bindings.set y v).find? x = some w at hfind
      rw [Frame.find?_set] at hfind
      split at hfind
      · rename_i hxy
        cases hfind
        exact hxy ▸ hv y t rfl
      · exact h x w hfind

/-- What holds of the value of the statement's term holds of its result. If it makes the value fit
for the name that the statement defines, all bindings stay fit for their names. -/
theorem evaluate_keeps {Q : Term → Prop}
    (hvalue : ∀ v, statement.term.reduce session.maxDepth [] (.root session.bindings) = .ok v → Q v)
    (hname : ∀ x t v, statement = .define x t → Q v → P x v)
    (h : ∀ x w, session.bindings.find? x = some w → P x w) :
    (∀ x w, (session.evaluate statement).2.bindings.find? x = some w → P x w) ∧
      ∀ v, (session.evaluate statement).1 = .ok v → Q v := by
  cases hreduce : statement.term.reduce session.maxDepth [] (.root session.bindings) with
  | error e =>
      rw [evaluate_of_error hreduce]
      exact ⟨h, fun v hv => by cases hv⟩
  | ok v =>
      have hv : Q v := hvalue v hreduce
      rw [evaluate_of_ok hreduce]
      refine ⟨record_keeps h fun x t hdefine => hname x t v hdefine hv, ?_⟩
      intro w hw
      exact Except.ok.inj hw ▸ hv

end

section
variable {Inv : Session → Prop} {Value : Term → Prop} {Allowed : Statement → Prop}
  (step : ∀ session statement, Inv session → Allowed statement →
    Inv (session.evaluate statement).2 ∧
      ∀ v, (session.evaluate statement).1 = .ok v → Value v)
include step

theorem evaluateAll_keeps {session : Session} {statements : List Statement} (hinv : Inv session)
    (allowed : ∀ s ∈ statements, Allowed s) :
    Inv (session.evaluateAll statements).2 ∧
      ∀ v, .ok v ∈ (session.evaluateAll statements).1 → Value v := by
  induction statements generalizing session with
  | nil => exact ⟨hinv, fun v hv => (List.not_mem_nil hv).elim⟩
  | cons s statements ih =>
      obtain ⟨hs, hrest⟩ := List.forall_mem_cons.1 allowed
      obtain ⟨hnext, hvalue⟩ := step session s hinv hs
      obtain ⟨hlast, hvalues⟩ := ih hnext hrest
      refine ⟨hlast, ?_⟩
      intro v hv
      obtain heq | hv := List.mem_cons.1 hv
      · exact hvalue v heq.symm
      · exact hvalues v hv

theorem runLines_keeps {session : Session} {lines : List String} (hinv : Inv session)
    (allowed : ∀ line ∈ lines, ∀ s, Statement.ofText line = .ok s → Allowed s) :
    Inv (session.runLines lines).2 ∧ ∀ v, .ok v ∈ (session.runLines lines).1 → Value v := by
  induction lines generalizing session with
  | nil => exact ⟨hinv, fun v hv => (List.not_mem_nil hv).elim⟩
  | cons line lines ih =>
      obtain ⟨hline, hrest⟩ := List.forall_mem_cons.1 allowed
      have hfirst : Inv (session.runLine line).2 ∧
          ∀ v, (session.runLine line).1 = .ok v → Value v := by
        obtain ⟨e, he⟩ | ⟨s, hs, hrun⟩ := runLine_cases session line
        · rw [he]
          exact ⟨hinv, fun v hv => by cases hv⟩
        · obtain ⟨hnext, hvalue⟩ := step session s hinv (hline s hs)
          rw [hrun]
          refine ⟨hnext, fun v hv => hvalue v ?_⟩
          cases hresult : (session.evaluate s).1 with
          | error e =>
              rw [hresult] at hv
              cases hv
          | ok w =>
              rw [hresult] at hv
              exact congrArg Except.ok (Except.ok.inj hv)
      obtain ⟨hlast, hvalues⟩ := ih hfirst.1 hrest
      refine ⟨hlast, ?_⟩
      intro v hv
      obtain heq | hv := List.mem_cons.1 hv
      · exact hfirst.2 v heq.symm
      · exact hvalues v hv

end
end LambdaInt.Session
