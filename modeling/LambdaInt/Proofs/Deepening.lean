import Mathlib
import LambdaInt.Proofs.DepthGuard
import LambdaInt.Proofs.Sessions

/-!
Sessions with more depth. As long as no line exceeds the depth, a session that allows more of it
gives the same answers and makes the same definitions, so over all depths a line is shown in one
way at most, besides the way that says the depth was exceeded.
-/

namespace LambdaInt

namespace Session

/-- The same definitions, with another depth allowed. -/
def withDepth (session : Session) (depth : Nat) : Session :=
  { session with maxDepth := depth }

theorem start_withDepth (depth depth' : Nat) : (start depth).withDepth depth' = start depth' :=
  rfl

theorem record_withDepth (session : Session) (depth : Nat) (statement : Statement) (v : Term) :
    (session.withDepth depth).record statement v =
      (session.record statement v).withDepth depth := by
  cases statement <;> rfl

theorem runLine_maxDepth (session : Session) (line : String) :
    (session.runLine line).2.maxDepth = session.maxDepth := by
  obtain ⟨e, he⟩ | ⟨statement, _, hrun⟩ := runLine_cases session line
  · rw [he]
  · rw [hrun]
    exact evaluate_maxDepth session statement

section
variable {session : Session} {depth : Nat} (hle : session.maxDepth ≤ depth)
include hle

theorem evaluate_withDepth {statement : Statement}
    (h : (session.evaluate statement).1 ≠ .error .depthExceeded) :
    (session.withDepth depth).evaluate statement =
      ((session.evaluate statement).1, (session.evaluate statement).2.withDepth depth) := by
  rw [fst_evaluate] at h
  have hsame := Term.reduce_of_le hle h
  cases hreduce : statement.term.reduce session.maxDepth [] (.root session.bindings) with
  | error e =>
      rw [hreduce] at hsame
      rw [evaluate_of_error hreduce]
      apply evaluate_of_error
      exact hsame
  | ok v =>
      rw [hreduce] at hsame
      rw [evaluate_of_ok hreduce, ← record_withDepth]
      apply evaluate_of_ok
      exact hsame

theorem runLine_withDepth {line : String}
    (h : (session.runLine line).1 ≠ .error (.failed .depthExceeded)) :
    (session.withDepth depth).runLine line =
      ((session.runLine line).1, (session.runLine line).2.withDepth depth) := by
  unfold runLine at h ⊢
  cases hread : Statement.ofText line with
  | error e => rfl
  | ok statement =>
      have hne : (session.evaluate statement).1 ≠ .error .depthExceeded := by
        intro herror
        apply h
        simp only [hread, herror]
        rfl
      simp only [evaluate_withDepth hle hne]

/-- Lines that stay within the depth are answered in the same way where more of it is allowed. -/
theorem runLines_withDepth {lines : List String}
    (h : .error (.failed .depthExceeded) ∉ (session.runLines lines).1) :
    (session.withDepth depth).runLines lines =
      ((session.runLines lines).1, (session.runLines lines).2.withDepth depth) := by
  induction lines generalizing session with
  | nil => rfl
  | cons line lines ih =>
      rw [runLines] at h
      obtain ⟨hline, hlines⟩ := not_or.1 (mt List.mem_cons.2 h)
      have hrun := runLine_withDepth hle (Ne.symm hline)
      have hnext : (session.runLine line).2.maxDepth ≤ depth := by
        rw [runLine_maxDepth]
        exact hle
      simp only [runLines, hrun, ih hnext hlines]

end
end Session

/-- The depth only cuts off, and never changes an answer: an outcome within the depth is the outcome
at every larger depth; so are the answers and the definitions of a session in which no line exceeds
the depth; and a line is shown in one way at most when its depth suffices. -/
theorem depth_only_cuts_off :
    (∀ (depth depth' : Nat) (used : List String) (scope : Scope) (t : Term), depth ≤ depth' →
      t.reduce depth used scope ≠ .error .depthExceeded →
        t.reduce depth' used scope = t.reduce depth used scope) ∧
    (∀ (depth depth' : Nat) (lines : List String), depth ≤ depth' →
      .error (.failed .depthExceeded) ∉ ((Session.start depth).runLines lines).1 →
        ((Session.start depth').runLines lines).1 = ((Session.start depth).runLines lines).1 ∧
        ((Session.start depth').runLines lines).2.bindings =
          ((Session.start depth).runLines lines).2.bindings) ∧
    ∀ (line : String) (depth depth' : Nat),
      ((Session.start depth).runLine line).1.shown ≠
          Answer.shown (.error (.failed .depthExceeded)) →
      ((Session.start depth').runLine line).1.shown ≠
          Answer.shown (.error (.failed .depthExceeded)) →
        ((Session.start depth).runLine line).1.shown =
          ((Session.start depth').runLine line).1.shown := by
  refine ⟨?_, ?_, ?_⟩
  · intro depth depth' used scope t hle h
    exact Term.reduce_of_le hle h
  · intro depth depth' lines hle h
    have hmax : (Session.start depth).maxDepth ≤ depth' := hle
    rw [← Session.start_withDepth depth depth', Session.runLines_withDepth hmax h]
    exact ⟨rfl, rfl⟩
  · intro line depth depth' h h'
    have within {depth : Nat} (h : ((Session.start depth).runLine line).1.shown ≠
        Answer.shown (.error (.failed .depthExceeded))) :
        ((Session.start depth).runLine line).1 ≠ .error (.failed .depthExceeded) :=
      fun herror => h (congrArg Answer.shown herror)
    obtain hle | hle := Nat.le_total depth depth'
    · have hmax : (Session.start depth).maxDepth ≤ depth' := hle
      rw [← Session.start_withDepth depth depth', Session.runLine_withDepth hmax (within h)]
    · have hmax : (Session.start depth').maxDepth ≤ depth := hle
      rw [← Session.start_withDepth depth' depth, Session.runLine_withDepth hmax (within h')]

def failingLines : List String :=
  ["let k = λx.λy.x", "k z", "k 1 k"]

def failingTerm : Term :=
  .app [.fn "x" (.var "x"), .var "z"]

/-- A failure for another cause stays as well: a name that has no definition. -/
theorem depth_only_cuts_off_failed :
    (3 ≤ 7 ∧ failingTerm.reduce 3 [] (.root .empty) ≠ .error .depthExceeded ∧
      failingTerm.reduce 7 [] (.root .empty) = .error (.undefinedVariable "z")) ∧
    (9 ≤ 40 ∧ .error (.failed .depthExceeded) ∉ ((Session.start 9).runLines failingLines).1 ∧
      ((Session.start 40).runLines failingLines).1 =
        [.ok (.fn "x" (.fn "y" (.var "x"))), .error (.failed (.undefinedVariable "z")),
          .ok (.lit 1)] ∧
      ((Session.start 40).runLines failingLines).2.bindings =
        ((Session.start 9).runLines failingLines).2.bindings) ∧
    ((Session.start 5).runLine "(λx.1+ x) 2").1.shown ≠
        Answer.shown (.error (.failed .depthExceeded)) ∧
      ((Session.start 6).runLine "(λx.1+ x) 2").1.shown ≠
        Answer.shown (.error (.failed .depthExceeded)) ∧
      ((Session.start 5).runLine "(λx.1+ x) 2").1.shown =
        ((Session.start 6).runLine "(λx.1+ x) 2").1.shown := by
  have hreduce : failingTerm.reduce 3 [] (.root .empty) = .error (.undefinedVariable "z") := by
    cbv
  have hcut : failingTerm.reduce 3 [] (.root .empty) ≠ .error .depthExceeded := by
    rw [hreduce]
    simp
  have hanswers : ((Session.start 9).runLines failingLines).1 =
      [.ok (.fn "x" (.fn "y" (.var "x"))), .error (.failed (.undefinedVariable "z")),
        .ok (.lit 1)] := by cbv
  have hlines : .error (.failed .depthExceeded) ∉ ((Session.start 9).runLines failingLines).1 := by
    rw [hanswers]
    simp
  have hshown : ((Session.start 5).runLine "(λx.1+ x) 2").1.shown ≠
      Answer.shown (.error (.failed .depthExceeded)) := by
    have h : ((Session.start 5).runLine "(λx.1+ x) 2").1.shown = "=> 3" := by cbv
    rw [h]
    decide
  have hshown' : ((Session.start 6).runLine "(λx.1+ x) 2").1.shown ≠
      Answer.shown (.error (.failed .depthExceeded)) := by
    have h : ((Session.start 6).runLine "(λx.1+ x) 2").1.shown = "=> 3" := by cbv
    rw [h]
    decide
  obtain ⟨hterm, hsession, hline⟩ := depth_only_cuts_off
  have hrun := hsession 9 40 _ (by decide) hlines
  refine ⟨⟨by decide, hcut, ?_⟩, ⟨by decide, hlines, ?_, hrun.2⟩, hshown, hshown', ?_⟩
  · exact (hterm 3 7 [] _ _ (by decide) hcut).trans hreduce
  · exact hrun.1.trans hanswers
  · exact hline _ 5 6 hshown hshown'

end LambdaInt
