import LambdaInt.Proofs.Restoring

/-!
The history of a session. A line makes a definition if it is read as one and is answered with a
value. What a session that began without definitions holds is what the lines so far have made: for
each name the value of the last definition of it. Any other line leaves the session as it is.
-/

namespace LambdaInt

namespace Frame

/-- Binds names one after the other. -/
def setAll (frame : Frame) (entries : List (String × Term)) : Frame :=
  entries.foldl (fun frame entry => frame.set entry.1 entry.2) frame

theorem setAll_append (frame : Frame) (es fs : List (String × Term)) :
    frame.setAll (es ++ fs) = (frame.setAll es).setAll fs :=
  List.foldl_append

/-- The last entry for a name counts, and without one the name keeps its binding. -/
theorem find?_setAll (frame : Frame) (entries : List (String × Term)) (x : String) :
    (frame.setAll entries).find? x = (entries.reverse.lookup x).or (frame.find? x) := by
  induction entries generalizing frame with
  | nil => rfl
  | cons e entries ih =>
      have hlookup : [e].lookup x = if x = e.1 then some e.2 else none := by
        by_cases hx : x = e.1
        · simp [List.lookup, hx]
        · simp [List.lookup, hx, beq_false_of_ne hx]
      rw [setAll, List.foldl_cons, ← setAll, ih, find?_set, List.reverse_cons, List.lookup_append,
        hlookup, Option.or_assoc]
      split <;> rfl

theorem find?_setAll_empty_eq_some_iff {entries : List (String × Term)} {x : String} {v : Term} :
    (empty.setAll entries).find? x = some v ↔
      ∃ earlier later, entries = earlier ++ (x, v) :: later ∧ ∀ e ∈ later, e.1 ≠ x := by
  rw [find?_setAll, find?_empty, Option.or_none, List.lookup_eq_some_iff]
  constructor
  · rintro ⟨later, earlier, hsplit, hother⟩
    refine ⟨earlier.reverse, later.reverse, ?_, ?_⟩
    · rw [← List.reverse_reverse entries, hsplit]
      simp
    · intro e he heq
      simpa [heq] using hother e (List.mem_reverse.1 he)
  · rintro ⟨earlier, later, rfl, hother⟩
    refine ⟨later.reverse, earlier.reverse, by simp, ?_⟩
    intro e he
    exact bne_iff_ne.2 (hother e (List.mem_reverse.1 he)).symm

end Frame

namespace Session

/-- What a line that is answered so defines: a name and its value. -/
def definition? (line : String) (answer : Answer) : Option (String × Term) :=
  match Statement.ofText line, answer with
  | .ok (.define name _), .ok value => some (name, value)
  | _, _ => none

theorem definition?_error (line : String) (e : LineError) : definition? line (.error e) = none := by
  unfold definition?
  split
  · contradiction
  · rfl

/-- What lines that are answered so define, in order. -/
def definitions (lines : List String) (answers : List Answer) : List (String × Term) :=
  (lines.zip answers).filterMap fun entry => definition? entry.1 entry.2

/-- A line binds what it defines. -/
theorem runLine_eq (session : Session) (line : String) :
    (session.runLine line).2 = { session with
      bindings := session.bindings.setAll (definition? line (session.runLine line).1).toList } := by
  cases hread : Statement.ofText line with
  | error e =>
      simp only [runLine_of_malformed session hread, definition?, hread]
      rfl
  | ok statement =>
      simp only [runLine_of_ofText session hread, definition?, hread]
      cases hreduce : statement.term.reduce session.maxDepth [] (.root session.bindings) with
      | error e =>
          rw [evaluate_of_error hreduce]
          cases statement <;> rfl
      | ok v =>
          rw [evaluate_of_ok hreduce]
          cases statement <;> rfl

theorem runLines_eq (session : Session) (lines : List String) :
    (session.runLines lines).2 = { session with
      bindings := session.bindings.setAll (definitions lines (session.runLines lines).1) } := by
  induction lines generalizing session with
  | nil => rfl
  | cons line lines ih =>
      have hdefinitions : definitions (line :: lines) (session.runLines (line :: lines)).1 =
          (definition? line (session.runLine line).1).toList ++
            definitions lines ((session.runLine line).2.runLines lines).1 := by
        simp only [definitions, runLines, List.zip_cons_cons, List.filterMap_cons]
        split <;> simp_all
      rw [hdefinitions, Frame.setAll_append]
      change ((session.runLine line).2.runLines lines).2 = _
      rw [ih, runLine_eq session line]

/-- A line that is not answered with a value, or that is no definition, leaves the session as it
is, wherever it failed. -/
theorem runLine_of_definition?_eq_none {session : Session} {line : String}
    (h : definition? line (session.runLine line).1 = none) :
    (session.runLine line).2 = session := by
  rw [runLine_eq, h]
  rfl

/-- A session that began without definitions holds, in the order of names, the values of the last
definitions that its lines made, and nothing else; what fails or defines nothing leaves it as it
is; and its names are identifiers. The lines so far are lines of such a run, too, so this is so after
each line. -/
theorem bindings_are_last_definitions {depth : Nat} {lines : List String} {answers : List Answer}
    {session : Session} (h : (start depth).runLines lines = (answers, session)) :
    (session.globalBindings.Pairwise fun a b => a.1 < b.1) ∧
    (∀ x v, (x, v) ∈ session.globalBindings ↔
      ∃ earlier later, definitions lines answers = earlier ++ (x, v) :: later ∧
        ∀ e ∈ later, e.1 ≠ x) ∧
    (∀ line e, (session.runLine line).1 = .error e → (session.runLine line).2 = session) ∧
    (∀ line t, Statement.ofText line = .ok (.evaluate t) → (session.runLine line).2 = session) ∧
    ∀ x v, (x, v) ∈ session.globalBindings → x ≠ "" ∧
      (∀ c ∈ x.toList, Text.isBlank c = false ∧ c ∉ ['\\', '.', '(', ')', '=', 'λ']) ∧
      x ≠ "let" ∧ (∃ c ∈ x.toList, c.isDigit = false) ∧ x ≠ "+" ∧ x ≠ "1+" := by
  have hbindings : session.bindings = Frame.empty.setAll (definitions lines answers) := by
    have hrun := runLines_eq (start depth) lines
    rw [h] at hrun
    exact congrArg bindings hrun
  rw [globalBindings_eq]
  refine ⟨session.bindings.sorted, ?_, ?_, ?_, ?_⟩
  · intro x v
    rw [← Frame.find?_eq_some_iff, hbindings, Frame.find?_setAll_empty_eq_some_iff]
  · intro line e he
    apply runLine_of_definition?_eq_none
    rw [he, definition?_error]
  · intro line t hread
    apply runLine_of_definition?_eq_none
    simp only [definition?, hread]
  · intro x v hxv
    obtain ⟨⟨_, hrestorable⟩, _⟩ := isRestorable_runLines depth lines
    rw [h] at hrestorable
    exact isIdentifier_iff.1 (hrestorable x v (Frame.find?_eq_some_iff.2 hxv)).1

def redefiningLines : List String :=
  ["let n = 1", "let n = 1+ n", "let k = λx.n", "let n = n n", "let m = z"]

def redefiningAnswers : List Answer :=
  [.ok (.lit 1), .ok (.lit 2), .ok (.fn "x" (.lit 2)), .error (.failed .appliedLiteral),
    .error (.failed (.undefinedVariable "z"))]

def redefinedSession : Session :=
  ⟨(Frame.empty.set "n" (.lit 2)).set "k" (.fn "x" (.lit 2)), 9⟩

/-- A name is defined again in terms of itself; then a definition of it fails, and one of a new
name. -/
theorem bindings_are_last_definitions_again :
    (start 9).runLines redefiningLines = (redefiningAnswers, redefinedSession) ∧
      (∀ v, ("n", v) ∈ redefinedSession.globalBindings ↔
        ∃ earlier later, [("n", .lit 1), ("n", .lit 2), ("k", .fn "x" (.lit 2))] =
          earlier ++ ("n", v) :: later ∧ ∀ e ∈ later, e.1 ≠ "n") ∧
      (redefinedSession.runLine "let n = n n").2 = redefinedSession := by
  have hrun : (start 9).runLines redefiningLines = (redefiningAnswers, redefinedSession) := by cbv
  have hdefinitions : definitions redefiningLines redefiningAnswers =
      [("n", .lit 1), ("n", .lit 2), ("k", .fn "x" (.lit 2))] := by cbv
  have hfail : (redefinedSession.runLine "let n = n n").1 = .error (.failed .appliedLiteral) := by
    cbv
  obtain ⟨_, hentries, hfailed, _, _⟩ := bindings_are_last_definitions hrun
  refine ⟨hrun, fun v => ?_, hfailed _ _ hfail⟩
  rw [← hdefinitions]
  exact hentries "n" v

end Session
end LambdaInt
