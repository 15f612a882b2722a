import LambdaInt.Proofs.Lines

/-!
The shell and programs. What a shell prints on a text is, line by line, what the program answers
that is made of the lines which are no commands; the commands stand between and change nothing. The
lines reach the shell through a reader, of which only that is asked that it hands out the lines.
-/

namespace LambdaInt.Shell

/-- The line is meant for the shell. -/
def IsCommand (line : String) : Prop :=
  line.toList.head? = some ':'

instance (line : String) : Decidable (IsCommand line) :=
  inferInstanceAs (Decidable (_ = _))

/-- The lines that are meant for the session. -/
def expressions (lines : List String) : List String :=
  lines.filter fun line => ¬ IsCommand line

/-- The lines of a text that come before one that ends the shell. -/
def entered (text : String) : List String :=
  (Program.lines text).takeWhile fun line => ¬ (line = ":q" ∨ line = ":quit")

/-- What is printed for a line. -/
def output (session : Session) (line : String) : String :=
  if line = ":env" then bindingsText session
  else if IsCommand line then "Unknown command " ++ line
  else (session.runLine line).1.shown

/-- What is printed for lines one after the other, each of which finds the session as those before
it that are no commands have left it. -/
def outputs (session : Session) : List String → List String
  | [] => []
  | line :: lines => output session line :: outputs (session.runLines (expressions [line])).2 lines

theorem ofLine?_eq (line : String) :
    Command.ofLine? line =
      if IsCommand line then
        if line = ":q" ∨ line = ":quit" then some .quit
        else if line = ":env" then some .showBindings
        else some (.unknown line)
      else none := by
  unfold Command.ofLine?
  split
  · rename_i rest hline
    have hcommand : IsCommand line := by
      rw [IsCommand, hline]
      rfl
    rw [if_pos hcommand]
  · rename_i hline
    have hexpression : ¬ IsCommand line := by
      intro hhead
      obtain ⟨rest, hrest⟩ := List.head?_eq_some_iff.1 hhead
      exact hline rest hrest
    rw [if_neg hexpression]

theorem step_trim (session : Session) (line : String) :
    step session (Text.trim line) = step session line := by
  simp only [step, Text.trim_trim]

theorem step_of_quit (session : Session) {line : String} (h : line = ":q" ∨ line = ":quit") :
    step session line = .quit := by
  rcases h with rfl | rfl <;> rfl

/-- Any other line is replied to, and the session goes on as if commands were not there. -/
theorem step_of_trimmed (session : Session) {line : String} (htrim : Text.trim line = line)
    (hne : line ≠ "") (hquit : ¬ (line = ":q" ∨ line = ":quit")) :
    step session line = .reply (output session line) (session.runLines (expressions [line])).2 := by
  simp only [step, htrim, if_neg hne, ofLine?_eq, if_neg hquit, output]
  by_cases hcommand : IsCommand line
  · have hnone : expressions [line] = [] := by simp [expressions, hcommand]
    by_cases henv : line = ":env"
    · simp only [if_pos hcommand, if_pos henv, hnone]
      rfl
    · simp only [if_pos hcommand, if_neg henv, hnone]
      rfl
  · have hself : expressions [line] = [line] := by simp [expressions, hcommand]
    have henv : line ≠ ":env" := fun heq => hcommand (heq ▸ rfl)
    simp only [if_neg hcommand, if_neg henv, hself]
    rfl

/-- A shell replies to the lines in which something is left, until one ends it. -/
theorem replies_ok (session : Session) (handed : List String) :
    replies session (handed.map .ok) =
      (outputs session (((handed.map Text.trim).filter fun line => line != "").takeWhile
        fun line => ¬ (line = ":q" ∨ line = ":quit")), .left) := by
  induction handed generalizing session with
  | nil => rfl
  | cons line handed ih =>
      rw [List.map_cons, List.map_cons, replies, ← step_trim]
      by_cases hempty : Text.trim line = ""
      · simp only [hempty]
        exact ih session
      · rw [List.filter_cons_of_pos (by simpa using hempty)]
        by_cases hquit : Text.trim line = ":q" ∨ Text.trim line = ":quit"
        · rw [step_of_quit session hquit, List.takeWhile_cons_of_neg
            (by rw [decide_eq_true_iff, not_not]; exact hquit)]
          rfl
        · rw [step_of_trimmed session (Text.trim_trim line) hempty hquit,
            List.takeWhile_cons_of_pos (by simpa using hquit)]
          simp only [ih, outputs]

theorem outputs_getElem? (session : Session) (lines : List String) (i : Nat) :
    (outputs session lines)[i]? =
      lines[i]?.map (output (session.runLines (expressions (lines.take i))).2) := by
  induction lines generalizing session i with
  | nil => rfl
  | cons line lines ih =>
      cases i with
      | zero => rfl
      | succ i =>
          have hsplit : expressions (line :: lines.take i) =
              expressions [line] ++ expressions (lines.take i) :=
            List.filter_append [line] (lines.take i)
          rw [outputs, List.getElem?_cons_succ, List.getElem?_cons_succ, ih, List.take_succ_cons,
            hsplit, Session.runLines_append]

theorem length_outputs (session : Session) (lines : List String) :
    (outputs session lines).length = lines.length := by
  induction lines generalizing session with
  | nil => rfl
  | cons line lines ih => simp [outputs, ih]

/-- The outputs for the lines of the session are its answers. -/
theorem filter_outputs (session : Session) (lines : List String) :
    ((lines.zip (outputs session lines)).filter fun entry => ¬ IsCommand entry.1).map Prod.snd =
      (session.runLines (expressions lines)).1.map Answer.shown := by
  induction lines generalizing session with
  | nil => rfl
  | cons line lines ih =>
      rw [outputs, List.zip_cons_cons, List.filter_cons]
      by_cases hcommand : IsCommand line
      · have hnone : expressions [line] = [] := by simp [expressions, hcommand]
        have hrest : expressions (line :: lines) = expressions lines := by
          simp [expressions, hcommand]
        rw [if_neg (by simpa using hcommand), hnone, hrest]
        exact ih session
      · have henv : line ≠ ":env" := fun heq => hcommand (heq ▸ rfl)
        have hself : expressions [line] = [line] := by simp [expressions, hcommand]
        have hrest : expressions (line :: lines) = line :: expressions lines := by
          simp [expressions, hcommand]
        rw [if_pos (by simpa using hcommand), hself, hrest, List.map_cons, output, if_neg henv,
          if_neg hcommand, ih]
        rfl

/-- Without commands among the lines, there is nothing but answers. -/
theorem outputs_of_no_command (session : Session) {lines : List String}
    (h : ∀ line ∈ lines, ¬ IsCommand line) :
    outputs session lines = (session.runLines lines).1.map Answer.shown := by
  have hall : expressions lines = lines :=
    List.filter_eq_self.2 fun line hline => decide_eq_true (h line hline)
  have hanswers := filter_outputs session lines
  rwa [hall, List.filter_eq_self.2, List.map_snd_zip (length_outputs session lines).le] at hanswers
  exact fun entry hentry => decide_eq_true (h entry.1 (List.of_mem_zip hentry).1)

theorem bindingsText_eq (session : Session) :
    bindingsText session =
      if session.globalBindings = [] then "(no bindings)"
      else "\n".intercalate
        (session.globalBindings.map fun entry => entry.1 ++ " = " ++ entry.2.render) := by
  unfold bindingsText
  split <;> simp_all

theorem run_intercalate {lines : List String} (h : ∀ line ∈ lines, Text.IsLine line)
    (session : Session) :
    Program.run session ("\n".intercalate lines) = session.runLines lines := by
  rw [Program.run, Program.lines_intercalate h]

/-- What is entered are lines of the text. -/
theorem isLine_of_mem_entered {text line : String} (h : line ∈ entered text) : Text.IsLine line :=
  Program.isLine_of_mem_lines ((List.takeWhile_sublist _).subset h)

theorem isLine_of_mem_expressions {lines : List String} (h : ∀ line ∈ lines, Text.IsLine line) :
    ∀ line ∈ expressions lines, Text.IsLine line :=
  fun line hline => h line (List.mem_of_mem_filter hline)

/-- Without commands in it, all of a text is entered. -/
theorem entered_of_no_command {text : String} (h : ∀ line ∈ Program.lines text, ¬ IsCommand line) :
    entered text = Program.lines text := by
  refine List.takeWhile_eq_self_iff.2 fun line hline => decide_eq_true ?_
  rintro (rfl | rfl) <;> exact h _ hline rfl

/-- The shell prints the outputs for the lines that are entered, whatever reader hands them out. -/
theorem run_of_handsOut {text : String} {handed : List String} (h : Text.HandsOut text handed)
    (depth : Nat) :
    run depth (handed.map .ok) =
      (String.join ((outputs (.start depth) (entered text)).map fun output => output ++ "\n\n") ++
        "\n\nSee you soon!\n", .left) := by
  have hreplies : replies (.start depth) (handed.map .ok) =
      (outputs (.start depth) (entered text), .left) := by
    rw [replies_ok, h.lines_eq]
    rfl
  rw [run, hreplies]
  rfl

/-- The reader of the program is one of them, on a text without backspaces. -/
theorem runShell_toUTF8 {text : String} (h : Text.backspace ∉ text.toList) (depth : Nat) :
    CommandLine.runShell depth text.toUTF8 =
      ⟨0, (run depth ((Text.lines text).map .ok)).1⟩ := by
  rw [CommandLine.runShell, readLines_toUTF8 h, run_of_handsOut (Text.handsOut_lines text)]
  rfl

/-- Whatever reader hands out the lines of a text, the shell prints an output for each line that is
entered, with an empty line after it, and then takes its leave. The outputs of lines that are no
commands are the answers of the program made of these lines; what is shown of the bindings is what
the program made of those of them that came before has left, in the order of names; any other
command is unknown. So no command changes what another line is answered with, and a text without
commands is answered alike by the shell and as the program of a file. -/
theorem shell_agrees_with_program {text : String} {handed : List String}
    (h : Text.HandsOut text handed) (depth : Nat) :
    ∃ outputs : List String,
      run depth (handed.map .ok) =
        (String.join (outputs.map fun output => output ++ "\n\n") ++ "\n\nSee you soon!\n",
          .left) ∧
      outputs.length = (entered text).length ∧
      (((entered text).zip outputs).filter fun entry => ¬ IsCommand entry.1).map Prod.snd =
        (Program.run (.start depth) ("\n".intercalate (expressions (entered text)))).1.map
          Answer.shown ∧
      (∀ (i : Nat) entries, (entered text)[i]? = some ":env" →
        (Program.run (.start depth)
          ("\n".intercalate (expressions ((entered text).take i)))).2.globalBindings = entries →
        (entries.Pairwise fun a b => a.1 < b.1) ∧
        outputs[i]? = some (if entries = [] then "(no bindings)"
          else "\n".intercalate (entries.map fun entry => entry.1 ++ " = " ++ entry.2.render))) ∧
      (∀ (i : Nat) line, (entered text)[i]? = some line → IsCommand line → line ≠ ":env" →
        outputs[i]? = some ("Unknown command " ++ line)) ∧
      ((∀ line ∈ Program.lines text, ¬ IsCommand line) →
        CommandLine.runFile depth (.ok text.toUTF8) = ⟨0, "\n".intercalate outputs ++ "\n"⟩) := by
  have hline : ∀ line ∈ entered text, Text.IsLine line := fun _ => isLine_of_mem_entered
  refine ⟨outputs (.start depth) (entered text), run_of_handsOut h depth, length_outputs _ _,
    ?_, ?_, ?_, ?_⟩
  · rw [filter_outputs, run_intercalate (isLine_of_mem_expressions hline)]
  · rintro i entries henv rfl
    have hbefore : ∀ line ∈ (entered text).take i, Text.IsLine line :=
      fun line hmem => hline line (List.mem_of_mem_take hmem)
    refine ⟨Session.globalBindings_eq _ ▸ Frame.sorted _, ?_⟩
    rw [outputs_getElem?, henv, run_intercalate (isLine_of_mem_expressions hbefore),
      ← bindingsText_eq]
    rfl
  · intro i line hi hcommand henv
    rw [outputs_getElem?, hi, Option.map_some, output, if_neg henv, if_pos hcommand]
  · intro hnone
    rw [entered_of_no_command hnone, outputs_of_no_command _ hnone, CommandLine.runFile]
    simp only [Except.bind, CommandLine.decode_toUTF8]
    rfl

def interleavedText : String :=
  "let a = 1\r\n :env\n(\n\n:what\na 2\n:q\nb"

/-- The lines of the text as they are handed out, the one behind the end of the shell as well. -/
def interleavedLines : List String :=
  ["let a = 1", " :env", "(", "", ":what", "a 2", ":q", "b"]

/-- Commands stand between a definition and lines that fail, and a line comes after the end of the
shell. -/
theorem shell_agrees_with_program_interleaved :
    Text.HandsOut interleavedText interleavedLines ∧
    ∃ outputs : List String,
      run 9 (interleavedLines.map .ok) =
        (String.join (outputs.map fun output => output ++ "\n\n") ++ "\n\nSee you soon!\n",
          .left) ∧
      outputs.length = 5 ∧
      ((["let a = 1", ":env", "(", ":what", "a 2"].zip outputs).filter fun entry =>
        ¬ IsCommand entry.1).map Prod.snd =
          ["=> 1", "*** SyntaxError: Missing )", "*** RuntimeError: can't apply an atom"] ∧
      outputs[1]? = some "a = 1" ∧
      outputs[3]? = some "Unknown command :what" ∧
      ∃ answers : List String, answers.length = 2 ∧
        CommandLine.runFile 9 (.ok "let a = 1\n\na".toUTF8) =
          ⟨0, "\n".intercalate answers ++ "\n"⟩ := by
  have hhanded : Text.HandsOut interleavedText interleavedLines := by
    have hlines : Text.lines interleavedText =
        ["let a = 1\r", " :env", "(", "", ":what", "a 2", ":q", "b"] := by cbv
    refine ⟨[], .inl rfl, ?_⟩
    rw [hlines]
    simp [interleavedLines]
  have hentered : entered interleavedText = ["let a = 1", ":env", "(", ":what", "a 2"] := by cbv
  have hrun : (Program.run (.start 9) ("\n".intercalate
      (expressions ["let a = 1", ":env", "(", ":what", "a 2"]))).1 =
        [.ok (.lit 1), .error (.malformed .missingClosingParen),
          .error (.failed .appliedLiteral)] := by cbv
  have hanswers : (Program.run (.start 9) ("\n".intercalate
      (expressions ["let a = 1", ":env", "(", ":what", "a 2"]))).1.map Answer.shown =
        ["=> 1", "*** SyntaxError: Missing )", "*** RuntimeError: can't apply an atom"] := by
    rw [hrun]
    rfl
  have hbindings : (Program.run (.start 9) ("\n".intercalate (expressions
      (["let a = 1", ":env", "(", ":what", "a 2"].take 1)))).2.globalBindings =
        [("a", .lit 1)] := by cbv
  have hplain : ∀ line ∈ Program.lines "let a = 1\n\na", ¬ IsCommand line := by
    have htext : Program.lines "let a = 1\n\na" = ["let a = 1", "a"] := by cbv
    rw [htext]
    decide
  obtain ⟨outputs, hprinted, hlength, hfilter, henv, hunknown, _⟩ :=
    shell_agrees_with_program hhanded 9
  obtain ⟨answers, _, hcount, _, _, _, hfile⟩ :=
    shell_agrees_with_program (Text.handsOut_lines "let a = 1\n\na") 9
  rw [hentered] at hlength hfilter henv hunknown
  refine ⟨hhanded, outputs, hprinted, hlength, hfilter.trans hanswers, (henv 1 _ rfl hbindings).2,
    hunknown 3 _ rfl rfl (by decide), answers, ?_, hfile hplain⟩
  rw [hcount]
  cbv

end LambdaInt.Shell
