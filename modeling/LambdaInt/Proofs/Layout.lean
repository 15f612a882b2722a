import LambdaInt.Proofs.Lexemes
import LambdaInt.Proofs.Sessions
import LambdaInt.Proofs.Lines
import Mathlib

/-!
The layout of programs. A program runs its lines one after the other, so a text made of two texts
runs the one and then the other; and of each line only the tokens count, and of the lines only those
with tokens. Whatever leaves these rows of tokens as they are leaves the run as it is, and every
change of layout does: between words white space is a separator, and at the ends of a line and beside
marks it is nothing.
-/

namespace LambdaInt

namespace Token

theorem scanFrom_blanks_append {gap : List Char} (h : ∀ c ∈ gap, Text.isBlank c = true)
    (bs : List Char) : scanFrom [] (gap ++ bs) = scanFrom [] bs := by
  induction gap with
  | nil => rfl
  | cons c gap ih =>
      obtain ⟨hc, hgap⟩ := List.forall_mem_cons.1 h
      rw [List.cons_append, scanFrom_cons_of_isBlank hc, ih hgap]
      rfl

/-- White space between two texts only parts them, however much it is. -/
theorem scanFrom_append_gap {gap : List Char} (ne : gap ≠ [])
    (h : ∀ c ∈ gap, Text.isBlank c = true) (as bs : List Char) :
    scanFrom [] (as ++ gap ++ bs) = scanFrom [] as ++ scanFrom [] bs := by
  cases gap with
  | nil => exact absurd rfl ne
  | cons c gap =>
      obtain ⟨hc, hgap⟩ := List.forall_mem_cons.1 h
      rw [List.append_assoc, List.cons_append, scanFrom_append_blank hc,
        scanFrom_blanks_append hgap]

theorem scanFrom_append_blanks {gap : List Char} (h : ∀ c ∈ gap, Text.isBlank c = true)
    (as : List Char) : scanFrom [] (as ++ gap) = scanFrom [] as := by
  by_cases ne : gap = []
  · rw [ne, List.append_nil]
  · have hgap := scanFrom_append_gap ne h as []
    rw [List.append_nil] at hgap
    rw [hgap]
    exact List.append_nil _

section
variable {c : Char} (hc : Separates c) {gap : List Char} (h : ∀ c ∈ gap, Text.isBlank c = true)
include hc h

/-- White space beside a separator adds nothing to it. -/
theorem scanFrom_gap_separator (as bs : List Char) :
    scanFrom [] (as ++ (gap ++ [c]) ++ bs) = scanFrom [] (as ++ [c] ++ bs) := by
  calc
    scanFrom [] (as ++ (gap ++ [c]) ++ bs) = scanFrom [] ((as ++ gap) ++ c :: bs) := by simp
    _ = scanFrom [] (as ++ c :: bs) := by
      rw [scanFrom_append_separator hc, scanFrom_append_blanks h, scanFrom_append_separator hc]
    _ = scanFrom [] (as ++ [c] ++ bs) := by simp

theorem scanFrom_separator_gap (as bs : List Char) :
    scanFrom [] (as ++ ([c] ++ gap) ++ bs) = scanFrom [] (as ++ [c] ++ bs) := by
  calc
    scanFrom [] (as ++ ([c] ++ gap) ++ bs) = scanFrom [] (as ++ c :: (gap ++ bs)) := by simp
    _ = scanFrom [] (as ++ c :: bs) := by
      rw [scanFrom_append_separator hc, scanFrom_blanks_append h, scanFrom_append_separator hc]
    _ = scanFrom [] (as ++ [c] ++ bs) := by simp

end

theorem scanFrom_trim (cs : List Char) :
    scanFrom [] (Text.trimEnd (Text.trimStart cs)) = scanFrom [] cs := by
  have hstart : ∀ c ∈ cs.takeWhile Text.isBlank, Text.isBlank c = true :=
    fun c hc => List.mem_takeWhile_imp hc
  have hend : ∀ c ∈ (Text.trimStart cs).rtakeWhile Text.isBlank, Text.isBlank c = true :=
    fun c hc => List.mem_rtakeWhile_imp hc
  calc
    scanFrom [] (Text.trimEnd (Text.trimStart cs)) = scanFrom [] (Text.trimStart cs) := by
      rw [← scanFrom_append_blanks hend, Text.trimEnd_eq_rdropWhile,
        List.rdropWhile_append_rtakeWhile]
    _ = scanFrom [] cs := by
      rw [← scanFrom_blanks_append hstart, Text.trimStart, List.takeWhile_append_dropWhile]

theorem scan_trim (line : String) : scan (Text.trim line) = scan line := by
  rw [scan, Text.trim, String.toList_ofList, scanFrom_trim, scan]

/-- A text without tokens is blank. -/
theorem isBlank_of_scanFrom_eq_nil {cs : List Char} (h : scanFrom [] cs = []) :
    ∀ c ∈ cs, Text.isBlank c = true := by
  intro c hc
  have hkept : kept cs = [] := by
    have htexts := texts_scanFrom [] cs
    rw [h] at htexts
    exact htexts.symm
  rw [kept, List.map_eq_nil_iff, List.filter_eq_nil_iff] at hkept
  simpa using hkept c hc

theorem trim_eq_empty_iff (line : String) : Text.trim line = "" ↔ scan line = [] := by
  constructor
  · intro h
    rw [← scan_trim, h]
    rfl
  · intro h
    have hblank := isBlank_of_scanFrom_eq_nil h
    rw [Text.trim, Text.trimStart, List.dropWhile_eq_nil_iff.2 hblank]
    rfl

end Token

namespace Session

theorem runLine_congr (session : Session) {line other : String}
    (h : Token.scan line = Token.scan other) : session.runLine line = session.runLine other := by
  simp only [runLine, Statement.ofText, h]

/-- Only the tokens of the lines count. -/
theorem runLines_congr (session : Session) {lines others : List String}
    (h : lines.map Token.scan = others.map Token.scan) :
    session.runLines lines = session.runLines others := by
  induction lines generalizing session others with
  | nil => rw [List.map_eq_nil_iff.1 h.symm]
  | cons line lines ih =>
      cases others with
      | nil => cases h
      | cons other others =>
          obtain ⟨hline, hlines⟩ := List.cons.inj h
          simp only [runLines, runLine_congr session hline, ih _ hlines]

end Session

namespace Program
open Token

/-- The rows of tokens of a text: those of each line that has any. -/
def rows (cs : List Char) : List (List Token) :=
  ((cs.splitOn '\n').map (scanFrom [])).filter fun row => !row.isEmpty

theorem map_scan_lines (text : String) : (lines text).map scan = rows text.toList := by
  have hkeep : (fun line => line != "") ∘ Text.trim = (fun row => !row.isEmpty) ∘ scan := by
    funext line
    rw [Bool.eq_iff_iff]
    simp [trim_eq_empty_iff]
  have hscan : scan ∘ Text.trim = scan := by
    funext line
    rw [Function.comp_apply, scan_trim]
  have hpieces : (text.toList.splitOn '\n').map (scanFrom []) = (Text.lines text).map scan := by
    rw [Text.lines, List.map_map]
    exact List.map_congr_left fun cs _ => congrArg (scanFrom []) String.toList_ofList.symm
  rw [lines, rows, hpieces, List.filter_map, List.filter_map, List.map_map, hkeep, hscan]

/-- The run of a program is that of its rows of tokens. -/
theorem run_congr {text other : String} (h : rows text.toList = rows other.toList)
    (session : Session) : run session text = run session other := by
  apply Session.runLines_congr
  rw [map_scan_lines, map_scan_lines, h]

theorem lines_append (p q : String) : lines (p ++ "\n" ++ q) = lines p ++ lines q := by
  have hsplit : (p ++ "\n" ++ q).toList.splitOn '\n' =
      p.toList.splitOn '\n' ++ q.toList.splitOn '\n' := by
    rw [String.toList_append, String.toList_append, List.append_assoc]
    exact List.splitOn_append_cons_self _ _
  simp only [lines, Text.lines, hsplit, List.map_append, List.filter_append]

theorem rows_append (cs ds : List Char) : rows (cs ++ '\n' :: ds) = rows cs ++ rows ds := by
  simp only [rows, List.splitOn_append_cons_self, List.map_append, List.filter_append]

theorem modifyHead_nil_append (pieces : List (List Char)) :
    pieces.modifyHead ([] ++ ·) = pieces := by
  cases pieces <;> rfl

section
variable {xs ys : List Char} (hx : '\n' ∉ xs) (hy : '\n' ∉ ys) {q : List Char}
  (h : ∀ as, ∀ bs ∈ (q.splitOn '\n').head?,
    scanFrom [] (as ++ xs ++ bs) = scanFrom [] (as ++ ys ++ bs))
include hx hy h

/-- What is in one line for what has the same tokens there leaves all lines their tokens. The
induction is on what comes before, of which `as` is the last line so far. -/
theorem map_scanFrom_congr (p as : List Char) :
    (((p ++ (xs ++ q)).splitOn '\n').modifyHead (as ++ ·)).map (scanFrom []) =
      (((p ++ (ys ++ q)).splitOn '\n').modifyHead (as ++ ·)).map (scanFrom []) := by
  induction p generalizing as with
  | nil =>
      rw [List.nil_append, List.nil_append, Text.splitOn_append_of_not_mem hx,
        Text.splitOn_append_of_not_mem hy]
      cases hq : q.splitOn '\n' with
      | nil => rfl
      | cons first others =>
          have hfirst := h as first (by rw [hq]; rfl)
          simpa using hfirst
  | cons c p ih =>
      rw [List.cons_append, List.cons_append]
      by_cases hc : c = '\n'
      · have hrest := ih []
        rw [modifyHead_nil_append, modifyHead_nil_append] at hrest
        rw [hc, Text.splitOn_cons_self, Text.splitOn_cons_self, List.modifyHead_cons,
          List.modifyHead_cons, List.map_cons, List.map_cons, hrest]
      · have hrest := ih (as ++ [c])
        have hfront : ((as ++ [c]) ++ ·) = (as ++ ·) ∘ (c :: ·) := by
          funext piece
          simp
        rwa [Text.splitOn_cons_of_ne hc, Text.splitOn_cons_of_ne hc, List.modifyHead_modifyHead,
          List.modifyHead_modifyHead, ← hfront]

theorem rows_congr (p : List Char) : rows (p ++ xs ++ q) = rows (p ++ ys ++ q) := by
  have hscan := map_scanFrom_congr hx hy h p []
  rw [modifyHead_nil_append, modifyHead_nil_append] at hscan
  rw [rows, rows, List.append_assoc, hscan, List.append_assoc]

end

theorem rows_cons_of_isBlank {c : Char} (h : Text.isBlank c = true) (cs : List Char) :
    rows (c :: cs) = rows cs := by
  by_cases hc : c = '\n'
  · subst hc
    exact rows_append [] cs
  · rw [rows, rows, Text.splitOn_cons_of_ne hc]
    cases cs.splitOn '\n' with
    | nil => rfl
    | cons first others =>
        rw [List.modifyHead_cons, List.map_cons, List.map_cons, scanFrom_cons_of_isBlank h]
        rfl

theorem rows_concat_of_isBlank {c : Char} (h : Text.isBlank c = true) (cs : List Char) :
    rows (cs ++ [c]) = rows cs := by
  by_cases hc : c = '\n'
  · subst hc
    rw [rows_append]
    exact List.append_nil _
  · have hfeed : '\n' ∉ [c] := by simpa using Ne.symm hc
    have hlast : ∀ as, ∀ bs ∈ (([] : List Char).splitOn '\n').head?,
        scanFrom [] (as ++ [c] ++ bs) = scanFrom [] (as ++ [] ++ bs) := by
      intro as bs hbs
      obtain rfl : bs = [] := by simpa using hbs.symm
      simpa using scanFrom_append_blanks (List.forall_mem_singleton.2 h) as
    simpa using rows_congr hfeed List.not_mem_nil hlast cs

/-- White space at the front of a text, line feeds or not, is in no row. -/
theorem rows_blanks_append {gap : List Char} (h : ∀ c ∈ gap, Text.isBlank c = true)
    (cs : List Char) : rows (gap ++ cs) = rows cs := by
  induction gap with
  | nil => rfl
  | cons c gap ih =>
      obtain ⟨hc, hgap⟩ := List.forall_mem_cons.1 h
      rw [List.cons_append, rows_cons_of_isBlank hc, ih hgap]

theorem rows_append_blanks {gap : List Char} (h : ∀ c ∈ gap, Text.isBlank c = true)
    (cs : List Char) : rows (cs ++ gap) = rows cs := by
  induction gap generalizing cs with
  | nil => rw [List.append_nil]
  | cons c gap ih =>
      obtain ⟨hc, hgap⟩ := List.forall_mem_cons.1 h
      rw [List.append_cons, ih hgap, rows_concat_of_isBlank hc]

/-- A line starts behind the text. -/
def StartsLine (before : String) : Prop :=
  before = "" ∨ ∃ text, before = text ++ "\n"

/-- A line ends before the text. -/
def EndsLine (after : String) : Prop :=
  after = "" ∨ ∃ text, after = "\n" ++ text

theorem rows_startsLine {before : String} (hstart : StartsLine before) {gap : List Char}
    (h : ∀ c ∈ gap, Text.isBlank c = true) (after : List Char) :
    rows (before.toList ++ (gap ++ after)) = rows (before.toList ++ after) := by
  obtain rfl | ⟨text, rfl⟩ := hstart
  · exact rows_blanks_append h after
  · rw [String.toList_append, List.append_assoc, List.append_assoc]
    change rows (text.toList ++ '\n' :: (gap ++ after)) = rows (text.toList ++ '\n' :: after)
    rw [rows_append, rows_append, rows_blanks_append h]

theorem rows_endsLine {after : String} (hend : EndsLine after) {gap : List Char}
    (h : ∀ c ∈ gap, Text.isBlank c = true) (before : List Char) :
    rows (before ++ (gap ++ after.toList)) = rows (before ++ after.toList) := by
  obtain rfl | ⟨text, rfl⟩ := hend
  · rw [String.toList_empty, List.append_nil, List.append_nil, rows_append_blanks h]
  · rw [String.toList_append, ← List.append_assoc]
    change rows ((before ++ gap) ++ '\n' :: text.toList) = rows (before ++ '\n' :: text.toList)
    rw [rows_append, rows_append, rows_append_blanks h]

/-- White space that ends no line. -/
def IsGap (gap : String) : Prop :=
  ∀ c ∈ gap.toList, Text.isBlank c = true ∧ c ≠ '\n'

instance (gap : String) : Decidable (IsGap gap) :=
  decidable_of_iff (gap.toList.all fun c => Text.isBlank c && c != '\n') (by simp [IsGap])

/-- One change of the layout of a text. -/
inductive Relaid : String → String → Prop
  /-- A blank line before another, or before the end. -/
  | blankBefore {before after gap : String} (hstart : StartsLine before) (hgap : IsGap gap) :
      Relaid (before ++ after) (before ++ (gap ++ "\n" ++ after))
  /-- A blank line behind another, or at the front. -/
  | blankBehind {before after gap : String} (hend : EndsLine after) (hgap : IsGap gap) :
      Relaid (before ++ after) (before ++ ("\n" ++ gap ++ after))
  | carriageReturn (before after : String) :
      Relaid (before ++ ("\n" ++ after)) (before ++ ("\r\n" ++ after))
  /-- Other white space between words. -/
  | respaced (before after : String) {gap gap' : String} (hgap : IsGap gap) (hgap' : IsGap gap')
      (ne : gap ≠ "") (ne' : gap' ≠ "") :
      Relaid (before ++ gap ++ after) (before ++ gap' ++ after)
  | beforeMark (before after : String) {gap : String} {c : Char}
      (hc : c ∈ ['\\', '.', '(', ')', '=', 'λ']) (hgap : IsGap gap) :
      Relaid (before ++ String.singleton c ++ after)
        (before ++ (gap ++ String.singleton c) ++ after)
  | behindMark (before after : String) {gap : String} {c : Char}
      (hc : c ∈ ['\\', '.', '(', ')', '=', 'λ']) (hgap : IsGap gap) :
      Relaid (before ++ String.singleton c ++ after)
        (before ++ (String.singleton c ++ gap) ++ after)
  | lineStart {before after gap : String} (hstart : StartsLine before) (hgap : IsGap gap) :
      Relaid (before ++ after) (before ++ (gap ++ after))
  | lineEnd {before after gap : String} (hend : EndsLine after) (hgap : IsGap gap) :
      Relaid (before ++ after) (before ++ (gap ++ after))
  | glyph (before after : String) : Relaid (before ++ "λ" ++ after) (before ++ "\\" ++ after)

theorem IsGap.not_mem {gap : String} (h : IsGap gap) : '\n' ∉ gap.toList :=
  fun hmem => (h _ hmem).2 rfl

theorem IsGap.isBlank {gap : String} (h : IsGap gap) : ∀ c ∈ gap.toList, Text.isBlank c = true :=
  fun c hc => (h c hc).1

theorem isBlank_of_mem_append {gap other : String} (h : ∀ c ∈ gap.toList, Text.isBlank c = true)
    (h' : ∀ c ∈ other.toList, Text.isBlank c = true) :
    ∀ c ∈ (gap ++ other).toList, Text.isBlank c = true := by
  intro c hc
  rw [String.toList_append] at hc
  exact (List.mem_append.1 hc).elim (h c) (h' c)

theorem feed_not_mem {c : Char} (h : c ∈ ['\\', '.', '(', ')', '=', 'λ']) : '\n' ∉ [c] := by
  intro hmem
  obtain rfl := List.mem_singleton.1 hmem
  exact absurd h (by decide)

/-- A change of layout leaves the rows of tokens as they are. -/
theorem Relaid.rows_eq {text other : String} (h : Relaid text other) :
    rows text.toList = rows other.toList := by
  have hfeed : ∀ c ∈ "\n".toList, Text.isBlank c = true := List.forall_mem_singleton.2 (by decide)
  have hreturn : ∀ c ∈ "\r".toList, Text.isBlank c = true := List.forall_mem_singleton.2 (by decide)
  cases h with
  | @blankBefore before after gap hstart hgap =>
      simp only [String.toList_append (s := before), String.toList_append (t := after)]
      exact (rows_startsLine hstart (isBlank_of_mem_append hgap.isBlank hfeed) _).symm
  | @blankBehind before after gap hend hgap =>
      simp only [String.toList_append (s := before), String.toList_append (t := after)]
      exact (rows_endsLine hend (isBlank_of_mem_append hfeed hgap.isBlank) _).symm
  | carriageReturn before after =>
      have hends : EndsLine ("\n" ++ after) := .inr ⟨after, rfl⟩
      have hsplit : "\r\n" ++ after = "\r" ++ ("\n" ++ after) := by
        rw [← String.append_assoc]
        rfl
      rw [hsplit]
      simp only [String.toList_append (s := before), String.toList_append (s := "\r")]
      exact (rows_endsLine hends hreturn _).symm
  | @respaced before after gap gap' hgap hgap' ne ne' =>
      simp only [String.toList_append]
      apply rows_congr hgap.not_mem hgap'.not_mem
      intro as bs _
      rw [scanFrom_append_gap (mt String.toList_eq_nil_iff.1 ne) hgap.isBlank,
        scanFrom_append_gap (mt String.toList_eq_nil_iff.1 ne') hgap'.isBlank]
  | @beforeMark before after gap c hc hgap =>
      simp only [String.toList_append, String.toList_singleton]
      apply rows_congr (feed_not_mem hc) (List.not_mem_append hgap.not_mem (feed_not_mem hc))
      intro as bs _
      exact (scanFrom_gap_separator (separates_iff.2 (.inr hc)) hgap.isBlank as bs).symm
  | @behindMark before after gap c hc hgap =>
      simp only [String.toList_append, String.toList_singleton]
      apply rows_congr (feed_not_mem hc) (List.not_mem_append (feed_not_mem hc) hgap.not_mem)
      intro as bs _
      exact (scanFrom_separator_gap (separates_iff.2 (.inr hc)) hgap.isBlank as bs).symm
  | lineStart hstart hgap =>
      simp only [String.toList_append]
      exact (rows_startsLine hstart hgap.isBlank _).symm
  | lineEnd hend hgap =>
      simp only [String.toList_append]
      exact (rows_endsLine hend hgap.isBlank _).symm
  | glyph before after =>
      simp only [String.toList_append]
      have hgreekLine : '\n' ∉ "λ".toList := by decide
      have hbackslashLine : '\n' ∉ "\\".toList := by decide
      apply rows_congr hgreekLine hbackslashLine
      intro as bs _
      have hgreek := scanFrom_append_separator (c := 'λ') (by decide) as bs
      have hbackslash := scanFrom_append_separator (c := '\\') (by decide) as bs
      simpa using hgreek.trans hbackslash.symm

/-- A program put together of two, with a line feed between them, runs the one and then the other,
in the session that the first has left. And programs of which one comes from the other by changes of
layout have the same run, in every session. -/
theorem run_composes_and_ignores_layout (session : Session) (p q : String) :
    run session (p ++ "\n" ++ q) =
      ((run session p).1 ++ (run (run session p).2 q).1, (run (run session p).2 q).2) ∧
    ∀ text other, Relation.EqvGen Relaid text other → run session text = run session other := by
  constructor
  · rw [run, lines_append, Session.runLines_append]
    rfl
  · intro text other h
    apply run_congr
    induction h with
    | rel text other relaid => exact relaid.rows_eq
    | refl text => rfl
    | symm text other _ ih => exact ih.symm
    | trans text middle other _ _ first second => exact first.trans second

/-- The second program has another lambda, no space before the equals sign, another line end, another
space in its second line, and a blank line before all. -/
theorem run_composes_and_ignores_layout_respaced :
    Relation.EqvGen Relaid "let i = λx.x\ni 3" "\u2003\nlet i= \\x.x\r\ni\t\u20033" ∧
    run (.start 9) "let i = λx.x\ni 3" = run (.start 9) "\u2003\nlet i= \\x.x\r\ni\t\u20033" ∧
    (run (.start 9) "let i = λx.x\ni 3").1 =
      (run (.start 9) "let i = λx.x").1 ++ (run (run (.start 9) "let i = λx.x").2 "i 3").1 ∧
    (run (.start 9) "let i = λx.x\ni 3").1 = [.ok (.fn "x" (.var "x")), .ok (.lit 3)] := by
  have hspaceGap : IsGap " " := by decide
  have htabGap : IsGap "\t\u2003" := by decide
  have hwideGap : IsGap "\u2003" := by decide
  have hglyph : Relaid "let i = λx.x\ni 3" "let i = \\x.x\ni 3" := by
    simpa using Relaid.glyph "let i = " "x.x\ni 3"
  have hequals : Relaid "let i= \\x.x\ni 3" "let i = \\x.x\ni 3" := by
    have hmark : '=' ∈ ['\\', '.', '(', ')', '=', 'λ'] := by decide
    simpa using Relaid.beforeMark "let i" " \\x.x\ni 3" hmark hspaceGap
  have hreturn : Relaid "let i= \\x.x\ni 3" "let i= \\x.x\r\ni 3" := by
    simpa using Relaid.carriageReturn "let i= \\x.x" "i 3"
  have hspace : Relaid "let i= \\x.x\r\ni 3" "let i= \\x.x\r\ni\t\u20033" := by
    simpa using Relaid.respaced "let i= \\x.x\r\ni" "3" hspaceGap htabGap (by decide) (by decide)
  have hblank : Relaid "let i= \\x.x\r\ni\t\u20033" "\u2003\nlet i= \\x.x\r\ni\t\u20033" := by
    have hfront : Relaid ("" ++ "let i= \\x.x\r\ni\t\u20033")
        ("" ++ ("\u2003" ++ "\n" ++ "let i= \\x.x\r\ni\t\u20033")) :=
      .blankBefore (.inl rfl) hwideGap
    simpa using hfront
  have hlayout : Relation.EqvGen Relaid "let i = λx.x\ni 3"
      "\u2003\nlet i= \\x.x\r\ni\t\u20033" :=
    .trans _ _ _ (.rel _ _ hglyph) (.trans _ _ _ (.symm _ _ (.rel _ _ hequals))
      (.trans _ _ _ (.rel _ _ hreturn) (.trans _ _ _ (.rel _ _ hspace) (.rel _ _ hblank))))
  obtain ⟨hcomposed, hsame⟩ :=
    run_composes_and_ignores_layout (.start 9) "let i = λx.x" "i 3"
  have htext : "let i = λx.x" ++ "\n" ++ "i 3" = "let i = λx.x\ni 3" := by simp
  rw [htext] at hcomposed
  have hanswers : (run (.start 9) "let i = λx.x\ni 3").1 =
      [.ok (.fn "x" (.var "x")), .ok (.lit 3)] := by cbv
  refine ⟨hlayout, hsame _ _ hlayout, ?_, hanswers⟩
  rw [hcomposed]

end Program
end LambdaInt
