import LambdaInt.CommandLine
import Mathlib

/-!
The lines of texts and inputs. Trimming a line twice is trimming it once, a text put together from
trimmed lines has these lines, and the bytes of a text are cut at line feeds like the text itself,
since no other character has a line feed among its bytes.
-/

namespace LambdaInt

namespace Text

section
variable {α : Type} [BEq α] [LawfulBEq α] {a : α}

theorem splitOn_cons_self (l : List α) : (a :: l).splitOn a = [] :: l.splitOn a := by
  simp [List.splitOn_eq_splitOnP, List.splitOnP_cons_eq_if_modifyHead]

theorem splitOn_cons_of_ne {c : α} (h : c ≠ a) (l : List α) :
    (c :: l).splitOn a = (l.splitOn a).modifyHead (c :: ·) := by
  simp [List.splitOn_eq_splitOnP, List.splitOnP_cons_eq_if_modifyHead, h]

theorem splitOn_append_of_not_mem {before : List α} (h : a ∉ before) (l : List α) :
    (before ++ l).splitOn a = (l.splitOn a).modifyHead (before ++ ·) := by
  induction before with
  | nil => cases hsplit : l.splitOn a <;> simp [hsplit]
  | cons c before ih =>
      obtain ⟨hc, hbefore⟩ := not_or.1 (List.mem_cons.not.1 h)
      rw [List.cons_append, splitOn_cons_of_ne (Ne.symm hc), ih hbefore, List.modifyHead_modifyHead]
      rfl

/-- The pieces hold what is not cut at. -/
theorem mem_of_mem_splitOn {l piece : List α} (h : piece ∈ l.splitOn a) {c : α} (hc : c ∈ piece) :
    c ∈ l ∧ c ≠ a := by
  induction l generalizing piece with
  | nil => simp_all
  | cons b l ih =>
      by_cases hb : b = a
      · subst hb
        rw [splitOn_cons_self, List.mem_cons] at h
        rcases h with rfl | h
        · exact (List.not_mem_nil hc).elim
        · exact (ih h hc).imp_left (List.mem_cons_of_mem b)
      · rw [splitOn_cons_of_ne hb] at h
        cases hsplit : l.splitOn a with
        | nil => exact absurd hsplit (List.splitOn_ne_nil a l)
        | cons head tail =>
            rw [hsplit] at h ih
            rcases List.mem_cons.1 h with rfl | h
            · rcases List.mem_cons.1 hc with rfl | hc
              · exact ⟨List.mem_cons_self, hb⟩
              · exact (ih List.mem_cons_self hc).imp_left (List.mem_cons_of_mem b)
            · exact (ih (List.mem_cons_of_mem head h) hc).imp_left (List.mem_cons_of_mem b)

/-- Cutting commutes with a coding in which no other character has the code of the one cut at. -/
theorem splitOn_flatMap {β : Type} [BEq β] [LawfulBEq β] {code : α → List β} {b : β}
    (hcode : code a = [b]) (hother : ∀ c, c ≠ a → b ∉ code c) (l : List α) :
    (l.flatMap code).splitOn b = (l.splitOn a).map (List.flatMap code) := by
  induction l with
  | nil => simp
  | cons c l ih =>
      rw [List.flatMap_cons]
      by_cases hc : c = a
      · subst hc
        rw [hcode, List.singleton_append, splitOn_cons_self, splitOn_cons_self, ih]
        rfl
      · rw [splitOn_append_of_not_mem (hother c hc), ih, splitOn_cons_of_ne hc]
        cases l.splitOn a <;> rfl

end

/-- Text that trimming leaves as it is, on one line and not empty. -/
structure IsLine (line : String) : Prop where
  noFeed : '\n' ∉ line.toList
  trimmed : trim line = line
  ne_empty : line ≠ ""

theorem trimEnd_eq_rdropWhile (cs : List Char) : trimEnd cs = cs.rdropWhile isBlank :=
  rfl

/-- What is left at the front of a text is not touched by trimming its end. -/
theorem trimStart_trimEnd_trimStart (cs : List Char) :
    trimStart (trimEnd (trimStart cs)) = trimEnd (trimStart cs) := by
  rw [trimEnd_eq_rdropWhile, trimStart, trimStart, List.dropWhile_eq_self_iff]
  intro hlength
  have hkept := List.rdropWhile_prefix isBlank (l := cs.dropWhile isBlank)
  have hfront := List.dropWhile_eq_self_iff.1 (List.dropWhile_idempotent isBlank cs)
  rw [hkept.getElem hlength]
  exact hfront (Nat.lt_of_lt_of_le hlength hkept.length_le)

theorem trim_trim (text : String) : trim (trim text) = trim text := by
  have hend (cs : List Char) : trimEnd (trimEnd cs) = trimEnd cs := List.rdropWhile_idempotent _ _
  simp only [trim, String.toList_ofList, trimStart_trimEnd_trimStart, hend]

theorem mem_of_mem_trim {c : Char} {text : String} (h : c ∈ (trim text).toList) :
    c ∈ text.toList := by
  rw [trim, String.toList_ofList] at h
  have hstart : c ∈ trimStart text.toList := (List.rdropWhile_prefix isBlank _).subset h
  exact (List.dropWhile_sublist isBlank).subset hstart

/-- A blank at the end of a line is trimmed away. -/
theorem trim_push {c : Char} (h : isBlank c = true) (line : String) :
    trim (line.push c) = trim line := by
  have hend (cs : List Char) : trimEnd (cs ++ [c]) = trimEnd cs :=
    List.rdropWhile_concat_pos isBlank cs c h
  simp only [trim, String.toList_push, trimStart, List.dropWhile_append]
  split
  · rename_i hblank
    simp [List.isEmpty_iff.1 hblank, h]
  · rw [hend]

end Text

namespace Program
open Text

theorem isLine_of_mem_lines {text line : String} (h : line ∈ lines text) : IsLine line := by
  obtain ⟨hline, hne⟩ := List.mem_filter.1 h
  obtain ⟨piece, hpiece, rfl⟩ := List.mem_map.1 hline
  obtain ⟨cs, hcs, rfl⟩ := List.mem_map.1 hpiece
  refine ⟨?_, trim_trim _, by simpa using hne⟩
  intro hfeed
  have hmem : '\n' ∈ cs := by simpa using mem_of_mem_trim hfeed
  exact (mem_of_mem_splitOn hcs hmem).2 rfl

/-- The text made of lines has these lines. -/
theorem lines_intercalate {ls : List String} (h : ∀ line ∈ ls, IsLine line) :
    lines ("\n".intercalate ls) = ls := by
  have htrim : (ls.map trim).filter (fun line => line != "") = ls := by
    rw [List.map_congr_left fun line hline => (h line hline).trimmed, List.map_id',
      List.filter_eq_self]
    intro line hline
    simpa using (h line hline).ne_empty
  cases ls with
  | nil => rfl
  | cons line ls =>
      have hsplit : (("\n".intercalate (line :: ls)).toList.splitOn '\n') =
          (line :: ls).map String.toList := by
        rw [String.toList_intercalate]
        refine List.splitOn_intercalate '\n' ?_ (List.cons_ne_nil _ _)
        intro cs hcs
        obtain ⟨l, hl, rfl⟩ := List.mem_map.1 hcs
        exact (h l hl).noFeed
      have hlines : Text.lines ("\n".intercalate (line :: ls)) = line :: ls := by
        rw [Text.lines, hsplit, List.map_map]
        exact List.map_id'' (fun l => String.ofList_toList) _
      rw [lines, hlines]
      exact htrim

end Program

namespace Text

theorem toList_eq_toList_data (bytes : ByteArray) : bytes.toList = bytes.data.toList := by
  have hloop (i : Nat) (r : List UInt8) :
      ByteArray.toList.loop bytes i r = r.reverse ++ bytes.data.toList.drop i := by
    fun_induction ByteArray.toList.loop bytes i r with
    | case1 i r h ih =>
        have hget : bytes.get! i = bytes.data.toList[i] := by
          have hdata : bytes.get! i = bytes.data[i]! := by cases bytes; rfl
          rw [hdata, getElem!_pos bytes.data i h, Array.getElem_toList]
        rw [ih, hget, List.drop_eq_getElem_cons h]
        simp
    | case2 i r h =>
        rw [List.drop_eq_nil_of_le (Nat.le_of_not_lt h), List.append_nil]
  simpa [ByteArray.toList] using hloop 0 []

/-- No byte of another character is a line feed. -/
theorem ten_not_mem_utf8EncodeChar {c : Char} (h : c ≠ '\n') : 10 ∉ String.utf8EncodeChar c := by
  have hne : c.val.toNat ≠ 10 := fun heq => h (Char.ext (UInt32.toNat.inj heq))
  have hbyte (n : Nat) (hn : n % 256 ≠ 10) : (10 : UInt8) ≠ UInt8.ofNat n := by
    intro heq
    have := congrArg UInt8.toNat heq
    simp at this
    omega
  have hnext (n : Nat) : (10 : UInt8) ≠ UInt8.ofNat (n % 64 + 128) := hbyte _ (by omega)
  simp only [String.utf8EncodeChar]
  split
  · simp only [List.mem_cons, List.not_mem_nil, or_false]
    exact hbyte _ (by omega)
  · split
    · simp only [List.mem_cons, List.not_mem_nil, or_false, not_or]
      exact ⟨hbyte _ (by omega), hnext _⟩
    · split <;> simp only [List.mem_cons, List.not_mem_nil, or_false, not_or]
      · exact ⟨hbyte _ (by omega), hnext _, hnext _⟩
      · exact ⟨hbyte _ (by omega), hnext _, hnext _, hnext _⟩

theorem toList_toUTF8 (text : String) :
    text.toUTF8.toList = text.toList.flatMap String.utf8EncodeChar := by
  rw [toList_eq_toList_data, String.toUTF8]
  conv_lhs => rw [← String.ofList_toList (s := text)]
  rw [String.toByteArray_ofList, List.utf8Encode, List.data_toByteArray]

theorem fromUTF8?_flatMap (cs : List Char) :
    String.fromUTF8? ⟨(cs.flatMap String.utf8EncodeChar).toArray⟩ = some (String.ofList cs) := by
  have hbytes : (⟨(cs.flatMap String.utf8EncodeChar).toArray⟩ : ByteArray) =
      (String.ofList cs).toByteArray := by
    apply ByteArray.ext
    rw [String.toByteArray_ofList, List.utf8Encode, List.data_toByteArray]
  rw [hbytes, String.fromUTF8?, dif_pos (String.ofList cs).isValidUTF8]
  rfl

/-- Lines as a reader hands them out of a text: without their line ends, which are line feeds or
carriage returns with line feeds, and with or without an empty line at the end. -/
def HandsOut (text : String) (handed : List String) : Prop :=
  ∃ rest, (rest = [] ∨ rest = [""]) ∧
    List.Forall₂ (fun piece line => piece = line ∨ piece = line.push '\r') (lines text)
      (handed ++ rest)

theorem handsOut_lines (text : String) : HandsOut text (lines text) := by
  refine ⟨[], .inl rfl, ?_⟩
  rw [List.append_nil, List.forall₂_same]
  exact fun _ _ => .inl rfl

/-- Trimmed and without empty lines, what is handed out is what a program has for lines. -/
theorem HandsOut.lines_eq {text : String} {handed : List String} (h : HandsOut text handed) :
    (handed.map trim).filter (fun line => line != "") = Program.lines text := by
  obtain ⟨rest, hrest, hpieces⟩ := h
  have htrim : (lines text).map trim = (handed ++ rest).map trim := by
    rw [← List.forall₂_eq_eq_eq, List.forall₂_map_left_iff, List.forall₂_map_right_iff]
    refine hpieces.imp ?_
    rintro piece line (rfl | rfl)
    · rfl
    · exact trim_push (by decide) line
  have hempty : (rest.map trim).filter (fun line => line != "") = [] := by
    rcases hrest with rfl | rfl <;> rfl
  rw [Program.lines, htrim, List.map_append, List.filter_append, hempty, List.append_nil]

end Text

namespace Shell
open Text

/-- The bytes of a text without backspaces are read as its lines. -/
theorem readLines_toUTF8 {text : String} (h : backspace ∉ text.toList) :
    readLines text.toUTF8 = (lines text).map .ok := by
  have hsplit : text.toUTF8.toList.splitOn 10 =
      (text.toList.splitOn '\n').map (List.flatMap String.utf8EncodeChar) := by
    rw [toList_toUTF8]
    exact splitOn_flatMap (a := '\n') (b := 10) rfl (fun _ => ten_not_mem_utf8EncodeChar) _
  rw [readLines, hsplit, lines, List.map_map, List.map_map]
  refine List.map_congr_left fun cs hcs => ?_
  have hclean : backspace ∉ (String.ofList cs).toList := by
    rw [String.toList_ofList]
    exact fun hmem => h (mem_of_mem_splitOn hcs hmem).1
  simp only [Function.comp_apply, readLine, fromUTF8?_flatMap, applyBackspaces_of_not_mem hclean]

end Shell

theorem CommandLine.decode_toUTF8 (text : String) : decode text.toUTF8 = .ok text := by
  have htext : String.fromUTF8? text.toUTF8 = some text := dif_pos text.isValidUTF8
  rw [decode, htext]

end LambdaInt
