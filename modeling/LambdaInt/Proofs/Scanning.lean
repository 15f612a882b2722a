import LambdaInt.Numeral
import LambdaInt.Token

/-!
The scanner on texts put together. A separator ends the word before it, so the tokens of a text
with a separator are those of its two sides; and every token of a text is one of the five marks or
a word whose kind its characters decide.
-/

namespace LambdaInt

/-- A character at which every word ends. -/
def Token.Separates (c : Char) : Prop :=
  Token.isWordChar c = false

instance (c : Char) : Decidable (Token.Separates c) :=
  inferInstanceAs (Decidable (_ = false))

namespace Token

/-- The characters of words, listed by what they are not. -/
theorem isWordChar_iff {c : Char} : isWordChar c = true ↔
    Text.isBlank c = false ∧ c ∉ ['\\', '.', '(', ')', '=', 'λ'] := by
  have hmark : mark? c = none ↔ c ∉ ['\\', '.', '(', ')', '=', 'λ'] := by
    unfold mark?
    split <;> simp_all
  rw [isWordChar, Bool.and_eq_true, Bool.not_eq_true', Option.isNone_iff_eq_none, hmark]

theorem scanFrom_cons_of_isBlank {c : Char} (h : Text.isBlank c = true) (word cs : List Char) :
    scanFrom word (c :: cs) = flush word ++ scanFrom [] cs := by
  rw [scanFrom, if_pos h]

theorem scanFrom_cons_of_mark? {c : Char} {token : Token} (hblank : Text.isBlank c = false)
    (hmark : mark? c = some token) (word cs : List Char) :
    scanFrom word (c :: cs) = flush word ++ token :: scanFrom [] cs := by
  rw [scanFrom, if_neg (by simp [hblank]), hmark]

theorem scanFrom_cons_of_isWordChar {c : Char} (h : isWordChar c = true) (word cs : List Char) :
    scanFrom word (c :: cs) = scanFrom (c :: word) cs := by
  simp only [isWordChar, Bool.and_eq_true, Bool.not_eq_true', Option.isNone_iff_eq_none] at h
  rw [scanFrom, if_neg (by simp [h.1]), h.2]

/-- Besides the characters of words there are blanks and marks. -/
theorem isBlank_or_mark?_of_separates {c : Char} (h : Separates c) :
    Text.isBlank c = true ∨ Text.isBlank c = false ∧ ∃ token, mark? c = some token := by
  cases hblank : Text.isBlank c with
  | true => exact .inl rfl
  | false =>
      refine .inr ⟨rfl, Option.isSome_iff_exists.1 ?_⟩
      simpa [Separates, isWordChar, hblank] using h

theorem scanFrom_cons_of_separates {c : Char} (h : Separates c) (word cs : List Char) :
    scanFrom word (c :: cs) = flush word ++ scanFrom [] (c :: cs) := by
  obtain hblank | ⟨hblank, token, hmark⟩ := isBlank_or_mark?_of_separates h
  · rw [scanFrom_cons_of_isBlank hblank, scanFrom_cons_of_isBlank hblank []]
    rfl
  · rw [scanFrom_cons_of_mark? hblank hmark, scanFrom_cons_of_mark? hblank hmark []]
    rfl

/-- Scanning is done separately on the two sides of a separator. -/
theorem scanFrom_append_cons {c : Char} (h : Separates c) (word as cs : List Char) :
    scanFrom word (as ++ c :: cs) = scanFrom word as ++ scanFrom [] (c :: cs) := by
  induction as generalizing word with
  | nil => exact scanFrom_cons_of_separates h word cs
  | cons a as ih =>
      rw [List.cons_append]
      cases hword : isWordChar a with
      | true => rw [scanFrom_cons_of_isWordChar hword, scanFrom_cons_of_isWordChar hword, ih]
      | false =>
          obtain hblank | ⟨hblank, token, hmark⟩ := isBlank_or_mark?_of_separates hword
          · rw [scanFrom_cons_of_isBlank hblank, scanFrom_cons_of_isBlank hblank, ih,
              List.append_assoc]
          · rw [scanFrom_cons_of_mark? hblank hmark, scanFrom_cons_of_mark? hblank hmark, ih,
              List.append_assoc, List.cons_append]

theorem scanFrom_word {word : List Char} (h : ∀ c ∈ word, isWordChar c = true)
    (before : List Char) : scanFrom before word = flush (word.reverse ++ before) := by
  induction word generalizing before with
  | nil => rfl
  | cons c word ih =>
      obtain ⟨hc, hword⟩ := List.forall_mem_cons.1 h
      rw [scanFrom_cons_of_isWordChar hc, ih hword, List.reverse_cons, List.append_assoc]
      rfl

theorem flush_reverse {word : List Char} (ne : word ≠ []) : flush word.reverse = [ofWord word] := by
  obtain ⟨word, rfl⟩ : ∃ rev, word = rev.reverse := ⟨word.reverse, word.reverse_reverse.symm⟩
  rw [List.reverse_reverse]
  cases word with
  | nil => exact absurd rfl ne
  | cons c word => rfl

theorem scanFrom_nil_word {word : List Char} (ne : word ≠ [])
    (h : ∀ c ∈ word, isWordChar c = true) :
    scanFrom [] word = [ofWord word] := by
  rw [scanFrom_word h, List.append_nil, flush_reverse ne]

/-- What the scanner makes: a mark, or a token of a word. -/
inductive IsScanned : Token → Prop
  | mark {c : Char} {token : Token} (h : mark? c = some token) : IsScanned token
  | word {word : List Char} (ne : word ≠ []) (h : ∀ c ∈ word, isWordChar c = true) :
      IsScanned (ofWord word)

theorem isScanned_of_mem_flush {word : List Char} (h : ∀ c ∈ word, isWordChar c = true)
    {token : Token} (htoken : token ∈ flush word) : IsScanned token := by
  cases word with
  | nil => cases htoken
  | cons c word =>
      obtain rfl := List.mem_singleton.1 htoken
      refine .word (by simp) fun a ha => h a (List.mem_reverse.1 ha)

theorem isScanned_of_mem_scanFrom {word cs : List Char} (h : ∀ c ∈ word, isWordChar c = true)
    {token : Token} (htoken : token ∈ scanFrom word cs) : IsScanned token := by
  have hnil : ∀ c ∈ ([] : List Char), isWordChar c = true := fun c hc => by cases hc
  induction cs generalizing word with
  | nil => exact isScanned_of_mem_flush h htoken
  | cons c cs ih =>
      cases hword : isWordChar c with
      | true =>
          rw [scanFrom_cons_of_isWordChar hword] at htoken
          exact ih (List.forall_mem_cons.2 ⟨hword, h⟩) htoken
      | false =>
          obtain hblank | ⟨hblank, mark, hmark⟩ := isBlank_or_mark?_of_separates hword
          · rw [scanFrom_cons_of_isBlank hblank, List.mem_append] at htoken
            obtain htoken | htoken := htoken
            · exact isScanned_of_mem_flush h htoken
            · exact ih hnil htoken
          · rw [scanFrom_cons_of_mark? hblank hmark, List.mem_append, List.mem_cons] at htoken
            obtain htoken | rfl | htoken := htoken
            · exact isScanned_of_mem_flush h htoken
            · exact .mark hmark
            · exact ih hnil htoken

theorem isScanned_of_mem_scan {text : String} {token : Token} (h : token ∈ scan text) :
    IsScanned token :=
  isScanned_of_mem_scanFrom (fun c hc => by cases hc) h

theorem kind_ne_of_mark? {c : Char} {token : Token} (h : mark? c = some token) :
    token.kind ≠ .name ∧ token.kind ≠ .number ∧ token.kind ≠ .letKeyword := by
  unfold mark? at h
  split at h <;> cases h <;> decide

/-- The characters of a name, which are those of a word that is nothing else. -/
theorem IsScanned.name {token : Token} (h : IsScanned token) (hkind : token.kind = .name) :
    token.text ≠ "" ∧ (∀ c ∈ token.text.toList, isWordChar c = true) ∧ token.text ≠ "let" ∧
      token.text.toList.all Char.isDigit = false := by
  cases h with
  | mark h => exact absurd hkind (kind_ne_of_mark? h).1
  | @word word ne h =>
      unfold ofWord at hkind ⊢
      split at hkind
      · cases hkind
      · rename_i hlet
        split at hkind
        · cases hkind
        · rename_i hdigits
          rw [if_neg hlet, if_neg hdigits]
          simp only [String.toList_ofList]
          refine ⟨fun heq => ne ?_, h, fun heq => hlet ?_, by simpa using hdigits⟩
          · simpa using congrArg String.toList heq
          · simpa using congrArg String.toList heq

theorem IsScanned.number {token : Token} (h : IsScanned token) (hkind : token.kind = .number) :
    token.text.toList ≠ [] ∧ token.text.toList.all Char.isDigit = true := by
  cases h with
  | mark h => exact absurd hkind (kind_ne_of_mark? h).2.1
  | @word word ne h =>
      unfold ofWord at hkind ⊢
      split at hkind
      · cases hkind
      · rename_i hlet
        split at hkind
        · rename_i hdigits
          rw [if_neg hlet, if_pos hdigits]
          simp only [String.toList_ofList]
          exact ⟨ne, hdigits⟩
        · cases hkind

end Token

namespace Numeral

theorem digits?_of_digits {cs : List Char} (ne : cs ≠ []) (h : cs.all Char.isDigit = true) :
    digits? cs = some (Nat.ofDigitChars 10 cs 0) :=
  if_pos ⟨ne, h⟩

/-- Digits alone are read without a sign. -/
theorem signed?_of_digits {cs : List Char} (ne : cs ≠ []) (h : cs.all Char.isDigit = true) :
    signed? cs = some (Nat.ofDigitChars 10 cs 0 : Int) := by
  cases cs with
  | nil => exact absurd rfl ne
  | cons c cs =>
      have hc : c.isDigit = true := List.all_eq_true.1 h c List.mem_cons_self
      have hminus : c ≠ '-' := fun heq => by simp [heq] at hc
      have hplus : c ≠ '+' := fun heq => by simp [heq] at hc
      unfold signed?
      split
      · rename_i heq
        exact absurd (List.cons.inj heq).1 hminus
      · rename_i heq
        exact absurd (List.cons.inj heq).1 hplus
      · rw [digits?_of_digits ne h]
        rfl

theorem nonneg_of_int64?_of_digits {text : String} {value : Int64} (ne : text.toList ≠ [])
    (h : text.toList.all Char.isDigit = true) (hvalue : int64? text = some value) :
    0 ≤ value.toInt := by
  simp only [int64?, signed?_of_digits ne h, Option.bind_eq_bind, Option.bind_some] at hvalue
  split at hvalue
  · rename_i hrange
    cases hvalue
    rw [Int64.toInt_ofInt_of_le hrange.1 (Int.lt_of_le_of_lt hrange.2 (by decide))]
    exact Int.natCast_nonneg _
  · cases hvalue

theorem toList_render {value : Int64} (h : 0 ≤ value.toInt) :
    (render value).toList = Nat.toDigits 10 value.toInt.natAbs := by
  simp [render, Int.not_lt.2 h]

theorem all_isDigit_toDigits (n : Nat) : (Nat.toDigits 10 n).all Char.isDigit = true :=
  List.all_eq_true.2 fun _ hc => Nat.isDigit_of_mem_toDigits (by decide) (by decide) hc

/-- An integer without a sign is read back from its numeral. -/
theorem int64?_render {value : Int64} (h : 0 ≤ value.toInt) :
    int64? (render value) = some value := by
  have hdigits : (render value).toList.all Char.isDigit = true := by
    rw [toList_render h]
    exact all_isDigit_toDigits _
  have hne : (render value).toList ≠ [] := by
    rw [toList_render h]
    exact Nat.toDigits_ne_nil
  have hread : Nat.ofDigitChars 10 (render value).toList 0 = value.toInt.natAbs := by
    rw [toList_render h]
    exact Nat.ofDigitChars_ten_toDigits
  have hval : ((value.toInt.natAbs : Nat) : Int) = value.toInt := Int.natAbs_of_nonneg h
  simp only [int64?, signed?_of_digits hne hdigits, hread, hval, Option.bind_eq_bind,
    Option.bind_some]
  rw [if_pos ⟨Int64.minValue_le_toInt value, Int64.toInt_le value⟩, Int64.ofInt_toInt]

theorem ofWord_render {value : Int64} (h : 0 ≤ value.toInt) :
    Token.ofWord (render value).toList = ⟨.number, render value⟩ := by
  have hdigits := all_isDigit_toDigits value.toInt.natAbs
  have hlet : Nat.toDigits 10 value.toInt.natAbs ≠ ['l', 'e', 't'] := fun heq => by
    rw [heq] at hdigits
    exact absurd hdigits (by decide)
  simp only [Token.ofWord, toList_render h, hlet, hdigits, if_false, if_true]
  rw [← toList_render h, String.ofList_toList]

end Numeral
end LambdaInt
