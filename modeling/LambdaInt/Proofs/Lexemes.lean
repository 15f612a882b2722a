import LambdaInt.Proofs.Scanning

/-!
What the scanner keeps of a text. All of it but the blanks is in the tokens, in order; a token is a
mark or a whole word; and the tokens of a text are those of its parts on the two sides of any
separator, so that a text may as well be written anew from its tokens. Together with the token of a
single word and those of a separator this leaves nothing of the scanner open.
-/

namespace LambdaInt.Token

/-- The character as it stands in the text of a token. -/
def spelling (c : Char) : Char :=
  if c = 'λ' then '\\' else c

/-- The characters of a text that are kept, as they stand in the texts of its tokens. -/
def kept (cs : List Char) : List Char :=
  (cs.filter fun c => !Text.isBlank c).map spelling

theorem kept_cons_of_isBlank {c : Char} (h : Text.isBlank c = true) (cs : List Char) :
    kept (c :: cs) = kept cs := by
  simp [kept, h]

theorem kept_cons {c : Char} (h : Text.isBlank c = false) (cs : List Char) :
    kept (c :: cs) = spelling c :: kept cs := by
  simp [kept, h]

theorem text_ofWord (word : List Char) : (ofWord word).text = String.ofList word := by
  unfold ofWord
  split
  · rename_i hlet
    rw [hlet]
  · split <;> rfl

theorem toList_text_ofWord (word : List Char) : (ofWord word).text.toList = word := by
  rw [text_ofWord, String.toList_ofList]

theorem toList_text_of_mark? {c : Char} {token : Token} (h : mark? c = some token) :
    token.text.toList = [spelling c] := by
  unfold mark? at h
  split at h <;> cases h <;> rfl

theorem spelling_of_isWordChar {c : Char} (h : isWordChar c = true) : spelling c = c := by
  have hne : c ≠ 'λ' := fun heq => (isWordChar_iff.1 h).2 (by simp [heq])
  exact if_neg hne

/-- The characters of the texts of tokens, one after the other. -/
def texts (tokens : List Token) : List Char :=
  tokens.flatMap fun token => token.text.toList

@[simp] theorem texts_append (tokens others : List Token) :
    texts (tokens ++ others) = texts tokens ++ texts others :=
  List.flatMap_append

@[simp] theorem texts_cons (token : Token) (tokens : List Token) :
    texts (token :: tokens) = token.text.toList ++ texts tokens :=
  List.flatMap_cons

theorem texts_flush (word : List Char) : texts (flush word) = word.reverse := by
  cases word with
  | nil => rfl
  | cons c word => simp [flush, texts, toList_text_ofWord]

/-- The scanner keeps every character that is not blank. -/
theorem texts_scanFrom (word cs : List Char) :
    texts (scanFrom word cs) = word.reverse ++ kept cs := by
  induction cs generalizing word with
  | nil => rw [scanFrom, texts_flush]; exact (List.append_nil _).symm
  | cons c cs ih =>
      cases hword : isWordChar c with
      | true =>
          have hblank := (isWordChar_iff.1 hword).1
          rw [scanFrom_cons_of_isWordChar hword, ih, kept_cons hblank,
            spelling_of_isWordChar hword, List.reverse_cons, List.append_assoc,
            List.singleton_append]
      | false =>
          obtain hblank | ⟨hblank, token, hmark⟩ := isBlank_or_mark?_of_separates hword
          · rw [scanFrom_cons_of_isBlank hblank, texts_append, texts_flush, ih,
              kept_cons_of_isBlank hblank]
            rfl
          · rw [scanFrom_cons_of_mark? hblank hmark, texts_append, texts_flush, texts_cons, ih,
              toList_text_of_mark? hmark, kept_cons hblank]
            rfl

theorem join_texts (tokens : List Token) :
    String.join (tokens.map Token.text) = String.ofList (texts tokens) := by
  rw [← String.toList_inj, String.toList_join, String.toList_ofList, List.flatMap_map]
  rfl

/-- The five marks, each a token of its own kind. -/
def marks : List Token :=
  [⟨.lambda, "\\"⟩, ⟨.dot, "."⟩, ⟨.leftParen, "("⟩, ⟨.rightParen, ")"⟩, ⟨.equals, "="⟩]

theorem mem_marks_of_mark? {c : Char} {token : Token} (h : mark? c = some token) :
    token ∈ marks := by
  unfold mark? at h
  split at h <;> cases h <;> decide

theorem kind_ofWord (word : List Char) :
    (ofWord word).kind =
      if (ofWord word).text = "let" then .letKeyword
      else if (ofWord word).text.toList.all Char.isDigit then .number
      else .name := by
  have hlet : (ofWord word).text = "let" ↔ word = ['l', 'e', 't'] := by
    rw [← String.toList_inj, toList_text_ofWord]
    rfl
  simp only [hlet, toList_text_ofWord]
  unfold ofWord
  split
  · rfl
  · split <;> rfl

theorem scanFrom_text_of_mark? {c : Char} {token : Token} (h : mark? c = some token) :
    scanFrom [] token.text.toList = [token] := by
  unfold mark? at h
  split at h <;> cases h <;> rfl

/-- The text of a token that the scanner makes has this token only. -/
theorem IsScanned.scanFrom_text {token : Token} (h : token.IsScanned) :
    scanFrom [] token.text.toList = [token] := by
  cases h with
  | mark h => exact scanFrom_text_of_mark? h
  | word ne h => rw [toList_text_ofWord, scanFrom_nil_word ne h]

theorem separates_of_isBlank {c : Char} (h : Text.isBlank c = true) : Separates c := by
  simp [Separates, isWordChar, h]

/-- A blank between two texts only parts them. -/
theorem scanFrom_append_blank {c : Char} (h : Text.isBlank c = true) (as bs : List Char) :
    scanFrom [] (as ++ c :: bs) = scanFrom [] as ++ scanFrom [] bs := by
  rw [scanFrom_append_cons (separates_of_isBlank h), scanFrom_cons_of_isBlank h]
  rfl

/-- Tokens written with spaces between them are read again. -/
theorem scanFrom_intercalate {tokens : List Token} (h : ∀ token ∈ tokens, token.IsScanned) :
    scanFrom [] ([' '].intercalate (tokens.map fun token => token.text.toList)) = tokens := by
  induction tokens with
  | nil => rfl
  | cons token tokens ih =>
      obtain ⟨htoken, htokens⟩ := List.forall_mem_cons.1 h
      cases tokens with
      | nil => simpa using htoken.scanFrom_text
      | cons next tokens =>
          rw [List.map_cons, List.map_cons, List.intercalate_cons_cons, List.append_assoc,
            List.singleton_append, scanFrom_append_blank (by decide), htoken.scanFrom_text]
          exact congrArg (token :: ·) (ih htokens)

/-- The tokens of the two sides of a separator stand before and behind those of the separator. -/
theorem scanFrom_append_separator {c : Char} (h : Separates c) (as bs : List Char) :
    scanFrom [] (as ++ c :: bs) = scanFrom [] as ++ scanFrom [] [c] ++ scanFrom [] bs := by
  have hcons : scanFrom [] (c :: bs) = scanFrom [] [c] ++ scanFrom [] bs := by
    obtain hblank | ⟨hblank, token, hmark⟩ := isBlank_or_mark?_of_separates h
    · rw [scanFrom_cons_of_isBlank hblank, scanFrom_cons_of_isBlank hblank]
      rfl
    · rw [scanFrom_cons_of_mark? hblank hmark, scanFrom_cons_of_mark? hblank hmark]
      rfl
  rw [scanFrom_append_cons h, hcons, List.append_assoc]

theorem separates_iff {c : Char} :
    Separates c ↔ Text.isBlank c = true ∨ c ∈ ['\\', '.', '(', ')', '=', 'λ'] := by
  rw [Separates, ← Bool.not_eq_true, isWordChar_iff, Decidable.not_and_iff_not_or_not,
    Decidable.not_not, Bool.not_eq_false]

/-- The texts of the tokens are the text without blanks, with a backslash for each Greek letter.
Every token is a mark or a word, and its characters decide which kind of word. The texts of the
tokens with spaces between them have the same tokens; a text that is one word has one token; and the
tokens of a text are those before any separator in it, those of the separator and those behind it. -/
theorem scan_lossless_and_compositional (text : String) :
    String.join ((scan text).map Token.text) =
      String.ofList ((text.toList.filter fun c => !Text.isBlank c).map
        fun c => if c = 'λ' then '\\' else c) ∧
    (∀ token ∈ scan text,
      token ∈ marks ∨
      token.text ≠ "" ∧
      (∀ c ∈ token.text.toList,
        Text.isBlank c = false ∧ c ∉ ['\\', '.', '(', ')', '=', 'λ']) ∧
      token.kind =
        if token.text = "let" then .letKeyword
        else if token.text.toList.all Char.isDigit then .number
        else .name) ∧
    scan (" ".intercalate ((scan text).map Token.text)) = scan text ∧
    (∀ word : String, word ≠ "" →
      (∀ c ∈ word.toList, Text.isBlank c = false ∧ c ∉ ['\\', '.', '(', ')', '=', 'λ']) →
      ∃ kind, scan word = [⟨kind, word⟩]) ∧
    (∀ (before after : String) (c : Char),
      Text.isBlank c = true ∨ c ∈ ['\\', '.', '(', ')', '=', 'λ'] →
      scan (before ++ String.singleton c ++ after) =
        scan before ++ scan (String.singleton c) ++ scan after) := by
  refine ⟨?_, fun token htoken => ?_, ?_, fun word hne hword => ?_, fun before after c hc => ?_⟩
  · rw [join_texts, scan, texts_scanFrom]
    rfl
  · cases isScanned_of_mem_scan htoken with
    | mark h => exact .inl (mem_marks_of_mark? h)
    | @word word ne h =>
        refine .inr ⟨fun hempty => ne ?_, fun c hc => ?_, kind_ofWord word⟩
        · rw [← toList_text_ofWord word, hempty]
          rfl
        · rw [toList_text_ofWord] at hc
          exact isWordChar_iff.1 (h c hc)
  · rw [scan, String.toList_intercalate, List.map_map]
    exact scanFrom_intercalate fun token => isScanned_of_mem_scan
  · have ne : word.toList ≠ [] := fun heq => hne (String.toList_eq_nil_iff.1 heq)
    refine ⟨(ofWord word.toList).kind, ?_⟩
    have htext : (ofWord word.toList).text = word := by rw [text_ofWord, String.ofList_toList]
    rw [scan, scanFrom_nil_word ne fun c hc => isWordChar_iff.2 (hword c hc)]
    exact congrArg (fun text => [Token.mk (ofWord word.toList).kind text]) htext
  · simp only [scan, String.toList_append, String.toList_singleton, List.append_assoc,
      List.singleton_append]
    rw [scanFrom_append_separator (separates_iff.2 hc), List.append_assoc]

/-- Letters behind digits, the keyword at the front of a longer word, and a wide space. -/
theorem scan_lossless_and_compositional_glued :
    scan "letf =λ2x.42\u2003let" =
      [⟨.name, "letf"⟩, ⟨.equals, "="⟩, ⟨.lambda, "\\"⟩, ⟨.name, "2x"⟩, ⟨.dot, "."⟩,
        ⟨.number, "42"⟩, ⟨.letKeyword, "let"⟩] ∧
    String.join ((scan "letf =λ2x.42\u2003let").map Token.text) = "letf=\\2x.42let" ∧
    (∀ c ∈ "2x".toList, Text.isBlank c = false ∧ c ∉ ['\\', '.', '(', ')', '=', 'λ']) ∧
    scan "letf = \\ 2x . 42 let" = scan "letf =λ2x.42\u2003let" ∧
    (∃ kind, scan "letf" = [⟨kind, "letf"⟩]) ∧
    scan "letf =λ2x.42\u2003let" = scan "letf =" ++ scan "λ" ++ scan "2x.42\u2003let" := by
  obtain ⟨hjoin, htoken, hagain, hword, hpart⟩ :=
    scan_lossless_and_compositional "letf =λ2x.42\u2003let"
  have hscan : scan "letf =λ2x.42\u2003let" =
      [⟨.name, "letf"⟩, ⟨.equals, "="⟩, ⟨.lambda, "\\"⟩, ⟨.name, "2x"⟩, ⟨.dot, "."⟩,
        ⟨.number, "42"⟩, ⟨.letKeyword, "let"⟩] := by decide +kernel
  have hmem : (⟨.name, "2x"⟩ : Token) ∈ scan "letf =λ2x.42\u2003let" := by
    rw [hscan]
    decide
  have hchars := ((htoken _ hmem).resolve_left (by decide)).2.1
  have hletf : "letf".toList.all isWordChar = true := by decide +kernel
  have hwordChars := fun c hc => isWordChar_iff.1 (List.all_eq_true.1 hletf c hc)
  refine ⟨hscan, hjoin.trans (by decide +kernel), hchars, ?_, hword "letf" (by decide) hwordChars,
    hpart "letf =" "2x.42\u2003let" 'λ' (.inr (by decide))⟩
  rw [hscan] at hagain ⊢
  exact hagain

end LambdaInt.Token
