import LambdaInt.Proofs.Lexemes

/-!
The scanner in stages. The text is prepared first: the Greek letter is replaced by the backslash and
every mark gets a space on both sides. Then it is cut at its blanks, and each fragment has the kind
whose rule is the first to accept it. The scanner does all of this at once.
-/

namespace LambdaInt.Token

/-- A character that is a token by itself, once the Greek letter is replaced. -/
def isSpecial (c : Char) : Bool :=
  ['\\', '.', '(', ')', '='].contains c

/-- The text with a space on both sides of every mark. -/
def padded (cs : List Char) : List Char :=
  cs.flatMap fun c => if isSpecial c then [' ', c, ' '] else [c]

/-- What stands between the blanks, where anything does. -/
def fragments (cs : List Char) : List (List Char) :=
  (cs.splitOnP Text.isBlank).filter fun fragment => !fragment.isEmpty

/-- How fragments of a kind are recognised. -/
structure Rule where
  kind : TokenKind
  accepts : List Char → Bool

/-- The rules in the order in which they are tried. Names come last, since the rule for them accepts
numbers and the keyword, too. -/
def rules : List Rule :=
  [⟨.letKeyword, fun fragment => fragment == ['l', 'e', 't']⟩,
    ⟨.number, fun fragment => !fragment.isEmpty && fragment.all Char.isDigit⟩,
    ⟨.lambda, fun fragment => fragment == ['\\']⟩,
    ⟨.dot, fun fragment => fragment == ['.']⟩,
    ⟨.leftParen, fun fragment => fragment == ['(']⟩,
    ⟨.rightParen, fun fragment => fragment == [')']⟩,
    ⟨.equals, fun fragment => fragment == ['=']⟩,
    ⟨.name, fun fragment =>
      !fragment.isEmpty && fragment.all fun c => !Text.isBlank c && !isSpecial c⟩]

/-- The kind of a fragment: a name, if no rule accepts it. -/
def classify (fragment : List Char) : TokenKind :=
  ((rules.find? fun rule => rule.accepts fragment).map Rule.kind).getD .name

def ofFragment (fragment : List Char) : Token :=
  ⟨classify fragment, String.ofList fragment⟩

/-- The tokens of a text, stage by stage. -/
def scanInStages (text : String) : List Token :=
  (fragments (padded (text.toList.map spelling))).map ofFragment

theorem padded_cons (c : Char) (cs : List Char) :
    padded (c :: cs) = (if isSpecial c then [' ', c, ' '] else [c]) ++ padded cs :=
  List.flatMap_cons

theorem isSpecial_of_isWordChar {c : Char} (h : isWordChar c = true) : isSpecial c = false := by
  have hc := (isWordChar_iff.1 h).2
  simp only [List.mem_cons, not_or] at hc
  simp [isSpecial, hc]

theorem isSpecial_spelling {c : Char} {token : Token} (h : mark? c = some token) :
    isSpecial (spelling c) = true ∧ Text.isBlank (spelling c) = false := by
  unfold mark? at h
  split at h <;> cases h <;> decide

theorem spelling_of_isBlank {c : Char} (h : Text.isBlank c = true) :
    spelling c = c ∧ isSpecial c = false := by
  have hne (d : Char) (hd : Text.isBlank d = false) : c ≠ d := by
    rintro rfl
    rw [h] at hd
    cases hd
  refine ⟨if_neg (hne 'λ' (by decide)), ?_⟩
  simp [isSpecial, hne '\\' (by decide), hne '.' (by decide), hne '(' (by decide),
    hne ')' (by decide), hne '=' (by decide)]

theorem fragments_word {word : List Char} (h : ∀ c ∈ word, Text.isBlank c = false) :
    fragments word = [word].filter fun fragment => !fragment.isEmpty := by
  rw [fragments, List.splitOnP_eq_singleton h]

/-- A blank ends the fragment before it. -/
theorem fragments_append_cons {word : List Char} (h : ∀ c ∈ word, Text.isBlank c = false) {c : Char}
    (hc : Text.isBlank c = true) (cs : List Char) :
    fragments (word ++ c :: cs) = fragments word ++ fragments cs := by
  rw [fragments_word h, fragments, List.splitOnP_append_cons_of_forall_mem h c hc,
    ← List.singleton_append, List.filter_append]
  rfl

/-- A mark is a fragment. -/
theorem fragments_mark {word : List Char} (h : ∀ c ∈ word, Text.isBlank c = false) {c : Char}
    (hc : Text.isBlank c = false) (cs : List Char) :
    fragments (word ++ [' ', c, ' '] ++ cs) = fragments word ++ [c] :: fragments cs := by
  have hspace : Text.isBlank ' ' = true := by decide
  have hmark : ∀ d ∈ [c], Text.isBlank d = false := by simpa using hc
  rw [List.append_assoc]
  calc
    fragments (word ++ ' ' :: ([c] ++ ' ' :: cs))
      = fragments word ++ fragments ([c] ++ ' ' :: cs) := fragments_append_cons h hspace _
    _ = fragments word ++ (fragments [c] ++ fragments cs) := by
      rw [fragments_append_cons hmark hspace]
    _ = fragments word ++ [c] :: fragments cs := by
      rw [fragments_word hmark]
      rfl

theorem ofFragment_of_mark? {c : Char} {token : Token} (h : mark? c = some token) :
    ofFragment [spelling c] = token := by
  unfold mark? at h
  split at h <;> cases h <;> rfl

/-- The rules agree with the scanner on words: those of the marks do not accept any. -/
theorem ofFragment_word {word : List Char} (ne : word ≠ [])
    (h : ∀ c ∈ word, isWordChar c = true) : ofFragment word = ofWord word := by
  have hmark (c : Char) (hc : isWordChar c = false) : (word == [c]) = false := by
    rw [beq_eq_false_iff_ne]
    rintro rfl
    rw [h c (List.mem_singleton_self c)] at hc
    cases hc
  have hempty : word.isEmpty = false := List.isEmpty_eq_false_iff.2 ne
  have hnames : (word.all fun c => !Text.isBlank c && !isSpecial c) = true := by
    refine List.all_eq_true.2 fun c hc => ?_
    simp [(isWordChar_iff.1 (h c hc)).1, isSpecial_of_isWordChar (h c hc)]
  unfold ofFragment ofWord classify rules
  split
  · rename_i hlet
    rw [hlet]
    rfl
  · rename_i hlet
    split
    · rename_i hdigits
      simp [hlet, hempty, hdigits]
    · rename_i hdigits
      simp [hlet, hdigits, hempty, hnames, hmark '\\' (by decide), hmark '.' (by decide),
        hmark '(' (by decide), hmark ')' (by decide), hmark '=' (by decide)]

theorem map_ofFragment_fragments {word : List Char} (h : ∀ c ∈ word, isWordChar c = true) :
    (fragments word.reverse).map ofFragment = flush word := by
  have hword : ∀ c ∈ word.reverse, isWordChar c = true := fun c hc => h c (List.mem_reverse.1 hc)
  rw [fragments_word fun c hc => (isWordChar_iff.1 (hword c hc)).1]
  cases word with
  | nil => rfl
  | cons c word =>
      have ne : (c :: word).reverse ≠ [] := List.reverse_ne_nil_iff.2 (List.cons_ne_nil c word)
      rw [List.filter_cons_of_pos (by simp), List.filter_nil, List.map_singleton,
        ofFragment_word ne hword]
      rfl

/-- The scanner is where the stages are when the word so far is yet to be cut off. -/
theorem scanFrom_eq_map_fragments {word : List Char} (h : ∀ c ∈ word, isWordChar c = true)
    (cs : List Char) :
    scanFrom word cs =
      (fragments (word.reverse ++ padded (cs.map spelling))).map ofFragment := by
  have hnil : ∀ c ∈ ([] : List Char), isWordChar c = true := fun c hc => by cases hc
  induction cs generalizing word with
  | nil =>
      rw [List.map_nil, padded, List.flatMap_nil, List.append_nil, map_ofFragment_fragments h]
      rfl
  | cons c cs ih =>
      have hblanks : ∀ d ∈ word.reverse, Text.isBlank d = false := fun d hd =>
        (isWordChar_iff.1 (h d (List.mem_reverse.1 hd))).1
      rw [List.map_cons, padded_cons]
      cases hword : isWordChar c with
      | true =>
          rw [scanFrom_cons_of_isWordChar hword, ih (List.forall_mem_cons.2 ⟨hword, h⟩),
            spelling_of_isWordChar hword, isSpecial_of_isWordChar hword, List.reverse_cons,
            List.append_assoc]
          rfl
      | false =>
          obtain hblank | ⟨hblank, token, hmark⟩ := isBlank_or_mark?_of_separates hword
          · obtain ⟨hspelling, hspecial⟩ := spelling_of_isBlank hblank
            have hcut := fragments_append_cons hblanks hblank (padded (cs.map spelling))
            rw [scanFrom_cons_of_isBlank hblank, ih hnil, hspelling, hspecial,
              if_neg Bool.false_ne_true, List.singleton_append, hcut, List.map_append,
              map_ofFragment_fragments h]
            rfl
          · obtain ⟨hspecial, hkept⟩ := isSpecial_spelling hmark
            have hcut := fragments_mark hblanks hkept (padded (cs.map spelling))
            rw [scanFrom_cons_of_mark? hblank hmark, ih hnil, if_pos hspecial,
              ← List.append_assoc, hcut, List.map_append, List.map_cons,
              map_ofFragment_fragments h, ofFragment_of_mark? hmark]
            rfl

/-- The scanner makes of a text what the stages make of it. -/
theorem scan_eq_scanInStages (text : String) : scan text = scanInStages text :=
  scanFrom_eq_map_fragments (fun c hc => by cases hc) text.toList

end LambdaInt.Token
