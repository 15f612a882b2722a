import LambdaInt.Text.Blank

/-!
Tokens and the scanner. Every text has tokens: the scanner drops blanks, makes one token of each of
the five marks, and cuts the rest into words as long as they go. Which kind a word has is decided
by the word alone.
-/

namespace LambdaInt

/-- The kinds of token of the language. -/
inductive TokenKind
  | letKeyword
  | number
  | lambda
  | dot
  | leftParen
  | rightParen
  | equals
  | name
  deriving DecidableEq

/-- A token is what the parser sees: its kind decides what it is, its text what it is called. -/
structure Token where
  kind : TokenKind
  text : String
  deriving DecidableEq

namespace Token

/-- The token of a character that stands for itself, wherever it is. The Greek letter and the
backslash are two spellings of one mark. -/
def mark? (c : Char) : Option Token :=
  match c with
  | '\\' | 'λ' => some ⟨.lambda, "\\"⟩
  | '.' => some ⟨.dot, "."⟩
  | '(' => some ⟨.leftParen, "("⟩
  | ')' => some ⟨.rightParen, ")"⟩
  | '=' => some ⟨.equals, "="⟩
  | _ => none

/-- A character that belongs to a word. -/
def isWordChar (c : Char) : Bool :=
  !Text.isBlank c && (mark? c).isNone

/-- A word of ASCII digits is a number, `let` is the keyword, and any other word is a name. -/
def ofWord (word : List Char) : Token :=
  if word = ['l', 'e', 't'] then ⟨.letKeyword, "let"⟩
  else if word.all Char.isDigit then ⟨.number, String.ofList word⟩
  else ⟨.name, String.ofList word⟩

/-- The token of a word whose characters were collected last first, if there are any. -/
def flush : List Char → List Token
  | [] => []
  | c :: cs => [ofWord (c :: cs).reverse]

/-- The tokens of a text that continues the word collected so far, last character first. -/
def scanFrom : List Char → List Char → List Token
  | word, [] => flush word
  | word, c :: cs =>
      if Text.isBlank c then flush word ++ scanFrom [] cs
      else match mark? c with
        | some token => flush word ++ token :: scanFrom [] cs
        | none => scanFrom (c :: word) cs

/-- The tokens of a text, in order. -/
def scan (text : String) : List Token :=
  scanFrom [] text.toList

end Token
end LambdaInt
