/-!
White space and the cutting of text at it. A character is blank when it has the Unicode property
`White_Space`, which is twenty-five characters; zero-width spaces and the byte order mark are not
among them. The functions work on lists of characters, and `trim` is the one for strings.
-/

namespace LambdaInt.Text

/-- The Unicode property `White_Space`. -/
def isBlank (c : Char) : Bool :=
  let n := c.toNat
  (0x09 ≤ n && n ≤ 0x0D) || n == 0x20 || n == 0x85 || n == 0xA0 || n == 0x1680 ||
    (0x2000 ≤ n && n ≤ 0x200A) || n == 0x2028 || n == 0x2029 || n == 0x202F || n == 0x205F ||
    n == 0x3000

def trimStart (cs : List Char) : List Char :=
  cs.dropWhile isBlank

def trimEnd (cs : List Char) : List Char :=
  (cs.reverse.dropWhile isBlank).reverse

/-- The text without the blanks at its two ends. -/
def trim (text : String) : String :=
  String.ofList (trimEnd (trimStart text.toList))

/-- The pieces of a text between its line feeds; a carriage return stays with its piece. -/
def lines (text : String) : List String :=
  (text.toList.splitOn '\n').map String.ofList

end LambdaInt.Text
