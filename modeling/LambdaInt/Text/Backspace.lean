import LambdaInt.Text.Cluster

/-!
Backspaces in a line that was not typed at a terminal. Each takes back the grapheme cluster before
it that is not yet taken back. The size of a cluster is kept in one byte, so that of a cluster of
256 bytes or more only a part is taken back, and there is no result if that part ends inside a
character. A line without backspaces is unchanged.
-/

namespace LambdaInt.Text

def backspace : Char :=
  '\x08'

/-- The size of a cluster in UTF-8, as far as one byte can hold it. -/
def storedSize (cluster : List Char) : Nat :=
  cluster.foldl (fun size c => size + c.utf8Size) 0 % 256

/-- Takes as many bytes as given from characters that are listed last first, if that takes no
character apart. -/
def takeBack : Nat → List Char → Option (List Char)
  | size, [] => if size = 0 then some [] else none
  | size, c :: cs =>
      if size = 0 then some (c :: cs)
      else if c.utf8Size ≤ size then takeBack (size - c.utf8Size) cs
      else none

/-- Carries out the backspaces among the clusters that follow a text. The characters of the text and
the sizes of its clusters are listed last first. -/
def retype (text : List Char) (sizes : List Nat) : List (List Char) → Option (List Char)
  | [] => some text.reverse
  | cluster :: rest =>
      if cluster = [backspace] then
        match sizes with
        | [] => retype text [] rest
        | size :: sizes =>
            match takeBack size text with
            | some text => retype text sizes rest
            | none => none
      else retype (cluster.reverse ++ text) (storedSize cluster :: sizes) rest

def applyBackspaces (line : String) : Option String :=
  (retype [] [] (clusters line.toList)).map String.ofList

theorem retype_of_forall_ne {rest : List (List Char)}
    (h : ∀ cluster ∈ rest, cluster ≠ [backspace]) (text : List Char) (sizes : List Nat) :
    retype text sizes rest = some (text.reverse ++ rest.flatten) := by
  induction rest generalizing text sizes with
  | nil => simp [retype]
  | cons cluster rest ih =>
      have hrest : ∀ c ∈ rest, c ≠ [backspace] := fun c hc => h c (by simp [hc])
      simp [retype, h cluster (by simp), ih hrest]

theorem applyBackspaces_of_not_mem {line : String} (h : backspace ∉ line.toList) :
    applyBackspaces line = some line := by
  have hne : ∀ cluster ∈ clusters line.toList, cluster ≠ [backspace] := by
    rintro cluster hmem rfl
    refine h ?_
    rw [← flatten_clusters line.toList]
    exact List.mem_flatten.2 ⟨[backspace], hmem, by simp⟩
  simp [applyBackspaces, retype_of_forall_ne hne, flatten_clusters]

end LambdaInt.Text
