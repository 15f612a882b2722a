import LambdaInt.Text.GraphemeBreak

/-!
Grapheme clusters: the pieces of a text that a reader takes for single characters. Whether a
character continues the cluster before it depends on that cluster alone. The clusters of a text
are the text again.
-/

namespace LambdaInt.Text

open GraphemeBreak in
/-- Whether a character of kind `next` continues a cluster of the given kinds, last first. -/
def joins : List GraphemeBreak → GraphemeBreak → Bool
  | [], _ => false
  | last :: before, next =>
      if last.isControl || next.isControl then last == carriageReturn && next == lineFeed
      else if next.attaches || last == prepend then true
      else
        match next with
        | leading | openSyllable | closedSyllable => last == leading
        | vowel => last == leading || last == openSyllable || last == vowel
        | trailing =>
            last == openSyllable || last == vowel || last == closedSyllable || last == trailing
        | consonant =>
            let links := (last :: before).takeWhile isLinking
            links.contains linker &&
              ((last :: before).drop links.length).head? == some consonant
        | pictograph => last == joiner && (before.dropWhile isExtend).head? == some pictograph
        | indicator => ((last :: before).takeWhile (· == indicator)).length % 2 == 1
        | _ => false

/-- The clusters of a text that continues a cluster, of which the characters and their kinds are
given last first. -/
def clustersFrom (cluster : List Char) (kinds : List GraphemeBreak) : List Char → List (List Char)
  | [] => [cluster.reverse]
  | c :: cs =>
      let kind := GraphemeBreak.ofChar c
      if joins kinds kind then clustersFrom (c :: cluster) (kind :: kinds) cs
      else cluster.reverse :: clustersFrom [c] [kind] cs

def clusters : List Char → List (List Char)
  | [] => []
  | c :: cs => clustersFrom [c] [GraphemeBreak.ofChar c] cs

theorem flatten_clustersFrom (cluster : List Char) (kinds : List GraphemeBreak) (cs : List Char) :
    (clustersFrom cluster kinds cs).flatten = cluster.reverse ++ cs := by
  induction cs generalizing cluster kinds with
  | nil => simp [clustersFrom]
  | cons c cs ih =>
      simp only [clustersFrom]
      split
      · simp [ih]
      · simp [ih]

theorem flatten_clusters (cs : List Char) : (clusters cs).flatten = cs := by
  cases cs with
  | nil => rfl
  | cons c cs => simp [clusters, flatten_clustersFrom]

end LambdaInt.Text
