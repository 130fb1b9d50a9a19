/-!
# Scanning characters

Cutting, splitting and stripping lists of characters. Text is scanned as a list throughout, so
that every reader is plain recursion.
-/

namespace TraceCoverage.Text

/-- The text before the first separator and the text after it. -/
def cut (sep : Char → Bool) (cs : List Char) : Option (List Char × List Char) :=
  match cs.dropWhile (!sep ·) with
  | [] => none
  | _ :: rest => some (cs.takeWhile (!sep ·), rest)

/-- The pieces between separators. There is always at least one. -/
def pieces (sep : Char → Bool) : List Char → List (List Char)
  | [] => [[]]
  | c :: cs =>
    if sep c then [] :: pieces sep cs
    else
      match pieces sep cs with
      | [] => [[c]]
      | p :: ps => (c :: p) :: ps

/-- Drops a leading pair of characters as often as it occurs. -/
def dropPairs (a b : Char) : List Char → List Char
  | x :: y :: rest => if x = a ∧ y = b then dropPairs a b rest else x :: y :: rest
  | cs => cs

/-- The text after `start`, if it starts so. -/
def after? (start cs : List Char) : Option (List Char) :=
  if start.isPrefixOf cs then some (cs.drop start.length) else none

/-- The text before `ending`, if it ends so. -/
def before? (ending cs : List Char) : Option (List Char) :=
  if ending.isSuffixOf cs then some (cs.take (cs.length - ending.length)) else none

def occursIn (part : List Char) : List Char → Bool
  | [] => part.isEmpty
  | c :: cs => part.isPrefixOf (c :: cs) || occursIn part cs

/-- ASCII letters in lower case; every other character stays. -/
def lower (cs : List Char) : List Char := cs.map Char.toLower

end TraceCoverage.Text
