/-!
# White space and line breaks

White space here is the Unicode notion: the blanks of the standard together with the ASCII
information separators.  Line breaks are the wider set used when a text is cut into lines.
Everything works on lists of characters, so that the laws are inductions on the list.
-/

namespace ScoreWasm.Text

/-- White space: ASCII blanks and separators, next line, and the Unicode space separators. -/
def isBlank (c : Char) : Bool :=
  let n := c.toNat
  (9 ≤ n && n ≤ 13) || (28 ≤ n && n ≤ 32) || n == 0x85 || n == 0xa0 || n == 0x1680
    || (0x2000 ≤ n && n ≤ 0x200a) || n == 0x2028 || n == 0x2029 || n == 0x202f
    || n == 0x205f || n == 0x3000

/-- The characters that end a line; a carriage return joins with a following line feed. -/
def isLineBreak (c : Char) : Bool :=
  let n := c.toNat
  (10 ≤ n && n ≤ 13) || (28 ≤ n && n ≤ 30) || n == 0x85 || n == 0x2028 || n == 0x2029

/-- `cs` without the characters satisfying `p` at either end. -/
def stripBy (p : Char → Bool) (cs : List Char) : List Char :=
  ((cs.dropWhile p).reverse.dropWhile p).reverse

def stripRightBy (p : Char → Bool) (cs : List Char) : List Char :=
  (cs.reverse.dropWhile p).reverse

def strip (s : String) : String :=
  String.ofList (stripBy isBlank s.toList)

/-- One step of cutting at separators: the piece being read, reversed, and the pieces before it. -/
def cutStep (sep : Char → Bool) (state : List Char × List (List Char)) (c : Char) :
    List Char × List (List Char) :=
  if sep c then ([], state.1.reverse :: state.2) else (c :: state.1, state.2)

/-- The pieces of `cs` between the characters satisfying `sep`; `n` separators give `n + 1` pieces. -/
def cut (sep : Char → Bool) (cs : List Char) : List (List Char) :=
  let state := cs.foldl (cutStep sep) ([], [])
  (state.1.reverse :: state.2).reverse

def splitOn (sep : Char) (s : String) : List String :=
  (cut (· == sep) s.toList).map String.ofList

/-- The maximal runs of characters that are not white space. -/
def words (s : String) : List String :=
  ((cut isBlank s.toList).filter (fun w => !w.isEmpty)).map String.ofList

/-- One step of cutting into lines.  `afterReturn` says that the last character was a carriage
return, so that a line feed here belongs to the break already made. -/
def lineStep (state : Bool × List Char × List (List Char)) (c : Char) :
    Bool × List Char × List (List Char) :=
  let (afterReturn, current, done) := state
  if afterReturn && c == '\n' then (false, current, done)
  else if isLineBreak c then (c == '\r', [], current.reverse :: done)
  else (false, c :: current, done)

/-- The lines of a text.  A break at the very end starts no further line. -/
def lines (s : String) : List String :=
  let (_, current, done) := s.toList.foldl lineStep (false, [], [])
  let all := if current.isEmpty then done else current.reverse :: done
  all.reverse.map String.ofList

/-- The part of `cs` before the first occurrence of `mark`, and the part after it if there is one. -/
def splitFirst (mark : List Char) : List Char → List Char → List Char × Option (List Char)
  | seen, [] => (seen.reverse, if mark.isEmpty then some [] else none)
  | seen, c :: cs =>
    if mark.isPrefixOf (c :: cs) then (seen.reverse, some ((c :: cs).drop mark.length))
    else splitFirst mark (c :: seen) cs

def before (mark : String) (s : String) : String :=
  String.ofList (splitFirst mark.toList [] s.toList).1

def cutAt? (mark : String) (s : String) : Option (String × String) :=
  match splitFirst mark.toList [] s.toList with
  | (left, some right) => some (String.ofList left, String.ofList right)
  | (_, none) => none

/-- Replaces every occurrence of a non-empty `mark`, from left to right, by `by_`.  `fuel` bounds
the number of characters looked at. -/
def replaceChars (mark by_ : List Char) : Nat → List Char → List Char → List Char
  | 0, out, _ => out.reverse
  | _, out, [] => out.reverse
  | fuel + 1, out, c :: cs =>
    if mark.isPrefixOf (c :: cs) then
      replaceChars mark by_ fuel (by_.reverse ++ out) ((c :: cs).drop mark.length)
    else replaceChars mark by_ fuel (c :: out) cs

def replace (s mark by_ : String) : String :=
  if mark.isEmpty then s
  else String.ofList (replaceChars mark.toList by_.toList s.length [] s.toList)

def drop (n : Nat) (s : String) : String :=
  String.ofList (s.toList.drop n)

def join (sep : String) : List String → String
  | [] => ""
  | s :: rest => rest.foldl (fun acc t => acc ++ sep ++ t) s

def startsWith (mark s : String) : Bool :=
  mark.toList.isPrefixOf s.toList

end ScoreWasm.Text
