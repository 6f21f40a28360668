import ScoreWasm.Command.Parse
import ScoreWasm.Command.Render

/-!
# Lines of a function

A function is a list of lines: commands, templates with placeholders such as `$(p)` that are filled
in when the function runs, and comments.  A line that is only known as text is kept as text and read
when it runs.
-/

namespace ScoreWasm

inductive Segment where
  | text (s : String)
  | hole (name : String)
  deriving DecidableEq, Repr

inductive Line where
  | command (c : Command)
  | template (segments : List Segment)
  | text (s : String)

namespace Segment

def isNameChar (c : Char) : Bool := c.isAlphanum || c == '_'

/-- A placeholder at the front of the characters: its name and what follows. -/
def hole? (cs : List Char) : Option (String × List Char) :=
  match cs with
  | '$' :: '(' :: rest =>
    let name := rest.takeWhile isNameChar
    match rest.drop name.length with
    | ')' :: after => if name.isEmpty then none else some (String.ofList name, after)
    | _ => none
  | _ => none

/-- Cuts characters into segments; each step takes at least one. -/
def cutHoles : Nat → List Char → List Segment → List Char → List Segment
  | 0, pending, done, _ => (Segment.text (String.ofList pending.reverse) :: done).reverse
  | _, pending, done, [] => (Segment.text (String.ofList pending.reverse) :: done).reverse
  | fuel + 1, pending, done, c :: cs =>
    match hole? (c :: cs) with
    | some (name, rest) =>
      cutHoles fuel [] (.hole name :: .text (String.ofList pending.reverse) :: done) rest
    | none => cutHoles fuel (c :: pending) done cs

def ofText (s : String) : List Segment := cutHoles s.length [] [] s.toList

def render : Segment → String
  | text s => s
  | hole name => "$(" ++ name ++ ")"

end Segment

namespace Line

def ofText (s : String) : Line :=
  match s.toList with
  | '$' :: rest => .template (Segment.ofText (String.ofList rest))
  | _ => .text s

def render : Line → String
  | command c => c.render
  | template segments => "$" ++ String.join (segments.map Segment.render)
  | text s => s

end Line

end ScoreWasm
