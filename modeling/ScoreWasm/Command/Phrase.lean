import ScoreWasm.Command.Register
import ScoreWasm.Command.Render

/-!
# Commands as phrases

A command whose parts are only known as text, such as one with placeholders for registers, is put
together from phrases.
-/

namespace ScoreWasm.Phrase

def score (reg : String) : String := (Reg.score reg).render

def within (reg range : String) : String := "score " ++ score reg ++ " matches " ++ range

def compare (a sign b : String) : String := "score " ++ score a ++ " " ++ sign ++ " " ++ score b

def holds (condition : String) : String := "if " ++ condition

def fails (condition : String) : String := "unless " ++ condition

def operate (a sign b : String) : String :=
  "scoreboard players operation " ++ score a ++ " " ++ sign ++ " " ++ score b

def copy (dst src : String) : String := operate dst "=" src

def given (conditions : List String) (command : String) : String :=
  "execute " ++ Text.join " " conditions ++ " run " ++ command

def test (reg : String) (conditions : List String) : String :=
  "execute store result score " ++ score reg ++ " " ++ Text.join " " conditions

def call (name : String) : String := "function " ++ name

def callWith (name storage place : String) : String :=
  call name ++ " with storage " ++ storage ++ " " ++ place

def goto (name : String) : String := "return run " ++ call name

end ScoreWasm.Phrase
