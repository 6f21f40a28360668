import ScoreWasm.Cli.Arguments

/-!
# Help

What the program says of its command line.  Lines are at most 78 characters long and are filled word by
word; what an option is for starts in column 24.
-/

namespace ScoreWasm.Cli

/-! ### Filling lines -/

def fillAfter (width : Nat) (line : String) : List String → List String
  | [] => [line]
  | w :: rest =>
    if line.length + 1 + w.length ≤ width then fillAfter width (line ++ " " ++ w) rest
    else line :: fillAfter width w rest

/-- Words in lines of a width; a longer word has a line of its own. -/
def fill (width : Nat) : List String → List String
  | [] => []
  | w :: rest => fillAfter width w rest

def lineWidth : Nat := 78

def textColumn : Nat := 24

def blanks (n : Nat) : String := String.ofList (List.replicate n ' ')

/-! ### Options -/

namespace Opt

def letter? : Opt → Option String
  | help => some "-h"
  | output => some "-o"
  | verbose => some "-v"
  | _ => none

def values : Opt → String
  | help | noBudget | comments | dumpCfg | interpret | verbose => ""
  | output | graphviz | hash | sign | verify => " DIR"
  | ns => " NAMESPACE"
  | budget => " BUDGET"
  | maxDepth => " MAX_DEPTH"
  | jobs => " JOBS"
  | hosts => " FILE"
  | visualize => " FUNC"
  | run => " EXPORT [ARGS ...]"
  | diff => " A B"

def purpose : Opt → String
  | help => "show this help message and exit"
  | output => "Datapack directory to write (default: <input>_datapack)"
  | ns => "Datapack namespace"
  | budget => "Basic blocks executed per tick before deferring to the next tick"
  | noBudget => "Never defer execution to a later tick"
  | maxDepth => "Maximum call depth"
  | jobs => "Functions compiled in parallel"
  | comments => "Annotate block functions with comments"
  | hosts =>
    "Extra host functions: JSON, or one " ++ Text.quoted "module.name(params) -> (results) | cmd; cmd"
      ++ " per line"
  | dumpCfg => "Print the control-flow graph of every function"
  | graphviz => "Export one Graphviz SVG control-flow graph per function into DIR"
  | visualize => "Render the control-flow graph of a function (index or export name)"
  | run => "Run an exported function in the command simulator"
  | interpret => "With --run, also run the module on wasmtime and compare"
  | hash => "Compute the digest of a datapack"
  | diff => "Compare two datapack directories"
  | sign => "Sign the manifest digest of a datapack"
  | verify => "Verify a signed datapack"
  | verbose => "More logging"

def forms (o : Opt) : List String := (o.letter?.toList ++ [o.name]).map (· ++ o.values)

def usage (o : Opt) : String := "[" ++ o.forms.headD "" ++ "]"

end Opt

/-! ### The text -/

def usageLines : List String :=
  let start := "usage: wasmcraft "
  match fill (lineWidth - start.length) (Opt.all.map Opt.usage) ++ ["[input]"] with
  | [] => []
  | first :: rest => (start ++ first) :: rest.map (blanks start.length ++ ·)

/-- What something is called and what it is for, beside each other if the name is short enough. -/
def entryLines (name purpose : String) : List String :=
  let lines := fill (lineWidth - textColumn) (Text.splitOn ' ' purpose)
  let head := "  " ++ name
  match lines with
  | [] => [head]
  | first :: rest =>
    if head.length + 2 ≤ textColumn then
      (head ++ blanks (textColumn - head.length) ++ first) :: rest.map (blanks textColumn ++ ·)
    else head :: lines.map (blanks textColumn ++ ·)

def helpText : String :=
  let lines := usageLines
    ++ ["", "Compile WebAssembly modules into Minecraft datapacks", "", "positional arguments:"]
    ++ entryLines "input" "WebAssembly binary module (.wasm)"
    ++ ["", "options:"]
    ++ Opt.all.flatMap (fun o => entryLines (Text.join ", " o.forms) o.purpose)
  Text.join "\n" lines ++ "\n"

def Exit.output : Exit → String
  | help => helpText
  | misuse => ""

end ScoreWasm.Cli
