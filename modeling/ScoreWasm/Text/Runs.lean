/-!
# Runs of code points

A character class given by data is a list of lengths: how many code points in a row are outside
of it, how many after them are in it, and so on in turn.
-/

namespace ScoreWasm.Text

/-- Whether a number lies in one of the runs that are in a class. -/
def inRuns : List Nat → Nat → Bool
  | outside :: inside :: rest, n => outside ≤ n && (n < outside + inside || inRuns rest (n - outside - inside))
  | _, _ => false

end ScoreWasm.Text
