import ScoreWasm.Emit.Script

/-!
# Choosing by a number

A register selects one of many commands.  A few cases are tested one after another; more are split
into groups, each tested as a whole and then continued in a function of its own, so that the number of
tests grows with the logarithm of the number of cases.
-/

namespace ScoreWasm.Emit

/-- What is to be done for the numbers of a range. -/
structure Case (α : Type) where
  lo : Int
  hi : Int
  body : α
  deriving Repr

/-- A line of a choice: what to do for a range, where to go on for a range, and what to do
otherwise. -/
inductive Choice (α : Type) where
  | leaf (range : Range) (body : α)
  | group (range : Range) (path : String)
  | otherwise (body : α)
  deriving Repr

/-- The lines of a choice, and the functions that it goes on in. -/
structure Dispatch (α : Type) where
  lines : List (Choice α)
  extra : List (String × List (Choice α))

def Case.range {α : Type} (c : Case α) : Range := .between c.lo c.hi

def groupRange {α : Type} (cases : List (Case α)) : Range :=
  ⟨cases.head?.map Case.lo, cases.getLast?.map Case.hi⟩

/-- Cuts a list into groups of a size; `fuel` bounds their number. -/
def groupsOf {α : Type} (size : Nat) : Nat → List α → List (List α)
  | 0, _ => []
  | fuel + 1, l => if l.isEmpty then [] else l.take size :: groupsOf size fuel (l.drop size)

/-- Chooses among cases with at most `limit` tests in a function.  The groups are smaller than the
whole, so the number of cases is fuel enough. -/
def dispatchWith {α : Type} (limit : Nat) (default : α) : Nat → String → List (Case α) → Dispatch α
  | fuel, path, cases =>
    let flat : Dispatch α :=
      ⟨cases.map (fun c => .leaf c.range c.body) ++ [.otherwise default], []⟩
    if cases.length ≤ limit then flat
    else match fuel with
      | 0 => flat
      | fuel + 1 =>
        let size := (cases.length + limit - 1) / limit
        let parts := (groupsOf size cases.length cases).zipIdx.map (fun (part, n) =>
          let sub := path ++ "/n" ++ toString n
          let inner := dispatchWith limit default fuel sub part
          (Choice.group (groupRange part) sub, (sub, inner.lines) :: inner.extra))
        ⟨parts.map Prod.fst ++ [.otherwise default], parts.flatMap Prod.snd⟩

def dispatch {α : Type} (limit : Nat) (path : String) (cases : List (Case α)) (default : α) :
    Dispatch α :=
  dispatchWith limit default cases.length path cases

def dispatchLimit : Nat := 8

/-- Why there is no choice within a limit: there can be no groups for a limit of zero, groups of no
cases never end, and a single group is as large as the whole. -/
inductive NoDispatch where
  | zeroLimit
  | emptyGroups
  | endless
  deriving DecidableEq, Repr

/-- Chooses within any limit.  A negative limit leaves only the default, if it is not larger than the
number of cases. -/
def dispatchWithin {α : Type} (limit : Int) (path : String) (cases : List (Case α)) (default : α) :
    Except NoDispatch (Dispatch α) :=
  if 2 ≤ limit || cases.length ≤ limit then .ok (dispatch limit.toNat path cases default)
  else if limit == 1 then .error .endless
  else if limit == 0 then .error .zeroLimit
  else if cases.length < -limit then .error .emptyGroups
  else .ok ⟨[.otherwise default], []⟩

def Choice.command (ns : String) (r : Reg) : Choice Command → Command
  | leaf range body => .execute [within r range] body
  | group range path => .execute [within r range] (goto ns path)
  | otherwise body => body

def Choice.text (ns : String) (r : Reg) : Choice String → String
  | leaf range body => "execute " ++ (within r range).render ++ " run " ++ body
  | group range path => "execute " ++ (within r range).render ++ " run " ++ (goto ns path).render
  | otherwise body => body

def choiceScript (ns : String) (r : Reg) (choices : List (Choice Command)) : Script :=
  ⟨choices.map (fun c => .command (c.command ns r)), []⟩

/-! ### Runs -/

/-- Adds a number to runs of equal values, the last run first: it extends the last run if that ends
right before it with the same value. -/
def extendRuns {α : Type} [BEq α] (n : Int) (v : α) : List (Case α) → List (Case α)
  | [] => [⟨n, n, v⟩]
  | last :: rest =>
    if last.hi == n - 1 && last.body == v then { last with hi := n } :: rest
    else ⟨n, n, v⟩ :: last :: rest

/-- The runs of equal targets of a branch table, without those of the default. -/
def tableRuns {α : Type} [BEq α] (targets : List α) (default : α) : List (Case α) :=
  (targets.zipIdx.foldl (fun runs (target, i) =>
    if target == default then runs else extendRuns i target runs) []).reverse

end ScoreWasm.Emit
