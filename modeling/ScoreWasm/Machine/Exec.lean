import ScoreWasm.Machine.Program

/-!
# One command

`exec` carries out one command and says what comes next: nothing special, the entry into a function,
or the end of the running function.  In a strict program a score that is read must be set and data
that is addressed must exist; otherwise such a command just has no result.
-/

namespace ScoreWasm.Machine

open Std Word

def maxBlocks : Nat := 32768

/-- The arguments of a function with placeholders: a value that was handed over, or a compound that is
read anew for every placeholder. -/
inductive Entries where
  | value (v : Json)
  | stored (address : Nat)

/-- A function about to be entered: as a tail it takes the place of the running one, otherwise its
outcome goes to the stores. -/
structure Invocation where
  name : String
  args : Option Entries
  tail : Bool
  stores : List Store

inductive Control where
  | next
  | invoke (call : Invocation)
  | ret (value : Option Int)

structure Outcome where
  value : Option Int
  control : Control

def Outcome.of (value : Option Int) : Outcome := ⟨value, .next⟩

/-! ### State access -/

/-- Stops a strict run; otherwise the command just has no result. -/
def fail (strict : Bool) (f : Fault) : Run Outcome :=
  if strict then throw f else pure (.of none)

def readScore (strict : Bool) (s : Score) : Run (Option Int) := do
  match (← get).scores.get? s with
  | some v => return some v
  | none => if strict then throw (.unsetScore s.holder s.objective) else return none

def writeScore (s : Score) (v : Int) : Run Unit := do
  if (← get).scores.has s.objective then
    modify (fun w => { w with scores := w.scores.set s v })
  else throw (.unknownObjective s.objective)

/-- Writes a value at a path of a storage; the answer says whether the path could be followed. -/
def writeData (id : String) (path : Path) (v : Datum) : Run Bool := do
  let root ← modifyGet (World.root · id)
  onHeap (Heap.assign path root v)

def removeData (id : String) (path : Path) : Run Bool := do
  let root ← modifyGet (World.root · id)
  onHeap (Heap.remove path root)

def noInteger : NoInteger → Fault
  | .infinite => .tooLarge
  | .notANumber => .number .notANumber

def scaled (i : Int) (scale : Binary64) : Run Binary64 :=
  match Binary64.ofInt? i with
  | some x => return x.mul scale
  | none => throw .tooLarge

def floorOf (x : Binary64) : Run Int :=
  match x.floor with
  | .ok i => return i
  | .error e => throw (noInteger e)

def storeWidth? : StoreKind → Option Nat
  | .byte => some 8
  | .short => some 16
  | .int => some 32
  | .long => some 64
  | .other _ => none

/-- Keeps an outcome as a store asks: the result, or whether there was one. -/
def applyStore (strict : Bool) (value : Option Int) (s : Store) : Run Unit := do
  let kept : Int := match s.mode with
    | .success => if value.isSome then 1 else 0
    | .result => value.getD 0
  match s.target with
  | .score c => writeScore c kept
  | .data id path kind scale =>
    let x ← scaled kept scale
    let number ← match storeWidth? kind with
      | some bits => do pure (Datum.int ((← floorOf x).bmod (2 ^ bits)))
      | none => pure (Datum.float x)
    if !(← writeData id path number) then
      discard (fail strict (.cannotStore id path))

def applyStores (strict : Bool) (stores : List Store) (value : Option Int) : Run Unit :=
  stores.forM (applyStore strict value)

/-! ### Scores -/

/-- The value that an arithmetic operation gives; division by zero leaves the target as it is. -/
def ScoreOp.outcome? (op : ScoreOp) (a b : Int) : Option Int :=
  match op with
  | .add => some (wrap32 (a + b))
  | .sub => some (wrap32 (a - b))
  | .mul => some (wrap32 (a * b))
  | .div => some (if b == 0 then a else wrap32 (a.fdiv b))
  | .mod => some (if b == 0 then a else a.fmod b)
  | .min => some (min a b)
  | .max => some (max a b)
  | .assign | .swap | .other _ => none

def operate (strict : Bool) (target : Score) (op : ScoreOp) (source : Score) : Run (Option Int) := do
  let b := (← readScore strict source).getD 0
  if op == .assign then
    writeScore target b
    return some b
  let a := (← readScore strict target).getD 0
  if op == .swap then
    writeScore target b
    writeScore source a
    return some b
  match ScoreOp.outcome? op a b with
  | some v =>
    writeScore target v
    return some v
  | none => throw (.unknownOperation op.sign)

def Comparison.holds? (op : Comparison) (a b : Int) : Option Bool :=
  match op with
  | .lt => some (decide (a < b))
  | .le => some (decide (a ≤ b))
  | .eq => some (a == b)
  | .gt => some (decide (b < a))
  | .ge => some (decide (b ≤ a))
  | .other _ => none

/-- Whether a test holds; one on a score that is not set does not. -/
def evalTest (strict : Bool) : Test → Run Bool
  | .within s range => do
    match ← readScore strict s with
    | some v => return range.contains v
    | none => return false
  | .compare a op b => do
    let left ← readScore strict a
    let right ← readScore strict b
    match left, right with
    | some x, some y =>
      match Comparison.holds? op x y with
      | some r => return r
      | none => throw (.unknownComparison op.sign)
    | _, _ => return false
  | .block pos id => return (← get).blockAt pos == id
  | .data id path => return ((← get).find? id path).isSome

/-- Goes through clauses in order up to a test that turns out wrong: the stores met, and whether all
tests came out right. -/
def evalClauses (strict : Bool) : List Clause → List Store → Run (List Store × Bool)
  | [], stores => return (stores.reverse, true)
  | .store s :: rest, stores => evalClauses strict rest (s :: stores)
  | .holds t :: rest, stores => do
    if ← evalTest strict t then evalClauses strict rest stores else return (stores.reverse, false)
  | .fails t :: rest, stores => do
    if ← evalTest strict t then return (stores.reverse, false) else evalClauses strict rest stores

/-! ### Data -/

/-- The number that `data get` gives: a size, or the value of a number times a scale, rounded
down. -/
def measure (scale : Binary64) : Datum → Run Int
  | .int i => do floorOf (← scaled i scale)
  | .float x => floorOf (x.mul scale)
  | .str s => return Text.size s
  | .ref a => return (((← get).heap.get? a).map Container.size).getD 0

def copyOf (d : Datum) : Run Datum := do
  match ← onHeap (fun h => match (Heap.copy? Heap.depthLimit d).run h with
    | some (d, h) => (some d, h)
    | none => (none, h)) with
  | some d => return d
  | none => throw .tooDeep

/-- A value as a line writes it down.  A tree whose copies share nothing with it is made anew every time;
any other is made once for the line and copied. -/
def literalData (line : String) (v : Nbt) : Run Datum := do
  if v.copiesWhole then onHeap (Heap.load v)
  else
    match (← get).literals[line]? with
    | some a => copyOf (.ref a)
    | none =>
      match ← onHeap (Heap.load v) with
      | .ref a =>
        modify (fun w => { w with literals := w.literals.insert line a })
        copyOf (.ref a)
      | d => return d

/-- The data of a source, if there is any, for a place of its own. -/
def sourceData (line : String) : Source → Run (Option Datum)
  | .value v => some <$> literalData line v
  | .words ws => some <$> literalData line (Nbt.ints ws)
  | .place id path => do
    match (← get).find? id path with
    | some d => some <$> copyOf d
    | none => return none

/-- The list at a path, which is made if nothing is there; `none` if there is something else or no way
to it. -/
def listAt (id : String) (path : Path) : Run (Option Nat) := do
  let w ← get
  match w.find? id path with
  | some (.ref a) =>
    match w.heap.get? a with
    | some (.list _) => return some a
    | _ => return none
  | some _ => return none
  | none =>
    let a ← onHeap (Heap.alloc (.list #[]))
    return if ← writeData id path (.ref a) then some a else none

def appendData (strict : Bool) (line id : String) (path : Path) (source : Source) : Run Outcome := do
  let value ← sourceData line source
  match ← listAt id path, value with
  | some a, some v =>
    onHeap (fun h => ((), h.update a (Container.append v)))
    return .of (some ((((← get).heap.get? a).map Container.size).getD 0 : Nat))
  | _, _ => fail strict (.cannotAppend id path)

/-! ### Chat -/

/-- A score named in a chat component: its holder and objective may be any JSON value, but only
texts name a score. -/
def componentScore (score : Json) : Run (Option Int) := do
  match score with
  | .obj _ =>
    match score.field? "name", score.field? "objective" with
    | some name, some objective =>
      match name, objective with
      | _, .arr _ => throw .wrongType
      | _, .obj _ => throw .wrongType
      | .arr _, _ => throw .wrongType
      | .obj _, _ => throw .wrongType
      | .str holder, .str objective => return (← get).scores.get? ⟨holder, objective⟩
      | _, _ => return none
    | none, _ => throw (.missingKey "name")
    | some _, none => throw (.missingKey "objective")
  | _ => throw .wrongType

/-- The leading text of a chat object: the value of its score if it names one, else its text; `none`
if that is no text. -/
def headText (fields : List (String × Json)) : Run (Option String) := do
  match fields.find? (fun f => f.1 == "score") with
  | some (_, score) =>
    match ← componentScore score with
    | some v => return some (toString v)
    | none => return some ""
  | none =>
    match fields.find? (fun f => f.1 == "text") with
    | some (_, .str s) => return some s
    | some _ => return none
    | none => return some ""

mutual

/-- The text of a chat component, which may be nested to a depth: a string, the parts of a list, or an
object with a leading text and further parts. -/
def chatText (depth : Nat) : Json → Run String
  | .str s => return s
  | .arr items => chatTexts depth items
  | .obj fields => do
    let head ← headText fields
    let after ← extraText depth fields
    match head with
    | some s => return s ++ after
    | none => throw .wrongType
  | _ => throw .noAttribute

def chatTexts (depth : Nat) : List Json → Run String
  | [] => return ""
  | c :: rest => do
    if depth == 0 then throw .tooDeep
    let s ← chatText (depth - 1) c
    return s ++ (← chatTexts depth rest)

def extraText (depth : Nat) : List (String × Json) → Run String
  | [] => return ""
  | (name, v) :: rest =>
    if name == "extra" then
      match v with
      | .arr items => chatTexts depth items
      | .str s => return s
      | .obj fields => return String.join (fields.map Prod.fst)
      | _ => throw .wrongType
    else extraText depth rest

end

/-! ### Blocks -/

def corners (a b : BlockPos) : BlockPos × BlockPos :=
  (⟨min a.x b.x, min a.y b.y, min a.z b.z⟩, ⟨max a.x b.x, max a.y b.y, max a.z b.z⟩)

def span (lo hi : Int) : List Int := (List.range (hi - lo + 1).toNat).map (fun (k : Nat) => lo + k)

def region? (low high : BlockPos) : Option (List BlockPos) :=
  let volume := (high.x - low.x + 1) * (high.y - low.y + 1) * (high.z - low.z + 1)
  if volume > maxBlocks then none
  else some ((span low.x high.x).flatMap (fun x =>
    (span low.y high.y).flatMap (fun y => (span low.z high.z).map (fun z => ⟨x, y, z⟩))))

def fillBox (strict : Bool) (a b : BlockPos) (id : String) : Run Outcome := do
  let (low, high) := corners a b
  match region? low high with
  | none => fail strict (.tooManyBlocks "fill" maxBlocks)
  | some positions =>
    modify (fun w => { w with blocks := positions.foldl (fun m p => m.insert p id) w.blocks })
    return .of (some positions.length)

def cloneBox (strict : Bool) (a b dest : BlockPos) (mode : CloneMode) : Run Outcome := do
  let (low, high) := corners a b
  match region? low high with
  | none => fail strict (.tooManyBlocks "clone" maxBlocks)
  | some positions =>
    let shift : BlockPos := ⟨dest.x - low.x, dest.y - low.y, dest.z - low.z⟩
    let overlaps (d l h s : Int) : Bool := d ≤ h && l ≤ h + s
    if overlaps dest.x low.x high.x shift.x && overlaps dest.y low.y high.y shift.y
        && overlaps dest.z low.z high.z shift.z then
      fail strict .cloneOverlap
    else
      let w ← get
      let copied := positions.filterMap (fun p =>
        let id := w.blockAt p
        if mode == .masked && id == "minecraft:air" then none
        else some (BlockPos.mk (p.x + shift.x) (p.y + shift.y) (p.z + shift.z), id))
      modify (fun w =>
        { w with blocks := copied.foldl (fun m (p, id) => m.insert p id) w.blocks })
      return .of (some copied.length)

/-! ### Commands -/

def invocation (name : String) : Option Arguments → Run Outcome
  | none => return ⟨none, .invoke ⟨name, none, false, []⟩⟩
  | some (.inline entries) =>
    return ⟨none, .invoke ⟨name, some (.value (Nbt.compound entries).outline), false, []⟩⟩
  | some (.storage id path) => do
    let w ← get
    match w.find? id path with
    | some (.ref a) =>
      match w.heap.get? a with
      | some (.compound _) => return ⟨none, .invoke ⟨name, some (.stored a), false, []⟩⟩
      | _ => throw (.noCompound name id path)
    | _ => throw (.noCompound name id path)

/-- A random value of a range, the next one of the stream. -/
def draw (p : Program) (lo hi : Int) : Run Outcome := do
  let k := (← get).drawn
  modify (fun w => { w with drawn := k + 1 })
  return .of (some (lo + p.draws k % (hi - lo + 1)))

/-- Carries out a command of a line, whose bodies may be nested to a depth. -/
def execWithin (p : Program) (line : String) (depth : Nat) : Command → Run Outcome
  | .addObjective name => do
    if (← get).scores.has name then return .of none
    modify (fun w => { w with scores := { w.scores with objectives := w.scores.objectives ++ [name] } })
    return .of (some 1)
  | .setScore s v => do
    writeScore s v
    return .of (some (wrap32 v))
  | .addScore s n => do
    let v := ((← readScore p.strict s).getD 0) + n
    writeScore s v
    return .of (some (wrap32 v))
  | .getScore s => return .of (← readScore p.strict s)
  | .resetScore holder (some objective) => do
    if objective.isEmpty then
      modify (fun w => { w with scores :=
        w.scores.objectives.foldl (fun b o => b.erase ⟨holder, o⟩) w.scores })
    else modify (fun w => { w with scores := w.scores.erase ⟨holder, objective⟩ })
    return .of (some 1)
  | .resetScore holder none => do
    modify (fun w => { w with scores :=
      w.scores.objectives.foldl (fun b o => b.erase ⟨holder, o⟩) w.scores })
    return .of (some 1)
  | .operate target op source => return .of (← operate p.strict target op source)
  | .check clauses => do
    let (stores, ok) ← evalClauses p.strict clauses []
    let value := if ok then some 1 else none
    applyStores p.strict stores value
    return .of value
  | .execute clauses body => do
    let (stores, ok) ← evalClauses p.strict clauses []
    if ok then
      if depth == 0 then throw .tooDeep
      let out ← execWithin p line (depth - 1) body
      match out.control with
      | .next =>
        applyStores p.strict stores out.value
        return out
      | .invoke call =>
        return if call.tail then out else ⟨out.value, .invoke { call with stores := stores }⟩
      | .ret _ => return out
    else
      applyStores p.strict stores none
      return .of none
  | .function name args => invocation name args
  | .ret value => return ⟨value, .ret value⟩
  | .retRun body => do
    if depth == 0 then throw .tooDeep
    let out ← execWithin p line (depth - 1) body
    match out.control with
    | .next => return ⟨out.value, .ret out.value⟩
    | .invoke call => return ⟨out.value, .invoke { call with tail := true }⟩
    | .ret _ => return out
  | .getData id path scale => do
    match (← get).find? id path with
    | some d => return .of (some (← measure scale d))
    | none => fail p.strict (.nothingAt id path)
  | .removeData id path => do
    if ← removeData id path then return .of (some 1)
    else fail p.strict (.cannotRemove id path)
  | .setData id path source => do
    match ← sourceData line source with
    | none => fail p.strict (.cannotSet id path)
    | some v =>
      if ← writeData id path v then return .of (some 1)
      else fail p.strict (.cannotSet id path)
  | .appendData id path source => appendData p.strict line id path source
  | .schedule name ticks mode => do
    if ticks < 1 then throw .delayTooShort
    if !p.functions.contains name then throw (.unknownFunction name)
    let w ← get
    let time := w.time + ticks
    modify (fun w =>
      let kept := if mode == "replace" then w.scheduled.filter (·.name != name) else w.scheduled
      { w with scheduled := kept ++ [⟨time, name⟩] })
    return .of (some time)
  | .unschedule name => do
    let before := (← get).scheduled.length
    modify (fun w => { w with scheduled := w.scheduled.filter (·.name != name) })
    return .of (some (before - (← get).scheduled.length : Int))
  | .tell component => do
    let line ← chatText Heap.depthLimit component
    modify (fun w => { w with chat := w.chat.push line })
    return .of (some 1)
  | .random range =>
    match range.lo, range.hi with
    | some lo, some hi => if lo ≤ hi then draw p lo hi else throw (.emptyRange lo hi)
    | _, _ => throw .wrongType
  | .setBlock pos id => do
    modify (fun w => { w with blocks := w.blocks.insert pos id })
    return .of (some 1)
  | .fill a b id => fillBox p.strict a b id
  | .clone a b dest mode => cloneBox p.strict a b dest mode

/-- How deep the bodies of a command may be nested to be carried out. -/
def bodyLimit : Nat := 493

def exec (p : Program) (line : String) (c : Command) : Run Outcome := execWithin p line bodyLimit c

end ScoreWasm.Machine
