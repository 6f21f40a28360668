import ScoreWasm.Emit.Script
import ScoreWasm.Proofs.Command.Words
import ScoreWasm.Proofs.Data.Fields
import ScoreWasm.Proofs.Machine.Steps

/-!
# What commands keep

Carrying out a command keeps the fields suited that are put into lines, and leaves the agenda alone unless
the command is about it (`keeps_execWithin`).  Commands come at levels: a function of a level calls functions
below it only, and goes on in functions of its own level at most.
-/

namespace ScoreWasm

open Emit Text List

variable {path : String} {G : String → Prop}

/-! ### Levels -/

/-- Functions of the library by how deep the calls in them go. -/
def helperLayers : List (Nat × List String) :=
  [(4, ["rt/mem/load64", "rt/mem/store64", "rt/i64/divs"]),
   (3, ["rt/mem/load16", "rt/mem/load32", "rt/mem/load32_unaligned", "rt/mem/store16", "rt/mem/store32",
     "rt/mem/store32_unaligned", "rt/mem/fill", "rt/mem/fill_head", "rt/mem/fill_words", "rt/mem/fill_tail",
     "rt/i64/divu", "rt/i64/rotl", "rt/i64/rotr"]),
   (2, ["rt/mem/load8", "rt/mem/store8", "rt/mem/grow", "rt/i32/rotl", "rt/i32/rotr", "rt/i64/mul",
     "rt/i64/divu_step", "rt/i64/shl", "rt/i64/shl_big", "rt/i64/shr_u", "rt/i64/shr_u_big", "rt/i64/shr_s",
     "rt/i64/shr_s_big", "rt/i64/clz", "rt/i64/ctz", "rt/i64/popcnt", "rt/turtle/set", "rt/turtle/get",
     "rt/turtle/fill", "rt/turtle/copy", "rt/turtle/paste", "rt/turtle/paste_masked"])]

/-- Whether a function is one that others call and get back from. -/
def isHelper (path : String) : Bool :=
  ["rt/i32/", "rt/i64/", "rt/f32/", "rt/f64/", "rt/mem/", "rt/table/", "rt/turtle/", "rt/reset",
    "rt/tick"].any (startsWith · path)

/-- The level of a function. -/
def level (path : String) : Nat :=
  if path = "init" then 6
  else if isHelper path then ((helperLayers.find? (·.2.contains path)).map Prod.fst).getD 1
  else 5

theorem level_helper (path : String) : 0 < ((helperLayers.find? (·.2.contains path)).map Prod.fst).getD 1
      ∧ ((helperLayers.find? (·.2.contains path)).map Prod.fst).getD 1 < 5 := by
  cases h : helperLayers.find? (·.2.contains path) with
  | none => decide
  | some l => exact (by decide : ∀ l ∈ helperLayers, 0 < l.1 ∧ l.1 < 5) l (mem_of_find?_eq_some h)

theorem level_pos (path : String) : 0 < level path := by
  have := level_helper path
  unfold level
  split
  · decide
  · split <;> omega

theorem level_le_five (h : path ≠ "init") : level path ≤ 5 := by
  have := level_helper path
  rw [level, if_neg h]
  split <;> omega

theorem level_lt_five (h : isHelper path = true) : level path < 5 := by
  have hne : path ≠ "init" := by
    rintro rfl
    exact absurd h (by decide)
  rw [level, if_neg hne, if_pos h]
  exact (level_helper path).2

/-! ### Commands of a level -/

/-- A namespace, and whether its functions may put off the rest of a run. -/
structure Home where
  ns : String
  timed : Bool

/-- The function that goes on with a run that was put off. -/
def Home.resume (H : Home) : String := inNamespace H.ns "rt/resume"

/-- The names of functions that frames go on in. -/
def Home.Names (H : Home) (s : String) : Prop := Lacks ' ' s ∧ s ≠ inNamespace H.ns "init"

/-- A path a number may be stored at. -/
def Path.takesNumber (path : Path) : Bool := path.dropLast.all PathStep.isPlain && path.getLast? != some (.key "k")

/-- A store of a number where one may be put. -/
def Store.Suited (s : Store) : Prop :=
  match s.target with
  | .score _ => True
  | .data _ path kind _ => (Machine.storeWidth? kind).isSome = true ∧ path.takesNumber = true

/-- A literal source is suited. -/
def Source.Suited (G : String → Prop) : Source → Prop
  | .value v => v.Suited G
  | _ => True

/-- A command of a function of a level, given whether it takes the place of the function.  It has nothing to
do with the agenda. -/
def Command.Fits (H : Home) (n : Nat) : Bool → Command → Prop
  | tail, .function name args =>
    (∀ path, name = inNamespace H.ns path → level path + (if tail then 0 else 1) ≤ n) ∧ ∀ es, args ≠ some (.inline es)
  | tail, .execute clauses c => (∀ s, .store s ∈ clauses → s.Suited) ∧ c.Fits H n tail
  | _, .check clauses => ∀ s, .store s ∈ clauses → s.Suited
  | _, .retRun c => c.Fits H n true
  | _, .setData _ path src => path.all PathStep.isPlain = true ∧ src.Suited H.Names
  | _, .appendData _ path src => path.all PathStep.isPlain = true ∧ src.Suited H.Names
  | _, .schedule _ _ _ => False
  | _, .unschedule _ => False
  | _, _ => True

theorem Command.Fits.mono {H : Home} {m n : Nat} (hmn : m ≤ n) {c : Command} :
    ∀ {tail : Bool}, c.Fits H m tail → c.Fits H n tail := by
  induction c <;> grind [Command.Fits]

theorem leads_of_takesNumber {path : Path} (h : path.takesNumber = true) (i : Int) :
    Heap.Suited.Leads G (.int i) path := by
  simp only [Path.takesNumber, Bool.and_eq_true, bne_iff_ne, ne_eq] at h
  refine ⟨h.1, ?_⟩
  rintro s hs k rfl
  exact ⟨fun hk => absurd (hk ▸ hs) h.2, fun _ => ⟨i, rfl⟩⟩

theorem leads_of_isPlain {path : Path} (h : path.all PathStep.isPlain = true) (d : Datum) :
    Heap.Suited.Leads G d path := by
  rw [all_eq_true] at h
  exact ⟨all_eq_true.mpr fun s hs => h s (mem_of_mem_dropLast hs),
    fun s hs => PathStep.takes_of_isPlain (h s (mem_of_getLast? hs)) d⟩

namespace Machine

open Std.Do

set_option mvcgen.warning false

variable {path : Path} {src : Source}

/-- A world with suited fields and an agenda with a property, which may depend on the time. -/
def Sound (H : Home) (S : List Scheduled → Int → Prop) (w : World) : Prop :=
  w.heap.Suited H.Names ∧ S w.scheduled w.time

/-- A computation keeps a world sound, whether it ends or stops, and its result has a property. -/
abbrev Keeps {α : Type} (H : Home) (S : List Scheduled → Int → Prop) (x : Run α) (Q : α → Prop) : Prop :=
  ⦃fun w => ⌜Sound H S w⌝⦄ x ⦃post⟨fun a w => ⌜Sound H S w ∧ Q a⌝, fun _ w => ⌜Sound H S w⌝⟩⦄

variable {α : Type} {H : Home} {S : List Scheduled → Int → Prop} {w w' : World}

theorem of_triple {x : Run α} {P : World → Prop} {Q : α → World → Prop} {E : Fault → World → Prop}
    (h : ⦃fun w => ⌜P w⌝⦄ x ⦃post⟨fun a w => ⌜Q a w⌝, fun f w => ⌜E f w⌝⟩⦄) {a : α} (hw : P w) (hx : x w = .ok a w') :
    Q a w' := by
  have := h w hw
  simp only [wp, PredTrans.apply, show EStateM.run x w = .ok a w' from hx] at this
  exact this

section

variable {x : Run α} {Q : α → Prop} (h : Keeps H S x Q) (hw : Sound H S w)
include h hw

theorem Keeps.ok {a : α} (hx : x w = .ok a w') : Sound H S w' ∧ Q a :=
  of_triple h hw hx

theorem Keeps.error {f : Fault} (hx : x w = .error f w') : Sound H S w' := by
  have := h w hw
  simp only [wp, PredTrans.apply, show EStateM.run x w = .error f w' from hx] at this
  exact this

end

theorem discard_eq_map (x : Run α) : discard x = (fun _ => ()) <$> x := rfl

/-! ### Scores and blocks -/

@[spec] theorem keeps_fail (b : Bool) (f : Fault) : Keeps H S (fail b f) fun o => o.control = .next := by
  mvcgen [fail, Outcome.of]

@[spec] theorem keeps_readScore (b : Bool) (s : Score) : Keeps H S (readScore b s) fun _ => True := by
  mvcgen [readScore]

@[spec] theorem keeps_writeScore (s : Score) (v : Int) : Keeps H S (writeScore s v) fun _ => True := by
  mvcgen [writeScore]

@[spec] theorem keeps_operate (b : Bool) (s t : Score) (op : ScoreOp) : Keeps H S (operate b s op t) fun _ => True := by
  mvcgen [operate] <;> simp_all

@[spec] theorem keeps_evalTest (b : Bool) (t : Test) : Keeps H S (evalTest b t) fun _ => True := by
  cases t <;> mvcgen [evalTest] <;> simp_all

@[spec] theorem keeps_evalClauses (b : Bool) {P : Store → Prop} : ∀ (cs : List Clause) {stores : List Store},
    (∀ s, .store s ∈ cs → P s) → (∀ s ∈ stores, P s) → Keeps H S (evalClauses b cs stores) fun r => ∀ s ∈ r.1, P s
  | [], stores, _, hs => by
    mvcgen [evalClauses]
    simp_all
  | .store s :: rest, stores, hc, hs => by
    exact keeps_evalClauses b rest (fun t ht => hc t (.tail _ ht)) (by simp_all)
  | .holds t :: rest, stores, hc, hs | .fails t :: rest, stores, hc, hs => by
    have hrest := keeps_evalClauses b rest (fun t ht => hc t (.tail _ ht)) hs
    mvcgen [evalClauses, hrest] <;> simp_all

@[spec] theorem keeps_draw (p : Program) (lo hi : Int) :
    Keeps H S (draw p lo hi) fun o => o.control = .next := by
  mvcgen [draw, Outcome.of]

@[spec] theorem keeps_fillBox (b : Bool) (x y : BlockPos) (id : String) :
    Keeps H S (fillBox b x y id) fun o => o.control = .next := by
  mvcgen [fillBox, Outcome.of]

@[spec] theorem keeps_cloneBox (b : Bool) (x y dest : BlockPos) (mode : CloneMode) :
    Keeps H S (cloneBox b x y dest mode) fun o => o.control = .next := by
  mvcgen [cloneBox, Outcome.of]

/-! ### Data -/

@[spec] theorem keeps_onHeap {f : Heap → α × Heap}
    (hf : ∀ h, h.Suited H.Names → (f h).2.Suited H.Names) : Keeps H S (onHeap f) fun _ => True := by
  mvcgen [onHeap]
  rename_i w hw _
  exact ⟨hf _ hw.1, hw.2⟩

theorem Sound.root (h : Sound H S w) (id : String) : Sound H S (w.root id).2 := by
  unfold World.root
  split
  · exact h
  · exact ⟨h.1.alloc fun e he => (nomatch he), h.2⟩

@[spec] theorem keeps_writeData (id : String) {d : Datum} (h : Heap.Suited.Leads H.Names d path) :
    Keeps H S (writeData id path d) fun _ => True := by
  mvcgen [writeData]
  · exact fun g hg => hg.assign h _
  · exact Sound.root ‹_› id

@[spec] theorem keeps_removeData (id : String) (path : Path) : Keeps H S (removeData id path) fun _ => True := by
  mvcgen [removeData]
  · exact fun g hg => hg.remove path _
  · exact Sound.root ‹_› id

@[spec] theorem keeps_applyStore (b : Bool) (value : Option Int) {s : Store} (h : s.Suited) :
    Keeps H S (applyStore b value s) fun _ => True := by
  obtain ⟨mode, target⟩ := s
  cases target with
  | score c => mvcgen [applyStore]
  | data id path kind scale =>
    obtain ⟨bits, hbits⟩ := Option.isSome_iff_exists.mp h.1
    have hleads := leads_of_takesNumber (G := H.Names) h.2
    simp only [applyStore, hbits]
    mvcgen [scaled, floorOf, discard_eq_map] with grind

@[spec] theorem keeps_applyStores (b : Bool) (value : Option Int) : ∀ {stores : List Store},
    (∀ s ∈ stores, s.Suited) → Keeps H S (applyStores b stores value) fun _ => True
  | [], _ => by mvcgen [applyStores, List.forM]
  | s :: rest, h => by
    have hrest := keeps_applyStores b value fun t ht => h t (.tail _ ht)
    show Keeps H S (do applyStore b value s; applyStores b rest value) _
    mvcgen [hrest] with grind

@[spec] theorem keeps_copyOf (d : Datum) : Keeps H S (copyOf d) fun _ => True := by
  mvcgen [copyOf]
  · intro h hh
    split
    · rename_i hc
      exact (hh.copy? _ hc).1
    · exact hh
  · assumption

@[spec] theorem keeps_literalData (line : String) {v : Nbt} (h : v.Suited H.Names) :
    Keeps H S (literalData line v) fun _ => True := by
  have hload : ∀ g : Heap, g.Suited H.Names → (Heap.load v g).2.Suited H.Names := fun g hg => hg.load h
  mvcgen [literalData] with grind [Sound]

@[spec] theorem keeps_sourceData (line : String) (h : src.Suited H.Names) :
    Keeps H S (sourceData line src) fun _ => True := by
  have hints : ∀ ws, (Nbt.ints ws).Suited H.Names := fun ws => by simp [Nbt.ints, Nbt.Suited, Nbt.isContainer]
  cases src <;> mvcgen [sourceData] with grind [Source.Suited]

@[spec] theorem keeps_listAt (id : String) (h : path.all PathStep.isPlain = true) :
    Keeps H S (listAt id path) fun _ => True := by
  have hlist : ∀ g : Heap, g.Suited H.Names → (g.alloc (.list #[])).2.Suited H.Names := fun g hg => hg.alloc trivial
  have hleads := leads_of_isPlain (G := H.Names) h
  mvcgen [listAt] with grind

@[spec] theorem keeps_appendData (b : Bool) (line id : String) (hpath : path.all PathStep.isPlain = true)
    (hsrc : src.Suited H.Names) : Keeps H S (appendData b line id path src) fun o => o.control = .next := by
  have happend : ∀ a d (g : Heap), g.Suited H.Names → (g.update a (Container.append d)).Suited H.Names :=
    fun a d g hg => hg.update a fun c hc => hc.append d
  mvcgen [appendData, Outcome.of] with grind

@[spec] theorem keeps_measure (x : Binary64) (d : Datum) : Keeps H S (measure x d) fun _ => True := by
  cases d <;> mvcgen [measure, scaled, floorOf]

/-! ### Chat -/

theorem keeps_headText (fields : List (String × Json)) : Keeps H S (headText fields) fun _ => True := by
  mvcgen [headText, componentScore]

mutual

@[spec] theorem keeps_chatText : ∀ (depth : Nat) (j : Json), Keeps H S (chatText depth j) fun _ => True
  | _, .str _ | _, .null | _, .bool _ | _, .int _ | _, .float _ => by mvcgen [chatText]
  | depth, .arr items => by
    exact keeps_chatTexts depth items
  | depth, .obj fields => by
    have hhead := keeps_headText (H := H) (S := S) fields
    have hextra := keeps_extraText depth fields
    mvcgen [chatText, hhead, hextra] with grind

theorem keeps_chatTexts : ∀ (depth : Nat) (js : List Json), Keeps H S (chatTexts depth js) fun _ => True
  | _, [] => by mvcgen [chatTexts]
  | depth, j :: rest => by
    have hj := keeps_chatText (depth - 1) j
    have hrest := keeps_chatTexts depth rest
    mvcgen [chatTexts, hj, hrest] with grind

theorem keeps_extraText : ∀ (depth : Nat) (fields : List (String × Json)),
    Keeps H S (extraText depth fields) fun _ => True
  | _, [] => by mvcgen [extraText]
  | depth, (name, .arr items) :: rest => by
    have hitems := keeps_chatTexts depth items
    have hrest := keeps_extraText depth rest
    mvcgen [extraText, hitems, hrest]
  | depth, (name, .str _) :: rest | depth, (name, .obj _) :: rest | depth, (name, .null) :: rest
  | depth, (name, .bool _) :: rest | depth, (name, .int _) :: rest | depth, (name, .float _) :: rest => by
    have hrest := keeps_extraText depth rest
    mvcgen [extraText, hrest]

end

/-! ### Commands -/

/-- What may come after a command of a function of a level. -/
def Control.Fits (H : Home) (n : Nat) (tail : Bool) : Control → Prop
  | .invoke call =>
    (∀ path, call.name = inNamespace H.ns path → level path + (if call.tail || tail then 0 else 1) ≤ n) ∧
      (∀ v, call.args ≠ some (.value v)) ∧ ∀ s ∈ call.stores, s.Suited
  | _ => True

@[spec] theorem keeps_invocation (name : String) (args : Option Arguments) :
    Keeps H S (invocation name args) fun o => ∃ a, o.control = .invoke ⟨name, a, false, []⟩ ∧
      ((∀ es, args ≠ some (.inline es)) → ∀ v, a ≠ some (.value v)) := by
  mvcgen [invocation] with grind

/-- **A command of a level keeps a world sound, and what comes after it is of that level.** -/
theorem keeps_execWithin {n : Nat} (p : Program) (line : String) (c : Command) : ∀ {tail : Bool} (depth : Nat),
    c.Fits H n tail → Keeps H S (execWithin p line depth c) fun out => out.control.Fits H n tail := by
  induction c with
  | execute clauses body ih =>
    rintro tail depth ⟨hs, hb⟩
    have hbody := ih (depth - 1) hb
    mvcgen [execWithin, Outcome.of, hbody] <;> grind [Control.Fits]
  | retRun body ih =>
    intro tail depth h
    have hbody := ih (depth - 1) h
    mvcgen [execWithin, hbody] <;> grind [Control.Fits]
  | check clauses =>
    intro tail depth h
    mvcgen [execWithin, Outcome.of] <;> grind [Control.Fits]
  | function name args =>
    rintro tail depth ⟨hl, ha⟩
    mvcgen [execWithin]
    grind [Control.Fits]
  | setData id path src =>
    rintro tail depth ⟨hpath, hsrc⟩
    have hleads := leads_of_isPlain (G := H.Names) hpath
    mvcgen [execWithin, Outcome.of] <;> grind [Control.Fits]
  | appendData id path src =>
    rintro tail depth ⟨hpath, hsrc⟩
    mvcgen [execWithin, Outcome.of] <;> grind [Control.Fits]
  | schedule name ticks mode | unschedule name => exact fun _ h => h.elim
  | resetScore holder objective =>
    intro tail depth h
    cases objective <;> mvcgen [execWithin, Outcome.of]
  | _ =>
    intro tail depth h
    mvcgen [execWithin, Outcome.of] <;> grind [Control.Fits]

end Machine

end ScoreWasm
