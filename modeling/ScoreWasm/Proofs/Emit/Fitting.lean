import ScoreWasm.Emit.Function
import ScoreWasm.Proofs.Host.Lines
import ScoreWasm.Proofs.Text.Whole

/-!
# Scripts of a level

All code of a block is of level five: it calls functions of the library, and goes on in other blocks
(`suits_functionCode`).
-/

namespace ScoreWasm

open Text Emit Wasm Machine List ScoreWasm.Except Script Library

/-- The line can be written to a file. -/
def Line.HasBytes : Line → Prop
  | .command _ => True
  | .template segments => ∃ bs, utf8Array (Line.template segments).render = .ok bs
  | .text s => ∃ bs, utf8Array (Line.text s).render = .ok bs

/-- The segments are of plain characters. -/
def arePlain (segments : List Segment) : Bool := segments.all (fun s => isPlain s.render)

/-- A line of a function of a level.  It can be written, and has nothing to do with the agenda. -/
def Line.Fits (H : Home) (n : Nat) : Line → Prop
  | .command c => c.Fits H n false
  | .template segments =>
    arePlain segments = true ∧ ∀ line, Segment.Become H segments line → Reads H n false (splitOn ' ' line)
  | .text _ => False

/-- A line of a function of a level.  It may be a comment, and what a module brings along. -/
def Line.Suits (H : Home) (n : Nat) (l : Line) : Prop :=
  l.Fits H n ∨ (H.timed = true ∧ ∃ c, l = .command c ∧ c.Timed H n) ∨
    ∃ s, l = .text s ∧ (s.toList.head? = some '#' ∨ Reads H n false (splitOn ' ' s))

theorem isPlain_foldl {l : List String} : ∀ {s : String}, isPlain s = true →
    (∀ t ∈ l, isPlain t = true) → isPlain (l.foldl (· ++ ·) s) = true := by
  induction l with
  | nil => exact fun hs _ => hs
  | cons t l ih =>
    intro s hs hl
    refine ih ?_ fun u hu => hl u (mem_cons_of_mem t hu)
    rw [isPlain_append, hs, hl t mem_cons_self]
    rfl

theorem Line.Fits.hasBytes {H : Home} {n : Nat} {l : Line} (h : l.Fits H n) : l.HasBytes := by
  cases l with
  | command c => trivial
  | template segments =>
    refine (whole_of_isPlain ?_).utf8Array
    rw [Line.render, isPlain_append, String.join, isPlain_foldl (by decide)]
    · decide
    · exact forall_mem_map.mpr (all_eq_true.mp h.1)
  | text s => exact h.elim

theorem Except.exists_of_mem_mapM {ε α β : Type} {f : α → Except ε β} {l : List α} {l' : List β}
    (h : l.mapM f = .ok l') {b : β} (hb : b ∈ l') : ∃ a ∈ l, f a = .ok b := by
  obtain ⟨hlen, hall⟩ := mapM_eq_ok h
  obtain ⟨i, hi, rfl⟩ := mem_iff_getElem.mp hb
  obtain ⟨b, hb, hfb⟩ := hall i l[i] (getElem?_eq_getElem (by omega))
  rw [getElem?_eq_getElem hi] at hb
  cases hb
  exact ⟨l[i], getElem_mem .., hfb⟩

namespace Emit

variable {H : Home} {n size limit block func : Nat}

variable {clauses : List Clause} {s : Script} {r : Reg} {path storage a : String} {place : Path}
  {t : ValType} {α : Type} {index : Nat} {b : Flow.Block} {default : Command}

namespace Script

/-- The lines may stand at level `n`. -/
abbrev Fits (H : Home) (n : Nat) (s : Script) : Prop := s.All (Line.Fits H n)

/-- A script of a function of a level, with what a module brings along. -/
abbrev Suits (H : Home) (n : Nat) (s : Script) : Prop := s.All (Line.Suits H n)

theorem Fits.suits (h : s.Fits H n) : s.Suits H n := fun l hl => .inl (h l hl)

theorem Fits.hasBytes (h : s.Fits H n) : s.All Line.HasBytes := fun l hl => (h l hl).hasBytes

end Script

/-! ### Shapes -/

attribute [simp] Line.Fits Command.Fits Store.Suited

attribute [local simp] is isNot atLeast atMost isNegative within outside cmp cmpNot storeIn

@[simp] theorem fits_given (h : ∀ t, Clause.store t ∉ clauses) : (given clauses s).Fits H n ↔ s.Fits H n := by
  show (∀ l ∈ s.lines.map _, _) ↔ _
  rw [forall_mem_map]
  refine forall₂_congr fun l _ => ?_
  cases l <;> simp [h]

@[simp] theorem fits_set (r : Reg) (v : Int) : (set r v).Fits H n := by simp [set]

@[simp] theorem fits_operate (a b : Reg) (op : ScoreOp) : (operate a op b).Fits H n := by
  simp [operate, Script.All]

@[simp] theorem fits_add (r : Reg) (v : Int) : (add r v).Fits H n := by
  simp only [add]
  repeat' split
  all_goals simp

@[simp] theorem fits_copy (a b : Reg) : (copy a b).Fits H n := by
  unfold copy
  split <;> simp

@[simp] theorem fits_copyValue (a b : Reg) (wide : Bool) : (copyValue a b wide).Fits H n := by simp [copyValue]

@[simp] theorem fits_test (h : ∀ t, Clause.store t ∉ clauses) : (test r clauses).Fits H n := by
  simp [test, h]

@[simp] theorem fits_call : (call H.ns path).Fits H n ↔ level path < n := by
  simp [call, inNamespace_inj]

@[simp] theorem fits_callWith : (callWith H.ns path storage place).Fits H n ↔ level path < n := by
  simp [callWith, inNamespace_inj]

theorem fits_goto : (goto H.ns path).Fits H n false ↔ level path ≤ n := by
  simp [goto, inNamespace_inj]

@[simp] theorem fits_jump : (jump H.ns path).Fits H n ↔ level path ≤ n := by
  simp [jump, fits_goto]

@[simp] theorem fits_stop (v : Int) : (stop v).Fits H n := by simp [stop]

@[simp] theorem fits_readData (storage : String) (place : Path) (r : Reg) : (readData H.ns storage place r).Fits H n := by
  simp [readData]

@[simp] theorem fits_writeData : (writeData H.ns storage place r).Fits H n ↔ place.takesNumber = true := by
  simp [writeData, storeWidth?]

@[simp] theorem fits_setData {v : Nbt} :
    (setData H.ns storage place v).Fits H n ↔ place.all PathStep.isPlain = true ∧ v.Suited H.Names := by
  simp [setData, Source.Suited]

/-! ### Where code goes on -/

/-- A function that frames may name. -/
structure Target (path : String) : Prop where
  lacks : Lacks ' ' path
  ne : path ≠ "init"

/-- A function of a block, or of calls through a table. -/
structure Body (path : String) : Prop where
  lacks : Lacks ' ' path
  head : ∃ a ∈ ["f", "rt/icall/"], ∃ b, path = a ++ b

theorem level_append (ha : a ∈ ["f", "rt/icall/", "export/"]) (b : String) : level (a ++ b) = 5 := by
  simp only [mem_cons, not_mem_nil, or_false] at ha
  have hne : a ++ b ≠ "init" := by
    intro h
    have := congrArg String.toList h
    rcases ha with rfl | rfl | rfl <;> simp at this
  rw [level, if_neg hne, if_neg]
  rcases ha with rfl | rfl | rfl <;> simp [isHelper, startsWith]

namespace Body

theorem append (h : Body path) {b : String} (hb : Lacks ' ' b) : Body (path ++ b) := by
  obtain ⟨hl, a, ha, c, rfl⟩ := h
  exact ⟨hl.append hb, a, ha, c ++ b, String.append_assoc ..⟩

theorem level (h : Body path) : level path = 5 := by
  obtain ⟨-, a, ha, b, rfl⟩ := h
  exact level_append (mem_of_mem_dropLast ha) b

theorem target (h : Body path) : Target path := by
  refine ⟨h.lacks, ?_⟩
  rintro rfl
  exact absurd h.level (by decide)

end Body

theorem body_blockPath (f b : Int) : Body (blockPath f b) := by
  unfold blockPath blockPathOf
  refine ⟨?_, "f", by simp, toString f ++ ("/b" ++ toString b), by simp only [String.append_assoc]⟩
  exact (Lacks.append (by decide) (lacks_intText (by decide) (by decide) f)).append
    (by decide) |>.append (lacks_intText (by decide) (by decide) b)

theorem body_indirectPath (t i : Int) : Body (indirectPath t i) := by
  unfold indirectPath indirectPathOf
  refine ⟨?_, "rt/icall/", by simp, "t" ++ (toString t ++ ("_" ++ toString i)), ?_⟩
  · exact (Lacks.append (by decide) (lacks_intText (by decide) (by decide) t)).append (by decide) |>.append
      (lacks_intText (by decide) (by decide) i)
  · rw [show "rt/icall/t" = "rt/icall/" ++ "t" from rfl]
    simp only [String.append_assoc]

theorem level_trapPath (kind : Trap) : level (trapPath kind) = 5 := by cases kind <;> decide

@[simp] theorem fits_trap (kind : Trap) : (trap H.ns kind).Fits H 5 := by simp [trap, level_trapPath]

theorem suited_frameOf (hns : Lacks ' ' H.ns) (h : Target path) : (frameOf (inNamespace H.ns path)).Suited H.Names := by
  have hlacks : Lacks ' ' (inNamespace H.ns path) := (hns.append (by decide)).append h.lacks
  simp [frameOf, Nbt.Suited, Nbt.isContainer, Datum.Suits, Heap.load, numberKeys, Home.Names,
    hlacks, inNamespace_inj, h.ne]

theorem fits_pushFrame (hns : Lacks ' ' H.ns) (h : Target path) : (pushFrame H.ns path).Fits H n := by
  simp [pushFrame, Source.Suited, suited_frameOf hns h, framesPath, PathStep.isPlain, numberKeys]

/-! ### Operators -/

theorem isHelper_append (h : isHelper a = true) (b : String) : isHelper (a ++ b) = true := by
  simp only [isHelper, any_eq_true, startsWith, isPrefixOf_iff_prefix] at h ⊢
  obtain ⟨p, hp, h⟩ := h
  exact ⟨p, hp, h.trans (by simp)⟩

@[simp] theorem level_append_lt {b : String} (h : isHelper a = true) : level (a ++ b) < 5 :=
  level_lt_five (isHelper_append h b)

@[simp] theorem fits_binary32 (op : IntBin) (a b : Reg) (c : Option Int) : (binary32 H.ns op a b c).Fits H 5 := by
  unfold binary32 divide32 divS remS divU bitwise32 shift32 shiftConst
  repeat' split
  all_goals simp +decide [helper32, clearSign, testMask]

@[simp] theorem fits_compare32 (op : IntRel) (a b : Reg) : (compare32 op a b).Fits H n := by
  unfold compare32
  split <;> simp [biasedPair]
  split <;> simp

@[simp] theorem fits_binary64 (op : IntBin) (a b : Reg) : (binary64 H.ns op a b).Fits H 5 := by
  unfold binary64 add64 sub64 divide64 shift64
  split <;> simp +decide [helper32, helper64, biasedPair]

@[simp] theorem fits_compare64 (op : IntRel) (a b : Reg) : (compare64 op a b).Fits H n := by
  unfold compare64 order64
  repeat' split
  all_goals simp [biasedPair]

@[simp] theorem fits_orderInto (w : Width) (a b : Reg) : (orderInto H.ns w a b).Fits H 5 := by
  cases w <;> simp +decide [orderInto]

theorem fits_loadAt (op : LoadOp) (target : Reg) : (loadAt H.ns op target).Fits H 5 := by
  unfold loadAt accessPath
  dsimp only
  repeat' split
  all_goals simp +decide [signExtend, signIntoHigh, testMask]

theorem fits_storeAt (bytes : Nat) (value : Reg) : (storeAt H.ns bytes value).Fits H 5 := by
  unfold storeAt accessPath
  split <;> simp +decide

theorem fits_boundsCheck (address : Reg) (offset : Int) (width : Nat) : (boundsCheck H.ns address offset width).Fits H 5 := by
  unfold boundsCheck
  dsimp only
  split <;> simp

/-! ### Instructions -/

/-- What a step of writing code gives has a property. -/
def Gives {α : Type} (Q : α → Prop) (x : Lower α) : Prop := ∀ s a s', x s = .ok (a, s') → Q a

namespace Gives

variable {β : Type} {Q : α → Prop} {R : β → Prop}

variable {x : Lower α} {f : α → Lower β}

theorem any (x : Lower α) : Gives (fun _ => True) x := fun _ _ _ _ => trivial

theorem mono {R : α → Prop} (h : Gives Q x) (hQR : ∀ a, Q a → R a) : Gives R x :=
  fun s a s' ha => hQR a (h s a s' ha)

theorem pure {a : α} (h : Q a) : Gives Q (Pure.pure a) := by
  rintro s _ _ h'
  cases h'
  exact h

theorem throw (e : CompileError) : Gives Q (MonadExcept.throw e) := fun _ _ _ h => (nomatch h)

theorem bind (hx : Gives Q x) (hf : ∀ a, Q a → Gives R (f a)) : Gives R (x >>= f) := by
  intro s b s' h
  obtain ⟨⟨a, t⟩, ha, hb⟩ := bind_eq_ok.mp h
  exact hf a (hx _ _ _ ha) _ _ _ hb

theorem next (hf : ∀ a, Gives R (f a)) : Gives R (x >>= f) := (any x).bind fun a _ => hf a

theorem mapM {f : β → Lower α} (hf : ∀ b, Gives Q (f b)) : ∀ l : List β, Gives (fun as => ∀ a ∈ as, Q a) (l.mapM f)
  | [] => by
    rw [mapM_nil]
    exact pure (by simp)
  | b :: l => by
    rw [mapM_cons]
    exact (hf b).bind fun a ha => (mapM hf l).bind fun as has => pure (by simpa using ⟨ha, has⟩)

end Gives

theorem gives_onOne {f : Reg → Script} (h : ∀ a, (f a).Fits H n) : Gives (Script.Fits H n) (onOne t f) :=
  .next fun a => .next fun _ => .pure (h a)

theorem gives_onTwo {f : Reg → Reg → Option Int → Script} (h : ∀ a b c, (f a b c).Fits H n) :
    Gives (Script.Fits H n) (onTwo t f) :=
  .next fun _ => .next fun _ => .next fun _ => .pure (h _ _ _)

theorem store_ne_orderClause (t : Store) (r : FloatRel) : Clause.store t ≠ orderClause r := by
  cases r <;> simp [orderClause]

theorem fits_signExtendCode (k : Narrow) (a : Reg) : (signExtendCode k a).Fits H n := by
  unfold signExtendCode signIntoHigh testMask signExtend
  split <;> simp

theorem gives_numCode (op : NumOp) : Gives (Script.Fits H 5) (numCode H.ns op) := by
  unfold numCode
  split
  all_goals first
    | exact .throw _
    | refine gives_onOne fun a => ?_
    | refine gives_onTwo fun a b c => ?_
  all_goals simp +decide [unary32, unary64, clearSign, negate, copySign, signIntoHigh, testMask,
    pickOrdered, store_ne_orderClause, fits_signExtendCode]

theorem gives_constCode (t : ValType) (v : Int) : Gives (Script.Fits H n) (constCode t v) := by
  unfold constCode
  split <;> exact .next fun _ => .pure (by simp)

theorem suits_ofText {s : String} (hopen : isOpen s = true) (h : Reads H n false (splitOn ' ' s)) :
    (Line.ofText s).Suits H n := by
  unfold Line.ofText
  split
  · rename_i hs
    rw [isOpen, hs] at hopen
    cases hopen
  · exact .inr (.inr ⟨s, rfl, .inr h⟩)

/-! ### Frames and choices -/

theorem takesNumber_frameFields (locals live : List ValType) :
    ∀ x ∈ frameFields locals live, (framePath x.2).takesNumber = true := by
  have hfield : ∀ {field : String}, field.toList.head? ≠ some 'k' → (framePath field).takesNumber = true := by
    intro field h
    have : field ≠ "k" := by
      rintro rfl
      exact h rfl
    simp [framePath, topFrame, Path.takesNumber, PathStep.isPlain, numberKeys, this]
  have hwords : ∀ (r : Reg) (c : Char) (i : Nat) (t : ValType), c ≠ 'k' →
      ∀ x ∈ wordsOf r (String.singleton c ++ toString i) t, (framePath x.2).takesNumber = true := by
    intro r c i t hc x hx
    rcases mem_cons.mp hx with rfl | hx
    · exact hfield (by simpa using hc)
    · split at hx
      · cases mem_singleton.mp hx
        exact hfield (by simpa using hc)
      · cases hx
  simp only [frameFields, mem_append, mem_flatten, mem_mapIdx]
  rintro x (⟨_, ⟨i, hi, rfl⟩, hx⟩ | ⟨_, ⟨i, hi, rfl⟩, hx⟩)
  · exact hwords _ 'l' i _ (by decide) x hx
  · exact hwords _ 's' i _ (by decide) x hx

theorem fits_passArguments (base : Int) (params : List ValType) : (passArguments base params).Fits H n :=
  all_join_mapIdx fun i t => by simp

theorem fits_zeroLocals {site : Site} : (zeroLocals site).Fits H 5 := all_join_mapIdx fun i t => by simp

theorem fits_choiceScript {choices : List (Choice Command)} :
    (choiceScript H.ns r choices).Fits H n ↔ ∀ c ∈ choices, (c.command H.ns r).Fits H n false :=
  forall_mem_map

theorem mem_of_mem_groupsOf {a : α} {part : List α} (ha : a ∈ part) :
    ∀ {fuel : Nat} {l : List α}, part ∈ groupsOf size fuel l → a ∈ l
  | 0, l, h => (nomatch h)
  | fuel + 1, l, h => by
    unfold groupsOf at h
    split at h
    · cases h
    · rcases mem_cons.mp h with rfl | h
      · exact mem_of_mem_take ha
      · exact mem_of_mem_drop (mem_of_mem_groupsOf ha h)

/-- The lines of a choice fit, and so do the functions that it goes on in. -/
theorem fits_dispatchWith (hd : default.Fits H 5 false) :
    ∀ (fuel : Nat) {path : String} {cases : List (Case Command)}, Body path → (∀ c ∈ cases, c.body.Fits H 5 false) →
      (choiceScript H.ns r (dispatchWith limit default fuel path cases).lines).Fits H 5 ∧
        ∀ e ∈ (dispatchWith limit default fuel path cases).extra, Body e.1 ∧ (choiceScript H.ns r e.2).Fits H 5 := by
  have hflat : ∀ {cases : List (Case Command)}, (∀ c ∈ cases, c.body.Fits H 5 false) →
      ∀ c ∈ cases.map (fun c => Choice.leaf c.range c.body) ++ [.otherwise default], (c.command H.ns r).Fits H 5 false := by
    intro cases hcases
    simpa [or_imp, forall_and, Choice.command, hd] using hcases
  intro fuel
  simp only [fits_choiceScript]
  induction fuel with
  | zero =>
    intro path cases hpath hcases
    unfold dispatchWith
    split <;> exact ⟨hflat hcases, by simp⟩
  | succ fuel ih =>
    intro path cases hpath hcases
    unfold dispatchWith
    split
    · exact ⟨hflat hcases, by simp⟩
    have hsub : ∀ k : Nat, Body (path ++ "/n" ++ toString k) := fun k =>
      (hpath.append (by decide)).append (lacks_natText (by decide) k)
    constructor
    · rintro c hc
      rcases mem_append.mp hc with hc | hc
      · simp only [map_map, mem_map] at hc
        obtain ⟨x, -, rfl⟩ := hc
        exact ⟨by simp, fits_goto.mpr (hsub x.2).level.le⟩
      · cases mem_singleton.mp hc
        exact hd
    · intro e he
      simp only [mem_flatMap, mem_map] at he
      obtain ⟨_, ⟨x, hx, rfl⟩, he⟩ := he
      have hpart : ∀ c ∈ x.1, c.body.Fits H 5 false := fun c hc =>
        hcases c (mem_of_mem_groupsOf hc (fst_mem_of_mem_zipIdx hx))
      rcases mem_cons.mp he with rfl | he
      · exact ⟨hsub x.2, (ih (hsub x.2) hpart).1⟩
      · exact (ih (hsub x.2) hpart).2 e he

theorem fits_dispatch {cases : List (Case Command)} (hd : default.Fits H 5 false)
    (hpath : Body path) (hcases : ∀ c ∈ cases, c.body.Fits H 5 false) :
    (choiceScript H.ns r (dispatch dispatchLimit path cases default).lines).Fits H 5 ∧
      ∀ e ∈ (dispatch dispatchLimit path cases default).extra, Body e.1 ∧ (choiceScript H.ns r e.2).Fits H 5 :=
  fits_dispatchWith hd cases.length hpath hcases

/-- What the code of a function is written for: the namespace, and host functions that are built in. -/
structure Placed (H : Home) (site : Site) : Prop where
  ns : site.ns = H.ns
  blank : Lacks ' ' H.ns
  mark : Lacks '<' H.ns
  hosts : ∀ h ∈ site.hosts, h ∈ Host.builtins

variable {site : Site} (hsite : Placed H site)

include hsite

theorem gives_hostCode (f : Int) : Gives (Script.Suits H 5) (hostCode site f) := by
  have hslot : ∀ k : Int, Lacks ' ' (Reg.slot k).name := fun k =>
    Lacks.append (by decide) (lacks_intText (by decide) (by decide) k)
  unfold hostCode
  split
  · exact .throw _
  · rename_i host hhost
    have hlines : ∀ (args : List StackValue) (target : Option Reg), (∀ r ∈ target, Lacks ' ' r.name) →
        Script.Suits H 5 ⟨(host.expand site.ns (args.map fun a => (Reg.slot a.slot).name)
          (target.map Reg.name)).map Line.ofText, []⟩ := by
      intro args target htarget
      refine forall_mem_map.mpr fun line hline => ?_
      rw [hsite.ns] at hline
      have hargs : ∀ reg ∈ args.map fun a => (Reg.slot a.slot).name, Lacks ' ' reg :=
        forall_mem_map.mpr fun a _ => hslot a.slot
      have hresult : ∀ reg ∈ target.map Reg.name, Lacks ' ' reg := by
        intro reg hreg
        obtain ⟨r, hr, rfl⟩ := Option.map_eq_some_iff.mp hreg
        exact htarget r hr
      obtain ⟨hopen, hreads⟩ := Host.tame_expand
        (hsite.hosts host (mem_of_elementAt? hhost)) hsite.blank hsite.mark hargs hresult line hline
      exact suits_ofText hopen hreads
    refine Gives.next fun args => Gives.next fun st => Gives.next fun _ => ?_
    split <;> refine .bind ?_ fun target h => .pure (hlines args target h)
    · rintro s o s' h r hr
      cases h
      cases hr
      exact hslot _
    · exact .pure (by simp)

theorem gives_plainCode (c : Checked) : Gives (Script.Suits H 5) (plainCode site c) := by
  unfold plainCode selectCode
  rw [hsite.ns]
  split
  all_goals first
    | exact gives_hostCode hsite _
    | exact (gives_constCode _ _).mono fun _ => Script.Fits.suits
    | exact (gives_numCode _).mono fun _ => Script.Fits.suits
    | exact Gives.throw _
    | repeat' first
      | refine .pure ?_
      | refine Gives.next fun _ => ?_
  all_goals refine Script.Fits.suits ?_
  all_goals simp +decide [fits_boundsCheck, fits_loadAt, fits_storeAt]

theorem fits_resumeCode (live results : List ValType) (base : Int) : (resumeCode site live results base).Fits H 5 := by
  simp only [resumeCode, restoreFields, hsite.ns, all_join_cons, all_join_nil, and_true]
  exact ⟨all_join_map.mpr fun x _ => by simp, by simp, all_join_mapIdx fun i t => by simp⟩

theorem gives_blockInstrCode (block : Nat) (i : Flow.BlockInstr) : Gives (Script.Suits H 5) (blockInstrCode site block i) := by
  unfold blockInstrCode
  split
  · refine Gives.next fun st => ?_
    dsimp only
    split
    · exact Gives.next fun _ => gives_plainCode hsite _
    · exact gives_plainCode hsite _
  · exact Gives.next fun _ => .pure (Script.Fits.suits (all_join_mapIdx fun i t => by simp))
  · exact .pure (fits_resumeCode hsite _ _ _).suits

theorem suits_blockCode (h : blockCode site index b = .ok s) : s.Suits H 5 := by
  obtain ⟨⟨scripts, st⟩, hs, h⟩ := bind_eq_ok.mp h
  cases h
  exact all_join.mpr (Gives.mapM (gives_blockInstrCode hsite index) b.instrs _ _ _ hs)

/-! ### The ends of blocks -/

/-- How blocks are written: in the namespace, and put off only if that may be. -/
structure Settings.Suits (H : Home) (s : Settings) : Prop where
  ns : s.ns = H.ns
  timed : s.budget.isSome = true → H.timed = true

variable {s : Settings} (hs : s.Suits H)

include hs

theorem suits_budgetCheck (h : Target path) : (budgetCheck s path).Suits H 5 := by
  unfold budgetCheck
  split
  · exact all_empty
  · rename_i b hb
    have hframe := suited_frameOf hsite.blank h
    simp only [hs.ns, all_join_cons, all_join_nil, and_true]
    refine ⟨Script.Fits.suits (by simp), Script.Fits.suits ?_, ?_⟩
    · simp [hframe, resumePath, PathStep.isPlain, numberKeys]
    · intro l hl
      cases mem_singleton.mp hl
      exact .inr (.inl ⟨hs.timed (by rw [hb]; rfl), _, rfl, .inr ⟨le_refl _, _, rfl⟩⟩)

theorem suits_jumpWithin (h : Target path) : (jumpWithin s path).Suits H 5 := by
  rw [jumpWithin, hs.ns]
  exact Script.all_append.mpr ⟨suits_budgetCheck hsite hs h, Script.Fits.suits (by simpa using level_le_five h.ne)⟩

theorem fits_openFrame (cont : Nat) (live : List ValType) : (openFrame s site cont live).Fits H 5 := by
  simp only [openFrame, hs.ns, saveFields, all_join_cons, all_join_map, all_join_nil, and_true]
  refine ⟨by simp, by simp, fits_pushFrame hsite.blank (body_blockPath _ _).target, fun x hx => ?_⟩
  simpa using takesNumber_frameFields _ _ x hx

theorem suits_indirectCode (call : IndirectCall) (cont : Nat) (base : Int) (live params : List ValType) (size : Int) :
    (indirectCode s site call cont base live params size).Suits H 5 := by
  unfold indirectCode
  rw [hs.ns]
  split
  · exact Script.Fits.suits (by simp)
  · simp only [all_join_cons, all_join_nil, and_true]
    refine ⟨?_, ?_, ?_, ?_, ?_, ?_, (fits_openFrame hsite hs cont live).suits, (fits_passArguments base params).suits,
      suits_jumpWithin hsite hs (body_indirectPath _ _).target⟩
    all_goals refine Script.Fits.suits ?_
    all_goals simp +decide

theorem suits_terminatorCode {t : Flow.Terminator} {tail : Script} {extra : List (String × Script)}
    {calls : List IndirectCall} (h : terminatorCode s site block t = .ok (tail, extra, calls)) :
    tail.Suits H 5 ∧ ∀ e ∈ extra, Body e.1 ∧ e.2.Fits H 5 := by
  have hjump : ∀ f b : Int, (jump H.ns (blockPath f b)).Fits H 5 := fun f b => by simp [(body_blockPath f b).level]
  unfold terminatorCode at h
  rw [hs.ns] at h
  cases t with
  | «fallthrough» b =>
    cases h
    exact ⟨(hjump _ _).suits, by simp⟩
  | jump b back =>
    cases back <;> cases h
    · exact ⟨(hjump _ _).suits, by simp⟩
    · exact ⟨suits_jumpWithin hsite hs (body_blockPath _ _).target, by simp⟩
  | branchIf cond taken other =>
    simp only at h
    split at h <;> cases h
    · exact ⟨(hjump _ _).suits, by simp⟩
    · exact ⟨Script.Fits.suits (by simp [hjump]), by simp⟩
  | branchTable index targets default =>
    obtain ⟨-, -, h⟩ := bind_eq_ok.mp h
    cases h
    have hgoto : ∀ b : Nat, (goto H.ns (blockPath site.func b)).Fits H 5 false := fun b =>
      fits_goto.mpr (body_blockPath _ _).level.le
    have hcases : ∀ c ∈ (tableRuns targets default).map fun c =>
        (⟨c.lo, c.hi, goto H.ns (blockPath site.func c.body)⟩ : Case Command), c.body.Fits H 5 false :=
      forall_mem_map.mpr fun c _ => hgoto c.body
    obtain ⟨hlines, hextra⟩ := fits_dispatch (hgoto default) (body_blockPath site.func block) hcases
    exact ⟨hlines.suits, forall_mem_map.mpr hextra⟩
  | ret base =>
    cases h
    refine ⟨Script.Fits.suits ?_, by simp⟩
    simp only [returnCode, all_join_cons, all_join_nil, and_true]
    refine ⟨all_join_mapIdx fun i t => by simp, by simp, ?_⟩
    simp +decide [followCommand, hsite.ns, inNamespace_inj]
  | unreachable kind =>
    cases h
    exact ⟨Script.Fits.suits (by simp), by simp⟩
  | call f cont base live params results =>
    obtain ⟨-, -, h⟩ := bind_eq_ok.mp h
    cases h
    refine ⟨?_, by simp⟩
    simp only [all_join_cons, all_join_nil, and_true]
    exact ⟨(fits_openFrame hsite hs cont live).suits, (fits_passArguments base params).suits,
      suits_jumpWithin hsite hs (body_blockPath _ _).target⟩
  | callIndirect type table cont base live params results =>
    simp only at h
    split at h
    · cases h
    · rename_i l hl
      have hcode := suits_indirectCode hsite hs ⟨table, canonicalType site.module type⟩ cont base live params l.min
      split at h
      · obtain ⟨-, -, h⟩ := bind_eq_ok.mp h
        obtain ⟨-, -, h⟩ := bind_eq_ok.mp h
        cases h
        exact ⟨hcode, by simp⟩
      · cases h
        exact ⟨hcode, by simp⟩

theorem suits_blockScripts {reachable : Bool} {r : List (String × Script) × List IndirectCall}
    (h : blockScripts s site reachable index b = .ok r) : ∀ e ∈ r.1, Body e.1 ∧ e.2.Suits H 5 := by
  have hhead : (headComment s site index b).Suits H 5 := by
    refine all_onlyIf.mpr fun _ l hl => ?_
    cases mem_singleton.mp hl
    exact .inr (.inr ⟨_, rfl, .inl (by simp)⟩)
  have hpath := body_blockPath site.func index
  unfold blockScripts at h
  simp only at h
  split at h
  · obtain ⟨body, hbody, h⟩ := bind_eq_ok.mp h
    obtain ⟨⟨tail, extra, calls⟩, htail, h⟩ := bind_eq_ok.mp h
    cases h
    obtain ⟨htail, hextra⟩ := suits_terminatorCode hsite hs htail
    refine forall_mem_cons.mpr ⟨⟨hpath, ?_⟩, fun e he => ⟨(hextra e he).1, (hextra e he).2.suits⟩⟩
    simp only [all_join_cons, all_join_nil, and_true, all_onlyIf]
    exact ⟨hhead, fun _ => fits_zeroLocals.suits, suits_blockCode hsite hbody, htail⟩
  · cases h
    refine forall_mem_singleton.mpr ⟨hpath, ?_⟩
    rw [hs.ns]
    exact Script.all_append.mpr ⟨hhead, (fits_trap _).suits⟩

omit hsite in
/-- **The functions of a function's blocks are of level five.** -/
theorem suits_functionCode {m : Module} {hosts : List Host} {f : Wasm.Function} {body : List Checked} {c : Compiled}
    (hb : Lacks ' ' H.ns) (hm : Lacks '<' H.ns) (hhosts : ∀ h ∈ hosts, h ∈ Host.builtins)
    (h : functionCode s m hosts func f body = .ok c) : ∀ e ∈ c.scripts, Body e.1 ∧ e.2.Suits H 5 := by
  obtain ⟨graph, -, h⟩ := bind_eq_ok.mp h
  obtain ⟨parts, hparts, h⟩ := bind_eq_ok.mp h
  cases h
  intro e he
  obtain ⟨r, hr, he⟩ := mem_flatMap.mp he
  obtain ⟨x, -, hx⟩ := exists_of_mem_mapM hparts hr
  exact suits_blockScripts ⟨hs.ns, hb, hm, hhosts⟩ hs hx e he

end Emit

end ScoreWasm
