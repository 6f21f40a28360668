import ScoreWasm.SoftFloat.Lower
import ScoreWasm.Proofs.Wasm.Structured

/-!
# The layout of a lowered module

Lowering keeps every function at its index and appends the routines behind them.  What a module's
operators ask for is closed under calls, since `Routine.all` lists each routine after those that it calls
and the routines are collected from the last one to the first.  So every call that lowering writes finds
its routine among the appended functions, under the routine's name and type.
-/

namespace ScoreWasm

open Wasm List

variable {m : Module} {fn : Function} {rs needed l : List Routine} {c a : Routine} {names : NameMap} {p : Placed}

/-! ### Names -/

theorem Wasm.NameMap.get?_cons (e : Nat × String) (rest : NameMap) (j : Nat) :
    NameMap.get? (e :: rest) j = if e.1 = j then some e.2 else NameMap.get? rest j := by
  unfold NameMap.get?
  by_cases h : e.1 = j
  · rw [find?_cons_of_pos (by simpa using h), if_pos h]
    rfl
  · rw [find?_cons_of_neg (by simpa using h), if_neg h]

theorem Wasm.NameMap.get?_set (index : Nat) (name : String) (j : Nat) (names : NameMap) :
    (NameMap.set index name names).get? j = if index = j then some name else names.get? j := by
  induction names with
  | nil => exact NameMap.get?_cons _ _ _
  | cons e rest ih =>
    obtain ⟨i, n⟩ := e
    unfold NameMap.set
    by_cases hlt : index < i
    · rw [if_pos hlt, NameMap.get?_cons]
    rw [if_neg hlt]
    by_cases heq : index = i
    · subst heq
      rw [if_pos (by simp), NameMap.get?_cons, NameMap.get?_cons]
      by_cases hj : index = j <;> simp [hj]
    · rw [if_neg (by simpa using heq), NameMap.get?_cons, NameMap.get?_cons, ih]
      by_cases hj : index = j
      · rw [if_neg (show ¬ i = j by omega), if_pos hj, if_pos hj]
      · rw [if_neg hj, if_neg hj]

/-! ### Type indices -/

/-- An instruction does not name a type by an index that counts from the last one. -/
def Wasm.Instr.hasNaturalType : Instr → Bool
  | .callIndirect type _ => 0 ≤ type
  | _ => true

/-- No function, imported or defined, has or calls for a type by an index that counts from the last
one.  Such an index means another type once types are added. -/
def Wasm.Module.hasNaturalTypes (m : Module) : Bool :=
  m.funcImports.all (fun i => decide (0 ≤ i.2)) &&
    m.functions.all (fun fn => decide (0 ≤ fn.type) && fn.body.all (fun p => p.instr.hasNaturalType))

theorem Wasm.Module.importType_nonneg (h : m.hasNaturalTypes = true) {i : Import × Int}
    (hi : i ∈ m.funcImports) : 0 ≤ i.2 :=
  of_decide_eq_true (all_eq_true.mp (Bool.and_eq_true_iff.mp h).1 i hi)

section

variable (h : m.hasNaturalTypes = true) (hfn : fn ∈ m.functions)
include h hfn

theorem Wasm.Module.type_nonneg : 0 ≤ fn.type := by
  have := all_eq_true.mp (Bool.and_eq_true_iff.mp h).2 fn hfn
  simp only [Bool.and_eq_true, decide_eq_true_eq] at this
  exact this.1

theorem Wasm.Module.hasNaturalType_of_mem
    (hp : p ∈ fn.body) : p.instr.hasNaturalType = true := by
  have := all_eq_true.mp (Bool.and_eq_true_iff.mp h).2 fn hfn
  simp only [Bool.and_eq_true] at this
  exact all_eq_true.mp this.2 p hp

end

namespace SoftFloat

variable {r : Routine} {asked : List Routine} {op : NumOp} {ops : List Op} {j f : Nat}
   {index : Routine → Nat} {t : FuncType}

/-! ### The order of the routines -/

theorem Routine.mem_all (r : Routine) : r ∈ Routine.all := by
  cases r with
  | round w mode => cases w <;> cases mode <;> decide
  | convert w signed | truncate w signed => cases w <;> cases signed <;> decide
  | pack w | add w | mul w | div w | sqrt w | fromInt w => cases w <;> decide
  | _ => decide

theorem Routine.nodup_all : Routine.all.Nodup := by decide

/-- The place of a routine among all, which is greater than those of the routines that it calls. -/
def Routine.rank (r : Routine) : Nat := Routine.all.idxOf r

/-- Only routines of lower rank are called. -/
def Code.callsBelow (n : Nat) (c : Code) : Bool := c.callees.all (fun r => r.rank < n)

theorem Routine.callsBelow_rank : ∀ r ∈ Routine.all, r.code.callsBelow r.rank = true := by
  decide

/-- A routine calls only routines that stand before it. -/
theorem Routine.rank_lt (h : c ∈ r.code.callees) : c.rank < r.rank := by
  have hall := r.callsBelow_rank r.mem_all
  unfold Code.callsBelow at hall
  rw [all_eq_true] at hall
  simpa using hall c h

theorem mem_requireStep :
    c ∈ requireStep asked a needed ↔
      c ∈ needed ∨ c = a ∧ (a ∈ asked ∨ ∃ n ∈ needed, a ∈ n.code.callees) := by
  unfold requireStep
  split
  · rename_i h
    simp only [Bool.or_eq_true, contains_iff_mem, any_eq_true] at h
    rw [mem_cons, or_comm]
    exact or_congr_right ⟨fun hc => ⟨hc, h⟩, And.left⟩
  · rename_i h
    simp only [Bool.or_eq_true, contains_iff_mem, any_eq_true] at h
    exact ⟨.inl, fun hc => hc.resolve_right (fun hc => h hc.2)⟩

/-- Going through routines whose ranks increase, collecting misses none that is called. -/
theorem closed_foldr_requireStep {l : List Routine} (hl : l.Pairwise (fun a b => a.rank < b.rank)) {r c : Routine}
    (hr : r ∈ l.foldr (requireStep asked) []) (hcall : c ∈ r.code.callees) (hc : c ∈ l) :
    c ∈ l.foldr (requireStep asked) [] := by
  induction l with
  | nil => cases hc
  | cons a rest ih =>
    obtain ⟨ha, hrest⟩ := pairwise_cons.mp hl
    have hlt := Routine.rank_lt hcall
    rw [foldr_cons, mem_requireStep] at hr ⊢
    rcases hr with hr | ⟨rfl, -⟩
    · rcases mem_cons.mp hc with rfl | hc
      · exact .inr ⟨rfl, .inr ⟨r, hr, hcall⟩⟩
      · exact .inl (ih hrest hr hc)
    · -- The first routine calls none of those after it.
      rcases mem_cons.mp hc with rfl | hc
      · exact absurd hlt (Nat.lt_irrefl _)
      · exact absurd hlt (Nat.lt_asymm (ha c hc))

theorem Routine.pairwise_rank : Routine.all.Pairwise (fun a b => a.rank < b.rank) := by
  decide

theorem mem_foldr_requireStep (ha : r ∈ asked) (h : r ∈ l) :
    r ∈ l.foldr (requireStep asked) [] := by
  induction l with
  | nil =>
    cases h
  | cons a rest ih =>
    rw [foldr_cons, mem_requireStep]
    rcases mem_cons.mp h with rfl | h
    · exact .inr ⟨rfl, .inl ha⟩
    · exact .inl (ih h)

theorem mem_required (h : r ∈ asked) : r ∈ required asked :=
  mem_foldr_requireStep h r.mem_all

/-- **The required routines are closed under calls.** -/
theorem required_closed (hr : r ∈ required asked) (hc : c ∈ r.code.callees) : c ∈ required asked :=
  closed_foldr_requireStep Routine.pairwise_rank hr hc c.mem_all

theorem sublist_foldr_requireStep (l : List Routine) : (l.foldr (requireStep asked) []).Sublist l := by
  induction l with
  | nil => exact .slnil
  | cons a rest ih =>
    rw [foldr_cons]
    unfold requireStep
    split
    · exact ih.cons_cons a
    · exact ih.cons a

theorem nodup_required (asked : List Routine) : (required asked).Nodup :=
  Routine.nodup_all.sublist (sublist_foldr_requireStep _)

/-! ### Code -/

/-- The instruction of an `Op`, given the indices of the routines. -/
def Op.instr (index : Routine → Nat) : Op → Instr
  | .plain i => i
  | .call r => .call (index r)

theorem Code.instrs_eq (index : Routine → Nat) (c : Code) :
    c.instrs index = c.ops.map (Op.instr index) ++ [.end_] := by
  rfl

theorem Code.mem_callees {c : Code} : r ∈ c.callees ↔ Op.call r ∈ c.ops := by
  unfold Code.callees
  rw [mem_eraseDups, mem_filterMap]
  constructor
  · rintro ⟨o, ho, h⟩
    cases o with
    | plain i => cases h
    | call r' =>
      cases h
      exact ho
  · intro h
    exact ⟨_, h, rfl⟩

/-- The type of what replaces an operator: a numeric operator or a routine. -/
def Op.type? : Op → Option FuncType
  | .plain (.num op) => some op.type
  | .plain _ => none
  | .call r => some r.type

/-- An operator is replaced by one step of its type, or by one that prepares its last operand and one that
does the rest. -/
theorem replacement_cases (h : replacement? op = some ops) :
    (∃ o, ops = [o] ∧ o.type? = some op.type) ∨
      ∃ o1 o2 first last u outs, ops = [o1, o2] ∧ o1.type? = some ⟨last, [u]⟩ ∧
        o2.type? = some ⟨first ++ [u], outs⟩ ∧ op.type = ⟨first ++ last, outs⟩ := by
  unfold replacement? at h
  split at h <;> cases h <;> first
    | exact .inl ⟨_, rfl, rfl⟩
    | exact .inr ⟨_, _, [], _, _, _, rfl, rfl, rfl, rfl⟩
    | exact .inr ⟨_, _, [_], _, _, _, rfl, rfl, rfl, rfl⟩

theorem replacement_ne_nil (h : replacement? op = some ops) : ops ≠ [] := by
  rcases replacement_cases h with ⟨o, rfl, -⟩ | ⟨o1, o2, -, -, -, -, rfl, -⟩
  · exact cons_ne_nil _ _
  · exact cons_ne_nil _ _

/-- What stands for an instruction in a lowered body. -/
def lowerInstr (index : Routine → Nat) (i : Instr) : List Instr :=
  match replaced? i with
  | none => [i]
  | some ops => ops.map (Op.instr index)

/-- Calls routines for the soft operators. -/
def lowerCode (index : Routine → Nat) (code : List Instr) : List Instr :=
  code.flatMap (lowerInstr index)

theorem lowerBody_cons (index : Routine → Nat) (p : Placed) (rest : List Placed) :
    lowerBody index (p :: rest) =
      (lowerInstr index p.instr).map (fun i => ⟨i, p.offset⟩) ++ lowerBody index rest := by
  unfold lowerBody lowerInstr
  rw [flatMap_cons]
  congr 1
  cases replaced? p.instr with
  | none => rfl
  | some ops =>
    simp only [map_map]
    refine map_congr_left ?_
    intro o _
    cases o <;> rfl

theorem map_instr_lowerBody (index : Routine → Nat) (body : List Placed) :
    (lowerBody index body).map Placed.instr = lowerCode index (body.map Placed.instr) := by
  induction body with
  | nil => rfl
  | cons p rest ih =>
    rw [lowerBody_cons, map_append, ih, map_map]
    unfold lowerCode
    congr 1
    exact map_id _

/-! ### The lowered module -/

/-- The operators of a module that are to be replaced. -/
def softOpsOf (m : Module) : List NumOp := m.functions.flatMap softOps

/-- The routines a module needs. -/
def routinesFor (m : Module) : List Routine := required (routinesOf (softOpsOf m))

/-- The index of a routine among the functions of the lowered module. -/
def routineIndex (m : Module) (r : Routine) : Nat := m.funcCount + (routinesFor m).idxOf r

/-- A function with its operators replaced. -/
def lowerFunction (index : Routine → Nat) (fn : Function) : Function :=
  { fn with body := lowerBody index fn.body }

/-- The function of a routine. -/
def Routine.function (index : Routine → Nat) (type : Nat) (r : Routine) : Function :=
  ⟨type, List.replicate r.localCount .i64, (r.code.instrs index).map Placed.new, 0⟩

/-- The lowered module, but for the names. -/
def lowered (m : Module) : Module :=
  (routinesFor m).foldl (addRoutine (routineIndex m))
    { m with functions := m.functions.map (lowerFunction (routineIndex m)) }

theorem lower?_eq (m : Module) : lower? m = if softOpsOf m = [] then none else some (lowered m) := by
  unfold lower?
  simp only [List.isEmpty_iff]
  rfl

/-! ### Appending routines -/

/-- Names the functions of routines. -/
def nameRoutines (index : Routine → Nat) (rs : List Routine) (names : NameMap) : NameMap :=
  rs.foldl (fun ns r => ns.set (index r) ("softfloat." ++ r.name)) names

/-- A module to which routines have been appended. -/
structure Grown (index : Routine → Nat) (rs : List Routine) (m m' : Module) : Prop where
  outside : m' = { m with types := m'.types, functions := m'.functions, names := m'.names }
  types : m.types <+: m'.types
  functions : m.functions <+: m'.functions
  length : m'.functions.length = m.functions.length + rs.length
  routine : ∀ j r, rs[j]? = some r → ∃ n : Nat,
    m'.functions[m.functions.length + j]? = some (r.function index n) ∧ m'.types[n]? = some r.type
  names : m'.names = nameRoutines index rs m.names

theorem internType_spec (m : Module) (t : FuncType) : ∃ types n,
    m.internType t = ({ m with types := types }, n) ∧ m.types <+: types ∧ types[n]? = some t := by
  unfold Module.internType
  cases h : m.types.idxOf? t with
  | none => exact ⟨_, _, rfl, prefix_append _ _, getElem?_concat_length⟩
  | some i =>
    refine ⟨_, _, rfl, prefix_rfl, ?_⟩
    obtain ⟨hi, heq, -⟩ := findIdx?_eq_some_iff_getElem.mp h
    rw [getElem?_eq_getElem hi]
    simpa using heq

theorem addRoutine_grown (index : Routine → Nat) (m : Module) (r : Routine) :
    Grown index [r] m (addRoutine index m r) := by
  obtain ⟨types, n, hintern, htypes, htype⟩ := internType_spec m r.type
  unfold addRoutine
  rw [hintern]
  refine ⟨rfl, htypes, prefix_append _ _, length_append, ?_, rfl⟩
  intro j r' hr'
  cases j with
  | succ j => cases hr'
  | zero =>
    cases hr'
    exact ⟨n, getElem?_concat_length, htype⟩

theorem getElem?_of_prefix {α : Type} {l l' : List α} {a : α} (h : l <+: l') (hj : l[j]? = some a) :
    l'[j]? = some a := by
  obtain ⟨rest, rfl⟩ := h
  rw [List.getElem?_append_left (List.getElem?_eq_some_iff.mp hj).1]
  exact hj

theorem Grown.trans {m m1 m' : Module} (h : Grown index [r] m m1) (k : Grown index rs m1 m') :
    Grown index (r :: rs) m m' := by
  have hlen : m1.functions.length = m.functions.length + 1 := h.length
  refine ⟨?_, h.types.trans k.types, h.functions.trans k.functions, ?_, ?_, ?_⟩
  · rw [k.outside, h.outside]
  · rw [k.length, hlen, length_cons]
    omega
  · intro j r' hr'
    cases j with
    | zero =>
      obtain ⟨n, hfn, htype⟩ := h.routine 0 r' hr'
      exact ⟨n, getElem?_of_prefix k.functions hfn, getElem?_of_prefix k.types htype⟩
    | succ j =>
      obtain ⟨n, hfn, htype⟩ := k.routine j r' hr'
      refine ⟨n, ?_, htype⟩
      rw [← hfn, hlen]
      congr 1
      omega
  · rw [k.names, h.names]
    rfl

theorem foldl_addRoutine_grown (index : Routine → Nat) (rs : List Routine) (m : Module) :
    Grown index rs m (rs.foldl (addRoutine index) m) := by
  induction rs generalizing m with
  | nil =>
    exact ⟨rfl, prefix_rfl, prefix_rfl, rfl, nofun, rfl⟩
  | cons r rs ih =>
    exact (addRoutine_grown index m r).trans (ih _)

theorem lowered_grown (m : Module) :
    Grown (routineIndex m) (routinesFor m)
      { m with functions := m.functions.map (lowerFunction (routineIndex m)) } (lowered m) :=
  foldl_addRoutine_grown _ _ _

/-! ### What the lowered module keeps -/

theorem lowered_outside (m : Module) :
    lowered m = { m with
      types := (lowered m).types, functions := (lowered m).functions, names := (lowered m).names } :=
  (lowered_grown m).outside

/-- Two modules differ at most in their types, functions and names. -/
structure SameOutside (m m' : Module) : Prop where
  imports : m'.imports = m.imports
  tables : m'.tables = m.tables
  memories : m'.memories = m.memories
  globals : m'.globals = m.globals
  exports : m'.exports = m.exports
  start : m'.start = m.start
  elements : m'.elements = m.elements
  data : m'.data = m.data
  dataCount : m'.dataCount = m.dataCount
  customs : m'.customs = m.customs

theorem sameOutside_lowered (m : Module) : SameOutside m (lowered m) := by
  rw [lowered_outside]
  exact ⟨rfl, rfl, rfl, rfl, rfl, rfl, rfl, rfl, rfl, rfl⟩

theorem importCount_lowered (m : Module) : (lowered m).importCount = m.importCount := by
  rw [lowered_outside]
  rfl

theorem types_lowered (m : Module) : m.types <+: (lowered m).types := (lowered_grown m).types

theorem length_functions_lowered (m : Module) :
    (lowered m).functions.length = m.functions.length + (routinesFor m).length := by
  rw [(lowered_grown m).length, length_map]

theorem funcCount_lowered (m : Module) : (lowered m).funcCount = m.funcCount + (routinesFor m).length := by
  unfold Module.funcCount
  rw [importCount_lowered, length_functions_lowered, Nat.add_assoc]

theorem funcCount_le_lowered (m : Module) : m.funcCount ≤ (lowered m).funcCount := by
  rw [funcCount_lowered]
  exact Nat.le_add_right _ _

theorem functions_lowered (h : m.functions[j]? = some fn) :
    (lowered m).functions[j]? = some (lowerFunction (routineIndex m) fn) := by
  refine getElem?_of_prefix (lowered_grown m).functions ?_
  rw [getElem?_map, h]
  rfl

theorem defined?_lowered (h : m.defined? f = some fn) :
    (lowered m).defined? f = some (lowerFunction (routineIndex m) fn) := by
  unfold Module.defined? at h ⊢
  rw [importCount_lowered]
  split at h
  · cases h
  · rename_i hf
    rw [if_neg hf]
    exact functions_lowered h

/-! ### What is appended -/

theorem getElem?_idxOf_routinesFor (h : r ∈ routinesFor m) :
    (routinesFor m)[(routinesFor m).idxOf r]? = some r := by
  rw [getElem?_eq_getElem (idxOf_lt_length_of_mem h), getElem_idxOf]

theorem routineIndex_lt (h : r ∈ routinesFor m) : routineIndex m r < (lowered m).funcCount := by
  rw [funcCount_lowered]
  exact Nat.add_lt_add_left (idxOf_lt_length_of_mem h) _

/-- A routine that was appended stands at its index. -/
theorem functions_routine (h : r ∈ routinesFor m) : ∃ n : Nat,
    (lowered m).functions[m.functions.length + (routinesFor m).idxOf r]? =
      some (r.function (routineIndex m) n) ∧ (lowered m).types[n]? = some r.type := by
  obtain ⟨n, hfn, htype⟩ := (lowered_grown m).routine _ r (getElem?_idxOf_routinesFor h)
  refine ⟨n, ?_, htype⟩
  rw [length_map] at hfn
  exact hfn

theorem defined?_routine (h : r ∈ routinesFor m) : ∃ n : Nat,
    (lowered m).defined? (routineIndex m r) = some (r.function (routineIndex m) n) ∧
      (lowered m).types[n]? = some r.type := by
  obtain ⟨n, hfn, htype⟩ := functions_routine h
  refine ⟨n, ?_, htype⟩
  unfold Module.defined?
  have hindex : routineIndex m r = m.importCount + (m.functions.length + (routinesFor m).idxOf r) :=
    Nat.add_assoc _ _ _
  rw [importCount_lowered, if_neg (by omega), hindex, Nat.add_sub_cancel_left]
  exact hfn

theorem get?_nameRoutines_other (h : (∀ r ∈ rs, index r ≠ j)) :
    (nameRoutines index rs names).get? j = names.get? j := by
  induction rs generalizing names with
  | nil =>
    rfl
  | cons r rs ih =>
    refine (ih (fun r' hr' => h r' (.tail _ hr'))).trans ?_
    rw [NameMap.get?_set, if_neg (h r (.head _))]

theorem get?_nameRoutines (hnodup : (rs.map index).Nodup)
    (h : r ∈ rs) : (nameRoutines index rs names).get? (index r) = some ("softfloat." ++ r.name) := by
  induction rs generalizing names r with
  | nil =>
    cases h
  | cons a rs ih =>
    obtain ⟨ha, hrs⟩ := nodup_cons.mp hnodup
    rcases mem_cons.mp h with rfl | h
    · have hother : ∀ r' ∈ rs, index r' ≠ index r := fun r' hr' heq => ha (heq ▸ mem_map_of_mem hr')
      refine (get?_nameRoutines_other hother).trans ?_
      rw [NameMap.get?_set, if_pos rfl]
    · exact ih hrs h

theorem nodup_routineIndex (m : Module) : ((routinesFor m).map (routineIndex m)).Nodup := by
  refine pairwise_map.mpr ((nodup_required _).imp_of_mem ?_)
  intro a b ha hb hne heq
  have hidx : (routinesFor m).idxOf a = (routinesFor m).idxOf b := Nat.add_left_cancel heq
  have hsame := getElem?_idxOf_routinesFor ha
  rw [hidx, getElem?_idxOf_routinesFor hb] at hsame
  exact hne (Option.some.inj hsame).symm

theorem names_routine (h : r ∈ routinesFor m) :
    (lowered m).names.get? (routineIndex m r) = some ("softfloat." ++ r.name) := by
  rw [(lowered_grown m).names]
  exact get?_nameRoutines (nodup_routineIndex m) h

theorem names_lowered (h : f < m.funcCount) : (lowered m).names.get? f = m.names.get? f := by
  rw [(lowered_grown m).names]
  refine get?_nameRoutines_other ?_
  intro r _
  unfold routineIndex
  omega

/-- A function of the lowered module is one of the module or a routine. -/
theorem mem_functions_lowered (h : fn ∈ (lowered m).functions) :
    (∃ fn0 ∈ m.functions, fn = lowerFunction (routineIndex m) fn0) ∨
      ∃ r ∈ routinesFor m, ∃ n : Nat, fn = r.function (routineIndex m) n ∧
        (lowered m).types[n]? = some r.type := by
  obtain ⟨j, hlt, hj⟩ := getElem_of_mem h
  have hj : (lowered m).functions[j]? = some fn := by rw [getElem?_eq_getElem hlt, hj]
  by_cases hold : j < m.functions.length
  · rw [functions_lowered (getElem?_eq_getElem hold)] at hj
    exact .inl ⟨_, getElem_mem hold, (Option.some.inj hj).symm⟩
  · rw [length_functions_lowered] at hlt
    obtain ⟨k, rfl⟩ := Nat.exists_eq_add_of_le (Nat.le_of_not_lt hold)
    have hk : k < (routinesFor m).length := by omega
    obtain ⟨n, hfn, htype⟩ := (lowered_grown m).routine k _ (getElem?_eq_getElem hk)
    rw [length_map, hj] at hfn
    exact .inr ⟨_, getElem_mem hk, n, Option.some.inj hfn, htype⟩

/-! ### Types -/

theorem typeAt?_lowered {type : Int} (hnat : 0 ≤ type) (h : m.typeAt? type = some t) :
    (lowered m).typeAt? type = some t := by
  obtain ⟨n, rfl⟩ := Int.eq_ofNat_of_zero_le hnat
  unfold Module.typeAt? at h ⊢
  rw [elementAt?_ofNat] at h ⊢
  exact getElem?_of_prefix (types_lowered m) h

theorem blockType?_lowered {bt : BlockType} (h : m.blockType? bt = some t) :
    (lowered m).blockType? bt = some t := by
  cases bt with
  | empty | value u => exact h
  | index i =>
    cases i with
    | negSucc n => exact h
    | ofNat n => exact getElem?_of_prefix (types_lowered m) h

theorem funcImports_lowered (m : Module) : (lowered m).funcImports = m.funcImports := by
  rw [lowered_outside]
  rfl

theorem isImport_lowered (m : Module) (f : Int) : (lowered m).isImport f = m.isImport f := by
  unfold Module.isImport
  rw [importCount_lowered]

/-- **The functions of a module keep their types.** -/
theorem funcType?_lowered (hnat : m.hasNaturalTypes = true) {f : Int} (h : m.funcType? f = some t) :
    (lowered m).funcType? f = some t := by
  obtain ⟨i, hi, ht⟩ := Option.bind_eq_some_iff.mp h
  unfold Module.funcType?
  unfold Module.typeIndex? at hi ⊢
  rw [isImport_lowered, funcImports_lowered, importCount_lowered]
  split at hi
  · rename_i himp
    rw [if_pos himp, hi]
    obtain ⟨p, hp, rfl⟩ := Option.map_eq_some_iff.mp hi
    exact typeAt?_lowered (Module.importType_nonneg hnat (mem_of_elementAt? hp)) ht
  · rename_i himp
    obtain ⟨fn, hfn, rfl⟩ := Option.map_eq_some_iff.mp hi
    have hpos := Module.type_nonneg hnat (mem_of_getElem? hfn)
    rw [if_neg himp, functions_lowered hfn]
    exact typeAt?_lowered hpos ht

/-- **A routine has its type.** -/
theorem funcType?_routine (h : r ∈ routinesFor m) : (lowered m).funcType? (routineIndex m r) = some r.type := by
  obtain ⟨n, hfn, htype⟩ := functions_routine h
  have hindex : routineIndex m r = m.importCount + (m.functions.length + (routinesFor m).idxOf r) :=
    Nat.add_assoc _ _ _
  unfold Module.funcType? Module.typeIndex?
  rw [isImport_lowered, if_neg (by simp [Module.isImport]; omega), importCount_lowered,
    show ((routineIndex m r : Int) - m.importCount).toNat = m.functions.length + (routinesFor m).idxOf r by
      omega, hfn]
  show elementAt? (lowered m).types (n : Int) = some r.type
  rw [elementAt?_ofNat]
  exact htype

/-! ### No operator is left -/

theorem softOps_eq_nil : softOps fn = [] ↔ ∀ p ∈ fn.body, replaced? p.instr = none := by
  unfold softOps
  rw [filterMap_eq_nil_iff]
  refine forall₂_congr ?_
  intro p _
  generalize p.instr = i
  cases i with
  | num op =>
    show (if (replacement? op).isSome then some op else none) = none ↔ replacement? op = none
    cases replacement? op <;> simp
  | _ => simp [replaced?]

theorem replaced?_replacement (h : replacement? op = some ops) (index : Routine → Nat) :
    ∀ o ∈ ops, replaced? (o.instr index) = none := by
  unfold replacement? at h
  split at h <;> first
    | cases h
      simp [Op.instr, replaced?, replacement?]
    | cases h

theorem replaced?_lowerInstr (index : Routine → Nat) (i : Instr) :
    ∀ j ∈ lowerInstr index i, replaced? j = none := by
  intro j hj
  unfold lowerInstr at hj
  cases h : replaced? i with
  | none =>
    rw [h] at hj
    rw [mem_singleton.mp hj]
    exact h
  | some ops =>
    rw [h] at hj
    obtain ⟨o, ho, rfl⟩ := mem_map.mp hj
    cases i with
    | num op => exact replaced?_replacement h index o ho
    | _ => cases h

/-- Routines do without the operators that are replaced. -/
def Routine.isPlain (r : Routine) : Bool :=
  r.code.ops.all (fun o => (replaced? (o.instr (fun _ => 0))).isNone)

theorem Routine.isPlain_all : ∀ r ∈ Routine.all, r.isPlain = true := by decide +kernel

theorem Routine.replaced?_code (r : Routine) (index : Routine → Nat) :
    ∀ i ∈ r.code.instrs index, replaced? i = none := by
  intro i hi
  rw [Code.instrs_eq, mem_append] at hi
  rcases hi with hi | hi
  · obtain ⟨o, ho, rfl⟩ := mem_map.mp hi
    have hall := r.isPlain_all r.mem_all
    have := all_eq_true.mp hall o ho
    cases o with
    | plain i => exact Option.isNone_iff_eq_none.mp this
    | call r => rfl
  · rw [mem_singleton.mp hi]
    rfl

/-- **No function of the lowered module has an operator that is to be replaced.** -/
theorem softOps_lowered (h : fn ∈ (lowered m).functions) : softOps fn = [] := by
  rw [softOps_eq_nil]
  intro p hp
  have hp := mem_map_of_mem (f := Placed.instr) hp
  rcases mem_functions_lowered h with ⟨fn0, -, rfl⟩ | ⟨r, -, n, rfl, -⟩
  · have hp : p.instr ∈ (lowerBody (routineIndex m) fn0.body).map Placed.instr := hp
    rw [map_instr_lowerBody] at hp
    obtain ⟨i, -, hi⟩ := mem_flatMap.mp hp
    exact replaced?_lowerInstr _ i _ hi
  · have hp : p.instr ∈ ((r.code.instrs (routineIndex m)).map Placed.new).map Placed.instr := hp
    rw [map_map] at hp
    obtain ⟨i, hi, heq⟩ := mem_map.mp hp
    rw [← heq]
    exact r.replaced?_code _ i hi

theorem softOpsOf_lowered (m : Module) : softOpsOf (lowered m) = [] :=
  flatMap_eq_nil_iff.mpr (fun _ h => softOps_lowered h)

/-! ### Every routine that is called is there -/

theorem mem_softOpsOf (hfn : fn ∈ m.functions) (hp : p ∈ fn.body) (hop : p.instr = .num op)
    (hsoft : (replacement? op).isSome = true) : op ∈ softOpsOf m := by
  refine mem_flatMap.mpr ⟨fn, hfn, mem_filterMap.mpr ⟨p, hp, ?_⟩⟩
  rw [hop]
  simp [hsoft]

theorem mem_routinesFor (hop : op ∈ softOpsOf m) (hops : replacement? op = some ops)
    (hr : .call r ∈ ops) : r ∈ routinesFor m := by
  refine mem_required (mem_flatMap.mpr ⟨op, hop, Code.mem_callees.mpr ?_⟩)
  rw [hops]
  exact hr

theorem routinesFor_closed (hr : r ∈ routinesFor m) (hc : .call c ∈ r.code.ops) :
    c ∈ routinesFor m := required_closed hr (Code.mem_callees.mpr hc)

/-! ### Lowering twice -/

theorem lowerBody_eq_self {body : List Placed} (h : ∀ p ∈ body, replaced? p.instr = none) :
    lowerBody index body = body := by
  induction body with
  | nil => rfl
  | cons p rest ih =>
    rw [lowerBody_cons, ih (fun q hq => h q (.tail _ hq))]
    unfold lowerInstr
    rw [h p mem_cons_self]
    rfl

/-- A module without operators to be replaced stays as it is. -/
theorem lowered_eq_self (h : softOpsOf m = []) : lowered m = m := by
  have hnone : routinesFor m = [] := by
    unfold routinesFor
    rw [h]
    decide
  have hsame : m.functions.map (lowerFunction (routineIndex m)) = m.functions := by
    refine (map_congr_left ?_).trans (map_id _)
    intro fn hfn
    have hsoft := flatMap_eq_nil_iff.mp h fn hfn
    show { fn with body := lowerBody (routineIndex m) fn.body } = fn
    rw [lowerBody_eq_self (softOps_eq_nil.mp hsoft)]
  unfold lowered
  rw [hnone, hsame]
  rfl

end SoftFloat

end ScoreWasm
