import ScoreWasm.Proofs.Library.Fitting
import ScoreWasm.Proofs.Machine.Agenda
import ScoreWasm.Proofs.Pack.Functions

/-!
# A compiled module in layers

Only functions that were made end up in a module, and all of them are of their levels (`compiled_layered`).
The functions that start something begin with a reset.
-/

namespace ScoreWasm

open Std Wasm Emit Text Machine List Script Function

namespace Machine

variable {H : Home} {m n : Nat}

variable {s : Step}

theorem Step.Fits.mono (hmn : m ≤ n) (h : s.Fits H m) : s.Fits H n := by
  cases s with
  | command line c =>
    intro d hd
    obtain hfits | ⟨ht, htimed⟩ := h d hd
    · exact .inl (hfits.mono hmn)
    · exact .inr ⟨ht, htimed.imp id fun ⟨hm, hr⟩ => ⟨hm.trans hmn, hr⟩⟩
  | template segments => exact fun line hline d hd => (h line hline d hd).mono hmn

theorem fits_ofLine {l : Line} (h : l.Suits H n) (hs : Step.ofLine l = some s) : s.Fits H n := by
  obtain h | ⟨ht, c, rfl, h⟩ | ⟨t, rfl, h⟩ := h
  · cases l with
    | command c =>
      cases hs
      rintro d ⟨⟩
      exact .inl h
    | template segments =>
      cases hs
      exact fun line hline d hd => h.2 line hline _ _ d hd
    | text t => exact h.elim
  · cases hs
    rintro d ⟨⟩
    exact .inr ⟨ht, h⟩
  · simp only [Step.ofLine] at hs
    split at hs
    · cases hs
    · cases hs
    · rename_i hcomment
      cases hs
      obtain hhead | h := h
      · cases htext : t.toList with
        | nil => simp [htext] at hhead
        | cons c cs =>
          rw [htext] at hhead
          cases hhead
          exact absurd htext (hcomment cs)
      · exact fun d hd => .inl (h _ _ d hd)

/-- Only the last line of a function may go beyond level five. -/
theorem fit_ofLines {front last : List Line} (hfront : ∀ l ∈ front, l.Suits H (min n 5)) (hlast : ∀ l ∈ last, l.Suits H n)
    (hlength : last.length ≤ 1) : Fit H n (ofLines (front ++ last)).steps := by
  show Fit H n ((front ++ last).filterMap Step.ofLine)
  rw [filterMap_append]
  have hsteps : ∀ s ∈ front.filterMap Step.ofLine, s.Fits H (min n 5) := by
    intro s hs
    obtain ⟨l, hl, hs⟩ := mem_filterMap.mp hs
    exact fits_ofLine (hfront l hl) hs
  have hrest : Fit H n (last.filterMap Step.ofLine) := by
    match last, hlength, hlast with
    | [], _, _ => trivial
    | [l], _, hlast =>
      cases hs : Step.ofLine l with
      | none => simp [hs, Fit]
      | some s => simpa [hs, Fit] using fits_ofLine (hlast l (.head _)) hs
  generalize front.filterMap Step.ofLine = steps at hsteps
  induction steps with
  | nil => exact hrest
  | cons s steps ih =>
    obtain ⟨hs, hsteps⟩ := forall_mem_cons.mp hsteps
    refine ⟨?_, ih hsteps⟩
    split
    · exact hs.mono (Nat.min_le_left ..)
    · exact hs

theorem fit_ofLines_of_le {lines : List Line} (hn : n ≤ 5) (h : ∀ l ∈ lines, l.Suits H n) :
    Fit H n (ofLines lines).steps := by
  rw [← append_nil lines]
  exact fit_ofLines (by rwa [Nat.min_eq_left hn]) (by simp) (by simp)

theorem AwaitsReset.settings {l : List Command} {rest : List Step} (h : ∀ c ∈ l, isSetting c = true) (hr : AwaitsReset H rest) :
    AwaitsReset H (l.map (fun c => .command c.render (.ok c)) ++ rest) := by
  induction l with
  | nil => exact hr
  | cons c l ih =>
    obtain ⟨hc, h⟩ := forall_mem_cons.mp h
    exact (ih h).setting hc

end Machine

namespace Pack

variable {H : Home} {n : Nat} {m : Module}

variable {α : Type} {k : String} {s : Script} {words : List (Nat × Nat)} {hosts : List Host}

/-- A function that is found under its name was made. -/
theorem mem_of_getElem?_ofList {a : α} {l : List (String × α)} (h : (HashMap.ofList l)[k]? = some a) : (k, a) ∈ l := by
  rw [HashMap.ofList_eq_insertMany_empty, HashMap.getElem?_insertMany_list, HashMap.getElem?_empty,
    Option.or_none, findSomeRev?_eq_findSome?_reverse] at h
  obtain ⟨x, hx, h⟩ := exists_of_findSome?_eq_some h
  obtain ⟨hk, heq⟩ := Option.ite_none_right_eq_some.mp h
  cases heq
  rw [← eq_of_beq hk]
  exact mem_reverse.mp hx

theorem mem_of_mem_byName {f : String × α} {l : List (String × α)} (h : f ∈ byName l) : f ∈ l :=
  mem_of_getElem?_ofList (mem_byName.mp h)

/-- Lines are accepted if all of them can be written. -/
theorem checkLines_byName {functions : List (String × List Line)}
    (h : ∀ f ∈ functions, ∀ l ∈ f.2, l.HasBytes) : checkLines (byName functions) = .ok () := by
  have hnone : lineFault? (byName functions) = none := by
    unfold lineFault?
    simp only [findSome?_eq_none_iff]
    intro f hf l hl
    have hbytes := h f (mem_of_mem_byName hf) l hl
    cases l with
    | command c => rfl
    | template segments | text s =>
      obtain ⟨bs, hbs⟩ := hbytes
      simp only [hbs]
  unfold checkLines
  rw [hnone]

/-! ### Functions that are made around those of a module -/

theorem fits_startScript (hb : Lacks ' ' H.ns) (func : Int) (takesArguments : Bool) :
    (startScript H.ns m func takesArguments).Fits H 5 := by
  unfold startScript
  simp only [all_join_cons, all_join_nil, and_true]
  refine ⟨by simp +decide, fits_pushFrame hb ⟨by decide, by decide⟩, all_join_mapIdx fun i t => by simp, ?_⟩
  simp [(body_blockPath func 0).level]

theorem fits_globalScript (h : globalScript m = .ok s) : s.Fits H n := by
  obtain ⟨scripts, hscripts, h⟩ := Except.bind_eq_ok.mp h
  cases h
  refine all_join.mpr fun s hs => ?_
  obtain ⟨x, -, hx⟩ := Except.exists_of_mem_mapM hscripts hs
  obtain ⟨v, -, hx⟩ := Except.bind_eq_ok.mp hx
  split at hx <;> cases hx <;> simp

theorem fits_memoryScript (layout : Option MemoryLayout) (words : List (Nat × Nat)) :
    (memoryScript H.ns layout words).Fits H 5 := by
  cases layout with
  | none => simp [memoryScript]
  | some l =>
    simp only [memoryScript, all_join_cons, all_join_nil, and_true]
    refine ⟨by simp +decide [Source.Suited], by simp, by simp, by simp +decide [atLeast], by simp, by simp, ?_⟩
    exact all_join_map.mpr fun w _ => by simp +decide [Nbt.Suited, PathStep.isPlain]

theorem lines_join_concat (front : List Script) (last : Script) :
    (Script.join (front ++ [last])).lines = (Script.join front).lines ++ last.lines := by
  simp [Script.join]

/-- The function that prepares everything sets scores and then has a reset; its last line may run the start
function. -/
theorem initScript_eq_ok {constants : List Int} {layout : Option MemoryLayout}
    {tables : List (List Int)} (h : initScript H.ns m constants layout words tables = .ok s) :
    ∃ front last : Script, s.lines = front.lines ++ last.lines ∧ front.Fits H 5 ∧ last.Fits H 6 ∧
      last.lines.length ≤ 1 ∧ AwaitsReset H (front.lines.filterMap Step.ofLine) := by
  obtain ⟨globals, hglobals, h⟩ := Except.bind_eq_ok.mp h
  cases h
  have hkey : ∀ t : String, (PathStep.key ("t" ++ t)).isPlain = true := by
    refine fun t => isPlain_key fun a ha heq => ?_
    have hlist : 't' :: t.toList = [a] := by simpa using congrArg String.toList heq
    exact absurd ((List.cons.inj hlist).1 ▸ ha) (by decide)
  have hsets : ∀ l : List Int, (Script.join (l.map (fun v => set (.const v) v))).lines.filterMap Step.ofLine
      = (l.map fun v => Command.setScore (Reg.const v).score (Word.wrap32 v)).map (fun c => .command c.render (.ok c)) := by
    intro l
    induction l with
    | nil => rfl
    | cons v l ih => exact congrArg (_ :: ·) ih
  refine ⟨_, _, lines_join_concat [_, _, _, _, _, _, _, _, _, _, _, _] _, ?_, ?_, ?_, ?_⟩
  · simp only [all_join_cons, all_join_nil, and_true]
    refine ⟨by simp, all_join_map.mpr fun v _ => fits_set _ _, by simp +decide, ?_, ?_, ?_, ?_, ?_,
      ?_, fits_memoryScript layout words, fits_globalScript hglobals,
      all_join_mapIdx fun i entries => by simp [hkey, Source.Suited]⟩
    all_goals simp +decide [Nbt.Suited, Nbt.isContainer, Heap.load, Datum.Suits, numberKeys]
  · simp +decide
  · cases m.start <;> simp [onlyIf, Emit.call, command, empty]
  · refine .setting rfl ?_
    show AwaitsReset H (List.filterMap Step.ofLine (Script.lines (Script.join _) ++ (_ :: _)))
    rw [filterMap_append, hsets]
    exact .settings (forall_mem_map.mpr fun v _ => rfl) (.reset _ _)

theorem mem_builtins (h : Host.bindAll .builtin m = .ok hosts) : ∀ x ∈ hosts, x ∈ Host.builtins := by
  intro x hx
  obtain ⟨⟨i, type⟩, -, hbind⟩ := Except.exists_of_mem_mapM h hx
  unfold Host.bind at hbind
  dsimp only at hbind
  split at hbind
  · cases hbind
  · split at hbind
    · cases hbind
    · rename_i y hy
      split at hbind <;> cases hbind
      exact mem_of_find?_eq_some hy

/-- The functions that start something: the one that prepares everything, and those of exports. -/
def starts (path : String) : Bool := path == "init" || startsWith "export/" path

theorem starts_of_body {path : String} (h : Body path) : starts path = false := by
  refine Bool.or_eq_false_iff.mpr ⟨beq_false_of_ne h.target.ne, ?_⟩
  obtain ⟨-, a, ha, b, rfl⟩ := h
  simp only [mem_cons, not_mem_nil, or_false] at ha
  rcases ha with rfl | rfl <;> simp [startsWith, List.isPrefixOf]

/-- All functions of a module are of their levels, and those that start something begin with a reset. -/
theorem fit_functions {d : Draft} (hH : H = ⟨d.options.ns, d.options.budget.isSome⟩)
    (hns : checkNamespace H.ns = .ok ()) (hhosts : Host.bindAll .builtin d.source.module = .ok hosts)
    (hcompiled : compileFunctions ⟨H.ns, d.options.budget, d.options.maxDepth, d.options.comments⟩ d.source hosts = .ok d.compiled)
    (hexports : exportEntries H.ns d.source.module [] d.source.module.exports = .ok d.exports)
    (hinit : initScript H.ns d.source.module ((d.blocks ++ d.library).flatMap (fun r => r.2.constants)) d.layout words d.tables = .ok d.init) :
    ∀ f ∈ d.functions, ∃ path, f.1 = inNamespace H.ns path ∧ Fit H (level path)
      (ofLines f.2).steps ∧ (starts path = true → AwaitsReset H (ofLines f.2).steps) := by
  have hblank := lacks_blank hns
  have hmark : Lacks '<' H.ns := fun h => (mem_namespace hns h).elim (by decide) (by decide)
  have hplain : isPlain H.ns = true := all_eq_true.mpr fun c hc => by
    obtain hc | rfl := mem_namespace hns hc
    · exact isPlainChar_of_lt (Nat.lt_trans (isPathChar_toNat_lt (isPathChar_of_isNamespaceChar hc)) (by decide))
    · decide
  have hfive : ∀ {path : String} {s : Script}, level path = 5 → s.Suits H 5 →
      Fit H (level path) (ofLines s.lines).steps := by
    intro path s hpath hs
    rw [hpath]
    exact fit_ofLines_of_le (Nat.le_refl 5) hs
  have hquiet : ∀ {path : String} {l : List Step}, starts path = false → starts path = true → AwaitsReset H l := by
    intro path l h h'
    rw [h] at h'
    cases h'
  have hsame : d.options.ns = H.ns := by rw [hH]
  unfold Draft.functions Draft.named
  rw [hsame]
  simp only [forall_mem_append, forall_mem_map]
  refine ⟨⟨⟨⟨?_, ?_⟩, ?_⟩, ?_⟩, ?_, ?_⟩
  · intro e he
    obtain ⟨c, hc, he⟩ := mem_flatMap.mp he
    obtain ⟨x, -, hx⟩ := Except.exists_of_mem_mapM hcompiled hc
    obtain ⟨hbody, hsuits⟩ := suits_functionCode ⟨rfl, fun h => by rwa [hH]⟩ hblank hmark (mem_builtins hhosts) hx e he
    exact ⟨e.1, rfl, hfive hbody.level hsuits, hquiet (starts_of_body hbody)⟩
  · intro r hr
    rw [Draft.library, hsame] at hr
    have hsound := Library.sound_routines hplain hblank (fun h => by rwa [hH]) _ r hr
    have hearly := early_routines _ _ _ r hr
    have hstarts : starts r.1 = false := Bool.or_eq_false_iff.mpr ⟨beq_false_of_ne hearly.init,
      Bool.eq_false_iff.mpr fun h => hearly.exported ( isPrefixOf_iff_prefix.mp h)⟩
    exact ⟨r.1, rfl, fit_ofLines_of_le (level_le_five hearly.init) fun l hl => (hsound l hl).1, hquiet hstarts⟩
  · intro e he
    obtain ⟨c, -, he⟩ := mem_flatMap.mp he
    rw [hsame] at he
    obtain ⟨hbody, hfits⟩ := fits_indirectScripts e he
    exact ⟨e.1, rfl, hfive hbody.level hfits.suits, hquiet (starts_of_body hbody)⟩
  · intro e he
    obtain ⟨path, hpath⟩ := exportEntries_functions hexports e he
    exact ⟨_, hpath, hfive (level_append (by simp) path) (fits_startScript hblank _ _).suits, fun _ => .reset _ _⟩
  · intro e he
    unfold Draft.start at he
    split at he
    · cases mem_singleton.mp he
      rw [hsame]
      exact ⟨"rt/start", rfl, hfive (by decide) (fits_startScript hblank _ _).suits, hquiet (by decide)⟩
    · cases he
  · refine forall_mem_singleton.mpr ⟨"init", rfl, ?_⟩
    obtain ⟨front, last, hlines, hfront, hlast, hlength, hawaits⟩ := initScript_eq_ok hinit
    rw [hlines]
    refine ⟨fit_ofLines hfront.suits hlast.suits hlength, fun _ => ?_⟩
    rw [ofLines, filterMap_append]
    exact hawaits.append _

/-- **All functions of a compiled program are of their levels**, and those that start something begin with a
reset. -/
theorem compiled_layered {o : Options} {pk : Pack} (hc : compile m o .builtin = .ok pk) {name : String} {f : Machine.Function}
    (hf : pk.program.functions[name]? = some f) : ∃ path, name = inNamespace o.ns path ∧
      Fit ⟨o.ns, o.budget.isSome⟩ (level path) f.steps ∧ (starts path = true → AwaitsReset ⟨o.ns, o.budget.isSome⟩ f.steps) := by
  obtain ⟨d, u, hosts, words, rfl, rfl, hns, -, -, hhosts, -, -, -, hcompiled, hexports, -, hinit, -⟩ := compile_eq_ok hc
  obtain ⟨⟨name', lines⟩, hmem, heq⟩ := mem_map.mp (mem_of_getElem?_ofList hf)
  cases heq
  exact fit_functions rfl hns hhosts hcompiled hexports hinit _ (mem_of_mem_byName hmem)

end Pack

end ScoreWasm
