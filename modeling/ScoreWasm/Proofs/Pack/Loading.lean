import ScoreWasm.Proofs.Emit.Storing
import ScoreWasm.Proofs.Pack.LinearMemory

/-!
# Loading a program

The function that prepares everything, carried out line by line on a fresh world: constants, storages, the
pages of memory and the words in them, globals and tables.  A program without a start function is then in a
state in which its memory can be used.
-/

namespace ScoreWasm.Library

open Emit Machine Machine.View Word Text List String

/-! ### Constants -/

theorem name_const_inj {a b : Int} : (Reg.const a).name = (Reg.const b).name ↔ a = b := by
  rw [Reg.name, Reg.name, String.append_right_inj]
  exact Int.repr_inj

variable {p : Program} {ns : String} {n : Nat} {f : Nat → Int} {v : View} {Q : View → Prop}

theorem will_constants {cs : List Int} : Will p cs.length (.join (cs.map (fun c => set (.const c) c))) v
    (fun v' => ∀ c ∈ cs, v'.reg (.const c) = some (wrap32 c)) := by
  suffices h : ∀ (done : List Int) (v : View), (∀ c ∈ done, v.reg (.const c) = some (wrap32 c)) →
      Will p cs.length (.join (cs.map (fun c => set (.const c) c))) v
        (fun v' => ∀ c ∈ done ++ cs, v'.reg (.const c) = some (wrap32 c)) by
    exact (h [] v (fun c hc => absurd hc not_mem_nil)).imp fun v' hv' c hc => hv' c hc
  induction cs with
  | nil =>
    intro done v hdone
    exact .nil (by simpa using hdone)
  | cons c cs ih =>
    intro done v hdone
    refine .step (.set ?_)
    have hnext : ∀ b ∈ done ++ [c], (v.put (.const c) (wrap32 c)).reg (.const b) = some (wrap32 b) := by
      intro b hb
      rw [reg_put]
      by_cases hbc : b = c
      · rw [if_pos (name_const_inj.mpr hbc), hbc]
      · rw [if_neg (fun h => hbc (name_const_inj.mp h))]
        refine hdone b ?_
        simpa [hbc] using hb
    have := ih (done ++ [c]) _ hnext
    simpa using this

/-! ### Pages -/

namespace Keeps

/-- Entries that memory does not need may change. -/
theorem entry (hk : Keeps ns n f v) {id key : String} (t : Nbt) (hpages : ¬ (inNamespace ns "memory" = id ∧ "pages" = key))
    (harguments : ¬ (inNamespace ns "rt" = id ∧ "m" = key)) : Keeps ns n f (v.entry id key t) := by
  refine ⟨?_, ?_, hk.words, fun c hc => by rw [entry_reg]; exact hk.constants c hc⟩
  · rw [named?_entry, if_neg hpages]
    exact hk.pages
  · obtain ⟨es, hes⟩ := hk.arguments
    exact ⟨es, by rw [named?_entry, if_neg harguments]; exact hes⟩

end Keeps

/-- A page of zeros is ready to be copied. -/
def HasZeroPage (ns : String) (v : View) : Prop :=
  Nbt.named? "zero_page" (v.stores (inNamespace ns "rt")) = some (.list (Array.ofFn fun _ : Fin pageWords => .int 0))

theorem ints_replicate (size : Nat) : Nbt.ints (List.replicate size 0) = .list (Array.ofFn fun _ : Fin size => .int 0) := by
  refine congrArg Nbt.list (Array.ext (by simp) fun i h1 h2 => ?_)
  simp

theorem pagesOf_succ (size n : Nat) : pagesOf size (n + 1) (fun _ => 0)
    = .list ((Array.ofFn fun _ : Fin n => .list (Array.ofFn fun _ : Fin size => .int 0)).push
        (.list (Array.ofFn fun _ : Fin size => .int 0))) := by
  unfold pagesOf
  rw [Array.ofFn_succ]

theorem all_zeros (size : Nat) : ∀ t ∈ Array.ofFn fun _ : Fin size => Nbt.int 0, t.isContainer = false := by
  intro t ht
  obtain ⟨i, rfl⟩ := Array.mem_ofFn.mp ht
  rfl

/-- Adds a page and goes on with the rest. -/
def growBody (ns : String) : Script := .join [
  .command (.appendData (inNamespace ns "memory") pagesPath (.place (inNamespace ns "rt") zeroPagePath)),
  add "%mg" (-1),
  given [atLeast "%mg" 1] (jump ns "rt/mem/grow_loop")]

theorem plain_growBody (ns : String) : (growBody ns).Plain := by
  simp [growBody]

/-- **Pages are appended until the counter is used up.** -/
theorem whole_growBody (hp : p.Has ns "rt/mem/grow_loop" (growBody ns)) (count n : Nat) (v : View) (hcount : count < 2 ^ 31)
    (hpos : 0 < count) (hmg : v.reg "%mg" = some (count : Int)) (hk : Keeps ns n (fun _ => 0) v) (hzero : HasZeroPage ns v) :
    Whole p (3 * count) (growBody ns) v (Keeps ns (n + count) (fun _ => 0)) := by
  induction count generalizing n v with
  | zero => exact absurd hpos (Nat.lt_irrefl 0)
  | succ count ih =>
    have hmemory : inNamespace ns "rt" ≠ inNamespace ns "memory" := (rt_ne_memory ns).symm
    have hold := hk.pages
    have hfind : v.stores.find? (inNamespace ns "rt") zeroPagePath
        = some (.list (Array.ofFn fun _ : Fin pageWords => .int 0)) := by
      unfold Storages.find? zeroPagePath
      rw [Nbt.lookup, Nbt.child?, hzero]
      rfl
    have hdown : wrap32 (((count + 1 : Nat) : Int) + -1) = (count : Int) := by
      rw [show (((count + 1 : Nat) : Int) + -1) = (count : Int) by omega]
      exact wrap32_of_isWord ⟨by omega, by omega⟩
    -- One page is appended, one is left less, and the rest is the same again.
    refine (Whole.cons (l := 3 * count + 2) (Will.appendCopy rfl hfind (all_zeros _) hold ?_)).mono
    refine Whole.cons (l := 3 * count + 1)
      (Will.add ⟨by decide, by decide⟩ (by decide) (by rw [entry_reg]; exact hmg) ?_)
    rw [hdown]
    generalize hu : (v.entry (inNamespace ns "memory") "pages" _).put "%mg" (count : Int) = u
    have hmgu : u.reg "%mg" = some (count : Int) := by rw [← hu, reg_put_self]
    have hzerou : HasZeroPage ns u := by
      unfold HasZeroPage
      rw [← hu, put_stores, named?_entry, if_neg (fun h => hmemory h.1)]
      exact hzero
    have hku : Keeps ns (n + 1) (fun _ => 0) u := by
      rw [← hu]
      refine Keeps.put ⟨?_, ?_, hk.words, fun c hc => by rw [entry_reg]; exact hk.constants c hc⟩
      · rw [named?_entry, if_pos ⟨rfl, rfl⟩, pagesOf_succ]
      · obtain ⟨es, hes⟩ := hk.arguments
        exact ⟨es, by rw [named?_entry, if_neg (fun h => hmemory h.1)]; exact hes⟩
    have htest := tests_atLeast hmgu 1
    by_cases hzerocount : count = 0
    · subst hzerocount
      exact .of_will (.step (.given_false rfl htest (.nil hku)))
    · rw [decide_eq_true (by omega)] at htest
      have hrest := ih (n + 1) (u.entering (inNamespace ns "rt/mem/grow_loop")) (by omega) (by omega)
        (by rw [entering_reg]; exact hmgu) (hku.entering _) (by unfold HasZeroPage; rw [entering_stores]; exact hzerou)
      refine (Whole.given_jump htest hp (plain_growBody ns) hrest).mono (Nat.le_refl _) fun v' h => ?_
      rwa [Nat.add_assoc, Nat.add_comm 1 count] at h

theorem will_placeWord (hk : Keeps ns n f v) {W : Nat} (hW : W < n * pageWords) {x : Int}
    (hx : IsWord x) (h : ∀ v', Keeps ns n (Function.update f W x) v' → Q v') :
    Will p 1 (Emit.setData ns "memory" (wordPath W) (.int x)) v Q := by
  obtain ⟨entries, hassign, hpages⟩ := assign_word hk hW x
  exact .setData rfl (source_value (by simp [Nbt.copiesWhole])) hassign (h _ (hk.withWord hx hpages))

end ScoreWasm.Library

namespace ScoreWasm.Pack

open Std Wasm Emit Machine Machine.View Word Library

variable {p : Program} {ns : String} {n : Nat} {f : Nat → Int} {v : View} {Q : View → Prop}

variable {pages : Int} {l : MemoryLayout} {words : List (Nat × Nat)} {layout : Option MemoryLayout} {m : Module}
  {budget : Option Int} {s : Script} {constants : List Int} {tables : List (List Int)} {r : Routine}

section

variable (hp : p.Has ns "rt/mem/grow_loop" (growBody ns)) (hk : Keeps ns 0 (fun _ => 0) v)
include hp hk

theorem will_grow (hzero : HasZeroPage ns v) (hpages : pages ≤ maxPages) (hmg : v.reg "%mg" = some (wrap32 pages))
    (hword : IsWord pages) (h : ∀ v', Keeps ns pages.toNat (fun _ => 0) v' → Q v') :
    Will p (3 * pages.toNat + 1) (given [atLeast "%mg" 1] (call ns "rt/mem/grow_loop")) v Q := by
  have hmax : (maxPages : Int) = 32767 := rfl
  rw [wrap32_of_isWord hword] at hmg
  have htest := tests_atLeast hmg 1
  by_cases hpos : 1 ≤ pages
  · rw [decide_eq_true hpos] at htest
    refine .given_call htest hp (plain_growBody ns) ((whole_growBody hp pages.toNat 0 _ (by omega) (by omega) ?_
      (hk.entering _) ?_).mono (Nat.le_refl _) fun v' hv' => h v' (by rwa [Nat.zero_add] at hv'))
    · rw [entering_reg, hmg, Int.toNat_of_nonneg (by omega)]
    · unfold HasZeroPage
      rw [entering_stores]
      exact hzero
  · rw [decide_eq_false hpos] at htest
    have hnone : pages.toNat = 0 := by omega
    rw [hnone] at h ⊢
    exact .given_false rfl htest (h v hk)

/-- **Memory is prepared**: it has its pages, and the words of the data segments are in place. -/
theorem will_memoryScript
    (hl : l.pages ≤ maxPages) (hword : IsWord l.pages) (hwords : ∀ w ∈ words, w.1 < l.pages.toNat * pageWords) :
    Will p (words.length + (3 * l.pages.toNat + 6)) (memoryScript ns (some l) words) v
      (fun v' => ∃ f, Keeps ns l.pages.toNat f v') := by
  have hrt : ¬ (inNamespace ns "memory" = inNamespace ns "rt" ∧ "pages" = "zero_page") := fun h => rt_ne_memory ns h.1
  have hm : ¬ (inNamespace ns "rt" = inNamespace ns "rt" ∧ "m" = "zero_page") := fun h => absurd h.2 (by decide)
  refine Will.step (Will.setEntry rfl (source_words _) ?_)
  rw [ints_replicate]
  refine Will.step (Will.set (Will.step (Will.set ?_)))
  refine (Will.cons (l := words.length + 2) (will_grow hp ?_ ?_ hl (reg_put_self ..) hword
    fun v1 hk1 => ?_)).mono (show _ ≤ words.length + (3 * l.pages.toNat + 3) by omega)
  · exact (hk.entry _ hrt hm).put.put
  · unfold HasZeroPage
    rw [put_stores, put_stores, named?_entry, if_pos ⟨rfl, rfl⟩]
  refine Will.step (Will.set (Will.step (Will.set ?_)))
  refine (Will.cons (k := words.length * 1) ((Will.each (I := fun u => ∃ f, Keeps ns l.pages.toNat f u)
    (fun w hw u ⟨f, hu⟩ => ?_) ?_).imp fun u hu => Will.nil hu)).mono
  · exact will_placeWord hu (hwords w hw) (isWord_wrap32 _) fun v' hv' => ⟨_, hv'⟩
  · exact ⟨_, hk1.put.put⟩

end

/-- The pages at first. -/
def layoutPages : Option MemoryLayout → Nat
  | some l => l.pages.toNat
  | none => 0

/-- How many commands set up the memory. -/
def memoryCost (words : List (Nat × Nat)) : Option MemoryLayout → Nat
  | some l => words.length + (3 * l.pages.toNat + 6)
  | none => 3

/-- A layout that memory can be prepared for. -/
def Suits (words : List (Nat × Nat)) (layout : Option MemoryLayout) : Prop :=
  ∀ l, layout = some l → l.pages ≤ maxPages ∧ IsWord l.pages ∧ ∀ w ∈ words, w.1 < l.pages.toNat * pageWords

/-- Memory is prepared, be there any or not. -/
theorem will_memory (hp : p.Has ns "rt/mem/grow_loop" (growBody ns)) (hk : Keeps ns 0 (fun _ => 0) v)
    (hlayout : Suits words layout) : Will p (memoryCost words layout)
      (memoryScript ns layout words) v (fun v' => ∃ f, Keeps ns (layoutPages layout) f v') := by
  cases layout with
  | some l =>
    obtain ⟨hl, hword, hwords⟩ := hlayout l rfl
    exact will_memoryScript hp hk hl hword hwords
  | none =>
    refine .step (.set (.step (.set (.step (.set (.nil ⟨fun _ => 0, ?_⟩))))))
    exact hk.put.put.put

/-! ### Data segments -/

/-- The words are below a bound. -/
def Below (bound : Nat) (words : Words) : Prop := ∀ w ∈ words, w < bound

theorem below_writeBytes {pages address : Nat} {bytes : List UInt8} {words : Words}
    (h : Below (pages * pageWords) words) (hlen : address + bytes.length ≤ pages * pageSize) :
    Below (pages * pageWords) (writeBytes words address bytes) := by
  induction bytes generalizing words address with
  | nil => exact h
  | cons b rest ih =>
    have hsize : pageSize = 4 * pageWords := rfl
    rw [List.length_cons] at hlen
    refine ih (fun w hw => ?_) (by omega)
    rcases HashMap.mem_insert.mp hw with hw | hw
    · rw [← eq_of_beq hw]
      rw [hsize] at hlen
      have : address < 4 * (pages * pageWords) := by
        rw [Nat.mul_left_comm]
        omega
      omega
    · exact h w hw

section

variable {words words' : Words} (h : Below (pages.toNat * pageWords) words)
include h

theorem below_writeData {segment : DataSegment × Nat}
    (heq : Pack.writeData (pages * pageSize) words segment = .ok words') : Below (pages.toNat * pageWords) words' := by
  unfold Pack.writeData at heq
  dsimp only at heq
  split at heq
  · cases heq
    exact h
  · obtain ⟨start, -, heq⟩ := Except.bind_eq_ok.mp heq
    split at heq
    · cases heq
    next hfits =>
      cases heq
      refine below_writeBytes h ?_
      have hsize : (0 : Int) < pageSize := by decide
      have hnonneg : 0 ≤ pages := by
        by_contra hneg
        have := Int.mul_neg_of_neg_of_pos (show pages < 0 by omega) hsize
        omega
      rw [← Int.toNat_of_nonneg hnonneg] at hfits
      exact_mod_cast Int.not_lt.mp hfits

theorem below_foldlM_writeData {segments : List (DataSegment × Nat)}
    (heq : segments.foldlM (Pack.writeData (pages * pageSize)) words = .ok words') :
    Below (pages.toNat * pageWords) words' := by
  induction segments generalizing words words' with
  | nil =>
    cases heq
    exact h
  | cons s rest ih =>
    obtain ⟨next, hnext, heq⟩ := Except.bind_eq_ok.mp heq
    exact ih (below_writeData h hnext) heq

end

/-- The words of data segments lie within memory. -/
theorem dataImage_lt (h : dataImage m pages = .ok words) : ∀ w ∈ words, w.1 < pages.toNat * pageWords := by
  obtain ⟨image, himage, h⟩ := Except.bind_eq_ok.mp h
  cases h
  intro w hw
  have hempty : Below (pages.toNat * pageWords) (∅ : Words) := fun w hw => absurd hw HashMap.not_mem_empty
  rw [List.mem_mergeSort] at hw
  have hget := HashMap.mem_toList_iff_getElem?_eq_some.mp (List.mem_of_mem_filter hw)
  exact below_foldlM_writeData hempty himage w.1 (HashMap.mem_iff_isSome_getElem?.mpr (by rw [hget]; rfl))

/-! ### Preparing everything -/

theorem mem_eraseRepsBy_loop {x : Int} {as : List Int} {a : Int} {acc : List Int} :
    x ∈ List.eraseRepsBy.loop (· == ·) a as acc ↔ x = a ∨ x ∈ as ∨ x ∈ acc := by
  induction as generalizing a acc with
  | nil =>
    simp [List.eraseRepsBy.loop, or_comm]
  | cons b as ih =>
    rw [List.eraseRepsBy.loop]
    cases h : a == b with
    | true =>
      rw [ih, eq_of_beq h, List.mem_cons]
      tauto
    | false =>
      rw [ih]
      simp only [List.mem_cons]
      tauto

theorem mem_sortedSet {l : List Int} {c : Int} : c ∈ sortedSet l ↔ c ∈ l := by
  unfold sortedSet List.eraseReps
  have hsort : c ∈ l.mergeSort (fun a b => decide (a ≤ b)) ↔ c ∈ l := List.mem_mergeSort
  rw [← hsort]
  cases l.mergeSort (fun a b => decide (a ≤ b)) with
  | nil => rfl
  | cons b as =>
    rw [List.eraseRepsBy, mem_eraseRepsBy_loop]
    simp

/-- The constants of the memory routines are among those of the library. -/
theorem memoryConstants_mem (ns : String) (budget : Option Int) (tables : Nat) :
    ∀ c ∈ memoryConstants, c ∈ (Library.routines ns budget tables).flatMap (fun r => r.2.constants) := by
  have hall : ∀ c ∈ memoryConstants, c ∈ (wordRoutines "" ++ loadRoutines "").flatMap (fun r => r.2.constants) := by decide
  have hsame : (wordRoutines ns ++ loadRoutines ns).flatMap (fun r => r.2.constants)
      = (wordRoutines "" ++ loadRoutines "").flatMap (fun r => r.2.constants) := rfl
  intro c hc
  obtain ⟨r, hr, hcr⟩ := List.mem_flatMap.mp (hsame.symm ▸ hall c hc)
  refine List.mem_flatMap.mpr ⟨r, ?_, hcr⟩
  simp only [List.mem_append] at hr
  simp only [Library.routines, List.mem_append]
  tauto

/-- The constants of the memory are set. -/
def HasConstants (v : View) : Prop := ∀ c ∈ memoryConstants, v.reg (const c) = some c

theorem HasConstants.put (h : HasConstants v) {r : Reg} {i : Int}
    (hr : ∀ c ∈ memoryConstants, (const c).name ≠ r.name := by decide) : HasConstants (v.put r i) :=
  fun c hc => by rw [reg_put_of_ne _ (hr c hc)]; exact h c hc

theorem HasConstants.congr {v' : View} (h : HasConstants v) (hreg : ∀ r, v'.reg r = v.reg r) : HasConstants v' :=
  fun c hc => by rw [hreg]; exact h c hc

/-- Forgets what an earlier run left. -/
def resetBody (ns : String) (budget : Option Int) : Script :=
  .join [set "%trap" 0, set "%done" 0, set "%exit" 0, set "%depth" 0,
    (budget.map (fun b => .join [set "%budget" b, .command (.unschedule (inNamespace ns "rt/resume"))])).getD .empty,
    clearFrames ns]

theorem plain_resetBody (ns : String) (budget : Option Int) : (resetBody ns budget).Plain := by
  cases budget <;> simp [resetBody, clearFrames, Emit.setData]

/-- Preparing a run leaves the constants alone. -/
theorem will_reset (hp : p.Has ns "rt/reset" (resetBody ns budget)) (h : HasConstants v) :
    Will p 8 (call ns "rt/reset") v HasConstants := by
  refine .call hp (plain_resetBody ns budget) (.of_will ?_)
  have h0 := h.congr (entering_reg v (inNamespace ns "rt/reset"))
  have hclear : ∀ {u : View}, HasConstants u → Will p 1 (.join [clearFrames ns]) u HasConstants := fun hu =>
    Will.step (.setEntry rfl (source_value (by simp [Nbt.copiesWhole])) (.nil (hu.congr fun r => entry_reg ..)))
  refine Will.step (Will.set (Will.step (Will.set (Will.step (Will.set (Will.step (Will.set ?_)))))))
  cases budget with
  | none => exact (Will.cons (Will.empty (hclear h0.put.put.put.put))).mono
  | some b =>
    refine Will.cons (Will.step (Will.set (Will.step (Will.unschedule fun u _ hreg => Will.nil ?_))))
    exact hclear (h0.put.put.put.put.put.congr hreg)

/-! ### Globals -/

theorem name_const_ne_global (c i : Int) : (const c).name ≠ (Reg.globalVar i).name ∧
    (const c).name ≠ (Reg.globalVar i).high.name := by
  have hne : ∀ s t : String, "%c" ++ s ≠ "%g" ++ t := by
    intro s t h
    have := congrArg String.toList h
    exact absurd (congrArg (fun l => l[1]?) this) (by simp)
  refine ⟨hne _ _, ?_⟩
  show "%c" ++ _ ≠ "%g" ++ _ ++ "h"
  rw [String.append_assoc]
  exact hne _ _

theorem globalScript_eq_ok (h : globalScript m = .ok s) : ∃ scripts : List Script,
    s = .join scripts ∧ scripts.length = m.globals.length ∧
      ∀ t ∈ scripts, ∃ i x y, t = set (.globalVar i) x ∨ t = set (.globalVar i) x ++ set (Reg.globalVar i).high y := by
  obtain ⟨scripts, hscripts, h⟩ := Except.bind_eq_ok.mp h
  cases h
  refine ⟨scripts, rfl, by rw [(Except.mapM_eq_ok hscripts).1, List.length_zipIdx], fun t ht => ?_⟩
  obtain ⟨⟨g, i⟩, -, h⟩ := Except.exists_of_mem_mapM hscripts ht
  obtain ⟨x, -, h⟩ := Except.bind_eq_ok.mp h
  split at h <;> cases h
  · exact ⟨_, _, _, .inr rfl⟩
  · exact ⟨_, _, 0, .inl rfl⟩

/-- Globals are set, which memory does not show. -/
theorem will_globalScript (hs : globalScript m = .ok s) (hk : Keeps ns n f v) :
    Will p (m.globals.length * 2) s v (Keeps ns n f) := by
  obtain ⟨scripts, rfl, hlength, hall⟩ := globalScript_eq_ok hs
  have heach : ∀ t ∈ scripts, ∀ u, Keeps ns n f u → Will p 2 t u (Keeps ns n f) := by
    intro t ht u hu
    obtain ⟨i, x, y, rfl | rfl⟩ := hall t ht
    · exact (Will.set (hu.put fun c _ => (name_const_ne_global c _).1)).mono
    · exact Will.append (Will.set (Will.set ((hu.put fun c _ => (name_const_ne_global c _).1).put
        fun c _ => (name_const_ne_global c _).2)))
  have := Will.each (g := id) heach hk
  rwa [List.map_id, hlength] at this

/-! ### Preparing everything -/

/-- Storages of the constants and the arguments of the memory routines. -/
structure Prepared (ns : String) (v : View) : Prop where
  constants : HasConstants v
  arguments : ∃ es, Nbt.named? "m" (v.stores (inNamespace ns "rt")) = some (.compound es)

theorem Prepared.will_setEntry (h : Prepared ns v) {storage key : String} {t : Nbt} (hQ : ∀ v', Prepared ns v' → Q v')
    (ht : t.copiesWhole = true := by simp [Nbt.copiesWhole, Nbt.copiesEntriesWhole]) (hne : ¬ ("rt" = storage ∧ "m" = key) := by decide) :
    Will p 1 (Emit.setData ns storage [.key key] t) v Q := by
  refine .setEntry rfl (source_value ht) (hQ _ ?_)
  obtain ⟨es, hes⟩ := h.arguments
  refine ⟨h.constants.congr fun r => entry_reg .., es, ?_⟩
  rw [named?_entry, if_neg fun hboth => hne ⟨inNamespace_inj.mp hboth.1, hboth.2⟩]
  exact hes

/-- An empty list of pages makes a memory without any. -/
theorem Prepared.keeps (h : Prepared ns v) :
    Keeps ns 0 (fun _ => 0) (v.entry (inNamespace ns "memory") "pages" (.list #[])) := by
  obtain ⟨es, hes⟩ := h.arguments
  refine ⟨by rw [named?_entry, if_pos ⟨rfl, rfl⟩, pagesOf, Array.ofFn_zero], ⟨es, ?_⟩,
    fun i => ⟨by decide, by decide⟩, fun c hc => by rw [entry_reg]; exact h.constants c hc⟩
  rw [named?_entry, if_neg (fun h => rt_ne_memory ns h.1.symm)]
  exact hes

/-- Tables are set, which memory does not show. -/
theorem will_tables (tables : List (List Int)) (hk : Keeps ns n f v) :
    Will p tables.length (.join (tables.mapIdx (fun i entries =>
      .command (.setData (inNamespace ns "table") [.key ("t" ++ toString i)] (.words entries))))) v (Keeps ns n f) := by
  rw [List.mapIdx_eq_zipIdx_map]
  refine (Will.each (fun x _ u hu => Will.setEntry rfl (source_words _) ?_) hk).mono (by simp)
  exact hu.entry _ (by simp [inNamespace_inj]) (by simp [inNamespace_inj])

/-- What preparing everything takes, after the objective has been added. -/
def initCost (m : Module) (constants : List Int) (layout : Option MemoryLayout)
    (words : List (Nat × Nat)) (tables : List (List Int)) : Nat :=
  tables.length + m.globals.length * 2 + memoryCost words layout + 14 + (sortedSet constants).length

/-- **Everything is prepared, one line after the other.** -/
theorem will_init (hs : initScript ns m constants layout words tables = .ok s) (hstart : m.start = none)
    (hreset : p.Has ns "rt/reset" (resetBody ns budget)) (hgrow : p.Has ns "rt/mem/grow_loop" (growBody ns))
    (hconstants : ∀ c ∈ memoryConstants, c ∈ constants) (hlayout : Suits words layout) :
    ∃ rest, s = .join (.command (.addObjective objective) :: rest) ∧
      Will p (initCost m constants layout words tables) (.join rest) v
        (fun v' => ∃ f, Keeps ns (layoutPages layout) f v') := by
  obtain ⟨globals, hglobals, hs⟩ := Except.bind_eq_ok.mp hs
  cases hs
  refine ⟨_, rfl, ?_⟩
  refine .cons (will_constants.imp fun u hu => ?_)
  have hu : HasConstants u := fun c hc => by
    have hword : ∀ c ∈ memoryConstants, wrap32 c = c := by decide
    rw [const, hword c hc, hu c (mem_sortedSet.mpr (hconstants c hc)), hword c hc]
  refine .cons (k := 8) ((will_reset hreset hu).imp fun u hu => ?_)
  refine .step (.setEntry rfl (source_value (by simp [Nbt.copiesWhole, Nbt.copiesEntriesWhole])) ?_)
  have hu : Prepared ns (u.entry (inNamespace ns "rt") "m" (.compound [("p", .int 0), ("i", .int 0)])) :=
    ⟨hu.congr fun r => entry_reg .., _, by rw [named?_entry, if_pos ⟨rfl, rfl⟩]⟩
  refine .step (hu.will_setEntry fun u hu => ?_)
  refine .step (hu.will_setEntry fun u hu => ?_)
  refine .step (hu.will_setEntry fun u hu => ?_)
  refine .step (hu.will_setEntry fun u hu => ?_)
  refine .step (.setEntry rfl (source_value (by simp [Nbt.copiesWhole])) ?_)
  refine Will.cons ((will_memory hgrow hu.keeps hlayout).imp fun u hmemory => ?_)
  obtain ⟨f, hu⟩ := hmemory
  refine Will.cons ((will_globalScript hglobals hu).imp fun u hu => ?_)
  refine (Will.cons (l := 0) ((will_tables tables hu).imp fun u hu => ?_)).mono
  rw [hstart]
  exact Will.cons (Will.empty (Will.nil ⟨f, hu⟩))

/-- The view of a new world. -/
def freshView : View := ⟨[], fun _ => none, fun _ => [], ∅, [], #[], fun _ => 0, 0⟩

theorem shows_fresh : Shows .fresh freshView where
  objectives := rfl
  scores := fun s => by simp [World.fresh, Scoreboard.get?, Scoreboard.empty, freshView]
  holds := ⟨fun _ => ∅, fun _ _ _ => Set.disjoint_empty _, fun _ => Set.empty_subset _,
    fun _ => rfl, fun h => by simp [World.fresh] at h⟩
  blocks := rfl
  scheduled := rfl
  chat := rfl
  entered := fun name => by simp [World.timesEntered, World.fresh, freshView]
  time := rfl

section

variable (hs : initScript ns m constants layout words tables = .ok s)
include hs

theorem plain_initScript : s.Plain := by
  obtain ⟨globals, hglobals, hs⟩ := Except.bind_eq_ok.mp hs
  cases hs
  have hg : globals.Plain := by
    obtain ⟨scripts, rfl, -, hall⟩ := globalScript_eq_ok hglobals
    refine Script.all_join.mpr fun t ht => ?_
    obtain ⟨i, x, y, rfl | rfl⟩ := hall t ht <;> simp
  have hm : (memoryScript ns layout words).Plain := by
    cases layout with
    | none => simp [memoryScript]
    | some l =>
      simp only [memoryScript, Script.all_join_cons, Script.all_join_nil, and_true]
      exact ⟨by simp, by simp, by simp, by simp, by simp, by simp, Script.all_join_map.mpr fun w _ => by simp⟩
  simp only [Script.all_join_cons, Script.all_join_nil, and_true]
  exact ⟨by simp, Script.all_join_map.mpr fun v _ => by simp, by simp, by simp, by simp, by simp, by simp, by simp, by simp,
    hm, hg, Script.all_join_mapIdx fun i entries => by simp, by simp⟩

/-- On a fresh world everything is prepared. -/
theorem enters_init (hstart : m.start = none) (hinit : p.Has ns "init" s)
    (hreset : p.Has ns "rt/reset" (resetBody ns budget)) (hgrow : p.Has ns "rt/mem/grow_loop" (growBody ns))
    (hconstants : ∀ c ∈ memoryConstants, c ∈ constants) (hlayout : Suits words layout) :
    Enters p (inNamespace ns "init") none .fresh (initCost m constants layout words tables + 1)
      (Shown fun v' => ∃ f, Keeps ns (layoutPages layout) f v') := by
  refine ⟨_, hinit, (plain_initScript hs).needsNoArguments, fun name => ?_⟩
  let v : View := { freshView.entering (inNamespace ns "init") with objectives := [objective] }
  let w : World := { (World.fresh.entering (inNamespace ns "init")).counted with scores := ⟨[objective], ∅⟩ }
  have hentered := (shows_fresh.entering (inNamespace ns "init")).counted
  have hw : Shows w v := { hentered with objectives := rfl, holds := hentered.holds.of_same rfl rfl }
  have hv : v.Sane := by
    refine ⟨by unfold View.Live; rfl, fun s i h => ?_⟩
    cases h.symm.trans ((hentered.scores s).symm.trans (shows_fresh.scores s))
  have hexec : exec p (Command.addObjective objective).render (.addObjective objective)
      (World.fresh.entering (inNamespace ns "init")).counted = .ok (.of (some 1)) w := rfl
  obtain ⟨rest, rfl, hwill⟩ := will_init (v := v) hs hstart hreset hgrow hconstants hlayout
  rw [Nat.add_comm]
  refine (Runs.next fetches_command hexec rfl).trans ?_
  rintro _ rfl
  exact Whole.of_will hwill hv hw name

end

/-- Memory has no more pages at first than there can be. -/
theorem memoryLayout_le (h : memoryLayout m = .ok (some l)) : l.pages ≤ maxPages := by
  unfold memoryLayout at h
  split at h
  · cases h
  next limits _ _ =>
    by_cases hmin : (maxPages : Int) < limits.min
    · rw [if_pos hmin] at h
      cases h
    · rw [if_neg hmin] at h
      have hpages : l.pages = limits.min := by
        split at h
        · split at h
          · cases h
          · cases h
            rfl
        · cases h
          rfl
      omega

/-- Layouts that are not negative can be prepared for. -/
theorem suits_of_layout (hlayout : memoryLayout m = .ok layout) (hwords : memoryWords m layout = .ok words)
    (hpages : ∀ l, layout = some l → 0 ≤ l.pages) : Suits words layout := by
  rintro l rfl
  have hmax : (maxPages : Int) = 32767 := rfl
  have hle := memoryLayout_le hlayout
  have hnonneg := hpages l rfl
  exact ⟨hle, ⟨by omega, by omega⟩, dataImage_lt hwords⟩

/-- The function that prepares everything is the last one that is made. -/
theorem has_init (d : Draft) : d.pack.program.Has d.options.ns "init" d.init := by
  refine Draft.program_getElem? ?_
  have hlast : d.functions = (d.named (d.blocks ++ d.library ++ d.indirect)
      ++ d.exports.map (fun e => (e.function, (startScript d.options.ns d.source.module e.index true).lines))
      ++ d.named d.start) ++ (inNamespace d.options.ns "init", d.init.lines) :: [] := by
    unfold Draft.functions
    simp [Draft.named]
  rw [hlast]
  exact getElem?_ofList_of_last List.not_mem_nil

theorem mem_routines {tables : Nat} (h : r ∈ controlRoutines ns budget ∨ r ∈ growRoutines ns) :
    r ∈ Library.routines ns budget tables := by
  simp only [Library.routines, List.mem_append]
  tauto

theorem reset_mem_control (ns : String) (budget : Option Int) :
    ("rt/reset", resetBody ns budget) ∈ controlRoutines ns budget :=
  List.mem_append_left _ (.tail _ (.tail _ (.tail _ List.mem_cons_self)))

/-- **Loading a program without a start function prepares its memory**, if enough commands are allowed. -/
theorem reload_keepsMemory {o : Options} {registry : Host.Registry} {pk : Pack} (hc : compile m o registry = .ok pk)
    (hstart : pk.hasStart = false) (hpages : ∀ l, pk.memory = some l → 0 ≤ l.pages) :
    ∃ k : Nat, ∀ p : Program, p.functions = pk.program.functions → p.load = pk.program.load → k ≤ p.maxCommands →
      ∃ w bytes, reload p .fresh = .ok () w ∧ KeepsMemory pk.ns (layoutPages pk.memory) bytes w := by
  obtain ⟨tables, hlibrary⟩ := has_library hc
  obtain ⟨d, u, hosts, words, rfl, rfl, -, -, -, -, hlayout, hwords, -, -, -, -, hinit, -⟩ := compile_eq_ok hc
  have hstart : d.source.module.start = none := Option.isSome_eq_false_iff.mp hstart |> Option.isNone_iff_eq_none.mp
  have hconstants : ∀ c ∈ memoryConstants, c ∈ (d.blocks ++ d.library).flatMap (fun r => r.2.constants) := by
    intro c hc
    rw [List.flatMap_append]
    exact List.mem_append_right _ (memoryConstants_mem _ _ _ c hc)
  refine ⟨initCost d.source.module ((d.blocks ++ d.library).flatMap (fun r => r.2.constants)) d.layout words d.tables + 1,
    fun p hfunctions hload hmax => ?_⟩
  have hhas : ∀ {path s}, d.pack.program.Has d.options.ns path s → p.Has d.options.ns path s := by
    intro path s h
    unfold Program.Has
    rw [hfunctions]
    exact h
  obtain ⟨x, w, hrun, v, hw, hv, f, hk⟩ := (enters_init hinit hstart (hhas (has_init d))
    (hhas (hlibrary _ (mem_routines (.inl (reset_mem_control _ _)))))
    (hhas (hlibrary _ (mem_routines (.inr (.tail _ List.mem_cons_self))))) hconstants
    (suits_of_layout hlayout hwords hpages)).run (by omega)
  refine ⟨w, byteAt f, ?_, v, hw, hv, f, hk, fun _ => rfl⟩
  unfold reload
  rw [hload]
  have hdiscard : (discard (runFunction p (inNamespace d.options.ns "init") none) : Run Unit) .fresh = .ok () w :=
    map_ok hrun
  show ((discard (runFunction p (inNamespace d.options.ns "init") none) : Run Unit) >>= fun _ => pure ()) .fresh = _
  rw [bind_ok hdiscard]
  rfl

end ScoreWasm.Pack
