import ScoreWasm.Proofs.Emit.Effects

/-!
# What scripts do to storages

Rules for the shapes that set entries of storages and append to lists there, and for functions that are
called under a condition.
-/

namespace ScoreWasm.Machine.View

open Emit Word List

variable {p : Program} {v : View} {s : Script} {k c : Nat} {Q I : View → Prop}
  {id key name : String} {σ : Storages} {a : PathStep} {path place : Path}

variable {t : Nbt} {src : Source}

/-! ### Entries of storages -/

/-- The view with an entry put in a storage. -/
def entry (v : View) (id key : String) (t : Nbt) : View :=
  v.withStores (v.stores.put id (Nbt.setEntry key t (v.stores id)))

@[simp] theorem entry_reg (v : View) (id key : String) (t : Nbt) (r : Reg) : (v.entry id key t).reg r = v.reg r :=
  withStores_reg ..

theorem named?_entry (v : View) (id key : String) (t : Nbt) (id' key' : String) :
    Nbt.named? key' ((v.entry id key t).stores id')
      = if id' = id ∧ key' = key then some t else Nbt.named? key' (v.stores id') := by
  rw [entry, withStores_stores, Storages.put]
  by_cases hid : id' = id
  · subst hid
    rw [Function.update_self, Nbt.named?_setEntry]
    by_cases hkey : key' = key
    · simp [hkey]
    · rw [if_neg (by simpa using fun h => hkey h.symm), if_neg (fun h => hkey h.2)]
  · rw [Function.update_of_ne hid, if_neg (fun h => hid h.1)]

theorem Sane.entry (h : v.Sane) (id key : String) (t : Nbt) : (v.entry id key t).Sane := h.withStores _

theorem copiesWhole_ints (is : List Int) : (Nbt.ints is).copiesWhole = true := by
  cases is with
  | nil => simp [Nbt.ints, Nbt.copiesWhole]
  | cons i is => simp [Nbt.ints, Nbt.copiesWhole, Nbt.isContainer]

/-- A source that writes down a value. -/
def Gives (src : Source) (t : Nbt) : Prop :=
  t.copiesWhole = true ∧ ∀ line, sourceData line src = some <$> literalData line t

theorem source_value (h : t.copiesWhole = true) : Gives (.value t) t := ⟨h, fun _ => rfl⟩

theorem source_words (is : List Int) : Gives (.words is) (Nbt.ints is) := ⟨copiesWhole_ints is, fun _ => rfl⟩

theorem acts_setData (hsrc : Gives src t)
    (hput : v.stores.assign id path t = (true, σ)) : Acts p (.setData id path src) v .next (v.withStores σ) := by
  intro w line hw
  obtain ⟨P, hP⟩ := hw.holds
  obtain ⟨w1, d, hload, hd, hod1⟩ := hP.literalData hsrc.1 line
  obtain ⟨w2, hrun, hholds, hod2⟩ := hd.writeData id path
  rw [hput] at hrun hholds
  refine ⟨some 1, w2, ?_, hw.data (hod1.trans hod2) hholds⟩
  rw [exec, execWithin, hsrc.2, bind_ok (map_ok hload)]
  dsimp only
  rw [bind_ok hrun]
  rfl

theorem acts_setEntry (hsrc : Gives src t) : Acts p (.setData id [.key key] src) v .next (v.entry id key t) :=
  acts_setData hsrc rfl

theorem acts_appendCopy {id' : String} {items old : Array Nbt}
    (hfind : v.stores.find? id' (a :: place) = some (.list items)) (hitems : ∀ t ∈ items, t.isContainer = false)
    (hold : Nbt.named? key (v.stores id) = some (.list old)) :
    Acts p (.appendData id [.key key] (.place id' (a :: place))) v .next
      (v.entry id key (.list (old.push (.list items)))) := by
  intro w line hw
  obtain ⟨d, B, hd, hs⟩ := hw.find? hfind
  have hstands := hs
  cases hs with
  | @list _ address _ _ _ _ _ _ _ _ =>
    obtain ⟨P, hP⟩ := hw.holds
    obtain ⟨w1, d1, hcopy, hd1, hod⟩ := hP.copyOf hstands hitems
    obtain ⟨list, data, hlist, -, -, hholds⟩ := hd1.append hold
    have hsource : sourceData line (.place id' (a :: place)) w = .ok (some d1) w1 := by
      rw [sourceData, bind_get, hd]
      exact map_ok hcopy
    rw [Storages.append, hold] at hholds
    refine ⟨some ((((w1.heap.update list (Container.append d1)).get? list).map Container.size).getD 0 : Nat), _, ?_,
      hw.data (hod.trans (onlyData_heap _ _)) hholds⟩
    show (sourceData line (.place id' (a :: place)) >>= _) w = _
    rw [bind_ok hsource, bind_ok hlist]
    rfl

/-! ### Conditions -/

theorem tests_atLeast {r : Reg} {x : Int} (h : v.reg r = some x) (i : Int) : Tests [atLeast r i] v (decide (i ≤ x)) := by
  have hholds : Tests [atLeast r i] v ((Range.atLeast i).contains x) := tests_holds h
  have heq : (Range.atLeast i).contains x = decide (i ≤ x) := by
    simp [Range.contains, Range.atLeast]
  rwa [heq] at hholds

/-! ### Rules -/

namespace Will

theorem setData (hs : s.lines = [.command (.setData id path src)])
    (hsrc : Gives src t) (hput : v.stores.assign id path t = (true, σ)) (h : Q (v.withStores σ)) : Will p 1 s v Q :=
  single hs (fun hv => ⟨acts_setData hsrc hput, hv.withStores σ⟩) h

theorem setEntry (hs : s.lines = [.command (.setData id [.key key] src)]) (hsrc : Gives src t)
    (h : Q (v.entry id key t)) : Will p 1 s v Q :=
  single hs (fun hv => ⟨acts_setEntry hsrc, hv.entry id key t⟩) h

theorem appendCopy {id' : String} {items old : Array Nbt}
    (hs : s.lines = [.command (.appendData id [.key key] (.place id' (a :: place)))])
    (hfind : v.stores.find? id' (a :: place) = some (.list items)) (hitems : ∀ t ∈ items, t.isContainer = false)
    (hold : Nbt.named? key (v.stores id) = some (.list old))
    (h : Q (v.entry id key (.list (old.push (.list items))))) : Will p 1 s v Q :=
  single hs (fun hv => ⟨acts_appendCopy hfind hitems hold, hv.entry id key _⟩) h

/-- A plan is dropped, which no register and no storage shows. -/
theorem unschedule (h : ∀ v' : View, v'.stores = v.stores → (∀ r, v'.reg r = v.reg r) → Q v') :
    Will p 1 (.command (.unschedule name)) v Q := by
  let u : View := { v with scheduled := v.scheduled.filter (·.name != name) }
  have hacts : Acts p (.unschedule name) v .next u := fun w line hw =>
    ⟨_, _, rfl, { hw with scheduled := congrArg (List.filter _) hw.scheduled, holds := hw.holds.of_same rfl rfl }⟩
  refine single rfl (fun hv => ⟨hacts, hv.live, hv.words⟩) (h u rfl fun r => ?_)
  unfold View.reg
  rfl

/-- A function is called under a condition that is met. -/
theorem given_call {clauses : List Clause} {ns path : String} (htest : Tests clauses v true) (hp : p.Has ns path s)
    (hplain : s.Plain) (h : Whole p k s (v.entering (inNamespace ns path)) Q) :
    Will p (k + 1) (given clauses (Emit.call ns path)) v Q :=
  invokes (c := .execute clauses (.function (inNamespace ns path) none)) rfl
    (acts_same fun b hb => by rw [calculate, htest b hb]; rfl) hp hplain h

/-- Scripts for the items of a list, each of which keeps up an invariant. -/
theorem each {α : Type} {l : List α} {g : α → Script}
    (hstep : ∀ a ∈ l, ∀ u, I u → Will p c (g a) u I) (h : I v) : Will p (l.length * c) (.join (l.map g)) v I := by
  induction l generalizing v with
  | nil =>
    rw [length_nil, Nat.zero_mul]
    exact nil h
  | cons a l ih =>
    rw [map_cons, length_cons, Nat.succ_mul]
    exact cons ((hstep a mem_cons_self v h).imp fun u hu =>
      ih (fun b hb => hstep b (mem_cons_of_mem a hb)) hu)

end Will

end ScoreWasm.Machine.View
