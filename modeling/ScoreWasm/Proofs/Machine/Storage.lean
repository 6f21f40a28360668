import ScoreWasm.Machine.Exec
import ScoreWasm.Proofs.Data.Forest

/-!
# Storages as trees

The storages of a world hold trees when no two places share a container.  In such a world reading and
writing through paths is editing the trees, and everything else about the world stays as it is.
-/

namespace ScoreWasm.Machine

open Heap

variable {w : World} {α : Type} {v : Nbt} {d : Datum} {items : Array Nbt} {h' : Heap}

/-! ### Computations on a world -/

section Runs

variable {β : Type} {m : Run α} {f : α → Run β} {w' : World} {a : α} {e : Fault}

theorem bind_ok (h : m w = .ok a w') : (m >>= f) w = f a w' := by
  show EStateM.bind m f w = f a w'
  rw [EStateM.bind, h]

theorem bind_error (h : m w = .error e w') : (m >>= f) w = .error e w' := by
  show EStateM.bind m f w = .error e w'
  rw [EStateM.bind, h]

theorem bind_get {f : World → Run β} : ((get : Run World) >>= f) w = f w w := rfl

theorem map_ok {g : α → β} (h : m w = .ok a w') : (g <$> m) w = .ok (g a) w' := by
  show EStateM.map g m w = .ok (g a) w'
  rw [EStateM.map, h]

end Runs

/-! ### Trees by the names of storages -/

/-- The entries that storages hold; a storage that was never used has none. -/
abbrev Storages := String → List (String × Nbt)

namespace Storages

variable (σ : Storages) (id : String) (path : Path)

/-- The part of a storage a path leads to. -/
def find? : Option Nbt := Nbt.lookup path (.compound (σ id))

/-- The storages with other entries in one of them. -/
def put (es : List (String × Nbt)) : Storages := Function.update σ id es

/-- Writes at a path of a storage; the flag says whether the path could be followed. -/
def assign (v : Nbt) : Bool × Storages :=
  ((Nbt.assignIn v (σ id) path).1, σ.put id (Nbt.assignIn v (σ id) path).2)

/-- Appends to the list under a name of a storage. -/
def append (k : String) (v : Nbt) : Storages :=
  match Nbt.named? k (σ id) with
  | some (.list items) => σ.put id (Nbt.setEntry k (.list (items.push v)) (σ id))
  | _ => σ

end Storages

/-! ### Worlds whose storages hold trees -/

/-- Nothing but the storages changes. -/
structure OnlyData (w w' : World) : Prop where
  scores : w'.scores = w.scores
  literals : w'.literals = w.literals
  blocks : w'.blocks = w.blocks
  scheduled : w'.scheduled = w.scheduled
  chat : w'.chat = w.chat
  entered : w'.entered = w.entered
  time : w'.time = w.time
  commands : w'.commands = w.commands

theorem OnlyData.refl (w : World) : OnlyData w w := ⟨rfl, rfl, rfl, rfl, rfl, rfl, rfl, rfl⟩

theorem OnlyData.trans {w' w'' : World} (h1 : OnlyData w w') (h2 : OnlyData w' w'') : OnlyData w w'' :=
  ⟨h2.scores.trans h1.scores, h2.literals.trans h1.literals, h2.blocks.trans h1.blocks,
    h2.scheduled.trans h1.scheduled, h2.chat.trans h1.chat, h2.entered.trans h1.entered,
    h2.time.trans h1.time, h2.commands.trans h1.commands⟩

theorem onlyData_heap (w : World) (h : Heap) : OnlyData w { w with heap := h } :=
  ⟨rfl, rfl, rfl, rfl, rfl, rfl, rfl, rfl⟩

/-- The storages of a world hold trees at addresses of their own, all different from some others. -/
structure HoldsApart (w : World) (σ : Storages) (P : String → Set Nat) : Prop where
  apart : ∀ ⦃i j : String⦄, i ≠ j → Disjoint (P i) (P j)
  used : ∀ i, P i ⊆ w.heap.used
  unknown : ∀ {i}, w.storages[i]? = none → σ i = []
  known : ∀ {i a}, w.storages[i]? = some a → Stands w.heap (.compound (σ i)) (.ref a) (P i)

/-- The storages of a world hold trees without sharing. -/
def Holds (w : World) (σ : Storages) : Prop := ∃ P, HoldsApart w σ P

/-- The storages of a world hold trees, and a value stands for another tree apart from them. -/
def HoldsWith (w : World) (σ : Storages) (v : Nbt) (d : Datum) : Prop :=
  ∃ P A, HoldsApart w σ P ∧ Stands w.heap v d A ∧ A ⊆ w.heap.used ∧ ∀ i, Disjoint A (P i)

theorem onHeap_run (f : Heap → α × Heap) (w : World) :
    onHeap f w = .ok (f w.heap).1 { w with heap := (f w.heap).2 } := rfl

theorem modifyGet_run (f : World → α × World) (w : World) : (modifyGet f : Run α) w = .ok (f w).1 (f w).2 := rfl

namespace HoldsApart

variable {σ : Storages} {P : String → Set Nat} {id : String}

theorem holds (h : HoldsApart w σ P) : Holds w σ := ⟨P, h⟩

theorem used_update_of {S U : Set Nat} (hS : S ⊆ U) (hP : ∀ i, P i ⊆ U) (i : String) : Function.update P id S i ⊆ U :=
  (Function.forall_update_iff P fun _ Q => Q ⊆ U).2 ⟨hS, fun i _ => hP i⟩ i

/-- A path leads to the same place in a storage and in its tree. -/
theorem find? (h : HoldsApart w σ P) (id : String) (s : PathStep) (rest : Path) :
    (w.find? id (s :: rest) = none ∧ σ.find? id (s :: rest) = none) ∨
      ∃ d t B, w.find? id (s :: rest) = some d ∧ σ.find? id (s :: rest) = some t ∧ B ⊆ P id ∧ Stands w.heap t d B := by
  unfold World.find? Storages.find?
  cases ha : w.storages[id]? with
  | none =>
    rw [h.unknown ha]
    refine .inl ⟨rfl, ?_⟩
    cases s <;> rfl
  | some a => exact (h.known ha).lookup

/-- The same storages after a change of the world that none of their containers took part in. -/
theorem frame {w' : World} (h : HoldsApart w σ P) (hst : w'.storages = w.storages)
    (hagree : ∀ i, Agree w.heap w'.heap (P i)) (hused : w.heap.used ⊆ w'.heap.used) : HoldsApart w' σ P := by
  refine ⟨h.apart, fun i => (h.used i).trans hused, ?_, ?_⟩
  · intro i hi
    exact h.unknown (hst ▸ hi)
  · intro i a ha
    exact (h.known (hst ▸ ha)).frame (hagree i)

/-- The compound of a storage, which is made if needed. -/
theorem root (h : HoldsApart w σ P) (id : String) : ∃ a S,
    (w.root id).1 = .ref a ∧ (w.root id).2.storages[id]? = some a ∧
      HoldsApart (w.root id).2 σ (Function.update P id S) ∧ S ⊆ P id ∪ w.heap.usedᶜ ∧ OnlyData w (w.root id).2 ∧
      Agree w.heap (w.root id).2.heap w.heap.used ∧ w.heap.used ⊆ (w.root id).2.heap.used := by
  unfold World.root
  cases ha : w.storages[id]? with
  | some a =>
    refine ⟨a, P id, rfl, ha, ?_, Set.subset_union_left, .refl w, .refl _ _, Set.Subset.rfl⟩
    rw [Function.update_eq_self]
    exact h
  | none =>
    have hσ := h.unknown ha
    have hsize := size_notMem_used (h := w.heap)
    have hg := grown_alloc w.heap (.compound [])
    refine ⟨w.heap.cells.size, {w.heap.cells.size}, rfl, ?_, ?_, ?_, ?_, hg.agree, hg.used⟩
    · simp
    · refine ⟨apart_update h.apart ?_, ?_, ?_, ?_⟩
      · exact fun j _ => Set.disjoint_singleton_left.2 fun hm => hsize (h.used j hm)
      · exact used_update_of hg.subset fun i => (h.used i).trans hg.used
      · intro i hi
        simp only [Std.HashMap.getElem?_insert] at hi
        split at hi
        · cases hi
        · exact h.unknown hi
      · intro i a hi
        simp only [Std.HashMap.getElem?_insert] at hi
        split at hi
        · rename_i heq
          have heq := eq_of_beq heq
          subst heq
          cases hi
          rw [hσ, Function.update_self]
          exact stands_empty (by rw [get?_alloc, alloc_fst, if_pos rfl])
        · rename_i hne
          have hne : i ≠ id := by
            rintro rfl
            simp at hne
          rw [Function.update_of_ne hne]
          exact (h.known hi).frame (hg.agree.mono (h.used i))
    · rw [Set.singleton_subset_iff]
      exact .inr hsize
    · exact ⟨rfl, rfl, rfl, rfl, rfl, rfl, rfl, rfl⟩

end HoldsApart

namespace HoldsApart

variable {σ : Storages} {P : String → Set Nat} {id : String} {A : Set Nat} {dv : Datum}

variable {a : Nat} {S : Set Nat}

theorem edited (h : HoldsApart w σ P) (ha : w.storages[id]? = some a) {es : List (String × Nbt)}
    (he : Edited w.heap h' (.compound es) (.ref a) (P id) A) (hA : ∀ i, Disjoint A (P i)) :
    Holds { w with heap := h' } (σ.put id es) := by
  obtain ⟨S, hs, hsub, hused⟩ := he.stands
  have other : ∀ i, i ≠ id → Disjoint S (P i) := by
    intro i hi
    rw [Set.disjoint_left]
    intro x hx hxi
    rcases hsub hx with (hxS | hxA) | hxn
    · exact Set.disjoint_left.1 (h.apart hi) hxi hxS
    · exact Set.disjoint_left.1 (hA i) hxA hxi
    · exact hxn (h.used i hxi)
  refine ⟨Function.update P id S, apart_update h.apart other, ?_, ?_, ?_⟩
  · exact used_update_of hused fun i => (h.used i).trans he.used
  · intro i hi
    have hne : i ≠ id := by
      rintro rfl
      rw [ha] at hi
      cases hi
    rw [Storages.put, Function.update_of_ne hne]
    exact h.unknown hi
  · intro i b hb
    by_cases hi : i = id
    · subst hi
      have hab : a = b := by
        rw [ha] at hb
        exact Option.some.inj hb
      subst hab
      rw [Storages.put, Function.update_self, Function.update_self]
      exact hs
    · rw [Storages.put, Function.update_of_ne hi, Function.update_of_ne hi]
      refine (h.known hb).frame (he.agree.mono ?_)
      intro x hx
      exact ⟨h.used i hx, fun hm => Set.disjoint_left.1 (h.apart hi) hx hm⟩

theorem stands_root (h : HoldsApart w σ (Function.update P id S)) (ha : w.storages[id]? = some a) :
    Stands w.heap (.compound (σ id)) (.ref a) S ∧ S ⊆ w.heap.used := by
  have hs := h.known ha
  have hsub := h.used id
  rw [Function.update_self] at hs hsub
  exact ⟨hs, hsub⟩

/-- A value stays apart from the storages when one of them is made. -/
theorem apart_root (hAu : A ⊆ w.heap.used) (hA : ∀ i, Disjoint A (P i))
    (hS : S ⊆ P id ∪ w.heap.usedᶜ) (i : String) : Disjoint A (Function.update P id S i) := by
  by_cases hi : i = id
  · subst hi
    rw [Function.update_self, Set.disjoint_left]
    intro x hx hxS
    rcases hS hxS with hxP | hxn
    · exact Set.disjoint_left.1 (hA i) hx hxP
    · exact hxn (hAu hx)
  · rw [Function.update_of_ne hi]
    exact hA i

/-- **Writing at a path of a storage writes at the path of its tree.** -/
theorem writeData (h : HoldsApart w σ P) (hv : Stands w.heap v dv A) (hAu : A ⊆ w.heap.used)
    (hA : ∀ i, Disjoint A (P i)) (path : Path) :
    ∃ w', writeData id path dv w = .ok (σ.assign id path v).1 w' ∧ Holds w' (σ.assign id path v).2 ∧ OnlyData w w' := by
  obtain ⟨a, S, hroot, hst, hw, hS, hod, hagree, hused⟩ := h.root id
  obtain ⟨hs, hSu⟩ := hw.stands_root hst
  have hdisj := apart_root hAu hA hS
  have hAS : Disjoint A S := by
    have := hdisj id
    rwa [Function.update_self] at this
  obtain ⟨hflag, hedit⟩ := hs.assign path hSu (hv.frame (hagree.mono hAu)) hAS (hAu.trans hused)
  rw [Nbt.assign_eq_assignIn] at hflag hedit
  refine ⟨{ (w.root id).2 with heap := ((w.root id).2.heap.assign path (.ref a) dv).2 }, ?_, ?_, ?_⟩
  · unfold Machine.writeData
    rw [bind_ok (modifyGet_run _ _), onHeap_run, hroot, hflag]
    rfl
  · exact hw.edited hst (by rw [Function.update_self]; exact hedit) hdisj
  · exact hod.trans (onlyData_heap _ _)

end HoldsApart

/-! ### Values for new places -/

namespace HoldsApart

variable {σ : Storages} {P : String → Set Nat} {id : String}

/-- Containers are added that belong to no storage. -/
theorem grown (h : HoldsApart w σ P) {A : Set Nat} (hg : Grown w.heap h' A) :
    HoldsApart { w with heap := h' } σ P ∧ A ⊆ h'.used ∧ ∀ i, Disjoint A (P i) :=
  ⟨h.frame rfl (fun i => hg.agree.mono (h.used i)) hg.used, hg.subset, fun i => hg.fresh.mono_right (h.used i)⟩

theorem literalData (h : HoldsApart w σ P) (hv : v.copiesWhole = true) (line : String) :
    ∃ w' d, literalData line v w = .ok d w' ∧ HoldsWith w' σ v d ∧ OnlyData w w' := by
  obtain ⟨A, hg, hs⟩ := load_stands v w.heap
  obtain ⟨hw, hA, hdisj⟩ := h.grown hg
  refine ⟨_, (load v w.heap).1, ?_, ⟨P, A, hw, hs, hA, hdisj⟩, onlyData_heap _ _⟩
  unfold Machine.literalData
  rw [if_pos hv, onHeap_run]

/-- A list without containers is copied to a place of its own. -/
theorem copyOf (h : HoldsApart w σ P) {a : Nat} {S : Set Nat}
    (hs : Stands w.heap (.list items) (.ref a) S) (hflat : ∀ t ∈ items, t.isContainer = false) :
    ∃ w' d, copyOf (.ref a) w = .ok d w' ∧ HoldsWith w' σ (.list items) d ∧ OnlyData w w' := by
  obtain ⟨c, hcopy, hnew⟩ := copy?_flat 491 hs hflat
  obtain ⟨hw, hA, hdisj⟩ := h.grown (grown_alloc w.heap c)
  refine ⟨{ w with heap := (w.heap.alloc c).2 }, .ref w.heap.cells.size, ?_,
    ⟨P, _, hw, hnew, hA, hdisj⟩, onlyData_heap _ _⟩
  unfold Machine.copyOf
  rw [bind_ok (onHeap_run _ _)]
  simp only [depthLimit, hcopy]
  rfl

end HoldsApart

variable {σ : Storages}

/-- A number or a string is apart from everything. -/
theorem Holds.with_int (h : Holds w σ) (i : Int) : HoldsWith w σ (.int i) (.int i) := by
  obtain ⟨P, h⟩ := h
  exact ⟨P, ∅, h, .int i ∅, Set.empty_subset _, fun _ => Set.empty_disjoint _⟩

theorem HoldsWith.writeData (h : HoldsWith w σ v d) (id : String) (path : Path) :
    ∃ w', writeData id path d w = .ok (σ.assign id path v).1 w' ∧ Holds w' (σ.assign id path v).2 ∧ OnlyData w w' := by
  obtain ⟨P, A, hw, hs, hAu, hA⟩ := h
  exact hw.writeData hs hAu hA path

/-- **Appending to a list of a storage appends to the list of its tree.** -/
theorem HoldsWith.append {id k : String} (h : HoldsWith w σ v d) (hlist : Nbt.named? k (σ id) = some (.list items)) :
    ∃ a data, listAt id [.key k] w = .ok (some a) w ∧ w.heap.get? a = some (.list data) ∧ data.size = items.size ∧
      Holds { w with heap := w.heap.update a (Container.append d) } (σ.append id k v) := by
  obtain ⟨P, A, hw, hs, hAu, hA⟩ := h
  have hfind : σ.find? id [.key k] = some (.list items) := by
    show (Nbt.named? k (σ id)).bind (Nbt.lookup []) = some (.list items)
    rw [hlist]
    rfl
  rcases hw.find? id (.key k) [] with ⟨-, hnone⟩ | ⟨e, t, B, he, ht, hB, hst⟩
  · rw [hfind] at hnone
    cases hnone
  · rw [hfind] at ht
    cases ht
    cases hst with
    | @list _ a data Q _ mem get inside size each =>
      refine ⟨a, data, ?_, get, size.symm, ?_⟩
      · unfold listAt
        rw [bind_get, he]
        simp only [get]
        rfl
      · unfold World.find? at he
        obtain ⟨r, hr, hlook⟩ := Option.bind_eq_some_iff.1 he
        obtain ⟨-, hedit⟩ := (hw.known hr).appendAt (hw.used id) hlook get hs (hA id) hAu
        rw [Nbt.appendAt_compound hlist] at hedit
        simp only [Storages.append, hlist]
        exact hw.edited hr hedit hA

end ScoreWasm.Machine
