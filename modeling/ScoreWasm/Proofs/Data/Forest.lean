import Mathlib
import ScoreWasm.Proofs.Data.Tree

/-!
# Data without sharing

A value on the heap stands for a tree when each of its containers is at an address that no other part
of the tree uses.  Writing through a path of such data does to the tree what `Nbt.assign` and
`Nbt.appendAt` say, and leaves every container outside it alone.
-/

namespace ScoreWasm

open List Option Function Set

/-! ### Parts -/

/-- The values right inside a tree. -/
def Nbt.parts : Nbt → List Nbt
  | .list items => items.toList
  | .compound es => es.map Prod.snd
  | _ => []

/-- The data a container holds. -/
def Container.parts : Container → List Datum
  | .list items => items.toList
  | .compound es => es.map Prod.snd

/-- A tree and a container with parts at the same places. -/
inductive Alike : Nbt → Container → Prop
  | list {items : Array Nbt} {data : Array Datum} (size : items.size = data.size) : Alike (.list items) (.list data)
  | compound {es : List (String × Nbt)} {ds : List (String × Datum)} (keys : es.map Prod.fst = ds.map Prod.fst) :
      Alike (.compound es) (.compound ds)

/-- A step leads to the same place of a tree and of a container. -/
structure SamePlace (t : Nbt) (c : Container) (s : PathStep) (k : Nat) : Prop where
  accepts : t.accepts s = true ∧ c.accepts s = true
  child : t.child? s = t.parts[k]? ∧ c.child? s = c.parts[k]?
  put : ∀ v d, Nbt.SetAt k v t.parts (Nbt.put v s t).parts ∧ Nbt.SetAt k d c.parts (c.put d s).parts
  alike : ∀ v d, Alike (Nbt.put v s t) (c.put d s)
  keeps : t.child? s ≠ none → ∀ v, Alike (Nbt.put v s t) c

/-- The step leads nowhere, in the tree as in the container. -/
structure NoPlace (t : Nbt) (c : Container) (s : PathStep) : Prop where
  accepts : t.accepts s = false ∧ c.accepts s = false
  child : t.child? s = none ∧ c.child? s = none
  put : ∀ v, Nbt.put v s t = t

namespace Alike

variable {t : Nbt} {c : Container}

theorem length (ha : Alike t c) : t.parts.length = c.parts.length := by
  cases ha with
  | list size => simpa [Nbt.parts, Container.parts] using size
  | compound keys => simpa [Nbt.parts, Container.parts] using congrArg List.length keys

theorem list_step {items : Array Nbt} {data : Array Datum} (size : items.size = data.size) (i : Int) :
    (∃ k, SamePlace (.list items) (.list data) (.index i) k) ∨ NoPlace (.list items) (.list data) (.index i) := by
  cases hk : position? items.size i with
  | none =>
    have hk' : position? data.size i = none := size ▸ hk
    refine .inr ⟨?_, ?_, ?_⟩ <;> simp [Nbt.accepts, Container.accepts, Nbt.child?, Container.child?, Nbt.put, hk, hk']
  | some k =>
    have hk' : position? data.size i = some k := size ▸ hk
    have hlt := position?_lt hk
    have hlt' := position?_lt hk'
    refine .inl ⟨k, ?_, ?_, ?_, ?_, ?_⟩
    · simp [Nbt.accepts, Container.accepts, hk, hk']
    · simp [Nbt.child?, Container.child?, Nbt.parts, Container.parts, hk, hk']
    · intro v d
      simp only [Nbt.put, Container.put, hk, hk', Nbt.parts, Container.parts, Array.toList_setIfInBounds]
      exact ⟨Nbt.setAt_set hlt v, Nbt.setAt_set hlt' d⟩
    · intro v d
      simp only [Nbt.put, Container.put, hk, hk']
      exact .list (by simpa using size)
    · intro _ v
      simp only [Nbt.put, hk]
      exact .list (by simpa using size)

theorem compound_step {es : List (String × Nbt)} {ds : List (String × Datum)} (keys : es.map Prod.fst = ds.map Prod.fst)
    (k : String) : SamePlace (.compound es) (.compound ds) (.key k) (Nbt.place k es) := by
  have hplace : Nbt.place k es = Nbt.place k ds := by rw [Nbt.place, keys, Nbt.place]
  refine ⟨⟨rfl, rfl⟩, ⟨Nbt.named?_eq k es, ?_⟩, ?_, ?_, ?_⟩
  · rw [hplace]
    exact Nbt.named?_eq k ds
  · intro v d
    refine ⟨Nbt.setAt_setEntry k v es, ?_⟩
    rw [hplace]
    exact Nbt.setAt_setEntry k d ds
  · intro v d
    exact .compound (by rw [Nbt.keys_setEntry, Nbt.keys_setEntry, keys])
  · intro hchild v
    have hk : k ∈ es.map Prod.fst := by
      rw [← idxOf_lt_length_iff]
      simpa [Nbt.child?, Nbt.named?_eq, Nbt.place] using hchild
    exact .compound (by rw [Nbt.keys_setEntry, if_pos hk, keys])

/-- A step can be taken in a tree and in a container that are alike, or in neither. -/
theorem step (ha : Alike t c) (s : PathStep) : (∃ k, SamePlace t c s k) ∨ NoPlace t c s := by
  cases ha with
  | list size =>
    cases s with
    | key k => exact .inr ⟨⟨rfl, rfl⟩, ⟨rfl, rfl⟩, fun _ => rfl⟩
    | index i => exact list_step size i
  | compound keys =>
    cases s with
    | index i => exact .inr ⟨⟨rfl, rfl⟩, ⟨rfl, rfl⟩, fun _ => rfl⟩
    | key k => exact .inl ⟨_, compound_step keys k⟩

end Alike

namespace Heap

variable {h h' h'' : Heap} {a : Nat} {c : Container} {s next : PathStep} {d e dv : Datum} {t : Nbt} {S : Set Nat} {rest : Path}
  {es : List (String × Datum)} {ts : List Nbt} {ds : List Datum} {P : Nat → Set Nat}

/-! ### Addresses -/

/-- The addresses in use. -/
def used (h : Heap) : Set Nat := {a | a < h.cells.size}

theorem get?_isSome_iff : (h.get? a).isSome ↔ a ∈ h.used := by
  simp [get?, used]

theorem mem_used_of_get? (hc : h.get? a = some c) : a ∈ h.used :=
  get?_isSome_iff.1 (by rw [hc]; rfl)

@[simp] theorem alloc_fst (c : Container) (h : Heap) : (h.alloc c).1 = h.cells.size := rfl

theorem get?_alloc (c : Container) (h : Heap) (a : Nat) :
    (h.alloc c).2.get? a = if a = h.cells.size then some c else h.get? a := by
  simp [alloc, get?, Array.getElem?_push]

theorem used_alloc (c : Container) (h : Heap) : (h.alloc c).2.used = insert h.cells.size h.used := by
  ext a
  simp [used, alloc]
  omega

@[simp] theorem used_update (a : Nat) (f : Container → Container) (h : Heap) : (h.update a f).used = h.used := by
  simp [used, update]

theorem get?_update (a : Nat) (f : Container → Container) (h : Heap) (b : Nat) :
    (h.update a f).get? b = if a = b then (h.get? b).map f else h.get? b := by
  simp [get?, update, Array.getElem?_modify]

theorem get?_update_self (a : Nat) (f : Container → Container) (h : Heap) :
    (h.update a f).get? a = (h.get? a).map f := by
  rw [get?_update, if_pos rfl]

theorem get?_update_ne {b : Nat} (hne : b ≠ a) (f : Container → Container) (h : Heap) :
    (h.update a f).get? b = h.get? b := by
  rw [get?_update, if_neg (Ne.symm hne)]

/-- Two heaps have the same containers at some addresses. -/
def Agree (h h' : Heap) (s : Set Nat) : Prop := ∀ a ∈ s, h'.get? a = h.get? a

theorem Agree.mono {s s' : Set Nat} (ha : Agree h h' s) (hs : s' ⊆ s) : Agree h h' s' :=
  fun a m => ha a (hs m)

theorem Agree.refl (h : Heap) (s : Set Nat) : Agree h h s := fun _ _ => rfl

theorem Agree.trans {s : Set Nat} (h1 : Agree h h' s) (h2 : Agree h' h'' s) :
    Agree h h'' s := fun a m => (h2 a m).trans (h1 a m)

theorem agree_alloc (c : Container) (h : Heap) : Agree h (h.alloc c).2 h.used := by
  intro a ha
  rw [get?_alloc, if_neg]
  exact Nat.ne_of_lt ha

theorem agree_update {s : Set Nat} (ha : a ∉ s) (f : Container → Container) (h : Heap) : Agree h (h.update a f) s := by
  intro b hb
  refine get?_update_ne ?_ f h
  rintro rfl
  exact ha hb

/-- Sets of addresses stay apart when another one that is apart from the rest takes the place of one. -/
theorem apart_update {ι : Type} [DecidableEq ι] {P : ι → Set Nat} {A : Set Nat} {k : ι}
    (hP : ∀ ⦃i j : ι⦄, i ≠ j → Disjoint (P i) (P j)) (hA : ∀ j, j ≠ k → Disjoint A (P j)) ⦃i j : ι⦄ (hij : i ≠ j) :
    Disjoint (Function.update P k A i) (Function.update P k A j) := by
  by_cases hi : i = k
  · subst hi
    rw [update_self, update_of_ne (Ne.symm hij)]
    exact hA j (Ne.symm hij)
  · rw [update_of_ne hi]
    by_cases hj : j = k
    · subst hj
      rw [update_self]
      exact (hA i hi).symm
    · rw [update_of_ne hj]
      exact hP hij

/-! ### Trees -/

/-- Sets of addresses inside another one that overlap neither each other nor an address. -/
structure Inside (P : Nat → Set Nat) (a : Nat) (S : Set Nat) : Prop where
  apart : ∀ ⦃i j : Nat⦄, i ≠ j → Disjoint (P i) (P j)
  subset : ∀ i, P i ⊆ S
  free : ∀ i, a ∉ P i

/-- A value stands for a tree whose containers are at different addresses of a set. -/
inductive Stands (h : Heap) : Nbt → Datum → Set Nat → Prop
  | int (i : Int) (S : Set Nat) : Stands h (.int i) (.int i) S
  | float (x : Binary64) (S : Set Nat) : Stands h (.float x) (.float x) S
  | str (s : String) (S : Set Nat) : Stands h (.str s) (.str s) S
  | list {items : Array Nbt} {a : Nat} {data : Array Datum} {P : Nat → Set Nat} {S : Set Nat}
      (mem : a ∈ S) (get : h.get? a = some (.list data)) (inside : Inside P a S)
      (size : items.size = data.size)
      (each : ∀ i t d, items[i]? = some t → data[i]? = some d → Stands h t d (P i)) :
      Stands h (.list items) (.ref a) S
  | compound {es : List (String × Nbt)} {a : Nat} {ds : List (String × Datum)} {P : Nat → Set Nat}
      {S : Set Nat} (mem : a ∈ S) (get : h.get? a = some (.compound ds)) (inside : Inside P a S)
      (keys : es.map Prod.fst = ds.map Prod.fst)
      (each : ∀ i e f, es[i]? = some e → ds[i]? = some f → Stands h e.2 f.2 (P i)) :
      Stands h (.compound es) (.ref a) S

/-- The outermost container of the data that stands for a tree, with the sets of its parts. -/
structure Opened (h : Heap) (t : Nbt) (c : Container) (a : Nat) (P : Nat → Set Nat) (S : Set Nat) : Prop where
  mem : a ∈ S
  get : h.get? a = some c
  inside : Inside P a S
  alike : Alike t c
  each : ∀ i u d, t.parts[i]? = some u → c.parts[i]? = some d → Stands h u d (P i)

variable {v : Nbt} {A S' : Set Nat} {k : Nat} {path : Path}

theorem Opened.stands (ho : Opened h t c a P S) : Stands h t (.ref a) S := by
  obtain ⟨mem, get, inside, halike, each⟩ := ho
  cases halike with
  | list size =>
    refine .list mem get inside size ?_
    intro i u d hu hd
    exact each i u d (by simpa [Nbt.parts] using hu) (by simpa [Container.parts] using hd)
  | compound keys =>
    refine .compound mem get inside keys ?_
    intro i e f he hf
    exact each i e.2 f.2 (by simp [Nbt.parts, he]) (by simp [Container.parts, hf])

namespace Stands

theorem opened (hs : Stands h t (.ref a) S) : ∃ c P, Opened h t c a P S := by
  cases hs with
  | list mem get inside size each =>
    refine ⟨_, _, mem, get, inside, .list size, ?_⟩
    intro i u d hu hd
    exact each i u d (by simpa [Nbt.parts] using hu) (by simpa [Container.parts] using hd)
  | compound mem get inside keys each =>
    refine ⟨_, _, mem, get, inside, .compound keys, ?_⟩
    intro i u d hu hd
    rw [Nbt.parts, getElem?_map] at hu
    rw [Container.parts, getElem?_map] at hd
    obtain ⟨e, he, rfl⟩ := map_eq_some_iff.1 hu
    obtain ⟨f, hf, rfl⟩ := map_eq_some_iff.1 hd
    exact each i e f he hf

/-- What stands for a tree depends on the containers at its addresses only. -/
theorem frame (hs : Stands h t d S) (ha : Agree h h' S) : Stands h' t d S := by
  induction hs with
  | int => exact .int _ _
  | float => exact .float _ _
  | str => exact .str _ _
  | list mem get inside size _ ih =>
    refine .list mem ((ha _ mem).trans get) inside size ?_
    intro i t d ht hd
    exact ih i t d ht hd (ha.mono (inside.subset i))
  | compound mem get inside keys _ ih =>
    refine .compound mem ((ha _ mem).trans get) inside keys ?_
    intro i e f he hf
    exact ih i e f he hf (ha.mono (inside.subset i))

/-- A value that is no container stands for a tree that is none, wherever it is. -/
theorem scalar (hs : Stands h t d S) (hd : d.isContainer = false) :
    t.isContainer = false ∧ ∀ (h' : Heap) S', Stands h' t d S' := by
  cases hs with
  | int => exact ⟨rfl, fun _ _ => .int _ _⟩
  | float => exact ⟨rfl, fun _ _ => .float _ _⟩
  | str => exact ⟨rfl, fun _ _ => .str _ _⟩
  | list | compound => cases hd

theorem isContainer_eq (hs : Stands h t d S) : d.isContainer = t.isContainer := by
  cases hs <;> rfl

end Stands

namespace Inside

/-- Another set in the place of one of them. -/
theorem update (hP : Inside P a S) (k : Nat) (hA : Disjoint A (S \ P k)) (ha : a ∈ S) :
    Inside (Function.update P k A) a (S ∪ A) := by
  have other : ∀ j, j ≠ k → Disjoint A (P j) := by
    intro j hj
    refine hA.mono_right ?_
    intro b hb
    exact ⟨hP.subset j hb, fun hk => disjoint_left.1 (hP.apart hj) hb hk⟩
  refine ⟨apart_update hP.apart other, ?_, ?_⟩
  · refine (forall_update_iff P fun _ Q => Q ⊆ S ∪ A).2 ⟨subset_union_right, fun i _ => ?_⟩
    exact (hP.subset i).trans subset_union_left
  · refine (forall_update_iff P fun _ Q => a ∉ Q).2 ⟨fun hm => ?_, fun i _ => hP.free i⟩
    exact disjoint_left.1 hA hm ⟨ha, hP.free _⟩

theorem empty (a : Nat) : Inside (fun _ => ∅) a {a} :=
  ⟨fun _ _ _ => disjoint_empty _, fun _ => empty_subset _, fun _ => notMem_empty _⟩

end Inside

namespace Opened

variable {t' : Nbt} {c' : Container}

/-- A part is replaced, or one is added behind the last. -/
theorem replace (ho : Opened h t c a P S) (hget : h'.get? a = some c') (halike : Alike t' c')
    (ht : Nbt.SetAt k v t.parts t'.parts) (hc : Nbt.SetAt k e c.parts c'.parts)
    (hagree : Agree h h' (S \ insert a (P k))) (hv : Stands h' v e A) (hA : Disjoint A (S \ P k)) :
    Stands h' t' (.ref a) (S ∪ A) := by
  refine Opened.stands ⟨.inl ho.mem, hget, ho.inside.update k hA ho.mem, halike, ?_⟩
  intro i u d hu hd
  by_cases hi : i = k
  · subst hi
    rw [ht.1] at hu
    rw [hc.1] at hd
    cases hu
    cases hd
    rw [update_self]
    exact hv
  · rw [ht.2 i hi] at hu
    rw [hc.2 i hi] at hd
    rw [update_of_ne hi]
    refine (ho.each i u d hu hd).frame (hagree.mono ?_)
    intro b hb
    refine ⟨ho.inside.subset i hb, ?_⟩
    rintro (rfl | hm)
    · exact ho.inside.free i hb
    · exact disjoint_left.1 (ho.inside.apart hi) hb hm

/-- A step leads to a part of the tree and to the value that stands for it, or to none of them. -/
theorem child (ho : Opened h t c a P S) (s : PathStep) : (t.child? s = none ∧ c.child? s = none) ∨
      ∃ k u e, SamePlace t c s k ∧ t.child? s = some u ∧ c.child? s = some e ∧ Stands h u e (P k) := by
  obtain ⟨k, hr⟩ | hb := ho.alike.step s
  · rw [hr.child.1, hr.child.2]
    by_cases hk : k < t.parts.length
    · have ht := getElem?_eq_getElem hk
      have hc := getElem?_eq_getElem (ho.alike.length ▸ hk)
      exact .inr ⟨k, _, _, hr, ht, hc, ho.each k _ _ ht hc⟩
    · have hk := Nat.le_of_not_lt hk
      exact .inl ⟨getElem?_eq_none hk, getElem?_eq_none (ho.alike.length ▸ hk)⟩
  · exact .inl hb.child

end Opened

/-! ### Paths -/

/-- Data is a container that can be opened, or no container. -/
theorem Stands.cases (hs : Stands h t d S) :
    (∃ a c P, d = .ref a ∧ Opened h t c a P S) ∨ (d.isContainer = false ∧ t.isContainer = false) := by
  cases d with
  | ref a =>
    obtain ⟨c, P, ho⟩ := hs.opened
    exact .inl ⟨a, c, P, rfl, ho⟩
  | int | float | str => exact .inr ⟨rfl, (hs.scalar rfl).1⟩

section Scalars

section

variable (hd : d.isContainer = false)
include hd

theorem container?_scalar : h.container? d = none := by
  cases d <;> first | rfl | cases hd

theorem makePath_scalar (path : Path) : h.makePath path d = h := by
  match path, d with
  | [], _ | [_], _ | _ :: _ :: _, .int _ | _ :: _ :: _, .float _ | _ :: _ :: _, .str _ => rfl

theorem target?_scalar (path : Path) : h.target? path d = none := by
  match path, d with
  | [], _ => rfl
  | _ :: _, .int _ | _ :: _, .float _ | _ :: _, .str _ => simp [target?, container?]

end

theorem child?_scalar (ht : t.isContainer = false) (s : PathStep) : t.child? s = none := by
  cases t <;> cases s <;> first | rfl | cases ht

theorem assign_scalar (ht : t.isContainer = false) (v : Nbt) (path : Path) : Nbt.assign v path t = (false, t) := by
  match path with
  | [] => rfl
  | [s] => cases t <;> cases s <;> first | rfl | cases ht
  | s :: next :: _ => cases t <;> cases s <;> cases next <;> first | rfl | cases ht

end Scalars

/-- A path leads to the same place in the data and in the tree. -/
theorem Stands.lookup (hs : Stands h t d S) : (h.lookup path d = none ∧ t.lookup path = none) ∨
      ∃ e u B, h.lookup path d = some e ∧ t.lookup path = some u ∧ B ⊆ S ∧ Stands h u e B := by
  induction path generalizing t d S with
  | nil => exact .inr ⟨d, t, S, rfl, rfl, Set.Subset.rfl, hs⟩
  | cons s path ih =>
    simp only [Heap.lookup, Nbt.lookup]
    obtain ⟨a, c, P, rfl, ho⟩ | ⟨hd, ht⟩ := hs.cases
    · simp only [container?, ho.get, bind_some]
      obtain ⟨ht, hc⟩ | ⟨k, u, e, -, ht, hc, hu⟩ := ho.child s
      · rw [ht, hc]
        exact .inl ⟨rfl, rfl⟩
      · rw [ht, hc]
        obtain hnone | ⟨e', u', B', h1, h2, hB, h3⟩ := ih hu
        · exact .inl hnone
        · exact .inr ⟨e', u', B', h1, h2, hB.trans (ho.inside.subset k), h3⟩
    · rw [container?_scalar hd, child?_scalar ht]
      exact .inl ⟨rfl, rfl⟩

theorem stands_empty (hget : h.get? a = some (.compound [])) : Stands h (.compound []) (.ref a) {a} := by
  refine .compound (mem_singleton a) hget (.empty a) rfl ?_
  intro i e f he
  cases he

/-- The heap after a compound that was missing under a name has been made. -/
def withCompound (h : Heap) (a : Nat) (s : PathStep) : Heap :=
  (h.alloc (.compound [])).2.update a (Container.put (.ref h.cells.size) s)

section WithCompound

theorem used_withCompound : (h.withCompound a s).used = insert h.cells.size h.used := by
  rw [withCompound, used_update, used_alloc]

theorem size_notMem_used : h.cells.size ∉ h.used := Nat.lt_irrefl _

theorem get?_withCompound_self (hc : h.get? a = some c) :
    (h.withCompound a s).get? a = some (c.put (.ref h.cells.size) s) := by
  have hne : a ≠ h.cells.size := Nat.ne_of_lt (mem_used_of_get? hc)
  rw [withCompound, get?_update_self, get?_alloc, if_neg hne, hc]
  rfl

theorem get?_withCompound_new (hc : h.get? a = some c) :
    (h.withCompound a s).get? h.cells.size = some (.compound []) := by
  have hne : h.cells.size ≠ a := Nat.ne_of_gt (mem_used_of_get? hc)
  rw [withCompound, get?_update_ne hne, get?_alloc, if_pos rfl]

theorem agree_withCompound : Agree h (h.withCompound a s) (h.used \ {a}) := by
  intro b hb
  rw [withCompound, get?_update_ne hb.2, get?_alloc, if_neg (Nat.ne_of_lt hb.1)]

end WithCompound

theorem makePath_some (hc : h.get? a = some c) (he : c.child? s = some e) :
    h.makePath (s :: next :: rest) (.ref a) = h.makePath (next :: rest) e := by
  simp only [makePath, hc, he]

theorem makePath_new {k l : String} (hc : h.get? a = some (.compound es))
    (he : Container.child? (.key k) (.compound es) = none) : h.makePath (.key k :: .key l :: rest)
      (.ref a) = (h.withCompound a (.key k)).makePath (.key l :: rest) (.ref h.cells.size) := by
  simp only [makePath, hc, he]
  rfl

/-- Making a path changes nothing outside the data that it leads through. -/
theorem Stands.agree_makePath (path : Path) (hs : Stands h t d S) :
    Agree h (h.makePath path d) (h.used \ S) ∧ h.used ⊆ (h.makePath path d).used := by
  have trivially : ∀ {h : Heap} {S : Set Nat}, Agree h h (h.used \ S) ∧ h.used ⊆ h.used := ⟨.refl _ _, Set.Subset.rfl⟩
  induction path generalizing h t d S with
  | nil => exact trivially
  | cons s path ih =>
    cases path with
    | nil => exact trivially
    | cons next rest =>
      obtain ⟨a, c, P, rfl, ho⟩ | ⟨hd, -⟩ := hs.cases
      · obtain ⟨-, he⟩ | ⟨k, u, e, -, -, he, hu⟩ := ho.child s
        · have hc := ho.get
          match s, next, c, hc, he with
          | .key k, .key l, .compound es, hc, he =>
            rw [makePath_new hc he]
            obtain ⟨h1, h2⟩ := ih (stands_empty (get?_withCompound_new hc))
            rw [used_withCompound] at h1 h2
            refine ⟨?_, (subset_insert _ _).trans h2⟩
            intro b hb
            rw [h1 b ⟨mem_insert_of_mem _ hb.1, Nat.ne_of_lt hb.1⟩]
            exact agree_withCompound b ⟨hb.1, fun hba => hb.2 (hba ▸ ho.mem)⟩
          | .key _, .index _, c, hc, he => simpa only [makePath, hc, he] using trivially
          | .index _, _, c, hc, he | .key _, .key _, .list _, hc, he => simpa only [makePath, hc, he] using trivially
        · rw [makePath_some ho.get he]
          obtain ⟨h1, h2⟩ := ih hu
          exact ⟨h1.mono (sdiff_subset_sdiff_right (ho.inside.subset k)), h2⟩
      · rw [makePath_scalar hd]
        exact trivially

/-! ### Writing -/

/-- The data of a tree has become that of another one: its containers are old ones, ones that came with
a value, and new ones, and nothing else has changed. -/
structure Edited (h h' : Heap) (t' : Nbt) (d : Datum) (S A : Set Nat) : Prop where
  stands : ∃ S', Stands h' t' d S' ∧ S' ⊆ S ∪ A ∪ h.usedᶜ ∧ S' ⊆ h'.used
  agree : Agree h h' (h.used \ S)
  used : h.used ⊆ h'.used

theorem Edited.refl (hs : Stands h t d S) (hS : S ⊆ h.used) (A : Set Nat) : Edited h h t d S A :=
  ⟨⟨S, hs, subset_union_left.trans subset_union_left, hS⟩, .refl _ _, Set.Subset.rfl⟩

/-- A part of the outermost container has become what another value stands for, which is made of old
containers of the part, of ones that came with a value, and of new ones. -/
theorem Opened.edited {t' : Nbt} {c' : Container} (ho : Opened h t c a P S) (hS : S ⊆ h.used) (hA : Disjoint A S)
    (hget : h'.get? a = some c') (halike : Alike t' c') (ht : Nbt.SetAt k v t.parts t'.parts)
    (hc : Nbt.SetAt k e c.parts c'.parts) (hagree : Agree h h' (h.used \ insert a (P k))) (hused : h.used ⊆ h'.used)
    (hv : Stands h' v e S') (hsub : S' ⊆ P k ∪ A ∪ h.usedᶜ) (hS' : S' ⊆ h'.used) : Edited h h' t' (.ref a) S A := by
  have hdisj : Disjoint S' (S \ P k) := by
    rw [Set.disjoint_left]
    intro x hx hxS
    obtain (hxP | hxA) | hxn := hsub hx
    · exact hxS.2 hxP
    · exact disjoint_left.1 hA hxA hxS.1
    · exact hxn (hS hxS.1)
  refine ⟨⟨S ∪ S', ho.replace hget halike ht hc (hagree.mono ?_) hv hdisj, ?_, ?_⟩, hagree.mono ?_, hused⟩
  · exact sdiff_subset_sdiff_left hS
  · refine union_subset (subset_union_left.trans subset_union_left) (hsub.trans ?_)
    exact union_subset_union_left _ (union_subset_union_left _ (ho.inside.subset k))
  · exact union_subset (hS.trans hused) hS'
  · exact sdiff_subset_sdiff_right (insert_subset ho.mem (ho.inside.subset k))

/-- What was written deeper in a part of the data, as seen from the whole. -/
theorem Opened.edited_part (ho : Opened h t c a P S) (hr : SamePlace t c s k) (he : c.child? s = some e)
    (ht : t.child? s ≠ none) (hS : S ⊆ h.used) (hA : Disjoint A S) (hd : Edited h h' v e (P k) A) :
    Edited h h' (Nbt.put v s t) (.ref a) S A := by
  obtain ⟨S', hv, hsub, hS'⟩ := hd.stands
  have hget : h'.get? a = some c := (hd.agree a ⟨hS ho.mem, ho.inside.free k⟩).trans ho.get
  refine ho.edited hS hA hget (hr.keeps ht v) (hr.put v e).1 ⟨hr.child.2 ▸ he, fun _ _ => rfl⟩ ?_ hd.used hv hsub hS'
  exact hd.agree.mono (sdiff_subset_sdiff_right (subset_insert _ _))

/-- What was written in a compound that was made on the way, as seen from the whole. -/
theorem Opened.edited_new (ho : Opened h t c a P S) (hr : SamePlace t c s k) (hS : S ⊆ h.used) (hA : Disjoint A S)
    (hd : Edited (h.withCompound a s) h' v (.ref h.cells.size) {h.cells.size} A) :
    Edited h h' (Nbt.put v s t) (.ref a) S A := by
  obtain ⟨S', hv, hsub, hS'⟩ := hd.stands
  have hagree := hd.agree
  have hused := hd.used
  rw [used_withCompound] at hsub hagree hused
  have hkeep : ∀ x ∈ h.used, h'.get? x = (h.withCompound a s).get? x := fun x hx =>
    hagree x ⟨mem_insert_of_mem _ hx, Nat.ne_of_lt hx⟩
  obtain ⟨ht, hc⟩ := hr.put v (.ref h.cells.size)
  refine ho.edited hS hA ?_ (hr.alike v _) ht hc ?_ ?_ hv ?_ hS'
  · rw [hkeep a (hS ho.mem), get?_withCompound_self ho.get]
  · intro x hx
    rw [hkeep x hx.1]
    exact agree_withCompound x ⟨hx.1, fun hxa => hx.2 (hxa ▸ mem_insert _ _)⟩
  · exact (subset_insert _ _).trans hused
  · intro x hx
    obtain (hxn | hxA) | hxu := hsub hx
    · exact .inr (hxn ▸ size_notMem_used)
    · exact .inl (.inr hxA)
    · exact .inr fun hm => hxu (mem_insert_of_mem _ hm)

/-- A value that is there takes the place of a part, or is added behind the last. -/
theorem Opened.edited_update {t' : Nbt} {f : Container → Container} (ho : Opened h t c a P S) (hS : S ⊆ h.used)
    (hv : Stands h v dv A) (hA : Disjoint A S) (hAu : A ⊆ h.used) (halike : Alike t' (f c))
    (ht : Nbt.SetAt k v t.parts t'.parts) (hc : Nbt.SetAt k dv c.parts (f c).parts) :
    Edited h (h.update a f) t' (.ref a) S A := by
  have hused : h.used ⊆ (h.update a f).used := (used_update ..).ge
  refine ho.edited hS hA (by rw [get?_update_self, ho.get]; rfl) halike ht hc
    (agree_update ?_ _ _) hused ?_ ?_ (hAu.trans hused)
  · exact fun hm => hm.2 (mem_insert _ _)
  · exact hv.frame (agree_update (disjoint_right.1 hA ho.mem) _ _)
  · exact subset_union_right.trans subset_union_left

theorem child?_put_self (hs : c.accepts s = true) (dv : Datum) : (c.put dv s).child? s = some dv := by
  match s, c with
  | .index i, .list items =>
    cases hk : position? items.size i with
    | none => simp [Container.accepts, hk] at hs
    | some k => simp [Container.put, Container.child?, hk, position?_lt hk]
  | .key k, .compound es => simp [Container.put, Container.child?, Nbt.named?_setEntry]
  | .index i, .compound _ | .key i, .list _ => cases hs

theorem assign_some (hc : h.get? a = some c) (he : c.child? s = some e)
    (hkeep : (h.makePath (next :: rest) e).get? a = some c) :
    h.assign (s :: next :: rest) (.ref a) dv = h.assign (next :: rest) e dv := by
  simp only [assign, makePath_some hc he, target?, container?, hkeep, bind_some, he]

theorem assign_new {k l : String} (hc : h.get? a = some (.compound es))
    (he : Container.child? (.key k) (.compound es) = none)
    (hkeep : ((h.withCompound a (.key k)).makePath (.key l :: rest) (.ref h.cells.size)).get? a =
      some (Container.put (.ref h.cells.size) (.key k) (.compound es))) :
    h.assign (.key k :: .key l :: rest) (.ref a) dv =
      (h.withCompound a (.key k)).assign (.key l :: rest) (.ref h.cells.size) dv := by
  simp only [assign, makePath_new hc he, target?, container?, hkeep, bind_some]
  rw [child?_put_self rfl, bind_some]

theorem Opened.assign_last (ho : Opened h t c a P S) (hS : S ⊆ h.used) (hv : Stands h v dv A)
    (hA : Disjoint A S) (hAu : A ⊆ h.used) : (h.assign [s] (.ref a) dv).1 = t.accepts s ∧
      Edited h (h.assign [s] (.ref a) dv).2 (Nbt.put v s t) (.ref a) S A := by
  simp only [assign, makePath, target?, ho.get, any_some]
  obtain ⟨k, hr⟩ | hb := ho.alike.step s
  · rw [hr.accepts.1, hr.accepts.2, if_pos rfl]
    exact ⟨rfl, ho.edited_update hS hv hA hAu (hr.alike v dv) (hr.put v dv).1 (hr.put v dv).2⟩
  · rw [hb.accepts.1, hb.accepts.2, hb.put]
    exact ⟨rfl, .refl ho.stands hS A⟩

/-- Two names in a row of which the first is missing. -/
theorem Opened.assign_key {v : Nbt} {k l : String} {es : List (String × Nbt)} {ds : List (String × Datum)}
    (ho : Opened h (.compound es) (.compound ds) a P S) (he : Container.child? (.key k) (.compound ds) = none)
    (hS : S ⊆ h.used) (hv : Stands h v dv A) (hA : Disjoint A S) (hAu : A ⊆ h.used)
    (ih : ∀ {h : Heap} {t : Nbt} {d : Datum} {S : Set Nat}, Stands h t d S → S ⊆ h.used → Stands h v dv A →
      Disjoint A S → A ⊆ h.used → (h.assign (.key l :: rest) d dv).1 = (Nbt.assign v (.key l :: rest) t).1 ∧
        Edited h (h.assign (.key l :: rest) d dv).2 (Nbt.assign v (.key l :: rest) t).2 d S A) :
    (h.assign (.key k :: .key l :: rest) (.ref a) dv).1 = (Nbt.assign v (.key l :: rest) (.compound [])).1 ∧
      Edited h (h.assign (.key k :: .key l :: rest) (.ref a) dv).2
        (Nbt.put (Nbt.assign v (.key l :: rest) (.compound [])).2 (.key k) (.compound es)) (.ref a) S A := by
  have hau := hS ho.mem
  have hnew := stands_empty (get?_withCompound_new (s := .key k) ho.get)
  have hused : h.used ⊆ (h.withCompound a (.key k)).used := by
    rw [used_withCompound]
    exact subset_insert _ _
  have hkeep := (hnew.agree_makePath (.key l :: rest)).1 a ⟨hused hau, Nat.ne_of_lt hau⟩
  have hv' : Stands (h.withCompound a (.key k)) v dv A := by
    refine hv.frame (agree_withCompound.mono ?_)
    intro x hx
    exact ⟨hAu hx, fun hxa => disjoint_left.1 hA hx (hxa ▸ ho.mem)⟩
  have hAn : Disjoint A {h.cells.size} := disjoint_singleton_right.2 fun hm => size_notMem_used (hAu hm)
  obtain ⟨h1, h2⟩ := ih hnew (by simp [used_withCompound]) hv' hAn (hAu.trans hused)
  obtain ⟨j, hr⟩ | hb := ho.alike.step (.key k)
  · rw [assign_new ho.get he (hkeep.trans (get?_withCompound_self ho.get))]
    exact ⟨h1, ho.edited_new hr hS hA h2⟩
  · cases hb.accepts.1

/-- **Writing at a path does to the data what it does to the tree.** -/
theorem Stands.assign (path : Path) (hs : Stands h t d S) (hS : S ⊆ h.used) (hv : Stands h v dv A)
    (hA : Disjoint A S) (hAu : A ⊆ h.used) : (h.assign path d dv).1 = (Nbt.assign v path t).1 ∧
      Edited h (h.assign path d dv).2 (Nbt.assign v path t).2 d S A := by
  induction path generalizing h t d S with
  | nil => exact ⟨rfl, .refl hs hS A⟩
  | cons s path ih =>
    obtain ⟨a, c, P, rfl, ho⟩ | ⟨hd, ht⟩ := hs.cases
    · cases path with
      | nil => exact ho.assign_last hS hv hA hAu
      | cons next rest =>
        obtain ⟨ht, he⟩ | ⟨k, u, e, hr, ht, he, hu⟩ := ho.child s
        · have nowhere : h.assign (s :: next :: rest) (.ref a) dv = (false, h) →
              Nbt.assign v (s :: next :: rest) t = (false, t) →
              (h.assign (s :: next :: rest) (.ref a) dv).1 = (Nbt.assign v (s :: next :: rest) t).1 ∧
              Edited h (h.assign (s :: next :: rest) (.ref a) dv).2
                (Nbt.assign v (s :: next :: rest) t).2 (.ref a) S A := by
            intro h1 h2
            rw [h1, h2]
            exact ⟨rfl, .refl hs hS A⟩
          have hc := ho.get
          cases ho.alike with
          | list =>
            exact nowhere (by cases s <;> simp [Heap.assign, makePath, target?, container?, hc, he])
              (by cases s <;> simp [Nbt.assign, ht])
          | compound =>
            cases s <;> cases next
            case key.key k l =>
              simp only [Nbt.assign, ht]
              exact ho.assign_key he hS hv hA hAu ih
            all_goals
              exact nowhere (by simp [Heap.assign, makePath, target?, container?, hc, he]) (by simp [Nbt.assign, ht])
        · have hP := ho.inside.subset k
          have hkeep := (hu.agree_makePath (next :: rest)).1 a ⟨hS ho.mem, ho.inside.free k⟩
          obtain ⟨h1, h2⟩ := ih hu (hP.trans hS) hv (hA.mono_right hP) hAu
          rw [assign_some ho.get he (hkeep.trans ho.get)]
          simp only [Nbt.assign, ht]
          exact ⟨h1, ho.edited_part hr he (by simp [ht]) hS hA h2⟩
    · rw [assign_scalar ht, Heap.assign, makePath_scalar hd, target?_scalar hd]
      exact ⟨rfl, .refl hs hS A⟩

/-! ### Appending -/

/-- **Appending to a list at the end of a path does to the data what it does to the tree.** -/
theorem Stands.appendAt {data : Array Datum} (hs : Stands h t d S) (hS : S ⊆ h.used)
    (hpath : h.lookup path d = some (.ref a)) (hget : h.get? a = some (.list data)) (hv : Stands h v dv A)
    (hA : Disjoint A S) (hAu : A ⊆ h.used) :
    (Nbt.appendAt v path t).1 = true ∧ Edited h (h.update a (Container.append dv)) (Nbt.appendAt v path t).2 d S A := by
  induction path generalizing t d S with
  | nil =>
    cases hpath
    obtain ⟨c, P, ho⟩ := hs.opened
    cases ho.get.symm.trans hget
    cases ho.alike with
    | @list items _ size =>
      refine ⟨rfl, ho.edited_update (k := items.size) hS hv hA hAu (.list (by simp [size])) ?_ ?_⟩
      · simpa [Nbt.appendAt, Nbt.parts] using Nbt.setAt_append items.toList v
      · simpa [Container.append, Container.parts, size] using Nbt.setAt_append data.toList dv
  | cons s path ih =>
    simp only [Heap.lookup] at hpath
    obtain ⟨b, c, P, rfl, ho⟩ | ⟨hd, -⟩ := hs.cases
    · simp only [container?, ho.get, bind_some] at hpath
      obtain ⟨-, he⟩ | ⟨k, u, e, hr, ht, he, hu⟩ := ho.child s
      · simp [he] at hpath
      · have hP := ho.inside.subset k
        rw [he, bind_some] at hpath
        obtain ⟨h1, h2⟩ := ih hu (hP.trans hS) hpath (hA.mono_right hP)
        simp only [Nbt.appendAt, ht]
        exact ⟨h1, ho.edited_part hr he (by simp [ht]) hS hA h2⟩
    · simp [container?_scalar hd] at hpath

/-! ### New data -/

/-- Containers have been added, and no other has changed. -/
structure Grown (h h' : Heap) (S : Set Nat) : Prop where
  fresh : Disjoint S h.used
  subset : S ⊆ h'.used
  agree : Agree h h' h.used
  used : h.used ⊆ h'.used

theorem Grown.refl (h : Heap) : Grown h h ∅ :=
  ⟨empty_disjoint _, empty_subset _, .refl _ _, Set.Subset.rfl⟩

theorem Grown.trans (h1 : Grown h h' S) (h2 : Grown h' h'' S') : Grown h h'' (S ∪ S') := by
  refine ⟨?_, ?_, ?_, h1.used.trans h2.used⟩
  · exact disjoint_union_left.2 ⟨h1.fresh, h2.fresh.mono_right h1.used⟩
  · exact union_subset (h1.subset.trans h2.used) h2.subset
  · exact h1.agree.trans (h2.agree.mono h1.used)

theorem grown_alloc (h : Heap) (c : Container) : Grown h (h.alloc c).2 {h.cells.size} := by
  refine ⟨?_, ?_, agree_alloc c h, ?_⟩
  · exact disjoint_singleton_left.2 size_notMem_used
  · rw [used_alloc, singleton_subset_iff]
    exact mem_insert _ _
  · rw [used_alloc]
    exact subset_insert _ _

/-- New values stand for trees, each with containers of its own. -/
structure Rows (h h' : Heap) (ts : List Nbt) (ds : List Datum) (P : Nat → Set Nat) : Prop where
  apart : ∀ ⦃i j : Nat⦄, i ≠ j → Disjoint (P i) (P j)
  grown : Grown h h' (⋃ i, P i)
  length : ts.length = ds.length
  each : ∀ i t d, ts[i]? = some t → ds[i]? = some d → Stands h' t d (P i)

theorem Rows.nil (h : Heap) : Rows h h [] [] (fun _ => ∅) := by
  refine ⟨fun _ _ _ => disjoint_empty _, ?_, rfl, ?_⟩
  · rw [iUnion_empty]
    exact .refl h
  · intro i t d ht
    cases ht

theorem Rows.cons {h1 h2 : Heap} (hg : Grown h h1 S) (hs : Stands h1 t d S)
    (hr : Rows h1 h2 ts ds P) : Rows h h2 (t :: ts) (d :: ds) (fun i => i.casesOn S P) := by
  have hSP : ∀ i, Disjoint S (P i) := by
    intro i
    exact (hr.grown.fresh.mono (subset_iUnion P i) hg.subset).symm
  have hunion : S ∪ ⋃ i, P i = ⋃ i : Nat, (i.casesOn S P : Set Nat) :=
    union_iUnion_nat_succ fun i => i.casesOn S P
  refine ⟨?_, hunion ▸ hg.trans hr.grown, by simp [hr.length], ?_⟩
  · intro i j hij
    cases i with
    | zero =>
      cases j with
      | zero => exact absurd rfl hij
      | succ j => exact hSP j
    | succ i =>
      cases j with
      | zero => exact (hSP i).symm
      | succ j => exact hr.apart (fun h => hij (by rw [h]))
  · intro i u e hu he
    cases i with
    | zero =>
      cases hu
      cases he
      exact hs.frame (hr.grown.agree.mono hg.subset)
    | succ i => exact hr.each i u e hu he

/-- A container for new values stands for the tree of their trees. -/
theorem Rows.alloc (hr : Rows h h' t.parts c.parts P) (ha : Alike t c) :
    ∃ S, Grown h (h'.alloc c).2 S ∧ Stands (h'.alloc c).2 t (.ref (h'.alloc c).1) S := by
  have hP : ∀ i, P i ⊆ h'.used := fun i => (subset_iUnion P i).trans hr.grown.subset
  refine ⟨_, hr.grown.trans (grown_alloc h' c), Opened.stands ⟨.inr rfl, ?_, ⟨hr.apart, ?_, ?_⟩, ha, ?_⟩⟩
  · rw [get?_alloc, alloc_fst, if_pos rfl]
  · exact fun i => (subset_iUnion P i).trans subset_union_left
  · exact fun i hi => size_notMem_used (hP i hi)
  · intro i u d hu hd
    exact (hr.each i u d hu hd).frame ((agree_alloc _ _).mono (hP i))

mutual

/-- **The containers made for a tree stand for it.** -/
theorem load_stands : ∀ (t : Nbt) (h : Heap), ∃ S, Grown h (load t h).2 S ∧ Stands (load t h).2 t (load t h).1 S
  | .int i, h => ⟨∅, .refl h, .int i ∅⟩
  | .float x, h => ⟨∅, .refl h, .float x ∅⟩
  | .str s, h => ⟨∅, .refl h, .str s ∅⟩
  | .list ⟨items⟩, h => by
    obtain ⟨P, ds, hds, hr⟩ := loadItems_rows items #[] h
    have hds : (loadItems items #[] h).1.toList = ds := hds
    subst hds
    exact Rows.alloc hr (.list hr.length)
  | .compound entries, h => by
    obtain ⟨P, hkeys, hr⟩ := loadEntries_rows entries h
    exact Rows.alloc hr (.compound hkeys)

theorem loadItems_rows : ∀ (ts : List Nbt) (done : Array Datum) (h : Heap),
    ∃ P ds, (loadItems ts done h).1.toList = done.toList ++ ds ∧ Rows h (loadItems ts done h).2 ts ds P
  | [], done, h => ⟨_, [], by simp [loadItems], .nil h⟩
  | t :: ts, done, h => by
    obtain ⟨S, hg, hs⟩ := load_stands t h
    obtain ⟨P, ds, hds, hr⟩ := loadItems_rows ts (done.push (load t h).1) (load t h).2
    refine ⟨_, (load t h).1 :: ds, ?_, Rows.cons hg hs hr⟩
    simp only [loadItems]
    rw [hds]
    simp

theorem loadEntries_rows : ∀ (es : List (String × Nbt)) (h : Heap),
    ∃ P, es.map Prod.fst = (loadEntries es h).1.map Prod.fst ∧
      Rows h (loadEntries es h).2 (es.map Prod.snd) ((loadEntries es h).1.map Prod.snd) P
  | [], h => ⟨_, rfl, .nil h⟩
  | (k, t) :: es, h => by
    obtain ⟨S, hg, hs⟩ := load_stands t h
    obtain ⟨P, hkeys, hr⟩ := loadEntries_rows es (load t h).2
    refine ⟨_, ?_, Rows.cons hg hs hr⟩
    simp only [loadEntries, map_cons, hkeys]

end

theorem copy?_flat {items : Array Nbt} (depth : Nat) (hs : Stands h (.list items) (.ref a) S)
    (hflat : ∀ t ∈ items, t.isContainer = false) :
    ∃ c, (copy? (depth + 1) (.ref a)).run h = some (Datum.ref h.cells.size, (h.alloc c).2) ∧
      Stands (h.alloc c).2 (.list items) (.ref h.cells.size) {h.cells.size} := by
  cases hs with
  | @list _ _ data P _ mem get inside size each =>
    have hdata : ∀ (i : Nat) (t : Nbt) (d : Datum), items[i]? = some t → data[i]? = some d → d.isContainer = false := by
      intro i t d ht hd
      rw [(each i t d ht hd).isContainer_eq]
      exact hflat t (Array.mem_of_getElem? ht)
    have hdeep : (Container.list data).copiesDeep = false := by
      simp only [Container.copiesDeep]
      cases hd : data[0]? with
      | none => rfl
      | some d =>
        have hlt : 0 < items.size := by
          rw [size]
          exact (Array.getElem?_eq_some_iff.1 hd).1
        exact hdata 0 items[0] d (Array.getElem?_eq_getElem hlt) hd
    refine ⟨.list data, ?_, ?_⟩
    · simp only [copy?, StateT.run, bind, StateT.bind, Option.bind, MonadState.get, getThe,
        MonadStateOf.get, StateT.get, pure, get, hdeep]
      rfl
    · refine .list (mem_singleton _) (by rw [get?_alloc, if_pos rfl]) (.empty _) size ?_
      intro i t d ht hd
      exact ((each i t d ht hd).scalar (hdata i t d ht hd)).2 _ _

/-! ### Reading back -/

/-- A function that succeeds item by item succeeds on a list. -/
theorem mapM_eq_some {α β : Type} {f : α → Option β} : ∀ {xs : List α} {ys : List β},
    xs.length = ys.length → (∀ (i : Nat) x y, xs[i]? = some x → ys[i]? = some y → f x = some y) →
    xs.mapM f = some ys
  | [], [], _, _ => rfl
  | x :: xs, y :: ys, hlen, hf => by
    have hx : f x = some y := hf 0 x y rfl rfl
    have hxs : xs.mapM f = some ys :=
      mapM_eq_some (Nat.succ.inj hlen) (fun i => hf (i + 1))
    rw [mapM_cons, hx, hxs]
    rfl

/-- Data that stands for a tree of some depth is read back as that tree. -/
theorem Stands.tree? {n : Nat} (hs : Stands h t d S) (hn : t.Within n) : h.tree? n d = some t := by
  induction n generalizing t d S with
  | zero =>
    cases hs with
    | int | float | str => rfl
    | list | compound => exact hn.elim
  | succ n ih =>
    cases hs with
    | int | float | str => rfl
    | @list items a data P _ mem get inside size each =>
      have hm : data.toList.mapM (h.tree? n) = some items.toList := by
        refine mapM_eq_some (by simp [size]) ?_
        intro i d t hd ht
        rw [Array.getElem?_toList] at hd ht
        exact ih (each i t d ht hd) (hn t (Array.mem_of_getElem? ht))
      simp only [Heap.tree?, get, hm, map_some]
    | @compound es a ds P _ mem get inside keys each =>
      have hm : ds.mapM (fun (e : String × Datum) => (h.tree? n e.2).map (fun t => (e.1, t))) = some es := by
        refine mapM_eq_some (by simpa using (congrArg List.length keys).symm) ?_
        intro i f e hf he
        have hkey : e.1 = f.1 := by
          have hk : (es.map Prod.fst)[i]? = (ds.map Prod.fst)[i]? := by rw [keys]
          simpa [hf, he] using hk
        rw [ih (each i e f he hf) (hn e (mem_of_getElem? he)), map_some, ← hkey]
      simp only [Heap.tree?, get, hm, map_some]

end Heap

end ScoreWasm
