import ScoreWasm.Proofs.Data.Forest

/-!
# What paths lead to

Different paths lead to one place, as the last item of a list has two indices.  `Nbt.resolve` counts all indices from the
first item, so that places can be compared.  A value that is written at a path is found there, and what is found at a place
that lies neither inside, at nor above it stays (`Nbt.Written.frame`).  Removing an entry is writing its container anew.
-/

namespace ScoreWasm

open List Option

namespace Nbt

variable {s q : PathStep} {rest p : Path} {t t' u v c : Nbt} {k : PathStep}

/-! ### Places -/

/-- The place in a tree that a step leads to, whether there is a value or not. -/
def spot? : PathStep → Nbt → Option PathStep
  | .index i, .list items => (position? items.size i).map fun k : Nat => .index k
  | .key k, .compound _ => some (.key k)
  | _, _ => none

/-- The path to the same place with all indices counted from the first item, if there is a value. -/
def resolve : Path → Nbt → Option Path
  | [], _ => some []
  | s :: rest, t => (t.child? s).bind fun c => (t.spot? s).bind fun k => (resolve rest c).map (k :: ·)

theorem accepts_eq (s : PathStep) (t : Nbt) : t.accepts s = (t.spot? s).isSome := by
  match s, t with
  | .index _, .list _ => simp only [accepts, spot?, isSome_map]
  | .index _, .compound _ | .key _, .compound _ | .key _, .list _ => rfl
  | s, .int _ | s, .float _ | s, .str _ => cases s <;> rfl

theorem child?_eq_none (h : t.spot? s = none) : t.child? s = none := by
  match s, t with
  | .index i, .list items => simp [child?, map_eq_none_iff.mp h]
  | .index _, .compound _ | .key _, .list _ => rfl
  | s, .int _ | s, .float _ | s, .str _ => cases s <;> rfl

theorem lookup_eq_none_iff : t.lookup p = none ↔ t.resolve p = none := by
  induction p generalizing t with
  | nil => simp [lookup, resolve]
  | cons s p ih =>
    rw [resolve, lookup]
    cases hs : t.spot? s with
    | none => simp [child?_eq_none hs]
    | some k => cases t.child? s <;> simp [ih]

/-- Steps to one place lead to one value. -/
theorem child?_congr (h : t.spot? q = t.spot? s) (hq : t.spot? q = some k) : t.child? q = t.child? s := by
  match s, q, t with
  | .index i, .index j, .list items =>
    have hij : position? items.size j = position? items.size i :=
      map_injective (fun a b hab => Int.ofNat_inj.mp (PathStep.index.inj hab)) h
    simp [child?, hij]
  | .key _, .key _, .compound _ =>
    cases h
    rfl
  | .index _, .key _, .list _ => cases hq
  | .key _, .index _, .list _ => cases h.symm.trans hq

theorem spot?_put (h : t.accepts s = true) (v : Nbt) (q : PathStep) : (put v s t).spot? q = t.spot? q := by
  match s, t with
  | .index i, .list items =>
    obtain ⟨k, hk⟩ := isSome_iff_exists.mp h
    cases q <;> simp only [put, hk, spot?, Array.size_setIfInBounds]
  | .key _, .compound _ => cases q <;> rfl

theorem child?_put (h : t.accepts s = true) (v : Nbt) (q : PathStep) :
    (put v s t).child? q = if t.spot? q = t.spot? s then some v else t.child? q := by
  match s, t with
  | .index i, .list items =>
    obtain ⟨k, hk⟩ := isSome_iff_exists.mp h
    have hlt := position?_lt hk
    cases q with
    | key _ => simp [put, child?, spot?, hk]
    | index j =>
      cases hj : position? items.size j with
      | none => simp [put, child?, spot?, hk, hj]
      | some l => by_cases hkl : l = k <;> simp [put, child?, spot?, hk, hj, hkl, hlt, Ne.symm]
  | .key k, .compound es =>
    cases q with
    | index _ => rfl
    | key l => simp [put, child?, spot?, named?_setEntry, @eq_comm _ l]

theorem setEntry_setEntry {α : Type} (name : String) (v v' : α) (es : List (String × α)) :
    setEntry name v' (setEntry name v es) = setEntry name v' es := by
  induction es with
  | nil => simp [setEntry]
  | cons e es ih => by_cases he : e.1 = name <;> simp [setEntry, he, ih]

theorem put_put (h : t.accepts s = true) (v v' : Nbt) : put v' s (put v s t) = put v' s t := by
  match s, t with
  | .index i, .list items =>
    obtain ⟨k, hk⟩ := isSome_iff_exists.mp h
    simp [put, hk]
  | .key k, .compound es => exact congrArg compound (setEntry_setEntry k v v' es)

/-! ### Writing -/

/-- One tree is another one with a value at a path, where compounds that were missing on the way have been made. -/
inductive Written (v : Nbt) : Path → Nbt → Nbt → Prop
  | here (t : Nbt) : Written v [] t v
  | there {s : PathStep} {p : Path} {t c : Nbt} (accepts : t.accepts s = true)
      (rest : Written v p ((t.child? s).getD (.compound [])) c) : Written v (s :: p) t (put c s t)

theorem assign_cons {next : PathStep} : assign v (s :: next :: rest) t = (true, t') ↔ t.accepts s = true ∧
      ∃ c, assign v (next :: rest) ((t.child? s).getD (.compound [])) = (true, c) ∧ put c s t = t' := by
  match s, t with
  | .index i, .list items =>
    cases hk : position? items.size i with
    | none => simp [assign, child?, accepts, hk]
    | some k => simp [assign, child?, accepts, hk, position?_lt hk, Prod.ext_iff]
  | .key k, .compound es =>
    cases hk : named? k es with
    | some c => simp [assign, child?, accepts, hk, Prod.ext_iff]
    | none =>
      cases next with
      | key => simp [assign, child?, accepts, hk, Prod.ext_iff]
      | index => cases rest <;> simp [assign, child?, accepts, hk]
  | .index _, .compound _ | .key _, .list _ => simp [assign, child?, accepts]
  | s, .int _ | s, .float _ | s, .str _ => cases s <;> simp [assign, child?, accepts]

/-- What can be written along a path is written. -/
theorem assign_eq_iff : assign v (s :: rest) t = (true, t') ↔ Written v (s :: rest) t t' := by
  induction rest generalizing s t t' with
  | nil =>
    constructor
    · intro h
      obtain ⟨haccepts, rfl⟩ := Prod.ext_iff.mp h
      exact .there haccepts (.here _)
    · intro h
      cases h with
      | there haccepts hrest =>
        cases hrest
        simp [assign, haccepts]
  | cons next rest ih =>
    rw [assign_cons]
    constructor
    · rintro ⟨haccepts, c, hc, rfl⟩
      exact .there haccepts (ih.mp hc)
    · intro h
      cases h with
      | there haccepts hrest => exact ⟨haccepts, _, ih.mpr hrest, rfl⟩

namespace Written

/-- What has been written is found. -/
theorem lookup_self (h : Written v p t t') : t'.lookup p = some v := by
  induction h with
  | here => rfl
  | there haccepts _ ih => rw [lookup, child?_put haccepts, if_pos rfl, bind_some, ih]

/-- Only what is written last counts. -/
theorem again {v' u : Nbt} (h : Written v p t t') (h' : Written v' p t u) : Written v' p t' u := by
  induction h generalizing u with
  | here => cases h'; exact .here _
  | @there s p t c haccepts _ ih =>
    cases h' with
    | there _ h' =>
      have hagain : Written v' (s :: p) (put c s t) (put _ s (put c s t)) :=
        .there (by rwa [accepts_eq, spot?_put haccepts, ← accepts_eq]) (by rw [child?_put haccepts, if_pos rfl]; exact ih h')
      rwa [put_put haccepts] at hagain

theorem exists_again (h : Written v p t t') (v' : Nbt) : ∃ u, Written v' p t u := by
  induction h with
  | here => exact ⟨_, .here _⟩
  | there haccepts _ ih =>
    obtain ⟨u, hu⟩ := ih
    exact ⟨_, .there haccepts hu⟩

/-- **Writing changes nothing but what lies inside or above the place written to.** -/
theorem frame (h : Written v p t t') : ∃ P, t'.resolve p = some P ∧
    ∀ q, (∀ Q, t.resolve q = some Q ∨ t'.resolve q = some Q → ¬P <+: Q ∧ ¬Q <+: P) → t'.lookup q = t.lookup q := by
  induction h with
  | here t =>
    refine ⟨[], rfl, fun q hq => ?_⟩
    have hnone : ∀ {u : Nbt}, (∀ Q, u.resolve q = some Q → t.resolve q = some Q ∨ v.resolve q = some Q) → u.lookup q = none :=
      fun h => lookup_eq_none_iff.mpr (eq_none_iff_forall_ne_some.mpr fun Q hQ => (hq Q (h Q hQ)).1 nil_prefix)
    rw [hnone fun _ => .inl, hnone fun _ => .inr]
  | @there s p t c haccepts _ ih =>
    obtain ⟨P, hP, ih⟩ := ih
    obtain ⟨k, hk⟩ := isSome_iff_exists.mp ((accepts_eq s t).symm.trans haccepts)
    refine ⟨k :: P, by simp [resolve, child?_put haccepts, spot?_put haccepts, hk, hP], fun q hq => ?_⟩
    match q with
    | [] => exact absurd nil_prefix (hq [] (.inl rfl)).2
    | a :: q =>
      rw [lookup, lookup, child?_put haccepts]
      split
      next ha =>
        rw [child?_congr ha (ha.trans hk), bind_some]
        have hinside : ∀ Q, c.resolve q = some Q → (put c s t).resolve (a :: q) = some (k :: Q) := by
          intro Q hQ
          simp [resolve, child?_put haccepts, spot?_put haccepts, ha, hk, hQ]
        have hbefore : ∀ d Q, t.child? s = some d → d.resolve q = some Q → t.resolve (a :: q) = some (k :: Q) := by
          intro d Q hd hQ
          simp [resolve, child?_congr ha (ha.trans hk), hd, ha, hk, hQ]
        have hne : q ≠ [] := by
          rintro rfl
          exact (hq [k] (.inr (hinside [] rfl))).2 ⟨P, rfl⟩
        have hempty : resolve q (.compound []) = none := by
          obtain ⟨b, q, rfl⟩ := exists_cons_of_ne_nil hne
          cases b <;> rfl
        rw [ih q fun Q hQ => ?_]
        · cases hd : t.child? s with
          | none => exact lookup_eq_none_iff.mpr hempty
          | some d => rfl
        · suffices h : t.resolve (a :: q) = some (k :: Q) ∨ (put c s t).resolve (a :: q) = some (k :: Q) by
            simpa using hq (k :: Q) h
          refine hQ.imp (fun hQ => ?_) (hinside Q)
          cases hd : t.child? s with
          | none => simp [hd, hempty] at hQ
          | some d => exact hbefore d Q hd (by simpa [hd] using hQ)
      next => rfl

end Written

/-- The container without the entry that a step leads to; the items behind it move down. -/
def erase : PathStep → Nbt → Nbt
  | .index i, .list items => (position? items.size i).elim (.list items) fun k => .list (items.eraseIdxIfInBounds k)
  | .key k, .compound es => .compound (eraseEntry k es)
  | _, t => t

theorem eraseEntry_eq {α : Type} (name : String) (es : List (String × α)) :
    eraseEntry name es = es.eraseIdx (place name es) := by
  induction es with
  | nil => rfl
  | cons e es ih => by_cases he : e.1 = name <;> simp [eraseEntry, place_cons, he, ih]

end Nbt

namespace Heap

variable {h h' : Heap} {t t' u v : Nbt} {d e root : Datum} {S A : Set Nat} {a k : Nat}
  {c c' : Container} {P : Nat → Set Nat} {s : PathStep} {front path : Path}

/-! ### Removing -/

/-- A part is taken out, and those behind it move down. -/
theorem Opened.without (ho : Opened h t c a P S) (hget : h'.get? a = some c') (halike : Alike t' c')
    (ht : t'.parts = t.parts.eraseIdx k) (hc : c'.parts = c.parts.eraseIdx k) (hagree : Agree h h' (S \ {a})) :
    Stands h' t' (.ref a) S := by
  let old (i : Nat) : Nat := if i < k then i else i + 1
  have hold : Function.Injective old := by
    intro i j hij
    simp only [old] at hij
    split_ifs at hij <;> omega
  have hpart : ∀ {α : Type} (l : List α) (i : Nat), (l.eraseIdx k)[i]? = l[old i]? := by
    intro α l i
    simp only [getElem?_eraseIdx, old]
    split <;> rfl
  refine Opened.stands ⟨ho.mem, hget, ⟨fun i j hij => ho.inside.apart (hold.ne hij),
    fun i => ho.inside.subset _, fun i => ho.inside.free _⟩, halike, fun i u d hu hd => ?_⟩
  rw [ht, hpart] at hu
  rw [hc, hpart] at hd
  refine (ho.each _ u d hu hd).frame (hagree.mono fun b hb => ⟨ho.inside.subset _ hb, ?_⟩)
  rintro rfl
  exact ho.inside.free _ hb

theorem Opened.erase (ho : Opened h t c a P S) (hS : S ⊆ h.used) (hchild : c.child? s ≠ none) :
    Edited h (h.update a (Container.erase s)) (t.erase s) (.ref a) S ∅ := by
  have hget : (h.update a (Container.erase s)).get? a = some (c.erase s) := by
    rw [get?_update_self, ho.get]
    rfl
  have hagree : Agree h (h.update a (Container.erase s)) (h.used \ {a}) := agree_update (by simp) _ _
  refine ⟨⟨S, ?_, Set.subset_union_left.trans Set.subset_union_left, by rwa [used_update]⟩, 
    hagree.mono (Set.sdiff_subset_sdiff_right (by simpa using ho.mem)), (used_update ..).ge⟩
  have hagree := hagree.mono (Set.sdiff_subset_sdiff_left hS)
  cases ho.alike with
  | @list items data size =>
    cases s with
    | key => exact absurd rfl hchild
    | index i =>
      cases hk : position? data.size i with
      | none => simp [Container.child?, hk] at hchild
      | some k =>
        simp only [Container.erase, Nbt.erase, size, hk] at hget ⊢
        refine ho.without (k := k) hget (.list ?_) ?_ ?_ hagree <;>
          simp [Nbt.parts, Container.parts, size]
  | @compound es ds keys =>
    cases s with
    | index => exact absurd rfl hchild
    | key k =>
      have hplace : Nbt.place k es = Nbt.place k ds := by rw [Nbt.place, keys, Nbt.place]
      refine ho.without (k := Nbt.place k ds) hget (.compound ?_) ?_ ?_ hagree <;>
        simp [Nbt.parts, Container.parts, Nbt.erase, Container.erase, Nbt.eraseEntry_eq, hplace, ← eraseIdx_map, keys]

theorem target?_concat (h : Heap) (front : Path) (s : PathStep) (d : Datum) :
    h.target? (front ++ [s]) d = (h.lookup front d).bind fun | .ref a => some (a, s) | _ => none := by
  induction front generalizing d with
  | nil => cases d <;> rfl
  | cons q front ih =>
    rw [cons_append, target?, lookup]
    · simp only [ih, Option.bind_assoc]
    · simp

/-- An edit of the data that a path leads to, as seen from the whole. -/
theorem Stands.edited_inside {f : Nbt → Nbt} (hs : Stands h t d S) (hS : S ⊆ h.used) (hpath : h.lookup path d = some e)
    (hedit : ∀ {u B}, Stands h u e B → B ⊆ S → Edited h h' (f u) e B ∅) :
    ∃ u t' B, t.lookup path = some u ∧ Stands h u e B ∧ Nbt.Written (f u) path t t' ∧ Edited h h' t' d S ∅ := by
  induction path generalizing t d S with
  | nil =>
    cases hpath
    exact ⟨t, _, S, rfl, hs, .here t, hedit hs Set.Subset.rfl⟩
  | cons s path ih =>
    simp only [Heap.lookup] at hpath
    obtain ⟨b, c, P, rfl, ho⟩ | ⟨hd, -⟩ := hs.cases
    · simp only [container?, ho.get, bind_some] at hpath
      obtain ⟨-, he⟩ | ⟨k, u, e', hr, ht, he, hu⟩ := ho.child s
      · simp [he] at hpath
      · have hP := ho.inside.subset k
        rw [he, bind_some] at hpath
        obtain ⟨u', t', B, hlookup, hs', hwritten, hd⟩ := ih hu (hP.trans hS) hpath fun hs hB => hedit hs (hB.trans hP)
        refine ⟨u', Nbt.put t' s t, B, by rw [Nbt.lookup, ht]; exact hlookup, hs', .there hr.accepts.1 (by rwa [ht]), ?_⟩
        exact ho.edited_part hr he (by simp [ht]) hS (Set.empty_disjoint _) hd
    · simp [container?_scalar hd] at hpath

/-- **Removing at a path takes the entry out of the tree.** -/
theorem Stands.remove (hs : Stands h t d S) (hS : S ⊆ h.used) (hremove : h.remove (front ++ [s]) d = (true, h')) :
    ∃ u t', t.lookup front = some u ∧ u.child? s ≠ none ∧ Nbt.Written (u.erase s) front t t' ∧ Edited h h' t' d S ∅ := by
  rw [Heap.remove, target?_concat] at hremove
  cases hfront : h.lookup front d with
  | none => simp [hfront] at hremove
  | some e =>
    cases e with
    | int | float | str => simp [hfront] at hremove
    | ref a =>
      simp only [hfront, bind_some] at hremove
      split at hremove
      next hsome =>
        cases hremove
        have hchild : ∀ {u c P B}, Opened h u c a P B → c.child? s ≠ none := by
          intro u c P B ho
          rwa [ho.get, bind_some, isSome_iff_ne_none] at hsome
        obtain ⟨u, t', B, hlookup, hu, hwritten, hedited⟩ := hs.edited_inside hS hfront fun hu hB => by
          obtain ⟨c, P, ho⟩ := hu.opened
          exact ho.erase (hB.trans hS) (hchild ho)
        obtain ⟨c, P, ho⟩ := hu.opened
        refine ⟨u, t', hlookup, fun hnone => hchild ho ?_, hwritten, hedited⟩
        obtain ⟨-, hc⟩ | ⟨-, _, -, -, hsome, -⟩ := ho.child s
        · exact hc
        · cases hnone.symm.trans hsome
      next => cases hremove

/-! ### Laws -/

/-- What a path leads to, as a tree. -/
def Finds (h : Heap) (p : Path) (d : Datum) : Option Nbt → Prop
  | none => h.lookup p d = none
  | some u => ∃ e B, h.lookup p d = some e ∧ Stands h u e B

theorem Stands.finds (hs : Stands h t d S) (p : Path) : h.Finds p d (t.lookup p) := by
  obtain ⟨hd, ht⟩ | ⟨e, u, B, hd, ht, -, hu⟩ : (h.lookup p d = none ∧ _) ∨ _ := hs.lookup
  · rwa [ht]
  · rw [ht]
    exact ⟨e, B, hd, hu⟩

/-- Data that stood for one tree and stands for another one has not changed but inside and above a place. -/
def SameBeside (P : Path) (h h' : Heap) (root : Datum) (t t' : Nbt) : Prop :=
  ∀ q, (∀ Q, t.resolve q = some Q ∨ t'.resolve q = some Q → ¬P <+: Q ∧ ¬Q <+: P) → ∃ o, h.Finds q root o ∧ h'.Finds q root o

/-- **A path edits one place.**  A value that is written is found at its path, whatever lies beside it stays, and of two
values that are written at one path only the last counts.  Removing takes one entry out of its container, where the items
behind it move down, and whatever lies beside the container stays. -/
theorem paths_edit_one_place {dv dv' : Datum} {v v' : Nbt} {A A' : Set Nat} {p : Path} (hroot : Stands h t root S)
    (hv : Stands h v dv A) (hv' : Stands h v' dv' A') (hused : S ∪ A ∪ A' ⊆ h.used) (hS : Disjoint (A ∪ A') S)
    (hA : Disjoint A' A) (hp : p ≠ []) :
    (∀ h', h.assign p root dv = (true, h') → ∃ t' S' P, Stands h' t' root S' ∧
      h'.Finds p root (some v) ∧ t'.resolve p = some P ∧ SameBeside P h h' root t t' ∧
      ∃ u h₁ S₁ h₂ S₂, h'.assign p root dv' = (true, h₁) ∧ Stands h₁ u root S₁ ∧
        h.assign p root dv' = (true, h₂) ∧ Stands h₂ u root S₂) ∧
    ∀ h', h.remove p root = (true, h') → ∃ front s c t' S' F, p = front ++ [s] ∧ t.lookup front = some c ∧
      c.child? s ≠ none ∧ Stands h' t' root S' ∧ h'.Finds front root (some (c.erase s)) ∧
      t'.resolve front = some F ∧ SameBeside F h h' root t t' := by
  obtain ⟨⟨hSu, hAu⟩, hAu'⟩ := (Set.union_subset_iff.mp hused).imp_left Set.union_subset_iff.mp
  obtain ⟨hAS, hAS'⟩ := Set.disjoint_union_left.mp hS
  refine ⟨fun h' hassign => ?_, fun h' hremove => ?_⟩
  · obtain ⟨s, rest, rfl⟩ := exists_cons_of_ne_nil hp
    obtain ⟨hflag, hedited⟩ := hroot.assign (s :: rest) hSu hv hAS hAu
    rw [hassign] at hflag hedited
    have hw := Nbt.assign_eq_iff.mp (Prod.ext hflag.symm rfl)
    obtain ⟨S', hs', hsub, hS'⟩ := hedited.stands
    obtain ⟨P, hP, hframe⟩ := hw.frame
    obtain ⟨u, hu⟩ := hw.exists_again v'
    have hdisj : Disjoint A' S' := by
      rw [Set.disjoint_left] at *
      intro a ha ha'
      obtain (h | h) | h := hsub ha'
      · exact hAS' ha h
      · exact hA ha h
      · exact h (hAu' ha)
    have hkeep : Stands h' v' dv' A' := hv'.frame (hedited.agree.mono fun a ha => ⟨hAu' ha, Set.disjoint_left.mp hAS' ha⟩)
    obtain ⟨h1, he1⟩ := hs'.assign (s :: rest) hS' hkeep hdisj (hAu'.trans hedited.used)
    obtain ⟨h2, he2⟩ := hroot.assign (s :: rest) hSu hv' hAS' hAu'
    rw [Nbt.assign_eq_iff.mpr (hw.again hu)] at h1 he1
    rw [Nbt.assign_eq_iff.mpr hu] at h2 he2
    obtain ⟨S₁, hs1, -⟩ := he1.stands
    obtain ⟨S₂, hs2, -⟩ := he2.stands
    exact ⟨_, S', P, hs', hw.lookup_self ▸ hs'.finds _, hP, fun q hq => ⟨_, hroot.finds q, hframe q hq ▸ hs'.finds q⟩,
      u, _, S₁, _, S₂, Prod.ext h1 rfl, hs1, Prod.ext h2 rfl, hs2⟩
  · rw [← dropLast_append_getLast hp] at hremove
    obtain ⟨c, t', hc, hchild, hw, hedited⟩ := hroot.remove hSu hremove
    obtain ⟨S', hs', -⟩ := hedited.stands
    obtain ⟨F, hF, hframe⟩ := hw.frame
    exact ⟨_, _, c, t', S', F, (dropLast_append_getLast hp).symm, hc, hchild, hs',
      hw.lookup_self ▸ hs'.finds _, hF, fun q hq => ⟨_, hroot.finds q, hframe q hq ▸ hs'.finds q⟩⟩

/-- The last item of a list of three, counted from the end, is changed and removed. -/
theorem paths_edit_one_place_last : ∃ h root t S h₁ h₂, Stands h t root S ∧
    h.assign [.key "xs", .index (-1)] root (.int 8) = (true, h₁) ∧ h₁.Finds [.key "xs", .index (-1)] root (some (.int 8)) ∧
    h.remove [.key "xs", .index (-1)] root = (true, h₂) ∧ h₂.Finds [.key "xs"] root (some (.list #[.int 1, .int 2])) := by
  obtain ⟨S, hg, hs⟩ := load_stands (.compound [("xs", .list #[.int 1, .int 2, .int 3])]) .empty
  obtain ⟨hassign, hremove⟩ := paths_edit_one_place (p := [.key "xs", .index (-1)]) hs (.int 8 ∅)
    (.int 9 ∅) (by simpa using hg.subset) (by simp) (by simp) nofun
  obtain ⟨-, -, -, -, hfinds, -⟩ := hassign _ rfl
  obtain ⟨front, s, c, -, -, -, hp, hc, -, -, hfinds', -⟩ := hremove _ rfl
  have hsplit : [PathStep.key "xs"] ++ [.index (-1)] = front ++ [s] := hp
  obtain ⟨rfl, hlast⟩ := append_inj' hsplit rfl
  cases hlast
  cases hc
  rw [show Nbt.erase (.index (-1)) (.list #[.int 1, .int 2, .int 3]) = .list #[.int 1, .int 2] by simp [Nbt.erase, position?]]
    at hfinds'
  exact ⟨_, _, _, _, _, _, hs, rfl, hfinds, rfl, hfinds'⟩

end Heap

end ScoreWasm
