import ScoreWasm.Proofs.Data.Forest

/-!
# Fields that take the place of placeholders

Some entries of compounds are put into lines of commands: under `k` the name of a function, under other
names a number.  No command that writes data keeps to this by itself, but those that write elsewhere do,
and so do copies (`Heap.Suited.assign`, `Heap.Suited.copy?`).
-/

namespace ScoreWasm

variable {k : String} {α : Type} {es : List (String × α)} {s : PathStep} {e : String × α} {a : Nat}

/-- The names of the fields that hold numbers. -/
def numberKeys : List String := ["p", "i", "x", "y", "z"]

/-- A step to a place whose value is put into no line. -/
def PathStep.isPlain : PathStep → Bool
  | .key k => k != "k" && !numberKeys.contains k
  | .index _ => true

/-- A value may stand under a name, where names of functions have a property. -/
def Datum.Suits (G : String → Prop) (k : String) (d : Datum) : Prop :=
  (k = "k" → ∃ s, d = .str s ∧ G s) ∧ (k ∈ numberKeys → ∃ i, d = .int i)

/-- A value may be put where a step leads to. -/
def PathStep.Takes (G : String → Prop) (d : Datum) (s : PathStep) : Prop := ∀ k, s = .key k → d.Suits G k

/-- What is behind each key suits it. -/
def Container.Suited (G : String → Prop) : Container → Prop
  | .list _ => True
  | .compound es => ∀ e ∈ es, e.2.Suits G e.1

/-- Every container of the heap is suited. -/
def Heap.Suited (G : String → Prop) (h : Heap) : Prop := ∀ a c, h.get? a = some c → c.Suited G

/-- Data without containers inside containers, with suitable entries. -/
def Nbt.Suited (G : String → Prop) : Nbt → Prop
  | .list items => ∀ t ∈ items, t.isContainer = false
  | .compound es => ∀ e ∈ es, e.2.isContainer = false ∧ (Heap.load e.2 .empty).1.Suits G e.1
  | _ => True

variable {G : String → Prop}

theorem PathStep.takes_of_isPlain (h : s.isPlain = true) (d : Datum) : s.Takes G d := by
  rintro k rfl
  simp only [isPlain, Bool.and_eq_true, bne_iff_ne, Bool.not_eq_true', List.contains_eq_mem,
    decide_eq_false_iff_not] at h
  exact ⟨fun hk => absurd hk h.1, fun hk => absurd hk h.2⟩

theorem Datum.Suits.of_ref (h : (Datum.ref a).Suits G k) (b : Nat) : (Datum.ref b).Suits G k :=
  ⟨fun hk => (h.1 hk).elim fun _ hs => (nomatch hs.1), fun hk => (h.2 hk).elim fun _ hi => (nomatch hi)⟩

theorem Nbt.mem_setEntry {v : α} (h : e ∈ setEntry k v es) : e = (k, v) ∨ e ∈ es := by
  fun_induction setEntry k v es <;> grind

theorem Nbt.mem_of_mem_eraseEntry (h : e ∈ eraseEntry k es) : e ∈ es := by
  fun_induction eraseEntry k es <;> grind

namespace Container.Suited

variable {c : Container}

theorem put (hc : c.Suited G) {d : Datum} (hs : s.Takes G d) : (c.put d s).Suited G := by
  match s, c with
  | .index i, .list items =>
    simp only [Container.put]
    split <;> trivial
  | .index i, .compound es | .key k, .list items => exact hc
  | .key k, .compound es =>
    intro e he
    rcases Nbt.mem_setEntry he with rfl | he
    · exact hs k rfl
    · exact hc e he

theorem erase (hc : c.Suited G) (s : PathStep) : (c.erase s).Suited G := by
  match s, c with
  | .index i, .list items =>
    simp only [Container.erase]
    split <;> trivial
  | .index i, .compound es | .key k, .list items => exact hc
  | .key k, .compound es => exact fun e he => hc e (Nbt.mem_of_mem_eraseEntry he)

theorem append (hc : c.Suited G) (d : Datum) : (c.append d).Suited G := by
  cases c with
  | list items => trivial
  | compound es => exact hc

end Container.Suited

namespace Heap.Suited

variable {h : Heap}

variable {d : Datum} {path : Path} {t : Nbt}

theorem alloc (hh : h.Suited G) {c : Container} (hc : c.Suited G) : (h.alloc c).2.Suited G := by
  intro a d hd
  rw [get?_alloc] at hd
  split at hd
  · cases hd
    exact hc
  · exact hh a d hd

theorem update (hh : h.Suited G) (a : Nat) {f : Container → Container}
    (hf : ∀ c, c.Suited G → (f c).Suited G) : (h.update a f).Suited G := by
  intro b d hd
  rw [get?_update] at hd
  split at hd
  · obtain ⟨c, hc, rfl⟩ := Option.map_eq_some_iff.mp hd
    exact hf c (hh _ c hc)
  · exact hh b d hd

/-- A path that leads through plain entries to a place for a value. -/
def Leads (G : String → Prop) (d : Datum) (path : Path) : Prop :=
  path.dropLast.all PathStep.isPlain = true ∧ ∀ s, path.getLast? = some s → s.Takes G d

theorem Leads.tail {next : PathStep} {rest : Path} (hp : Leads G d (s :: next :: rest)) : Leads G d (next :: rest) := by
  refine ⟨?_, fun t ht => hp.2 t (by rw [List.getLast?_cons_cons, ht])⟩
  have := hp.1
  rw [List.dropLast_cons_cons, List.all_cons, Bool.and_eq_true] at this
  exact this.2

theorem makePath : ∀ {path : Path}, Leads G d path → ∀ (root : Datum) {h : Heap}, h.Suited G →
    (h.makePath path root).Suited G
  | [], _, root, h, hh | [s], _, root, h, hh => by cases root <;> exact hh
  | s :: next :: rest, hp, .ref a, h, hh => by
    have hs : s.isPlain = true := by
      have := hp.1
      rw [List.dropLast_cons_cons, List.all_cons, Bool.and_eq_true] at this
      exact this.1
    rw [Heap.makePath]
    split
    · exact hh
    · split
      · exact makePath hp.tail _ hh
      · split
        · refine makePath hp.tail _ ((hh.alloc ?_).update a fun c hc => hc.put (PathStep.takes_of_isPlain hs _))
          exact fun e he => nomatch he
        · exact hh
  | _ :: _ :: _, _, .int _, h, hh | _ :: _ :: _, _, .float _, h, hh | _ :: _ :: _, _, .str _, h, hh => hh

theorem getLast?_of_target? (h : Heap) {root : Datum}
    (ht : h.target? path root = some (a, s)) : path.getLast? = some s := by
  induction path generalizing root with
  | nil => simp [Heap.target?] at ht
  | cons t rest ih =>
    cases rest with
    | nil => cases root <;> simp_all [Heap.target?]
    | cons next rest =>
      rw [Heap.target?] at ht
      · obtain ⟨d, -, hd⟩ := Option.bind_eq_some_iff.mp ht
        exact ih hd
      · simp

/-- **Writing at the end of a path that leads to a place for the value.** -/
theorem assign (hp : Leads G d path) (root : Datum) (hh : h.Suited G) : (h.assign path root d).2.Suited G := by
  have hm := makePath hp root hh
  simp only [Heap.assign]
  split
  · exact hm
  · rename_i a s ht
    split
    · exact hm.update a fun c hc => hc.put (hp.2 s (getLast?_of_target? _ ht))
    · exact hm

theorem remove (path : Path) (root : Datum) (hh : h.Suited G) : (h.remove path root).2.Suited G := by
  unfold Heap.remove
  split
  · exact hh
  · rename_i a s _
    split
    · exact hh.update a fun c hc => hc.erase s
    · exact hh

/-! ### New data -/

theorem load_scalar (ht : t.isContainer = false) (h : Heap) : Heap.load t h = ((Heap.load t .empty).1, h) := by
  cases t with
  | list items | compound es => cases ht
  | _ => simp only [Heap.load]

theorem loadItems_scalars {items : List Nbt} (ht : ∀ t ∈ items, t.isContainer = false)
    (done : Array Datum) (h : Heap) : (Heap.loadItems items done h).2 = h := by
  induction items generalizing done with
  | nil => rfl
  | cons t items ih =>
    rw [Heap.loadItems, load_scalar (ht t (.head _))]
    exact ih (fun t h => ht t (.tail _ h)) _

theorem loadEntries_scalars {es : List (String × Nbt)} (ht : ∀ e ∈ es, e.2.isContainer = false)
    (h : Heap) : Heap.loadEntries es h = (es.map fun e => (e.1, (Heap.load e.2 .empty).1), h) := by
  induction es with
  | nil => rfl
  | cons e es ih =>
    rw [Heap.loadEntries, load_scalar (ht e (.head _))]
    dsimp only
    rw [ih fun t h => ht t (.tail _ h)]
    rfl

theorem load (ht : t.Suited G) (hh : h.Suited G) : (Heap.load t h).2.Suited G := by
  match t with
  | .list ⟨items⟩ =>
    rw [Heap.load]
    have hscalar : ∀ t ∈ items, t.isContainer = false := fun t h => ht t (by simpa using h)
    have := loadItems_scalars hscalar #[] h
    generalize Heap.loadItems items #[] h = r at this
    cases this
    exact hh.alloc trivial
  | .compound es =>
    rw [Heap.load, loadEntries_scalars fun e he => (ht e he).1]
    refine hh.alloc ?_
    intro e he
    obtain ⟨f, hf, rfl⟩ := List.mem_map.mp he
    exact (ht f hf).2
  | .int _ | .float _ | .str _ => simpa only [Heap.load] using hh

theorem mapM {α β : Type} {f : α → StateT Heap Option β} {R : α → β → Prop}
    (hf : ∀ a b h h', Heap.Suited G h → f a h = some (b, h') → Heap.Suited G h' ∧ R a b) :
    ∀ {l : List α} {l' : List β} {h h' : Heap}, h.Suited G → l.mapM f h = some (l', h') →
      h'.Suited G ∧ ∀ b ∈ l', ∃ a ∈ l, R a b
  | [], l', h, h', hh, hm => by
    cases hm
    exact ⟨hh, fun b hb => nomatch hb⟩
  | a :: l, l', h, h', hh, hm => by
    rw [List.mapM_cons] at hm
    obtain ⟨⟨b, h1⟩, hb, hm⟩ := Option.bind_eq_some_iff.mp hm
    obtain ⟨⟨bs, h2⟩, hbs, hm⟩ := Option.bind_eq_some_iff.mp hm
    cases hm
    obtain ⟨hh1, hR⟩ := hf a b h h1 hh hb
    obtain ⟨hh2, hRs⟩ := mapM hf hh1 hbs
    refine ⟨hh2, ?_⟩
    grind

/-- **A copy suits where the value did.** -/
theorem copy? : ∀ (n : Nat) {d d' : Datum} {h h' : Heap}, h.Suited G →
    Heap.copy? n d h = some (d', h') → h'.Suited G ∧ ∀ k, d.Suits G k → d'.Suits G k
  | n, .int _, d', h, h', hh, hc => by cases n <;> (cases hc; exact ⟨hh, fun _ => id⟩)
  | n, .float _, d', h, h', hh, hc => by cases n <;> (cases hc; exact ⟨hh, fun _ => id⟩)
  | n, .str _, d', h, h', hh, hc => by cases n <;> (cases hc; exact ⟨hh, fun _ => id⟩)
  | 0, .ref _, d', h, h', hh, hc => by cases hc
  | n + 1, .ref a, d', h, h', hh, hc => by
    have hend : ∀ {c : Container} {g : Heap}, g.Suited G → c.Suited G →
        (Datum.ref <$> modifyGet (Heap.alloc c) : StateT Heap Option Datum) g = some (d', h') →
        h'.Suited G ∧ ∀ k, (Datum.ref a).Suits G k → d'.Suits G k := by
      intro c g hg hsuited he
      cases he
      exact ⟨hg.alloc hsuited, fun k hk => hk.of_ref _⟩
    rw [Heap.copy?] at hc
    simp only [bind, StateT.bind, get, getThe, MonadStateOf.get, StateT.get, pure, Option.bind_some] at hc
    cases ha : h.get? a with
    | none =>
      rw [ha] at hc
      cases hc
    | some c =>
      simp only [ha] at hc
      split at hc
      · cases c with
        | list items =>
          obtain ⟨⟨ds, g⟩, hds, he⟩ := Option.bind_eq_some_iff.mp hc
          exact hend (c := .list _) (mapM (f := Heap.copy? n) (fun _ _ _ _ hg => copy? n hg) hh hds).1 trivial he
        | compound es =>
          obtain ⟨⟨ds, g⟩, hds, he⟩ := Option.bind_eq_some_iff.mp hc
          obtain ⟨hg, hds⟩ := mapM (R := fun (e f : String × Datum) => f.1 = e.1 ∧
            (e.2.Suits G e.1 → f.2.Suits G e.1)) (fun e f g g' hg hf => by
              obtain ⟨⟨d, g1⟩, hd, hf⟩ := Option.bind_eq_some_iff.mp hf
              cases hf
              exact ⟨(copy? n hg hd).1, rfl, (copy? n hg hd).2 _⟩) hh hds
          refine hend hg (fun f hf => ?_) he
          obtain ⟨e, he, hfst, hsuits⟩ := hds f hf
          rw [hfst]
          exact hsuits (hh a _ ha e he)
      · exact hend hh (hh a c ha) hc

end Heap.Suited

end ScoreWasm
