/-!
# Computations that may fail

What a successful computation says about its parts.  Type checking and the construction of graphs are
written with a state over `Except`; these lemmas take such a computation apart step by step.
-/

namespace ScoreWasm

open List

variable {ε σ α β : Type} {l : List α} {l' : List β}

variable {x : Except ε α} {f : α → Except ε β} {b : β}

theorem Except.bind_eq_ok : (x >>= f) = .ok b ↔ ∃ a, x = .ok a ∧ f a = .ok b := by
  cases x with
  | error e | ok a => simp [bind, Except.bind]

theorem Except.map_eq_ok {f : α → β} : (f <$> x) = .ok b ↔ ∃ a, x = .ok a ∧ f a = b := by
  cases x with
  | error e | ok a => simp [Functor.map, Except.map]

theorem Except.exists_ok (h : x.isOk = true) : ∃ a, x = .ok a := by
  cases x with
  | error e => cases h
  | ok a => exact ⟨a, rfl⟩

/-- Each element of a list has been mapped. -/
theorem Except.mapM_eq_ok (h : l.mapM f = .ok l') :
    l'.length = l.length ∧ ∀ (i : Nat) (a : α), l[i]? = some a → ∃ b, l'[i]? = some b ∧ f a = .ok b := by
  induction l generalizing l' with
  | nil =>
    cases h
    exact ⟨rfl, fun i a h => by simp at h⟩
  | cons x xs ih =>
    rw [mapM_cons, Except.bind_eq_ok] at h
    obtain ⟨y, hy, h⟩ := h
    rw [Except.bind_eq_ok] at h
    obtain ⟨ys, hys, h⟩ := h
    cases h
    obtain ⟨hlen, hall⟩ := ih hys
    refine ⟨by simp [hlen], ?_⟩
    intro i a hi
    cases i with
    | zero =>
      cases hi
      exact ⟨y, rfl, hy⟩
    | succ i => exact hall i a (by simpa using hi)

theorem Except.exists_mapM_eq_ok (h : (∀ a ∈ l, ∃ b, f a = .ok b)) : ∃ l', l.mapM f = .ok l' := by
  induction l with
  | nil =>
    exact ⟨[], rfl⟩
  | cons x xs ih =>
    obtain ⟨y, hy⟩ := h x (.head _)
    obtain ⟨ys, hys⟩ := ih (fun a ha => h a (.tail _ ha))
    refine ⟨y :: ys, ?_⟩
    rw [mapM_cons, hy]
    rw [hys]
    rfl

theorem Except.forM_eq_ok {f : α → Except ε PUnit} : l.forM f = .ok () ↔ ∀ a ∈ l, f a = .ok () := by
  induction l with
  | nil => exact ⟨fun _ => nofun, fun _ => rfl⟩
  | cons a l ih =>
    show (f a >>= fun _ => l.forM f) = .ok () ↔ _
    rw [Except.bind_eq_ok, forall_mem_cons]
    constructor
    · rintro ⟨_, ha, hl⟩
      exact ⟨ha, ih.mp hl⟩
    · rintro ⟨ha, hl⟩
      exact ⟨_, ha, ih.mpr hl⟩

theorem Except.mapIdxM_go_eq_ok {f : Nat → α → Except ε β} {acc : Array β} (h : List.mapIdxM.go f l acc = .ok l') :
    ∃ rest, l' = acc.toList ++ rest ∧ ∀ (i : Nat) (a : α), l[i]? = some a → ∃ b, rest[i]? = some b ∧
      f (acc.size + i) a = .ok b := by
  induction l generalizing acc l' with
  | nil =>
    cases h
    exact ⟨[], by simp, fun i a h => by simp at h⟩
  | cons x xs ih =>
    unfold List.mapIdxM.go at h
    rw [Except.bind_eq_ok] at h
    obtain ⟨y, hy, h⟩ := h
    obtain ⟨rest, rfl, hall⟩ := ih h
    refine ⟨y :: rest, by simp, ?_⟩
    intro i a hi
    cases i with
    | zero =>
      cases hi
      exact ⟨y, rfl, hy⟩
    | succ i =>
      obtain ⟨b, hb, hf⟩ := hall i a (by simpa using hi)
      refine ⟨b, by simpa using hb, ?_⟩
      rw [Array.size_push] at hf
      rw [← hf]
      congr 1
      omega

/-- Each element of an array has been mapped, with its index. -/
theorem Except.mapIdxM_eq_ok {f : Nat → α → Except ε β} {xs : Array α} {ys : Array β} (h : xs.mapIdxM f = .ok ys)
    {i : Nat} {a : α} (hi : xs[i]? = some a) : ∃ b, ys[i]? = some b ∧ f i a = .ok b := by
  have hl : List.mapIdxM f xs.toList = .ok ys.toList := by
    rw [← Array.toList_mapIdxM, h]
    rfl
  obtain ⟨rest, hrest, hall⟩ := Except.mapIdxM_go_eq_ok hl
  obtain ⟨b, hb, hf⟩ := hall i a (by simpa using hi)
  refine ⟨b, ?_, by simpa using hf⟩
  have : ys.toList[i]? = some b := by
    rw [hrest]
    simpa using hb
  simpa using this

namespace StateT

variable {x : StateT σ (Except ε) α} {s s' : σ} {a : α} {u : PUnit}

theorem bind_eq_ok {f : α → StateT σ (Except ε) β} :
    (x >>= f) s = .ok (b, s') ↔ ∃ a t, x s = .ok (a, t) ∧ f a t = .ok (b, s') := by
  show (x s >>= fun p => f p.1 p.2) = .ok (b, s') ↔ _
  rw [Except.bind_eq_ok]
  constructor
  · rintro ⟨⟨a, t⟩, hx, hf⟩
    exact ⟨a, t, hx, hf⟩
  · rintro ⟨a, t, hx, hf⟩
    exact ⟨(a, t), hx, hf⟩

theorem pure_eq_ok {b : α} : (pure a : StateT σ (Except ε) α) s = .ok (b, s') ↔ a = b ∧ s = s' := by
  show (Except.ok (a, s) : Except ε (α × σ)) = .ok (b, s') ↔ _
  simp

theorem map_eq_ok {f : α → β} : (f <$> x) s = .ok (b, s') ↔ ∃ a, x s = .ok (a, s') ∧ f a = b := by
  show (x s >>= fun p => (pure (f p.1, p.2) : Except ε (β × σ))) = .ok (b, s') ↔ _
  rw [Except.bind_eq_ok]
  constructor
  · rintro ⟨⟨a, t⟩, hx, hf⟩
    cases hf
    exact ⟨a, hx, rfl⟩
  · rintro ⟨a, hx, rfl⟩
    exact ⟨(a, s'), hx, rfl⟩

theorem discard_eq_ok {u : Unit} : (discard x) s = .ok (u, s') ↔ ∃ a, x s = .ok (a, s') := by
  show ((fun _ => PUnit.unit) <$> x) s = .ok (u, s') ↔ _
  rw [map_eq_ok]
  constructor
  · rintro ⟨a, hx, -⟩
    exact ⟨a, hx⟩
  · rintro ⟨a, hx⟩
    exact ⟨a, hx, rfl⟩

theorem get_eq_ok {a : σ} : (get : StateT σ (Except ε) σ) s = .ok (a, s') ↔ a = s ∧ s' = s := by
  show (Except.ok (s, s) : Except ε (σ × σ)) = .ok (a, s') ↔ _
  simp [eq_comm]

theorem set_eq_ok {t : σ} : (set t : StateT σ (Except ε) PUnit) s = .ok (u, s') ↔ s' = t := by
  show (Except.ok (PUnit.unit, t) : Except ε (PUnit × σ)) = .ok (u, s') ↔ _
  simp [eq_comm]

theorem modify_eq_ok {f : σ → σ} : (modify f : StateT σ (Except ε) PUnit) s = .ok (u, s') ↔ s' = f s := by
  show (Except.ok (PUnit.unit, f s) : Except ε (PUnit × σ)) = .ok (u, s') ↔ _
  simp [eq_comm]

theorem ite_eq_ok {c : Prop} [Decidable c] {y : StateT σ (Except ε) α} :
    (if c then x else y) s = .ok (a, s') ↔ c ∧ x s = .ok (a, s') ∨ ¬c ∧ y s = .ok (a, s') := by
  by_cases h : c <;> simp [h]

theorem throw_eq_ok {e : ε} : (throw e : StateT σ (Except ε) α) s = .ok (a, s') ↔ False := by
  constructor
  · intro h
    cases h
  · exact False.elim

end StateT

end ScoreWasm
