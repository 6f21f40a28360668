import ScoreWasm.Proofs.Binary.Integers
import ScoreWasm.Proofs.Text.Bytes

/-!
# Formats

A format is a reader and a writer that fit together: what can be written is read back, and what was read
can be written in no more bytes than it was read from.  Formats of the parts of a module are put together
from those of integers, names and types, and a list of things has a format as soon as a single one has.
-/

namespace ScoreWasm.Wasm.Binary

open List Text

variable {α β : Type} {cs : List UInt8} {R : β → Nat → Prop} {l' : List α}

variable {f : List UInt8 → Reader β} {bs : List UInt8} {w : α → Written} {l : List α} {t : ValType} {b : UInt8}

/-- A reader and a writer of things that are fit to be written; the last relation says as what a thing comes
back. -/
structure Format (r : Reader α) (w : α → Written) (Fit : α → Prop) (Back : α → α → Prop) : Prop where
  back : ∀ a, Fit a → ∃ bs, w a = .ok bs ∧ Takes r bs (Back a)
  shrinks : Gives r (fun a n => Fit a ∧ ∃ bs, w a = .ok bs ∧ bs.length ≤ n)

/-- What is read is what was written. -/
def Same (a a' : α) : Prop := a' = a

/-! ### Putting formats together -/

theorem Takes.tag {f : Nat → UInt8 → Reader β} {R : β → Prop} (hf : ∀ offset, Takes (f offset b) bs R) :
    Takes (do f (← Binary.position) (← Binary.byte)) (b :: bs) R :=
  Takes.position.skip (fun offset _ => .byte_bind (hf offset))

theorem Gives.tag {f : Nat → UInt8 → Reader β} (hf : ∀ offset b, Gives (f offset b) (fun x n => R x (n + 1))) :
    Gives (do f (← Binary.position) (← Binary.byte)) R := by
  refine Gives.position.bind (fun offset n hn => Gives.byte.bind (fun b m hm => (hf offset b).mono ?_))
  subst hn hm
  intro x k hx
  rwa [Nat.zero_add, Nat.add_comm]

namespace Format

variable {γ : Type} {r : Reader α} {r' : Reader β} {w' : β → Written} {Fit : α → Prop} {Fit' : β → Prop}
  {Back : α → α → Prop} {Back' : β → β → Prop} {a : α} {a' : β} {Q : γ → Nat → Prop}

theorem takes_one (hf : Format r w Fit Same) (ha : Fit a) (f : α → γ) :
    ∃ bs, w a = .ok bs ∧ Takes (do return f (← r)) bs (· = f a) := by
  obtain ⟨bs, hbs, htake⟩ := hf.back a ha
  exact ⟨bs, hbs, htake.last (fun x hx => .pure (by rw [hx]))⟩

theorem gives_one {f : α → γ} (hf : Format r w Fit Back)
    (h : ∀ a bs n, Fit a → w a = .ok bs → bs.length ≤ n → Q (f a) n) : Gives (do return f (← r)) Q := by
  refine hf.shrinks.bind (fun a n ha => .pure ?_)
  obtain ⟨ha, bs, hbs, hle⟩ := ha
  exact h a bs n ha hbs hle

theorem takes_two (hf : Format r w Fit Same) (hf' : Format r' w' Fit' Same) (ha : Fit a)
    (ha' : Fit' a') (f : α → β → γ) :
    ∃ bs cs, w a = .ok bs ∧ w' a' = .ok cs ∧ Takes (do return f (← r) (← r')) (bs ++ cs) (· = f a a') := by
  obtain ⟨bs, hbs, htake⟩ := hf.back a ha
  obtain ⟨cs, hcs, htake'⟩ := hf'.back a' ha'
  exact ⟨bs, cs, hbs, hcs, htake.bind (fun x hx => htake'.last (fun y hy => .pure (by rw [hx, hy])))⟩

theorem gives_two {f : α → β → γ} (hf : Format r w Fit Back) (hf' : Format r' w' Fit' Back')
    (h : ∀ a a' bs cs n, Fit a → Fit' a' → w a = .ok bs → w' a' = .ok cs → (bs ++ cs).length ≤ n → Q (f a a') n) :
    Gives (do return f (← r) (← r')) Q := by
  refine hf.shrinks.bind (fun a n ha => hf'.gives_one (fun a' cs m ha' hcs hle' => ?_))
  obtain ⟨ha, bs, hbs, hle⟩ := ha
  refine h a a' bs cs (n + m) ha ha' hbs hcs ?_
  rw [length_append]
  omega

end Format

/-! ### Numbers and names -/

/-- A number of 32 bits. -/
def Fits32 (i : Int) : Prop := 0 ≤ i ∧ i < 2 ^ 32

theorem index_natCast (n : Nat) : index n = .ok (unsigned n) := rfl

theorem format_u32 : Format u32 (fun n => .ok (unsigned n)) (· < 2 ^ 32) Same := by
  refine ⟨fun n hn => ⟨_, rfl, Takes.u32 hn⟩, Gives.u32.mono ?_⟩
  rintro v n ⟨hv, -, hlen⟩
  exact ⟨hv, _, rfl, hlen⟩

theorem format_index : Format readIndex index Fits32 Same := by
  constructor
  · rintro i ⟨h0, hlt⟩
    obtain ⟨n, rfl⟩ := Int.eq_ofNat_of_zero_le h0
    refine ⟨unsigned n, rfl, ?_⟩
    exact (Takes.u32 (by omega)).last (fun v hv => Takes.pure (by rw [hv]; rfl))
  · refine Gives.u32.bind (fun v n hv => Gives.pure ?_)
    obtain ⟨hv, -, hlen⟩ := hv
    exact ⟨⟨by omega, by omega⟩, _, index_natCast v, hlen⟩

/-- A name that can be written: code points that have bytes, and not too many. -/
def NameFits (s : String) : Prop :=
  ∃ l, (∀ n ∈ l, Text.IsScalar n) ∧ s = ofCodes l ∧ (l.flatMap codeBytes).length < 2 ^ 32

theorem name_ofCodes {l : List Nat} (h : ∀ n ∈ l, Text.IsScalar n) :
    name (ofCodes l) = .ok (counted (l.flatMap codeBytes)) := by
  unfold name
  rw [utf8_ofCodes h]
  rfl

theorem Takes.counted {R : β → Prop} (h : bs.length < 2 ^ 32) (hf : Takes (f bs) cs R) :
    Takes (Binary.u32 >>= fun n => Binary.bytes n >>= f) (counted bs ++ cs) R := by
  rw [Binary.counted, append_assoc]
  refine (Takes.u32 h).bind (fun n hn => ?_)
  subst hn
  refine (Takes.bytes bs).bind (fun taken htaken => ?_)
  subst htaken
  exact hf

theorem Gives.counted
    (hf : ∀ bs n, bs.length < 2 ^ 32 → (Binary.counted bs).length ≤ n → Gives (f bs) (fun b m => R b (n + m))) :
    Gives (Binary.u32 >>= fun n => Binary.bytes n >>= f) R := by
  refine Gives.u32.bind (fun v n hv => (Gives.bytes v).bind (fun bs m hbs => ?_))
  obtain ⟨hv, -, hle⟩ := hv
  obtain ⟨hlen, rfl⟩ := hbs
  refine (hf bs (n + m) (hlen ▸ hv) ?_).mono (fun b k hb => by rwa [Nat.add_assoc] at hb)
  simp only [Binary.counted, length_append, hlen]
  omega

theorem format_name : Format nameText name NameFits Same := by
  constructor
  · rintro s ⟨l, hl, rfl, hlen⟩
    refine ⟨_, name_ofCodes hl, ?_⟩
    rw [← append_nil (counted _)]
    refine Takes.counted hlen ?_
    rw [decodeUtf8_codeBytes hl]
    exact .pure rfl
  · unfold nameText
    refine Gives.counted (fun bs n hlen hle => ?_)
    split
    next s heq =>
      obtain ⟨l, hl, rfl, rfl⟩ := exists_codes_of_decodeUtf8 heq
      exact Gives.pure ⟨⟨l, hl, rfl, hlen⟩, _, name_ofCodes hl, hle⟩
    next => exact Gives.position.bind (fun _ _ _ => Gives.failAt)

/-! ### Lists -/

theorem concat_cons (w : α → Written) (a : α) (l : List α) : concat w (a :: l) = (do
    let bs ← w a
    let cs ← concat w l
    return bs ++ cs) := by
  unfold concat
  rw [mapM_cons]
  cases w a with
  | error e => rfl
  | ok bs => cases List.mapM w l <;> rfl

theorem concat_cons_ok {a : α} (ha : w a = .ok bs) (hl : concat w l = .ok cs) : concat w (a :: l) = .ok (bs ++ cs) := by
  rw [concat_cons, ha]
  rw [hl]
  rfl

theorem concat_cons_eq_ok {a : α} (h : concat w (a :: l) = .ok bs) :
    ∃ as cs, w a = .ok as ∧ concat w l = .ok cs ∧ bs = as ++ cs := by
  rw [concat_cons, Except.bind_eq_ok] at h
  obtain ⟨as, has, h⟩ := h
  rw [Except.bind_eq_ok] at h
  obtain ⟨cs, hcs, h⟩ := h
  cases h
  exact ⟨as, cs, has, hcs, rfl⟩

theorem concat_append_ok {as : List UInt8} (hl : concat w l = .ok as) (hl' : concat w l' = .ok bs) :
    concat w (l ++ l') = .ok (as ++ bs) := by
  induction l generalizing as with
  | nil =>
    cases hl
    exact hl'
  | cons a l ih =>
    obtain ⟨xs, ys, hxs, hys, rfl⟩ := concat_cons_eq_ok hl
    rw [cons_append, concat_cons_ok hxs (ih hys), append_assoc]

theorem vectorM_ok (h : concat w l = .ok bs) : vectorM w l = .ok (unsigned l.length ++ bs) := by
  unfold vectorM
  rw [h]
  rfl

namespace Format

variable {r : Reader α} {Fit : α → Prop} {Back : α → α → Prop}

theorem takes_items (hf : Format r w Fit Back) {l : List α} (h : ∀ a ∈ l, Fit a) : ∃ bs, concat w l = .ok bs ∧
    ∀ acc, Takes (items r l.length acc) bs (fun l' => ∃ new, List.Forall₂ Back l new ∧ l' = acc.reverse ++ new) := by
  induction l with
  | nil => exact ⟨[], rfl, fun acc => .pure ⟨[], .nil, by simp⟩⟩
  | cons a l ih =>
    obtain ⟨bs, hbs, htake⟩ := hf.back a (h a mem_cons_self)
    obtain ⟨cs, hcs, hitems⟩ := ih (fun b hb => h b (mem_cons_of_mem a hb))
    refine ⟨bs ++ cs, concat_cons_ok hbs hcs, fun acc => ?_⟩
    refine htake.bind (fun a' ha' => (hitems (a' :: acc)).mono ?_)
    rintro l' ⟨new, hnew, rfl⟩
    exact ⟨a' :: new, .cons ha' hnew, by simp⟩

theorem gives_items (hf : Format r w Fit Back) (k : Nat) (acc : List α) : Gives (items r k acc) (fun l n =>
    ∃ new, l = acc.reverse ++ new ∧ new.length = k ∧ (∀ a ∈ new, Fit a) ∧
      ∃ bs, concat w new = .ok bs ∧ bs.length ≤ n) := by
  induction k generalizing acc with
  | zero => exact .pure ⟨[], by simp, rfl, by simp, [], rfl, Nat.le_refl 0⟩
  | succ k ih =>
    refine hf.shrinks.bind (fun a n ha => (ih (a :: acc)).mono ?_)
    obtain ⟨hfit, bs, hbs, hle⟩ := ha
    rintro l m ⟨new, rfl, rfl, hnew, cs, hcs, hle'⟩
    refine ⟨a :: new, by simp, rfl, forall_mem_cons.mpr ⟨hfit, hnew⟩, _, concat_cons_ok hbs hcs, ?_⟩
    rw [length_append]
    omega

/-- **A list of things has a format as soon as a single one has.** -/
theorem vec (hf : Format r w Fit Back) :
    Format (Binary.vec r) (vectorM w) (fun l => l.length < 2 ^ 32 ∧ ∀ a ∈ l, Fit a) (List.Forall₂ Back) := by
  constructor
  · rintro l ⟨hlen, hl⟩
    obtain ⟨bs, hbs, htake⟩ := hf.takes_items hl
    refine ⟨_, vectorM_ok hbs, (Takes.u32 hlen).bind (fun n hn => ?_)⟩
    subst hn
    refine (htake []).mono ?_
    rintro l' ⟨new, hnew, rfl⟩
    exact hnew
  · refine Gives.u32.bind (fun v n hv => (hf.gives_items v []).mono ?_)
    obtain ⟨hv, -, hle⟩ := hv
    rintro l m ⟨new, rfl, rfl, hnew, bs, hbs, hle'⟩
    refine ⟨⟨hv, hnew⟩, _, vectorM_ok hbs, ?_⟩
    rw [length_append]
    omega

end Format

theorem forall₂_same (h : List.Forall₂ Same l l') : l' = l := by
  induction h with
  | nil => rfl
  | cons h _ ih => rw [h, ih]

/-- Things that come back as themselves do so in lists. -/
theorem Format.vecSame {r : Reader α} {Fit : α → Prop} (hf : Format r w Fit Same) :
    Format (Binary.vec r) (vectorM w) (fun l => l.length < 2 ^ 32 ∧ ∀ a ∈ l, Fit a) Same := by
  refine ⟨fun l hl => ?_, hf.vec.shrinks⟩
  obtain ⟨bs, hbs, htake⟩ := hf.vec.back l hl
  exact ⟨bs, hbs, htake.mono (fun l' => forall₂_same)⟩

/-! ### Types -/

theorem ofCode?_code? : t.code? = some b ↔ ValType.ofCode? b = some t := by
  constructor
  · intro h
    cases t <;> cases h <;> rfl
  · intro h
    simpa using find?_some h

theorem valType_ok (h : t.code? = some b) : valType t = .ok [b] := by
  unfold valType
  rw [h]

theorem exists_code_of_isNumeric (h : t.isNumeric = true) : ∃ b, t.code? = some b := by
  cases t with
  | other s =>
    exfalso
    simp [ValType.isNumeric, ValType.all] at h
  | _ => exact ⟨_, rfl⟩

theorem isNumeric_of_code (h : t.code? = some b) : t.isNumeric = true := by
  cases t with
  | other s => cases h
  | _ => rfl

theorem format_valType : Format readValType valType (fun t => t.isNumeric = true) Same := by
  constructor
  · intro t ht
    obtain ⟨b, hb⟩ := exists_code_of_isNumeric ht
    refine ⟨[b], valType_ok hb, .tag (fun offset => ?_)⟩
    rw [ofCode?_code?.mp hb]
    exact .pure rfl
  · refine .tag (fun offset b => ?_)
    split
    next t heq =>
      have hb := ofCode?_code?.mpr heq
      exact .pure ⟨isNumeric_of_code hb, [b], valType_ok hb, Nat.le_refl 1⟩
    next =>
      exact .ite (fun _ => .refuse) (fun _ => .ite (fun _ => .refuse) (fun _ => .failAt))

/-- Value types that can be written. -/
def TypesFit (ts : List ValType) : Prop := ts.length < 2 ^ 32 ∧ ∀ t ∈ ts, t.isNumeric = true

/-- A function type that can be written. -/
def FuncTypeFits (t : FuncType) : Prop := TypesFit t.params ∧ TypesFit t.results

theorem funcType_ok {t : FuncType} (hp : vectorM valType t.params = .ok bs)
    (hr : vectorM valType t.results = .ok cs) : funcType t = .ok (0x60 :: (bs ++ cs)) := by
  unfold funcType
  rw [hp, hr]
  rfl

theorem format_funcType : Format readFuncType funcType FuncTypeFits Same := by
  have hts := format_valType.vecSame
  constructor
  · rintro ⟨params, results⟩ ⟨hp, hr⟩
    obtain ⟨bs, cs, hbs, hcs, htake⟩ := hts.takes_two hts hp hr FuncType.mk
    exact ⟨_, funcType_ok hbs hcs, .tag (fun _ => htake)⟩
  · refine .tag (fun offset form => .ite (fun _ => .failAt_bind) (fun _ => ?_))
    refine hts.gives_two hts (fun params results bs cs n hp hr hbs hcs hle => ?_)
    exact ⟨⟨hp, hr⟩, _, funcType_ok hbs hcs, Nat.succ_le_succ hle⟩

/-- Limits that can be written. -/
def LimitsFit (l : Limits) : Prop := Fits32 l.min ∧ ∀ max, l.max = some max → Fits32 max

theorem format_limits : Format readLimits limits LimitsFit Same := by
  constructor
  · rintro ⟨min, max⟩ ⟨hmin, hmax⟩
    cases max with
    | none =>
      obtain ⟨bs, hbs, htake⟩ := format_index.takes_one hmin (fun min => Limits.mk min none)
      exact ⟨0x00 :: bs, by simp only [limits, hbs]; rfl, .tag (fun _ => htake)⟩
    | some max =>
      obtain ⟨bs, cs, hbs, hcs, htake⟩ :=
        format_index.takes_two format_index hmin (hmax max rfl) (fun min max => Limits.mk min (some max))
      exact ⟨0x01 :: (bs ++ cs), by simp only [limits, hbs, hcs]; rfl, .tag (fun _ => htake)⟩
  · refine .tag (fun offset flags => .ite (fun _ => .refuse) (fun _ => .ite (fun _ => .refuse) (fun _ => ?_)))
    refine .ite (fun _ => ?_) (fun _ => .ite (fun _ => ?_) (fun _ => .failAt))
    · refine format_index.gives_one (fun min bs n hmin hbs hle => ?_)
      exact ⟨⟨hmin, by simp⟩, 0x00 :: bs, by simp only [limits, hbs]; rfl, Nat.succ_le_succ hle⟩
    · refine format_index.gives_two format_index (fun min max bs cs n hmin hmax hbs hcs hle => ?_)
      refine ⟨⟨hmin, by rintro _ ⟨⟩; exact hmax⟩, 0x01 :: (bs ++ cs), ?_, Nat.succ_le_succ hle⟩
      simp only [limits, hbs, hcs]
      rfl

theorem table_ok {l : Limits} (h : limits l = .ok bs) : table l = .ok (0x70 :: bs) := by
  unfold table
  rw [h]
  rfl

theorem format_table : Format readTable table LimitsFit Same := by
  constructor
  · intro l hl
    obtain ⟨bs, hbs, htake⟩ := format_limits.back l hl
    exact ⟨_, table_ok hbs, .tag (fun _ => htake)⟩
  · refine .tag (fun offset code => .ite (fun _ => .refuse) (fun _ => .ite (fun _ => .failAt) (fun _ => ?_)))
    refine format_limits.shrinks.mono ?_
    rintro l n ⟨hl, bs, hbs, hle⟩
    exact ⟨hl, _, table_ok hbs, Nat.succ_le_succ hle⟩

/-- A type of globals that can be written. -/
def GlobalTypeFits (g : GlobalType) : Prop := g.type.isNumeric = true

theorem globalType_ok {g : GlobalType} (h : valType g.type = .ok bs) :
    globalType g = .ok (bs ++ [if g.isMutable then 1 else 0]) := by
  unfold globalType
  rw [h]
  rfl

theorem format_globalType : Format readGlobalType globalType GlobalTypeFits Same := by
  constructor
  · rintro ⟨t, isMutable⟩ ht
    obtain ⟨bs, hbs, htake⟩ := format_valType.back t ht
    refine ⟨_, globalType_ok hbs, htake.bind (fun t' ht' => .tag (fun offset => ?_))⟩
    subst ht'
    cases isMutable <;> exact .pure rfl
  · refine format_valType.shrinks.bind (fun t n ht => .tag (fun offset m => ?_))
    obtain ⟨ht, bs, hbs, hle⟩ := ht
    refine .ite (fun _ => .pure ⟨ht, _, globalType_ok hbs, ?_⟩) (fun _ => .failAt)
    rw [length_append]
    exact Nat.succ_le_succ hle

end ScoreWasm.Wasm.Binary
