import ScoreWasm.Proofs.Binary.Parts
import ScoreWasm.Wasm.Build

/-!
# Sections

A module is a sequence of sections.  Those that are written come in the order that reading asks for, with
the custom ones last; reading them one after another fills a draft, field by field.  In the other direction
everything that a draft holds after reading can be written, in no more bytes than have been read.
-/

namespace ScoreWasm.Wasm.Binary

open List

variable {α : Type} {bs cs payload : List UInt8} {part : String} {next last : Nat} {c : Custom}

/-! ### Names of functions -/

/-- What a reader gives, without the places. -/
def outcome {α : Type} (x : Except CompileError (α × Cursor)) : Option (α × List UInt8) :=
  match x with
  | .ok (a, c) => some (a, c.rest)
  | .error _ => none

/-- Two readers give the same for the same bytes, wherever these stand. -/
def Alike {α : Type} (r r' : Reader α) : Prop := ∀ c c' : Cursor, c.rest = c'.rest → outcome (r c) = outcome (r' c')

namespace Alike

variable {β : Type}

theorem pure (a : α) : Alike (Pure.pure a) (Pure.pure a) := by
  intro c c' h
  show some (a, c.rest) = some (a, c'.rest)
  rw [h]

theorem failAt {reason : Invalid} {n n' : Nat} : Alike (Binary.failAt reason n : Reader α) (Binary.failAt reason n') :=
  fun _ _ _ => rfl

/-- Either both fail, or both give the same with the same bytes left. -/
theorem cases_ok {r r' : Reader α} (hr : Alike r r') {c c' : Cursor} (h : c.rest = c'.rest) :
    (∃ e e', r c = .error e ∧ r' c' = .error e') ∨
      ∃ a t t', r c = .ok (a, t) ∧ r' c' = .ok (a, t') ∧ t.rest = t'.rest := by
  have hcc := hr c c' h
  cases hx : r c with
  | error e =>
    cases hy : r' c' with
    | error e' => exact .inl ⟨e, e', rfl, rfl⟩
    | ok q =>
      rw [hx, hy] at hcc
      cases hcc
  | ok p =>
    cases hy : r' c' with
    | error e' =>
      rw [hx, hy] at hcc
      cases hcc
    | ok q =>
      rw [hx, hy] at hcc
      obtain ⟨a, t⟩ := p
      obtain ⟨b, t'⟩ := q
      simp only [outcome, Option.some.injEq, Prod.mk.injEq] at hcc
      obtain ⟨rfl, ht⟩ := hcc
      exact .inr ⟨a, t, t', rfl, rfl, ht⟩

theorem bind {r r' : Reader α} {f f' : α → Reader β} (hr : Alike r r')
    (hf : ∀ a, Alike (f a) (f' a)) : Alike (r >>= f) (r' >>= f') := by
  intro c c' h
  show outcome (r c >>= fun p => f p.1 p.2) = outcome (r' c' >>= fun p => f' p.1 p.2)
  rcases hr.cases_ok h with ⟨e, e', hx, hy⟩ | ⟨a, t, t', hx, hy, ht⟩
  · rw [hx, hy]
    rfl
  · rw [hx, hy]
    exact hf a t t' ht

theorem position_bind {f f' : Nat → Reader β} (hf : ∀ n n', Alike (f n) (f' n')) :
    Alike (Binary.position >>= f) (Binary.position >>= f') :=
  fun c c' h => hf c.pos c'.pos c c' h

theorem ite {p : Prop} [Decidable p] {x x' y y' : Reader α} (hx : Alike x x') (hy : Alike y y') :
    Alike (if p then x else y) (if p then x' else y') := by
  split
  · exact hx
  · exact hy

theorem byte : Alike Binary.byte Binary.byte := by
  rintro ⟨p, n, rest⟩ ⟨p', n', rest'⟩ h
  obtain rfl : rest = rest' := h
  cases rest <;> rfl

theorem bytes (n : Nat) : Alike (Binary.bytes n) (Binary.bytes n) := by
  rintro ⟨p, k, rest⟩ ⟨p', k', rest'⟩ h
  obtain rfl : rest = rest' := h
  simp only [Binary.bytes]
  cases takeExact n [] rest <;> rfl

theorem lebDigits (start start' fuel acc shift : Nat) :
    Alike (Binary.lebDigits start fuel acc shift) (Binary.lebDigits start' fuel acc shift) := by
  induction fuel generalizing acc shift with
  | zero => exact failAt
  | succ fuel ih => exact byte.bind (fun b => ite (pure _) (ih _ _))

theorem leb (signed : Bool) (bits : Nat) : Alike (Binary.leb signed bits) (Binary.leb signed bits) :=
  position_bind (fun n n' => (lebDigits n n' _ 0 0).bind (fun _ => ite (ite (pure _) failAt) (ite (pure _) failAt)))

theorem u32 : Alike Binary.u32 Binary.u32 := (leb false 32).bind (fun _ => pure _)

theorem nameText : Alike Binary.nameText Binary.nameText := by
  refine u32.bind (fun n => (bytes n).bind (fun bs => ?_))
  split
  · exact pure _
  · exact position_bind (fun _ _ => failAt)

end Alike

theorem nameEntries_alike (n : Nat) (names : NameMap) {c c' : Cursor} (h : c.rest = c'.rest) :
    nameEntries n names c = nameEntries n names c' := by
  induction n generalizing names c c' with
  | zero => rfl
  | succ n ih =>
    have hstep : Alike (do let i ← u32; return (i, ← nameText)) (do let i ← u32; return (i, ← nameText)) :=
      Alike.u32.bind (fun i => Alike.nameText.bind (fun s => Alike.pure (i, s)))
    unfold nameEntries
    rcases hstep.cases_ok h with ⟨e, e', hx, hy⟩ | ⟨⟨i, s⟩, t, t', hx, hy, ht⟩
    · simp only [hx, hy]
    · simp only [hx, hy]
      exact ih _ ht

theorem nameSubsections_alike (fuel : Nat) (names : NameMap) {c c' : Cursor}
    (h : c.rest = c'.rest) : nameSubsections fuel names c = nameSubsections fuel names c' := by
  induction fuel generalizing names c c' with
  | zero => rfl
  | succ fuel ih =>
    have hhead : Alike (do let id ← byte; return (id, ← u32)) (do let id ← byte; return (id, ← u32)) :=
      Alike.byte.bind (fun b => Alike.u32.bind (fun n => Alike.pure (b, n)))
    unfold nameSubsections
    rw [h]
    split
    · rfl
    rcases hhead.cases_ok h with ⟨e, e', hx, hy⟩ | ⟨⟨id, size⟩, t, t', hx, hy, ht⟩
    · simp only [hx, hy]
    · simp only [hx, hy, ht]
      split
      · rfl
      next inside rest _ =>
        split
        · have hcount := Alike.u32.cases_ok
            (show ({ t with rest := inside } : Cursor).rest = ({ t' with rest := inside } : Cursor).rest from rfl)
          rcases hcount with ⟨e, e', hu, hv⟩ | ⟨count, s, s', hu, hv, hs⟩
          · simp only [hu, hv]
          · simp only [hu, hv, nameEntries_alike count names hs]
            split
            · exact ih _ rfl
            · rfl
        · exact ih _ rfl

/-- The names that a section of names contains, on top of others. -/
def addNames (names : NameMap) (payload : List UInt8) : NameMap :=
  nameSubsections (payload.length + 1) names ⟨"custom:name", 0, payload⟩

/-- The names once a custom section is read. -/
def namesAfter (names : NameMap) (c : Custom) : NameMap :=
  if c.name == "name" then addNames names c.payload else names

/-- The names of functions that custom sections contain. -/
def namesOf (customs : List Custom) : NameMap := customs.foldl namesAfter []

theorem namesOf_append (customs : List Custom) (c : Custom) :
    namesOf (customs ++ [c]) = namesAfter (namesOf customs) c := by
  unfold namesOf
  rw [foldl_append]
  rfl

/-! ### Reading sections that were written -/

/-- A reader takes given bytes to their end and gives something with a property. -/
def TakesAll {α : Type} (r : Reader α) (bs : List UInt8) (P : α → Prop) : Prop :=
  ∀ part pos, ∃ a c, r ⟨part, pos, bs⟩ = .ok (a, c) ∧ c.rest = [] ∧ P a

theorem Takes.all {r : Reader α} {P : α → Prop} (h : Takes r bs P) : TakesAll r bs P := by
  intro part pos
  obtain ⟨a, ha, hP⟩ := h part pos []
  rw [append_nil] at ha
  exact ⟨a, _, ha, rfl, hP⟩

/-- Reading a complete section: its number, its size in any form, and as many bytes. -/
theorem readSections_section {id : UInt8} {size rest : List UInt8} {fuel next pos : Nat} {d : Draft} {part' : String}
    (hname : sectionName? id = some part) (hds : Chained size) (hlen : size.length ≤ 5)
    (hsize : digits size = payload.length) (hn : payload.length < 2 ^ 32) :
    readSections (fuel + 1) next d ⟨part', pos, id :: (size ++ (payload ++ rest))⟩ =
      if id != 0 && sectionRank id < next then .error (.invalid .sectionOrder (some part) (some pos))
      else match readSection id d ⟨part, pos + 1 + size.length, payload⟩ with
        | .error e => .error e
        | .ok (d, s) =>
          if s.rest.isEmpty then
            readSections fuel (if id == 0 then next else sectionRank id + 1) d ⟨part, s.pos, rest⟩
          else .error (.invalid .sectionSize (some part) (some s.pos)) := by
  obtain ⟨_, hu, rfl⟩ := Takes.u32_of_chained hds hlen (hsize ▸ hn) part (pos + 1) (payload ++ rest)
  rw [readSections]
  simp only [hname, hu, hsize, takeExact_append]
  rfl

/-- Reading the sections in some bytes leads from a draft to one with a property, and from a place in the order
of sections to another one. -/
def Reaches (next : Nat) (d : Draft) (bs : List UInt8) (next' : Nat) (P : Draft → Prop) : Prop :=
  ∀ fuel n part pos rest, n ≤ next → (bs ++ rest).length < fuel →
    ∃ fuel' n' d' part' pos', n' ≤ next' ∧ rest.length < fuel' ∧ P d' ∧
      readSections fuel n d ⟨part, pos, bs ++ rest⟩ = readSections fuel' n' d' ⟨part', pos', rest⟩

namespace Reaches

variable {d : Draft} {next' : Nat} {P : Draft → Prop}

theorem refl (hle : next ≤ next') (h : P d) : Reaches next d [] next' P :=
  fun fuel n part pos _ hn hfuel => ⟨fuel, n, d, part, pos, Nat.le_trans hn hle, hfuel, h, rfl⟩

theorem trans {Q : Draft → Prop} (h : Reaches next d bs next' P)
    (k : ∀ d', P d' → Reaches next' d' cs last Q) : Reaches next d (bs ++ cs) last Q := by
  intro fuel n part pos rest hn hfuel
  rw [append_assoc] at hfuel ⊢
  obtain ⟨f, m, d', p, q, hm, hf, hP, heq⟩ := h fuel n part pos (cs ++ rest) hn hfuel
  obtain ⟨f', m', d'', p', q', hm', hf', hQ, heq'⟩ := k d' hP f m p q rest hm hf
  exact ⟨f', m', d'', p', q', hm', hf', hQ, heq.trans heq'⟩

theorem section_ {id : UInt8} (hname : sectionName? id = some part)
    (hlen : payload.length < 2 ^ 32) (hnext : id ≠ 0 → next ≤ sectionRank id)
    (hnext' : (if id = 0 then next else sectionRank id + 1) ≤ next')
    (h : TakesAll (readSection id d) payload P) : Reaches next d (sectionBytes id payload) next' P := by
  intro fuel n p pos rest hn hfuel
  obtain ⟨fuel, rfl⟩ : ∃ k, fuel = k + 1 := ⟨fuel - 1, by omega⟩
  obtain ⟨d', c, hread, hrest, hP⟩ := h part (pos + 1 + (unsigned payload.length).length)
  have horder : (id != 0 && decide (sectionRank id < n)) = false := by
    by_cases hid : id = 0
    · simp [hid]
    · have := hnext hid
      simp only [Bool.and_eq_false_iff, decide_eq_false_iff_not]
      omega
  refine ⟨fuel, if id == 0 then n else sectionRank id + 1, d', part, c.pos, ?_, ?_, hP, ?_⟩
  · by_cases hid : id = 0
    · simp only [hid, if_true, beq_self_eq_true] at hnext' ⊢
      omega
    · simpa [hid] using hnext'
  · simp only [sectionBytes, counted, cons_append, length_cons, length_append] at hfuel
    omega
  · simp only [sectionBytes, counted, cons_append, append_assoc]
    rw [readSections_section hname (chained_unsigned _) (length_unsigned_of_lt hlen) (digits_unsigned _) hlen]
    simp only [horder, hread, hrest]
    rfl

end Reaches

/-- A section of items leads on, whether it is left out or not. -/
theorem reaches_items {r : Reader α} {w : α → Written} {Fit : α → Prop} {Back : α → α → Prop}
    (hf : Format r w Fit Back) (id : UInt8) {l : List α} (hid : id ≠ 0 ∧ (sectionName? id).isSome)
    (hrank : sectionRank id = next) (hl : l.length < 2 ^ 32 ∧ ∀ a ∈ l, Fit a)
    (hsize : ∀ bs, vectorM w l = .ok bs → bs.length < 2 ^ 32) :
    ∃ bs, sectionOf id w l = .ok bs ∧ ∀ {d : Draft} {fill : List α → Draft},
      readSection id d = (do return fill (← vec r)) → fill [] = d →
      Reaches next d bs (next + 1) (fun d' => ∃ l', List.Forall₂ Back l l' ∧ d' = fill l') := by
  obtain ⟨bs, hbs, htake⟩ := hf.vec.back l hl
  obtain ⟨hid, hname⟩ := hid
  obtain ⟨part, hname⟩ := Option.isSome_iff_exists.mp hname
  unfold sectionOf
  cases l with
  | nil => exact ⟨[], rfl, fun _ hd => Reaches.refl (Nat.le_succ next) ⟨[], .nil, hd.symm⟩⟩
  | cons a l =>
    refine ⟨sectionBytes id bs, by rw [if_neg (by simp), hbs]; rfl, fun hread _ => ?_⟩
    refine Reaches.section_ hname (hsize bs hbs) (fun _ => hrank.ge) (by rw [if_neg hid, hrank]) (Takes.all ?_)
    rw [hread]
    exact htake.last (fun l' hl' => Takes.pure ⟨l', hl', rfl⟩)

/-- A section of one number leads on, whether it is left out or not. -/
theorem reaches_index {r : Reader α} {g : Nat → α} (hr : ∀ n, n < 2 ^ 32 → Takes r (unsigned n) (· = g n)) (id : UInt8)
    {i : Option Nat} (hid : id ≠ 0 ∧ (sectionName? id).isSome) (hrank : sectionRank id = next) (hi : ∀ n, i = some n → n < 2 ^ 32) :
    ∃ bs, sectionIndex id (i.map Int.ofNat) = .ok bs ∧ ∀ (fill : Option α → Draft → Draft) {d : Draft},
      readSection id d = (do return fill (some (← r)) d) → fill none d = d → Reaches next d bs (next + 1) (· = fill (i.map g) d) := by
  obtain ⟨hid, hname⟩ := hid
  obtain ⟨part, hname⟩ := Option.isSome_iff_exists.mp hname
  cases i with
  | none => exact ⟨[], rfl, fun _ _ _ hd => Reaches.refl (Nat.le_succ next) hd.symm⟩
  | some n =>
    have hn := hi n rfl
    have hlen := length_unsigned_le (n := n) (k := 5) (by omega) (by omega)
    refine ⟨sectionBytes id (unsigned n), rfl, fun fill d hread _ => ?_⟩
    refine Reaches.section_ hname (by omega) (fun _ => hrank.ge) (by rw [if_neg hid, hrank]) (Takes.all ?_)
    rw [hread]
    exact (hr n hn).last (fun a ha => Takes.pure (by rw [ha]; rfl))

/-! ### Custom sections -/

/-- The bytes of a custom section. -/
def customBytes (c : Custom) : Written := do return sectionBytes 0 ((← name c.name) ++ c.payload)

/-- A custom section that can be written. -/
def CustomFits (c : Custom) : Prop :=
  NameFits c.name ∧ ∀ bs, name c.name = .ok bs → (bs ++ c.payload).length < 2 ^ 32

/-- The draft once a custom section is read. -/
def addCustom (d : Draft) (c : Custom) : Draft :=
  { d with module := { d.module with customs := d.module.customs ++ [c], names := namesAfter d.module.names c } }

theorem customBytes_ok (h : name c.name = .ok bs) : customBytes c = .ok (sectionBytes 0 (bs ++ c.payload)) := by
  unfold customBytes
  rw [h]
  rfl

/-- What is read of a custom section behind its name. -/
theorem readCustom_rest (d : Draft) (s : String) (c : Cursor) : ∃ c' : Cursor, c'.rest = [] ∧
    (let m := { d.module with customs := d.module.customs ++ [⟨s, c.rest⟩] }
     let m := if s == "name" then
         { m with names := nameSubsections (c.rest.length + 1) m.names { c with part := "custom:name" } }
       else m
     (.ok ({ d with module := m }, { c with pos := c.pos + c.rest.length, rest := [] }) :
       Except CompileError (Draft × Cursor))) = .ok (addCustom d ⟨s, c.rest⟩, c') := by
  refine ⟨{ c with pos := c.pos + c.rest.length, rest := [] }, rfl, ?_⟩
  dsimp only
  congr 2
  unfold addCustom namesAfter addNames
  split
  next h =>
    rw [nameSubsections_alike _ _ (show ({ c with part := "custom:name" } : Cursor).rest =
      (⟨"custom:name", 0, c.rest⟩ : Cursor).rest from rfl)]
  next h => rfl

theorem takes_custom (d : Draft) (hc : NameFits c.name) (h : name c.name = .ok bs) :
    TakesAll (readSection 0 d) (bs ++ c.payload) (· = addCustom d c) := by
  intro part pos
  obtain ⟨bs', hbs', htake⟩ := format_name.back c.name hc
  obtain rfl : bs = bs' := Except.ok.inj (h.symm.trans hbs')
  obtain ⟨s, hread, hs⟩ := htake part pos c.payload
  obtain ⟨c', hrest, heq⟩ := readCustom_rest d s ⟨part, pos + bs.length, c.payload⟩
  refine ⟨addCustom d c, c', ?_, hrest, rfl⟩
  obtain rfl : s = c.name := hs
  exact StateT.bind_eq_ok.mpr ⟨_, _, hread, heq⟩

theorem reaches_customs (next : Nat) {customs : List Custom} (h : ∀ c ∈ customs, CustomFits c) :
    ∃ bs, concat customBytes customs = .ok bs ∧ ∀ {d P}, P (customs.foldl addCustom d) → Reaches next d bs next P := by
  induction customs with
  | nil => exact ⟨[], rfl, Reaches.refl (Nat.le_refl next)⟩
  | cons c cs ih =>
    obtain ⟨hname, hlen⟩ := h c mem_cons_self
    obtain ⟨bs, hbs, -⟩ := format_name.back c.name hname
    obtain ⟨rest, hrest, hreach⟩ := ih (fun c' hc' => h c' (mem_cons_of_mem _ hc'))
    refine ⟨_, concat_cons_ok (customBytes_ok hbs) hrest, fun {d P} hP => ?_⟩
    have hfirst : Reaches next d (sectionBytes 0 (bs ++ c.payload)) next (· = addCustom d c) :=
      Reaches.section_ (show sectionName? 0 = some "custom" from rfl) (hlen bs hbs)
        (fun h => absurd rfl h) (Nat.le_refl next) (takes_custom d hname hbs)
    refine hfirst.trans (fun d' hd' => ?_)
    subst hd'
    exact hreach hP

theorem foldl_addCustom (customs : List Custom) (d : Draft) : customs.foldl addCustom d =
    { d with module := { d.module with
        customs := d.module.customs ++ customs, names := customs.foldl namesAfter d.module.names } } := by
  induction customs generalizing d with
  | nil => simp
  | cons c cs ih =>
    rw [foldl_cons, ih]
    simp [addCustom]

end ScoreWasm.Wasm.Binary
