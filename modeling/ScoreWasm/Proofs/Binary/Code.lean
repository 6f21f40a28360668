import ScoreWasm.Proofs.Binary.Formats
import ScoreWasm.Proofs.Binary.Opcodes

/-!
# The format of code

An instruction is a byte and what follows it.  A sequence of instructions ends at the `end` that closes it,
so it can be told from what follows as long as every other `end` closes a block of the sequence.
-/

namespace ScoreWasm.Wasm

open List

/-- The instruction with a plain `select` in place of one with an empty list of types. -/
def Instr.plain : Instr → Instr
  | .select (some []) => .select none
  | i => i

namespace Binary

variable {i : Instr} {f : BlockType → Instr} {t : ValType} {count bits : Nat} {bs : List UInt8}

/-! ### Immediates -/

/-- A block type that can be written. -/
def BlockTypeFits : BlockType → Prop
  | .empty => True
  | .value t => t.isNumeric = true
  | .index i => Fits32 i

/-- The bytes of a natural number with its sign begin with none that stands for a type. -/
theorem signed_eq_cons {i : Int} (h : 0 ≤ i) : ∃ b bs, signed i = b :: bs ∧ (b.toNat < 64 ∨ 128 ≤ b.toNat) := by
  unfold signed
  rw [signedBytes_succ]
  split
  next hw =>
    refine ⟨_, _, rfl, .inl ?_⟩
    rw [inRange_seven_iff] at hw
    rw [toNat_ofNat_low (by omega)]
    omega
  next =>
    refine ⟨_, _, rfl, .inr ?_⟩
    rw [toNat_ofNat_low (by omega)]
    omega

theorem ne_of_toNat {a b : UInt8} (h : a.toNat ≠ b.toNat) : (a == b) = false := by
  rw [beq_eq_false_iff_ne]
  rintro rfl
  exact h rfl

theorem format_blockType : Format readBlockType blockType BlockTypeFits Same := by
  constructor
  · intro t ht
    cases t with
    | empty =>
      refine ⟨[0x40], rfl, Takes.peek (Takes.position.skip (fun offset _ => ?_))⟩
      exact (Takes.byte 0x40).discard.last (fun _ _ => Takes.pure rfl)
    | value t =>
      obtain ⟨b, hb⟩ := exists_code_of_isNumeric ht
      refine ⟨[b], valType_ok hb, Takes.peek (Takes.position.skip (fun offset _ => ?_))⟩
      have hne : (b == 0x40) = false := by
        cases t <;> cases hb <;> rfl
      rw [hne, ofCode?_code?.mp hb]
      exact (Takes.byte b).discard.last (fun _ _ => Takes.pure rfl)
    | index i =>
      obtain ⟨b, bs, hbs, hb⟩ := signed_eq_cons ht.1
      refine ⟨signed i, rfl, ?_⟩
      rw [hbs]
      refine Takes.peek (Takes.position.skip (fun offset _ => ?_))
      have hcode : ValType.ofCode? b = none := by
        cases hc : ValType.ofCode? b with
        | none => rfl
        | some t =>
          have := ofCode?_code?.mpr hc
          cases t <;> cases this <;> simp at hb
      have h40 : (b == 0x40) = false := ne_of_toNat (by simp; omega)
      have h70 : (b == 0x70) = false := ne_of_toNat (by simp; omega)
      have h6f : (b == 0x6f) = false := ne_of_toNat (by simp; omega)
      rw [h40, hcode, h70, h6f, ← hbs]
      have hi : InWidth 33 i := by
        obtain ⟨h0, hlt⟩ := ht
        unfold InWidth
        omega
      refine (Takes.signedLeb hi (by omega)).last (fun j hj => ?_)
      subst hj
      rw [if_neg (by have := ht.1; omega)]
      exact Takes.pure rfl
  · refine Gives.peek.bind (fun b n hn => Gives.position.bind (fun offset m hm => ?_))
    subst hn hm
    refine Gives.ite (fun _ => ?_) (fun _ => ?_)
    · refine Gives.byte.discard.bind (fun _ n hn => Gives.pure ?_)
      obtain ⟨-, rfl⟩ := hn
      exact ⟨trivial, [0x40], rfl, Nat.le_refl 1⟩
    · split
      next t heq =>
        refine Gives.byte.discard.bind (fun _ n hn => Gives.pure ?_)
        obtain ⟨-, rfl⟩ := hn
        have hb := ofCode?_code?.mpr heq
        exact ⟨isNumeric_of_code hb, [b], valType_ok hb, Nat.le_refl 1⟩
      next =>
        refine Gives.ite (fun _ => Gives.refuse) (fun _ => ?_)
        refine (Gives.signedLeb 33).bind (fun i n hi => ?_)
        obtain ⟨hwidth, hlen⟩ := hi
        refine Gives.ite (fun _ => Gives.failAt) (fun h0 => Gives.pure ?_)
        refine ⟨?_, signed i, rfl, by simpa using hlen⟩
        unfold InWidth at hwidth
        exact ⟨by omega, by omega⟩

/-- Alignment and offset that can be written: the bit that announces a memory index is not set. -/
def MemArgFits (a : MemArg) : Prop := Fits32 a.align ∧ a.align / 64 % 2 = 0 ∧ Fits32 a.offset

theorem format_memArg (offset : Nat) : Format (readMemArg offset) memArg MemArgFits Same := by
  constructor
  · rintro ⟨align, off⟩ ⟨⟨h0, hlt⟩, hbit, hoff⟩
    dsimp only at h0 hlt hbit hoff
    obtain ⟨n, rfl⟩ := Int.eq_ofNat_of_zero_le h0
    obtain ⟨bs, hbs, htake⟩ := format_index.takes_one hoff (MemArg.mk n)
    refine ⟨unsigned n ++ bs, by simp only [memArg, hbs]; rfl, (Takes.u32 (by omega)).bind (fun v hv => ?_)⟩
    subst hv
    rw [if_neg (by simp only [beq_iff_eq]; omega)]
    exact htake
  · refine Gives.u32.bind (fun v n hv => Gives.ite (fun _ => Gives.refuse) (fun hbit => ?_))
    refine format_index.gives_one (fun off bs m hoff hbs hle' => ?_)
    refine ⟨⟨⟨by simp, by simp only; omega⟩, ?_, hoff⟩, unsigned v ++ bs, by simp only [memArg, hbs]; rfl, ?_⟩
    · simp only [beq_iff_eq] at hbit
      simp only
      omega
    · rw [length_append]
      omega

/-! ### Instructions -/

/-- An instruction that can be written: its indices and counts are below the greatest, its constants in the
range of their type, and it carries no kind of trap, for which there is no room. -/
def InstrFits : Instr → Prop
  | .unreachable kind => kind = none
  | .block t => BlockTypeFits t
  | .loop t => BlockTypeFits t
  | .if_ t => BlockTypeFits t
  | .br n => Fits32 n
  | .brIf n => Fits32 n
  | .brTable labels d => (labels.length < 2 ^ 32 ∧ ∀ l ∈ labels, Fits32 l) ∧ Fits32 d
  | .call f => Fits32 f
  | .callIndirect t table => Fits32 t ∧ Fits32 table
  | .select none => True
  | .select (some ts) => TypesFit ts
  | .localGet i => Fits32 i
  | .localSet i => Fits32 i
  | .localTee i => Fits32 i
  | .globalGet i => Fits32 i
  | .globalSet i => Fits32 i
  | .load op arg => op ∈ LoadOp.all ∧ MemArgFits arg
  | .store op arg => op ∈ StoreOp.all ∧ MemArgFits arg
  | .const .i32 v => InWidth 32 v
  | .const .i64 v => InWidth 64 v
  | .const .f32 v => 0 ≤ v ∧ v < 2 ^ 32
  | .const .f64 v => 0 ≤ v ∧ v < 2 ^ 64
  | .const (.other _) _ => False
  | _ => True

theorem listed_opcode (h : InstrFits i) : i.opcode.Listed := by
  cases i with
  | load op arg => exact Opcode.listed_load.mpr h.1
  | store op arg => exact Opcode.listed_store.mpr h.1
  | num op => exact Opcode.listed_num op
  | const t v =>
    cases t with
    | other s => exact h.elim
    | _ => exact Opcode.listed_control rfl
  | select ts =>
    match ts with
    | none | some [] | some (_ :: _) => exact Opcode.listed_control rfl
  | _ => exact Opcode.listed_control rfl

theorem takes_fixed {v : Int} (h0 : 0 ≤ v) (h : v < 256 ^ count) :
    ∃ bs, fixed count v = .ok bs ∧ Takes (do return Instr.const t (← fixedNat count)) bs (· = Instr.const t v) := by
  obtain ⟨n, rfl⟩ := Int.eq_ofNat_of_zero_le h0
  have hn : n < 256 ^ count := by exact_mod_cast h
  exact ⟨_, fixed_natCast hn, (Takes.fixedNat hn).last (fun j hj => Takes.pure (by rw [hj]))⟩

theorem takes_operands (h : InstrFits i) (offset : Nat) :
    ∃ bs, immediates i = .ok bs ∧ Takes (readOperands offset i.opcode) bs (· = i.plain) := by
  cases i with
  | unreachable kind =>
    obtain rfl : kind = none := h
    exact ⟨[], rfl, .pure rfl⟩
  | block t | loop t | if_ t => exact format_blockType.takes_one h _
  | br n | brIf n => exact format_index.takes_one h _
  | brTable labels d =>
    obtain ⟨bs, cs, hbs, hcs, htake⟩ := format_index.vecSame.takes_two format_index h.1 h.2 Instr.brTable
    exact ⟨bs ++ cs, by simp only [immediates, hbs, hcs]; rfl, htake⟩
  | call f => exact format_index.takes_one h _
  | callIndirect t table =>
    obtain ⟨bs, cs, hbs, hcs, htake⟩ := format_index.takes_two format_index h.1 h.2 Instr.callIndirect
    exact ⟨bs ++ cs, by simp only [immediates, hbs, hcs]; rfl, htake⟩
  | select ts =>
    match ts with
    | none | some [] => exact ⟨[], rfl, .pure rfl⟩
    | some (t :: ts) => exact format_valType.vecSame.takes_one h (fun ts => Instr.select (some ts))
  | localGet n | localSet n | localTee n | globalGet n | globalSet n => exact format_index.takes_one h _
  | load op arg | store op arg => exact (format_memArg offset).takes_one h.2 _
  | memorySize | memoryGrow => exact ⟨[0x00], rfl, .byte_bind (.pure rfl)⟩
  | const t v =>
    cases t with
    | i32 | i64 => exact ⟨_, rfl, (Takes.signedLeb h (by omega)).last (fun j hj => .pure (by rw [hj]; rfl))⟩
    | f32 => exact takes_fixed h.1 (show v < 256 ^ 4 by have := h.2; omega)
    | f64 => exact takes_fixed h.1 (show v < 256 ^ 8 by have := h.2; omega)
    | other s => exact h.elim
  | _ => exact ⟨[], rfl, .pure rfl⟩

/-- What was read can be written, without the byte of its opcode. -/
def Shrunk (i : Instr) (n : Nat) : Prop := InstrFits i ∧ ∃ bs, immediates i = .ok bs ∧ bs.length ≤ n

theorem gives_operand {α : Type} {r : Reader α} {w : α → Written} {Fit : α → Prop} {f : α → Instr}
    (h : Format r w Fit Same) (hf : ∀ a, Fit a → InstrFits (f a)) (hw : ∀ a, immediates (f a) = w a) :
    Gives (do return f (← r)) Shrunk :=
  h.gives_one (fun a bs _ ha hbs hle => ⟨hf a ha, bs, (hw a).trans hbs, hle⟩)

theorem gives_signed (hf : ∀ i, InWidth bits i → InstrFits (.const t i))
    (hw : ∀ i, immediates (.const t i) = .ok (signed i)) :
    Gives (do return .const t (← signedLeb bits)) Shrunk := by
  refine (Gives.signedLeb bits).bind (fun i n hi => Gives.pure ?_)
  obtain ⟨hwidth, hlen⟩ := hi
  exact ⟨hf i hwidth, _, hw i, hlen⟩

theorem gives_fixed (hf : ∀ v : Nat, v < 256 ^ count → InstrFits (.const t v))
    (hw : ∀ v : Nat, immediates (.const t v) = fixed count v) :
    Gives (do return .const t (← fixedNat count)) Shrunk := by
  refine (Gives.fixedNat count).bind (fun v n hv => Gives.pure ?_)
  obtain ⟨hv, rfl⟩ := hv
  exact ⟨hf v hv, _, (hw v).trans (fixed_natCast hv), by simp [lowBytes]⟩

theorem gives_memory (offset : Nat) (hf : InstrFits i) (hw : immediates i = .ok [0x00]) :
    Gives (readMemory offset i) Shrunk := by
  refine Gives.byte.bind (fun b n hn => Gives.ite (fun _ => Gives.pure ?_) (fun _ => Gives.refuse))
  subst hn
  exact ⟨hf, _, hw, Nat.le_refl 1⟩

theorem gives_operands {o : Opcode} (ho : o.Listed) (offset : Nat) : Gives (readOperands offset o) Shrunk := by
  cases o with
  | block | loop | if_ => exact gives_operand format_blockType (fun _ => id) (fun _ => rfl)
  | br | brIf => exact gives_operand format_index (fun _ => id) (fun _ => rfl)
  | brTable =>
    refine format_index.vecSame.gives_two format_index (fun ls d bs cs n hls hd hbs hcs hle => ?_)
    exact ⟨⟨hls, hd⟩, bs ++ cs, by simp only [immediates, hbs, hcs]; rfl, hle⟩
  | call => exact gives_operand format_index (fun _ => id) (fun _ => rfl)
  | callIndirect =>
    refine format_index.gives_two format_index (fun t d bs cs n ht hd hbs hcs hle => ?_)
    exact ⟨⟨ht, hd⟩, bs ++ cs, by simp only [immediates, hbs, hcs]; rfl, hle⟩
  | selectTyped =>
    refine format_valType.vecSame.gives_one (fun ts bs n hts hbs hle => ?_)
    refine ⟨hts, ?_⟩
    cases ts with
    | nil => exact ⟨[], rfl, Nat.zero_le _⟩
    | cons t ts => exact ⟨bs, hbs, hle⟩
  | localGet | localSet | localTee | globalGet | globalSet => exact gives_operand format_index (fun _ => id) (fun _ => rfl)
  | load op => exact gives_operand (format_memArg offset) (fun _ ha => ⟨Opcode.listed_load.mp ho, ha⟩) (fun _ => rfl)
  | store op => exact gives_operand (format_memArg offset) (fun _ ha => ⟨Opcode.listed_store.mp ho, ha⟩) (fun _ => rfl)
  | memorySize | memoryGrow => exact gives_memory offset trivial rfl
  | const t =>
    cases t with
    | i32 | i64 => exact gives_signed (fun _ => id) (fun _ => rfl)
    | f32 | f64 => exact gives_fixed (fun v hv => ⟨by omega, by omega⟩) (fun _ => rfl)
    | other s => exact absurd ho (Opcode.not_listed_const_other s)
  | unreachable => exact .pure ⟨rfl, [], rfl, Nat.le_refl 0⟩
  | _ => exact .pure ⟨trivial, [], rfl, Nat.le_refl 0⟩

/-- An instruction comes back with a plain `select` in place of one with an empty list, at some place. -/
def PlacedBack (p p' : Placed) : Prop := p'.instr = p.instr.plain

theorem instr_ok (h : immediates i = .ok bs) : instr i = .ok (i.opcode.byte :: bs) := by
  unfold instr
  rw [h]
  rfl

theorem format_instr : Format readInstr (fun p => instr p.instr) (fun p => InstrFits p.instr) PlacedBack := by
  constructor
  · intro p hp
    obtain ⟨hbyte, hfirst, hlater⟩ := (listed_opcode hp).ofByte?
    obtain ⟨bs, hbs, -⟩ := takes_operands hp 0
    refine ⟨_, instr_ok hbs, .tag (fun offset => ?_)⟩
    rw [hfirst, hlater, hbyte]
    obtain ⟨cs, hcs, htake⟩ := takes_operands hp offset
    obtain rfl : bs = cs := Except.ok.inj (hbs.symm.trans hcs)
    exact htake.last (fun i hi => Takes.pure hi)
  · refine .tag (fun offset b => ?_)
    split
    next => exact Gives.u32.bind (fun _ _ _ => Gives.refuse)
    next =>
      split
      next => exact .refuse
      next =>
        split
        next o ho =>
          refine (gives_operands ⟨b, Opcode.mem_of_ofByte? ho⟩ offset).bind (fun i n hi => .pure ?_)
          obtain ⟨hi, bs, hbs, hle⟩ := hi
          exact ⟨hi, _, instr_ok hbs, Nat.succ_le_succ hle⟩
        next => exact .failAt

/-! ### Sequences -/

/-- How many blocks are open after an instruction; none if it is the `end` of the sequence. -/
def depthStep (d : Nat) (i : Instr) : Option Nat :=
  if i.opensBlock then some (d + 1)
  else if i = .end_ then if d = 0 then none else some (d - 1)
  else some d

/-- How many blocks are open after instructions, if every `end` among them closes one. -/
def depthAfter : Nat → List Instr → Option Nat
  | d, [] => some d
  | d, i :: is => (depthStep d i).bind (fun e => depthAfter e is)

theorem depthStep_plain (d : Nat) (i : Instr) : depthStep d i.plain = depthStep d i := by
  unfold Instr.plain
  split <;> rfl

theorem depthStep_eq_none {d : Nat} (h : depthStep d i = none) : i = .end_ ∧ d = 0 := by
  unfold depthStep at h
  split at h
  · cases h
  split at h
  next he =>
    split at h
    next hd => exact ⟨he, hd⟩
    next => cases h
  next => cases h

/-- Reading goes on until the `end` of the sequence. -/
theorem readInstrs_succ (keepEnd : Bool) (fuel d : Nat) (acc : List Placed) : readInstrs keepEnd (fuel + 1) d acc = (do
      let p ← readInstr
      match depthStep d p.instr with
      | some e => readInstrs keepEnd fuel e (p :: acc)
      | none => return (if keepEnd then p :: acc else acc).reverse) := by
  conv_lhs => unfold readInstrs
  congr 1
  funext p
  unfold depthStep
  split
  next => rfl
  next =>
    simp only [beq_iff_eq]
    split
    next =>
      split
      next => rfl
      next => rfl
    next => rfl

/-- The instructions of a balanced sequence are read one by one. -/
theorem takes_readInstrs (keepEnd : Bool) {R : List Placed → Prop} {ps : List Placed} {d d' : Nat}
    (hfit : (∀ p ∈ ps, InstrFits p.instr)) (hd : depthAfter d (ps.map Placed.instr) = some d') :
    ∃ bs, instrs (ps.map Placed.instr) = .ok bs ∧ ∀ (fuel : Nat) (acc : List Placed) (cs : List UInt8), (∀ qs,
      List.Forall₂ PlacedBack ps qs → Takes (readInstrs keepEnd fuel d' (qs.reverse ++ acc)) cs R) → Takes
      (readInstrs keepEnd (ps.length + fuel) d acc) (bs ++ cs) R := by
  induction ps generalizing d d' with
  | nil =>
    obtain rfl : d = d' := Option.some.inj hd
    refine ⟨[], rfl, fun fuel acc cs h => ?_⟩
    rw [length_nil, Nat.zero_add]
    exact h [] .nil
  | cons p ps ih =>
    obtain ⟨e, he, hd⟩ := Option.bind_eq_some_iff.mp hd
    obtain ⟨bs, hbs, htake⟩ := format_instr.back p (hfit p mem_cons_self)
    obtain ⟨cs, hcs, htakes⟩ := ih (fun q hq => hfit q (mem_cons_of_mem p hq)) hd
    refine ⟨bs ++ cs, concat_cons_ok hbs hcs, fun fuel acc rest h => ?_⟩
    rw [length_cons, Nat.add_right_comm, append_assoc, readInstrs_succ]
    refine htake.bind (fun q hq => ?_)
    rw [show q.instr = _ from hq, depthStep_plain, he]
    refine htakes fuel (q :: acc) rest (fun qs hqs => ?_)
    have := h (q :: qs) (.cons hq hqs)
    rwa [reverse_cons, append_assoc] at this

theorem takes_lastEnd (keepEnd : Bool) (fuel : Nat) (acc : List Placed) :
    Takes (readInstrs keepEnd (fuel + 1) 0 acc) [0x0b]
      (fun l => ∃ q : Placed, q.instr = .end_ ∧ l = (if keepEnd then q :: acc else acc).reverse) := by
  obtain ⟨bs, hbs, htake⟩ := format_instr.back (.new .end_) trivial
  have hend : instr .end_ = .ok [0x0b] := rfl
  obtain rfl : [0x0b] = bs := Except.ok.inj (hend.symm.trans hbs)
  refine htake.last (fun q hq => ?_)
  rw [show q.instr = .end_ from hq]
  exact .pure ⟨q, hq, rfl⟩

theorem gives_readInstrs (keepEnd : Bool) (fuel d : Nat) (acc : List Placed) :
    Gives (readInstrs keepEnd fuel d acc) (fun l n => ∃ (ps : List Placed) (q : Placed), q.instr = .end_ ∧
      l = acc.reverse ++ ps ++ (if keepEnd then [q] else []) ∧ depthAfter d (ps.map Placed.instr) = some 0 ∧
      (∀ p ∈ ps, InstrFits p.instr) ∧ ∃ bs, instrs (ps.map Placed.instr) = .ok bs ∧ bs.length < n) := by
  induction fuel generalizing d acc with
  | zero => exact Gives.position.bind (fun _ _ _ => Gives.failAt)
  | succ fuel ih =>
    rw [readInstrs_succ]
    refine format_instr.shrinks.bind (fun p n hp => ?_)
    obtain ⟨hfit, bs, hbs, hle⟩ := hp
    split
    next e he =>
      refine (ih e (p :: acc)).mono ?_
      rintro l m ⟨ps, q, hq, rfl, hdepth, hps, cs, hcs, hlt⟩
      refine ⟨p :: ps, q, hq, by simp, ?_, forall_mem_cons.mpr ⟨hfit, hps⟩, _, concat_cons_ok hbs hcs, ?_⟩
      · rw [map_cons, depthAfter, he]
        exact hdepth
      · rw [length_append]
        omega
    next he =>
      obtain ⟨hend, rfl⟩ := depthStep_eq_none he
      refine .pure ⟨[], p, hend, ?_, rfl, by simp, [], rfl, ?_⟩
      · cases keepEnd <;> simp
      · have hone : instr .end_ = .ok [0x0b] := rfl
        rw [hend, hone] at hbs
        cases hbs
        exact Nat.lt_of_lt_of_le Nat.zero_lt_one hle

/-! ### Expressions -/

/-- Every `end` in an expression closes a block of it, and no block stays open. -/
def Balanced (e : Expr) : Prop := depthAfter 0 (e.map Placed.instr) = some 0

/-- Code that can be written. -/
def ExprFits (e : Expr) : Prop := (∀ p ∈ e, InstrFits p.instr) ∧ Balanced e

/-- An expression comes back instruction by instruction. -/
def ExprBack (e e' : Expr) : Prop := List.Forall₂ PlacedBack e e'

theorem expr_ok {e : Expr} (h : instrs (e.map Placed.instr) = .ok bs) : expr e = .ok (bs ++ [0x0b]) := by
  unfold expr
  rw [h]
  rfl

theorem length_le_concat {α : Type} {w : α → Written} (hw : ∀ a bs, w a = .ok bs → 0 < bs.length)
    {l : List α} {bs : List UInt8} (h : concat w l = .ok bs) : l.length ≤ bs.length := by
  induction l generalizing bs with
  | nil => exact Nat.zero_le _
  | cons a l ih =>
    obtain ⟨as, ls, has, hls, rfl⟩ := concat_cons_eq_ok h
    have := ih hls
    have := hw a as has
    rw [length_append, length_cons]
    omega

theorem instr_pos (h : instr i = .ok bs) : 0 < bs.length := by
  unfold instr at h
  rw [Except.bind_eq_ok] at h
  obtain ⟨cs, -, h⟩ := h
  cases h
  exact Nat.succ_pos _

theorem format_expr : Format readExpr expr ExprFits ExprBack := by
  constructor
  · rintro e ⟨hfit, hdepth⟩
    obtain ⟨bs, hbs, htake⟩ := takes_readInstrs false hfit hdepth
    refine ⟨_, expr_ok hbs, ?_⟩
    have hlen := length_le_concat (fun _ _ => instr_pos) hbs
    rw [length_map] at hlen
    intro part pos rest
    -- The fuel is more than the number of bytes, so it is enough for the instructions and the end.
    obtain ⟨k, hk⟩ : ∃ k, ((bs ++ [0x0b]) ++ rest).length + 1 = e.length + (k + 1) :=
      ⟨((bs ++ [0x0b]) ++ rest).length - e.length, by simp; omega⟩
    unfold readExpr
    simp only [hk]
    refine htake (k + 1) [] [0x0b] (fun qs hqs => (takes_lastEnd false k _).mono ?_) part pos rest
    rintro l ⟨q, -, rfl⟩
    simpa [ExprBack] using hqs
  · intro c e c' h
    obtain ⟨n, hn, ps, q, -, rfl, hdepth, hfit, bs, hbs, hlt⟩ := gives_readInstrs false _ 0 [] c e c' h
    refine ⟨n, hn, ?_⟩
    simp only [reverse_nil, nil_append, Bool.false_eq_true, if_false, append_nil]
    refine ⟨⟨hfit, hdepth⟩, _, expr_ok hbs, ?_⟩
    rw [length_append]
    exact hlt

end Binary

end ScoreWasm.Wasm
