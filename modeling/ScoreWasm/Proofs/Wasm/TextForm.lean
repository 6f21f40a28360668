import ScoreWasm.Proofs.Binary.Opcodes
import ScoreWasm.Proofs.Monad
import ScoreWasm.Proofs.Number.Written
import ScoreWasm.Wasm.Flat

/-!
# The text of instructions is read back

Each instruction is written as its name and the words for its operands, where the usual ones are left out.
Reading these words gives the operands (`Spells`), one lemma per kind of operand; the name gives the opcode,
and lines are independent of each other and of how far they are indented.
-/

namespace ScoreWasm.Wasm.Flat

open List Text Number

variable {i : Instr} {n : Int} {args : List String} {w : String}

/-! ### Numbers -/

theorem isToken_toDigits {b : Nat} (hb : 1 < b) (hb' : b ≤ 16) (m : Nat) : ∀ c ∈ Nat.toDigits b m,
    isTokenChar c = true ∧ c ≠ '_' ∧ c ≠ '-' ∧ c ≠ '+' := by
  intro c hc
  obtain ⟨d, hd, rfl⟩ := exists_digit_of_mem hb hc
  exact (digitChar_facts d (by omega)).2

/-- A word for a number: its sign and its magnitude. -/
theorem integer_of_magnitude (neg : Bool) {cs : List Char} {m : Nat}
    (h : ∀ c ∈ cs, isTokenChar c = true ∧ c ≠ '_' ∧ c ≠ '-' ∧ c ≠ '+') (hm : readMagnitude cs = some m) :
    IsToken (String.ofList (if neg then '-' :: cs else cs)) ∧
      integer (String.ofList (if neg then '-' :: cs else cs)) = .ok (withSign neg m) := by
  have hne : cs ≠ [] := by
    rintro rfl
    cases hm
  have hall : ∀ c ∈ (if neg then '-' :: cs else cs), isTokenChar c = true ∧ c ≠ '_' := by
    intro c hc
    split at hc
    · rcases mem_cons.mp hc with rfl | hc
      · decide
      · exact ⟨(h c hc).1, (h c hc).2.1⟩
    · exact ⟨(h c hc).1, (h c hc).2.1⟩
  have hsign : splitSign (if neg then '-' :: cs else cs) = (neg, cs) := by
    cases neg with
    | true => rfl
    | false =>
      show splitSign cs = _
      unfold splitSign
      split
      next => exact absurd rfl (h '-' mem_cons_self).2.2.1
      next => exact absurd rfl (h '+' mem_cons_self).2.2.2
      next => rfl
  refine ⟨⟨by split <;> simp [hne], fun c hc => (hall c (by simpa using hc)).1⟩, ?_⟩
  unfold integer markedInt?
  rw [String.toList_ofList, filter_eq_self.mpr fun c hc => by simp [(hall c hc).2],
    body_eq fun c hc => (hall c hc).1, hsign]
  simp [hm]

theorem integer_toString (h : isWritable n = true) : IsToken (toString n) ∧ integer (toString n) = .ok n := by
  simp only [isWritable, decide_eq_true_eq] at h
  have hread := fun neg => integer_of_magnitude neg
    (isToken_toDigits (by decide) (by decide) n.natAbs) (readMagnitude_decimal h)
  cases n with
  | ofNat m =>
    exact hread false
  | negSucc m =>
    have htext : toString (Int.negSucc m) = String.ofList ('-' :: Nat.toDigits 10 (m + 1)) := by
      show "-" ++ toString (m + 1) = _
      exact String.toList_injective (by simp)
    rw [htext]
    exact hread true

theorem isWritable_of_lt (h : n.natAbs < 10 ^ 20) : isWritable n = true :=
  decide_eq_true (h.trans_le (Nat.pow_le_pow_right (by decide) (by decide)))

/-! ### Operands -/

/-- A block type that can be written. -/
def BlockWritable : BlockType → Prop
  | .empty => True
  | .value t => t.isNumeric = true
  | .index i => isWritable i = true

/-- Immediates of the kinds that are read from binary modules.  There all indices and offsets are below
2 ^ 33, and here they may have as many digits as a number may be written with. -/
def Writable : Instr → Prop
  | .unreachable kind => kind = none
  | .block t | .loop t | .if_ t => BlockWritable t
  | .br n | .brIf n | .call n | .localGet n | .localSet n | .localTee n | .globalGet n | .globalSet n =>
    isWritable n = true
  | .brTable labels d => ∀ l ∈ labels ++ [d], isWritable l = true
  | .callIndirect type table => isWritable type = true ∧ isWritable table = true
  | .select (some ts) => ts ≠ [] ∧ ∀ t ∈ ts, t.isNumeric = true
  | .load _ arg | .store _ arg => 0 ≤ arg.align ∧ arg.align < 64 ∧ isWritable arg.offset = true
  | .const .i32 v => -2 ^ 31 ≤ v ∧ v < 2 ^ 31
  | .const .i64 v => -2 ^ 63 ≤ v ∧ v < 2 ^ 63
  | .const _ v => 0 ≤ v
  | _ => True

/-- Words that follow the name of an instruction in its text, and are read as its operands. -/
structure Spells (i : Instr) (args : List String) : Prop where
  render : render? i = some (join " " (i.name :: args))
  tokens : ∀ w ∈ args, IsToken w
  read : operands i.opcode args = .ok i

theorem spells_index {f : Int → Instr} (h : isWritable n = true)
    (ht : render? (f n) = some ((f n).name ++ " " ++ toString n))
    (hr : ∀ args, operands (f n).opcode args = (do return f (← integer (← firstOf args)))) : ∃ args, Spells (f n) args := by
  obtain ⟨htok, hint⟩ := integer_toString h
  refine ⟨[toString n], ht, by simpa using htok, ?_⟩
  rw [hr]
  simp only [firstOf, bind, Except.bind, hint]
  rfl

theorem isToken_append {s t : String} (hs : s.toList.all isTokenChar = true) (ht : IsToken t) : IsToken (s ++ t) := by
  refine ⟨by simp [ht.1], fun c hc => ?_⟩
  rw [String.toList_append, mem_append] at hc
  exact hc.elim (all_eq_true.mp hs c) (ht.2 c)

theorem keyword?_of (v : String) (hv : IsToken v) : keyword? ("type=" ++ v) = some ("type", v) ∧
    keyword? ("offset=" ++ v) = some ("offset", v) ∧ keyword? ("align=" ++ v) = some ("align", v) := by
  have hne : v.isEmpty = false := by
    rw [Bool.eq_false_iff, ne_eq, String.isEmpty_iff]
    rintro rfl
    exact hv.1 rfl
  refine ⟨?_, ?_, ?_⟩ <;> simp [keyword?, cutAt?, splitFirst, hne]

theorem named?_numeric {t : ValType} (h : t.isNumeric = true) : ValType.named? t.name = some t ∧ IsToken t.name := by
  simp only [ValType.isNumeric, ValType.all, contains_eq_mem, mem_cons, not_mem_nil, or_false, decide_eq_true_eq] at h
  rcases h with rfl | rfl | rfl | rfl <;> decide

theorem spells_block {f : BlockType → Instr} {t : BlockType} (h : BlockWritable t)
    (ht : render? (f t) = some ((f t).name ++ blockText t))
    (hr : ∀ args, operands (f t).opcode args = (blockType args).map f) : ∃ args, Spells (f t) args := by
  cases t with
  | empty => exact ⟨[], by rw [ht]; simp [blockText, join], by simp, by rw [hr]; rfl⟩
  | value t =>
    obtain ⟨hnamed, htok⟩ := named?_numeric h
    refine ⟨[t.name], by rw [ht]; simp [blockText, join, String.append_assoc], by simpa using htok, ?_⟩
    rw [hr]
    simp [blockType, hnamed, Except.map]
  | index i =>
    obtain ⟨htok, hint⟩ := integer_toString h
    have hnone : ValType.named? ("type=" ++ toString i) = none := by
      refine find?_eq_none.mpr fun t ht heq => ?_
      have := congrArg (fun s : String => s.toList.head?) (beq_iff_eq.mp heq)
      simp only [ValType.all, mem_cons, not_mem_nil, or_false] at ht
      rcases ht with rfl | rfl | rfl | rfl <;> simp [ValType.name] at this
    refine ⟨["type=" ++ toString i], ?_, by simpa using isToken_append (by decide) htok, ?_⟩
    · rw [ht]
      exact congrArg some (String.toList_injective (by simp [blockText, join]))
    · rw [hr]
      simp only [blockType, hnone, (keyword?_of _ htok).1, hint]
      rfl

/-- The words of offset and alignment: none for the usual ones. -/
def memWords (natural : Nat) (e : Nat) (offset : Int) : List String :=
  (if offset = 0 then [] else ["offset=" ++ toString offset]) ++ (if e = natural.log2 then [] else ["align=" ++ toString (2 ^ e)])

theorem exponent_two_pow (e : Nat) : exponent ((2 ^ e : Nat) : Int) = e := by
  have hne : ((2 ^ e : Nat) : Int) ≠ 0 := by exact_mod_cast (Nat.two_pow_pos e).ne'
  unfold exponent
  rw [if_neg (beq_iff_eq.not.mpr hne), Int.natAbs_natCast, Nat.log2_two_pow]

theorem memArg_memWords {natural e : Nat} {offset : Int} (hn : 0 < natural) (he : e < 64) (hw : isWritable offset = true) :
    (∀ w ∈ memWords natural e offset, IsToken w) ∧ memArg natural (memWords natural e offset) = .ok ⟨e, offset⟩ := by
  have hpow : 2 ^ e < 10 ^ 20 := (Nat.pow_lt_pow_right (by decide) he).trans (by decide)
  have ho := integer_toString hw
  have ha : IsToken (toString (2 ^ e)) ∧ integer (toString (2 ^ e)) = .ok ((2 ^ e : Nat) : Int) :=
    integer_toString (n := ((2 ^ e : Nat) : Int)) (isWritable_of_lt (by simpa using hpow))
  have hexp := exponent_two_pow e
  have hnat : exponent natural = natural.log2 := by simp [exponent, hn.ne']
  have hko := (keyword?_of _ ho.1).2.1
  have hka := (keyword?_of _ ha.1).2.2
  unfold memWords
  generalize toString offset = o at ho hko ⊢
  generalize toString (2 ^ e) = a at ha hka ⊢
  constructor
  · have := isToken_append (s := "offset=") (by decide) ho.1
    have := isToken_append (s := "align=") (by decide) ha.1
    split <;> split <;> simp [*]
  · obtain ⟨-, ho⟩ := ho
    unfold memArg
    split <;> split
    all_goals simp only [nil_append, append_nil, singleton_append, foldlM_nil, foldlM_cons, hko, hka, ho]
    all_goals simp_all [bind, Except.bind, pure, Except.pure]

theorem spells_memory {f : MemArg → Instr} {natural : Nat} {arg : MemArg} (hn : 0 < natural)
    (h : 0 ≤ arg.align ∧ arg.align < 64 ∧ isWritable arg.offset = true)
    (ht : render? (f arg) = (memText? natural arg).map ((f arg).name ++ ·))
    (hr : ∀ args, operands (f arg).opcode args = (memArg natural args).map f) : ∃ args, Spells (f arg) args := by
  obtain ⟨align, offset⟩ := arg
  obtain ⟨h0, hlt, hw⟩ := h
  obtain ⟨e, rfl⟩ := Int.eq_ofNat_of_zero_le h0
  obtain ⟨htok, hread⟩ := memArg_memWords (e := e) hn (by simp only at hlt; omega) hw
  refine ⟨memWords natural e offset, ?_, htok, by rw [hr, hread]; rfl⟩
  rw [ht]
  refine congrArg some (String.toList_injective ?_)
  unfold memWords
  split <;> split <;> simp_all [join]

theorem spells_constant {t : ValType} {v : Int} (text : String) (htok : IsToken text)
    (ht : render? (.const t v) = some ((Instr.const t v).name ++ " " ++ text)) (hr : constant t text = .ok v) :
    ∃ args, Spells (.const t v) args :=
  ⟨[text], ht, by simpa using htok, by show (constant t text >>= _) = _; rw [hr]; rfl⟩

theorem spells_pattern {t : ValType} {v : Int} (h : 0 ≤ v) (ht : t = .f32 ∨ t = .f64) : ∃ args, Spells (.const t v) args := by
  obtain ⟨n, rfl⟩ := Int.eq_ofNat_of_zero_le h
  have hchars : ∀ c ∈ '0' :: 'x' :: Nat.toDigits 16 n, isTokenChar c = true ∧ c ≠ '_' ∧ c ≠ '-' ∧ c ≠ '+' := by
    simp only [forall_mem_cons]
    exact ⟨by decide, by decide, isToken_toDigits (by decide) (by decide) n⟩
  obtain ⟨htok, hint⟩ := integer_of_magnitude false hchars (readMagnitude_hex n)
  have htext : patternText n = "bits:" ++ String.ofList ('0' :: 'x' :: Nat.toDigits 16 n) :=
    String.toList_injective (by simp [patternText])
  have hread : floatBits t (patternText n) = .ok (n : Int) := by
    rw [htext]
    rw [floatBits, if_pos (by simp [startsWith])]
    simpa [Text.drop, withSign] using hint
  refine spells_constant (patternText n) ?_ ?_ ?_
  · rw [htext]
    exact isToken_append (by decide) htok
  · rcases ht with rfl | rfl <;> rfl
  · rcases ht with rfl | rfl <;> exact hread

theorem spells_integer {t : ValType} {v : Int} {m : Nat} (hm : m < 10 ^ 20) (hlo : -m ≤ 2 * v) (hhi : 2 * v < m)
    (ht : render? (.const t v) = some ((Instr.const t v).name ++ " " ++ toString v))
    (hr : ∀ s, constant t s = (integer s).map (·.bmod m)) : ∃ args, Spells (.const t v) args := by
  obtain ⟨htok, hint⟩ := integer_toString (n := v) (isWritable_of_lt (by omega))
  refine spells_constant _ htok ht ?_
  rw [hr, hint]
  show Except.ok (v.bmod m) = _
  rw [Int.bmod_eq_of_le (by omega) (by omega)]

theorem mapM_toString : ∀ {l : List Int}, (∀ i ∈ l, integer (toString i) = .ok i) → (l.map toString).mapM integer = .ok l
  | [], _ => rfl
  | i :: l, h => by
    obtain ⟨hi, hl⟩ := forall_mem_cons.mp h
    rw [map_cons, mapM_cons, hi, mapM_toString hl]
    rfl

theorem exists_spelling (hl : i.opcode.Listed) (h : Writable i) : ∃ args, Spells i args := by
  cases i with
  | unreachable kind =>
    obtain rfl : kind = none := h
    exact ⟨[], rfl, by simp, rfl⟩
  | block t | loop t | if_ t => exact spells_block h rfl fun _ => rfl
  | br n | brIf n | call n | localGet n | localSet n | localTee n | globalGet n | globalSet n => exact spells_index h rfl fun _ => rfl
  | brTable labels d =>
    have hall := fun l hl => integer_toString (h l hl)
    refine ⟨(labels ++ [d]).map toString, rfl, forall_mem_map.mpr fun l hl => (hall l hl).1, ?_⟩
    show tableLabels _ = _
    unfold tableLabels
    rw [mapM_toString fun l hl => (hall l hl).2]
    simp [bind, Except.bind, pure, Except.pure]
  | callIndirect type table =>
    obtain ⟨htok, hint⟩ := integer_toString h.1
    obtain ⟨htok', hint'⟩ := integer_toString h.2
    by_cases h0 : table = 0
    · subst h0
      refine ⟨[toString type], by simp [render?, join], by simpa using htok, ?_⟩
      simp only [operands, firstOf, Instr.opcode, bind, Except.bind, hint]
      rfl
    · refine ⟨[toString type, toString table], ?_, by simpa using ⟨htok, htok'⟩, ?_⟩
      · simp [render?, h0, join, String.append_assoc]
      · simp only [operands, firstOf, Instr.opcode, bind, Except.bind, hint, hint']
        rfl
  | select ts =>
    match ts with
    | none => exact ⟨[], rfl, by simp, rfl⟩
    | some (t :: ts) =>
      have hall := fun t ht => named?_numeric (h.2 t ht)
      refine ⟨(t :: ts).map ValType.name, rfl, forall_mem_map.mpr fun t ht => (hall t ht).2, ?_⟩
      show Except.ok (Instr.select (some (((t :: ts).map ValType.name).map ValType.ofName))) = _
      rw [map_map, map_congr_left fun t ht => show _ = id t by simp [ValType.ofName, (hall t ht).1], map_id]
  | load op arg => exact spells_memory op.size_pos h rfl fun _ => rfl
  | store op arg => exact spells_memory op.size_pos h rfl fun _ => rfl
  | const t v =>
    cases t with
    | i32 =>
      refine spells_integer (m := 2 ^ 32) (by decide) ?_ ?_ rfl ?_
      · have := h.1; omega
      · have := h.2; omega
      · exact fun _ => rfl
    | i64 =>
      refine spells_integer (m := 2 ^ 64) (by decide) ?_ ?_ rfl ?_
      · have := h.1; omega
      · have := h.2; omega
      · exact fun _ => rfl
    | f32 => exact spells_pattern h (.inl rfl)
    | f64 => exact spells_pattern h (.inr rfl)
    | other s => exact absurd hl (Opcode.not_listed_const_other s)
  | _ => exact ⟨[], rfl, by simp, rfl⟩

/-! ### Lines -/

/-- Every name of the table is that of one opcode; the two forms of `select` share theirs. -/
theorem named?_name : ∀ e ∈ Opcode.table, IsToken e.2.name ∧
    Opcode.named? e.2.name = some (if e.2 = .selectTyped then .select else e.2) := by
  decide +kernel

theorem parseWords_name (hl : i.opcode.Listed) (args : List String) :
    IsToken i.name ∧ parseWords i.name args = operands i.opcode args := by
  obtain ⟨b, hb⟩ := hl
  obtain ⟨htok, hnamed⟩ := named?_name _ hb
  refine ⟨htok, ?_⟩
  unfold parseWords
  rw [Instr.name, hnamed]
  dsimp only
  split
  next h => rw [h]; rfl
  next => rfl

variable {indent : String} {instrs : List Instr}

/-- A line of words that stand for an instruction is read as the instruction, however far it is indented. -/
theorem parse_line (hindent : ∀ c ∈ indent.toList, c = ' ') (hl : i.opcode.Listed) (h : Spells i args) (depth : Nat) :
    ∃ line, line = String.join (replicate depth indent) ++ join " " (i.name :: args) ∧ IsLine line ∧
      lineWords line = i.name :: args := by
  generalize hpre : (String.join (replicate depth indent)).toList = pre
  have hspace : ∀ c ∈ pre, c = ' ' := by
    intro c hc
    rw [← hpre, String.toList_join, mem_flatMap] at hc
    obtain ⟨s, hs, hc⟩ := hc
    exact hindent c (eq_of_mem_replicate hs ▸ hc)
  have htok : ∀ w ∈ i.name :: args, IsToken w := forall_mem_cons.mpr ⟨(parseWords_name hl args).1, h.tokens⟩
  have hchars : ∀ c ∈ pre ++ (join " " (i.name :: args)).toList, isLineBreak c = false ∧ c ≠ ';' := by
    intro c hc
    rcases mem_append.mp hc with hc | hc
    · exact hspace c hc ▸ by decide
    · rcases mem_join hc with hc | ⟨w, hw, hc⟩
      · rw [show c = ' ' by simpa using hc]
        decide
      · exact (of_isTokenChar ((htok w hw).2 c hc)).2
  have hwords : words (join " " (i.name :: args)) = i.name :: args := words_join htok
  refine ⟨_, rfl, ?_⟩
  rw [← String.ofList_toList (s := String.join _), hpre]
  refine ⟨⟨fun hnil => ?_, fun c hc => (hchars c (by simpa using hc)).1⟩, ?_⟩
  · simp only [String.toList_append, String.toList_ofList, append_eq_nil_iff] at hnil
    rw [show join " " (i.name :: args) = "" from String.toList_injective hnil.2] at hwords
    cases hwords
  · unfold lineWords before
    rw [show ";;".toList = [';', ';'] from rfl, splitFirst_of_not_mem fun hm => (hchars ';' (by simpa using hm)).2 rfl]
    simp only [reverse_nil, nil_append, String.ofList_toList]
    rw [words_indent fun c hc => hspace c hc ▸ rfl, hwords]

theorem parse_renderLines (hindent : ∀ c ∈ indent.toList, c = ' ') (h : ∀ i ∈ instrs, i.opcode.Listed ∧ Writable i) :
    ∀ depth, ∃ ls, renderLines indent depth instrs = some ls ∧ (∀ l ∈ ls, IsLine l) ∧
      ls.filterMapM parseLine = .ok instrs := by
  induction instrs with
  | nil => exact fun _ => ⟨[], rfl, by simp, rfl⟩
  | cons i instrs ih =>
    intro depth
    obtain ⟨⟨hl, hw⟩, hrest⟩ := forall_mem_cons.mp h
    obtain ⟨args, hs⟩ := exists_spelling hl hw
    unfold renderLines
    generalize (if i == .end_ || i == .else_ then depth - 1 else depth) = outer
    obtain ⟨line, hline, hgood, hwords⟩ := parse_line hindent hl hs outer
    obtain ⟨ls, hls, hall, hparse⟩ := ih hrest (if i.opensBlock || i == .else_ then outer + 1 else outer)
    refine ⟨line :: ls, ?_, forall_mem_cons.mpr ⟨hgood, hall⟩, ?_⟩
    · simp only [hs.render, hls, Option.bind_eq_bind, Option.bind_some, ← hline]
      rfl
    · have hread : parseLine line = .ok (some i) := by
        unfold parseLine
        rw [hwords]
        dsimp only
        rw [(parseWords_name hl args).2, hs.read]
        rfl
      rw [filterMapM_cons, hparse, hread]
      rfl

/-- **Instructions written as text are read back**, with any indentation by spaces. -/
theorem text_reads_back (hindent : ∀ c ∈ indent.toList, c = ' ') (h : ∀ i ∈ instrs, i.opcode.Listed ∧ Writable i) :
    ∃ text, render indent instrs = some text ∧ parse text = .ok instrs := by
  obtain ⟨ls, hls, hall, hparse⟩ := parse_renderLines hindent h 0
  refine ⟨join "\n" ls, by rw [render, hls]; rfl, ?_⟩
  unfold parse
  rw [lines_join hall, hparse]

/-- A block with a numbered type that is left through a table, and a load at an offset with an alignment of
its own. -/
def tableInBlock : List Instr :=
  [.block (.index 3), .const .f32 0x7fc00000, .load (.part .i64of32 true) ⟨0, 8⟩, .brTable [0] 1, .end_]

theorem text_reads_back_tableInBlock :
    ∃ text, render "  " tableInBlock = some text ∧ parse text = .ok tableInBlock := by
  have hsmall : ∀ n : Int, n.natAbs < 10 → Number.isWritable n = true := fun n hn => isWritable_of_lt (by omega)
  have hlabels : ∀ l ∈ [0] ++ [(1 : Int)], Number.isWritable l = true := by
    intro l hl
    refine hsmall l ?_
    revert l
    decide
  refine text_reads_back (by simp) ?_
  simp only [tableInBlock, forall_mem_cons, not_mem_nil, false_implies, implies_true, and_true]
  exact ⟨⟨Opcode.listed_control (by decide), hsmall 3 (by decide)⟩, ⟨Opcode.listed_control (by decide), Int.natCast_nonneg _⟩,
    ⟨Opcode.listed_load.mpr (by decide), by decide, by decide, hsmall 8 (by decide)⟩,
    ⟨Opcode.listed_control (by decide), hlabels⟩, ⟨Opcode.listed_control (by decide), trivial⟩⟩

end ScoreWasm.Wasm.Flat
