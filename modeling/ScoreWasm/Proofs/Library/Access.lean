import ScoreWasm.Proofs.Library.Memory

/-!
# Loads and stores of several bytes

Bytes that do not make up a word are loaded and stored one after the other; a word is taken as a whole, and
eight bytes are two words.  Seen from outside, each load gives the number at its address and each store
replaces the bytes there.
-/

namespace ScoreWasm.Library

open Emit Machine Machine.View Word Text List

variable {a i count : Nat} {u : View} {x : Int}

/-! ### Numbers in memory -/

/-- The number in bytes from an address on, the lowest byte first. -/
def valueAt (m : Nat → UInt8) (a count : Nat) : Nat := littleEndian ((List.range count).map (fun j => m (a + j)))

/-- Memory with a number in bytes from an address on, the lowest byte first. -/
def overwrite (m : Nat → UInt8) (a count : Nat) (x : Int) : Nat → UInt8 :=
  fun b => if a ≤ b ∧ b < a + count then byteOf x (b - a) else m b

section Numbers

variable (m : Nat → UInt8) (a : Nat)

theorem valueAt_succ (count : Nat) :
    valueAt m a (count + 1) = valueAt m a count + 256 ^ count * (m (a + count)).toNat := by
  unfold valueAt
  rw [range_succ, map_append, map_singleton, littleEndian_append, length_map, length_range]

theorem valueAt_zero : valueAt m a 0 = 0 := rfl

theorem valueAt_lt (count : Nat) : valueAt m a count < 256 ^ count := by
  have := littleEndian_lt ((List.range count).map (fun j => m (a + j)))
  rwa [length_map, length_range] at this

theorem overwrite_zero (x : Int) : overwrite m a 0 x = m := by
  funext b
  unfold overwrite
  rw [if_neg (by omega)]

theorem overwrite_succ (count : Nat) (x : Int) :
    overwrite m a (count + 1) x = Function.update (overwrite m a count x) (a + count) (byteOf x count) := by
  funext b
  by_cases hb : b = a + count
  · subst hb
    rw [Function.update_self, overwrite, if_pos (by omega), Nat.add_sub_cancel_left]
  · rw [Function.update_of_ne hb]
    unfold overwrite
    by_cases hin : a ≤ b ∧ b < a + count
    · rw [if_pos hin, if_pos (by omega)]
    · rw [if_neg hin, if_neg (by omega)]

end Numbers

variable {p : Program} {ns : String} {n : Nat} {v : View} {Q : View → Prop} {m : Nat → UInt8}

/-! ### Byte by byte -/

/-- The registers that loads and stores of several bytes change. -/
def wideNames : List String := ["%mw", "%mb", "%mp", "%mi", "%m8", "%mn", "%mz", "%ml", "%mv", "%ma"]

/-- The address of a byte after the first. -/
theorem will_seek (hm : KeepsBytes ns n m v) (hbase : v.reg "%ml" = some (a : Int))
    (hfirst : i = 0 → v.reg "%ma" = some (a : Int)) (hlt : a + i < 2 ^ 31)
    (h : ∀ v', KeepsBytes ns n m v' → v'.reg "%ma" = some ((a + i : Nat) : Int) → Leaves ["%ma"] v v' → Q v') :
    Will p 2 (seek i) v Q := by
  unfold seek Script.onlyIf
  split
  case isTrue hi =>
    refine .append (.copy hbase ?_)
    refine .add ⟨by omega, by omega⟩ (by unfold minInt; omega) (reg_put_self ..) ?_
    have hword : wrap32 ((a : Int) + (i : Int)) = ((a + i : Nat) : Int) := by
      rw [wrap32_of_isWord ⟨by omega, by omega⟩, Nat.cast_add]
    rw [hword]
    refine h _ hm.put.put (reg_put_self ..) ?_
    exact (Leaves.refl _ v).put.put
  case isFalse hi =>
    have hi : i = 0 := by simpa using hi
    subst hi
    exact (Will.empty (h v hm (hfirst rfl) (Leaves.refl _ v))).mono

/-- Some bytes have been loaded. -/
structure Gathered (ns : String) (n : Nat) (m : Nat → UInt8) (a : Nat) (v : View) (i : Nat) (u : View) : Prop where
  keeps : KeepsBytes ns n m u
  base : u.reg "%ml" = some (a : Int)
  first : i = 0 → u.reg "%ma" = some (a : Int)
  value : 0 < i → u.reg "%mv" = some (wrap32 (valueAt m a i))
  leaves : Leaves wideNames v u

theorem byteScale_mem (hpos : 0 < i) (hi : i < 4) : byteScale i ∈ memoryConstants := by
  interval_cases i <;> decide

theorem small_isWord (b : UInt8) : IsWord (b.toNat : Int) := by
  have := b.toNat_lt
  constructor <;> omega

theorem will_gather (hp : HasMemory p ns) (hn : n ≤ maxPages) (hi : i < 4) (hlt : a + i < n * pageSize)
    (hu : Gathered ns n m a v i u) : Will p 23 (.join [seek i, Emit.call ns "rt/mem/load8", if i == 0 then copy "%mv" "%m8"
      else Emit.operate "%m8" .mul (const (byteScale i)) ++ Emit.operate "%mv" .add "%m8"]) u
      (Gathered ns n m a v (i + 1)) := by
  have hsmall := word_lt hn (word_lt_of_byte hlt)
  refine .cons (will_seek hu.keeps hu.base hu.first (by omega) fun v1 hm1 ha1 hl1 => ?_)
  refine .cons (performs_load8 hp hn hm1 ha1 hlt fun v2 hm2 hb hl2 => ?_).will
  have hleaves : Leaves wideNames v v2 :=
    (hu.leaves.trans hl1.mono).trans hl2.mono
  have hbase : v2.reg "%ml" = some (a : Int) := by
    rw [hl2 _ (by decide), hl1 _ (by decide), hu.base]
  refine .cons (k := 2) ?_
  split
  case isTrue hzero =>
    have hzero : i = 0 := by simpa using hzero
    subst hzero
    refine (Will.copy hb (Will.nil ?_)).mono
    refine ⟨hm2.put, by simp [reg_put, hbase], by simp, fun _ => ?_, hleaves.put⟩
    rw [reg_put_self, valueAt_succ, valueAt_zero]
    simp only [pow_zero, Nat.zero_add, Nat.one_mul, Nat.add_zero]
    rw [wrap32_of_isWord (small_isWord _)]
  case isFalse hne =>
    have hpos : 0 < i := Nat.pos_of_ne_zero (by simpa using hne)
    have hconst := hm2.constant (byteScale_mem hpos hi)
    have hvalue : v2.reg "%mv" = some (wrap32 (valueAt m a i)) := by
      rw [hl2 _ (by decide), hl1 _ (by decide), hu.value hpos]
    refine .append (.product hb hconst ?_)
    refine .sum (by simp [reg_put, hvalue]; rfl) (reg_put_self ..) (.nil ?_)
    refine ⟨hm2.put.put, by simp [reg_put, hbase], by simp, fun _ => ?_,
      hleaves.put.put⟩
    rw [reg_put_self, valueAt_succ]
    refine congrArg some (wrap32_congr ?_)
    rw [Int.add_emod, wrap32_emod, wrap32_emod, ← Int.add_emod]
    unfold byteScale
    push_cast
    rw [mul_comm]

/-- **Bytes are loaded one by one.** -/
theorem will_gatherBytes (hp : HasMemory p ns) (hn : n ≤ maxPages) (hm : KeepsBytes ns n m v)
    (hcount : count ≤ 4) (hpos : 0 < count) (ha : v.reg "%ma" = some (a : Int)) (hlt : a + count ≤ n * pageSize)
    (h : ∀ v', KeepsBytes ns n m v' → v'.reg "%mv" = some (wrap32 (valueAt m a count)) → v'.reg "%ma" = some (a : Int) → Leaves wideNames v v' → Q v') :
    Will p (count * 23 + 2) (gatherBytes ns count) v Q := by
  refine (Will.join_append (k := count * 23 + 1) (l := 1) (Will.join_append (.step (.copy ha
    (.nil ?_))))).mono
  refine (Will.loop (fun i hi u hu => will_gather hp hn (by omega) (by omega) hu) ?_).imp
    fun v1 h1 => Will.step (.copy h1.base (.nil (h _ h1.keeps.put ?_ (reg_put_self ..)
      h1.leaves.put)))
  · exact ⟨hm.put, reg_put_self .., fun _ => by simp [reg_put, ha], fun h => absurd h (by decide),
      (Leaves.refl _ v).put⟩
  · rw [reg_put_of_ne _ (by decide), h1.value hpos]

/-- Some bytes have been stored. -/
structure Scattered (ns : String) (n : Nat) (m : Nat → UInt8) (a : Nat) (x : Int) (v : View)
    (i : Nat) (u : View) : Prop where
  keeps : KeepsBytes ns n (overwrite m a i x) u
  base : u.reg "%ml" = some (a : Int)
  first : i = 0 → u.reg "%ma" = some (a : Int)
  value : u.reg "%mv" = some x
  leaves : Leaves wideNames v u

theorem will_scatter (hp : HasMemory p ns) (hn : n ≤ maxPages) (hi : i < 4) (hlt : a + i < n * pageSize)
    (hu : Scattered ns n m a x v i u) : Will p 32 (.join [seek i, copy "%m8" "%mv",
      .onlyIf (i != 0) (Emit.operate "%m8" .div (const (byteScale i))), Emit.call ns "rt/mem/store8"]) u
      (Scattered ns n m a x v (i + 1)) := by
  have hsmall := word_lt hn (word_lt_of_byte hlt)
  refine .cons (will_seek hu.keeps hu.base hu.first (by omega) fun v1 hm1 ha1 hl1 => ?_)
  have hvalue : v1.reg "%mv" = some x := by rw [hl1 _ (by decide), hu.value]
  refine .step (.copy hvalue ?_)
  have hbyte : ∀ u', u' = (v1.put "%m8" x).put "%m8" (x / 256 ^ i) →
      Will p 28 (.join [Emit.call ns "rt/mem/store8"]) u' (Scattered ns n m a x v (i + 1)) := by
    rintro u' rfl
    refine .cons (performs_store8 hp hn hm1.put.put
      (by simp [reg_put, ha1]) (reg_put_self ..) hlt fun v2 hm2 hl2 => Will.nil ?_).will
    have hbyte : byteOf (x / 256 ^ i) 0 = byteOf x i := by
      rw [byteOf_eq_iff, pow_zero, Int.ediv_one]
    rw [hbyte, ← overwrite_succ] at hm2
    refine ⟨hm2, ?_, by simp, ?_, ?_⟩
    · rw [hl2 _ (by decide)]
      simp [reg_put, hl1 "%ml" (by decide), hu.base]
    · rw [hl2 _ (by decide)]
      simp [reg_put, hvalue]
    · refine Leaves.trans ?_ hl2.mono
      exact (hu.leaves.trans hl1.mono).put.put
  refine .cons (k := 1) ?_
  unfold Script.onlyIf
  split
  case isTrue hne =>
    have hpos : 0 < i := Nat.pos_of_ne_zero (by simpa using hne)
    have hconst : (v1.put "%m8" x).reg (const (byteScale i)) = some (256 ^ i) :=
      hm1.put.constant (byteScale_mem hpos hi)
    exact .quotient (reg_put_self ..) hconst (by positivity) (hbyte _ rfl)
  case isFalse heq =>
    have hzero : i = 0 := by simpa using heq
    refine (Will.empty (hbyte _ ?_)).mono
    rw [hzero, pow_zero, Int.ediv_one, put_self (reg_put_self ..)]

/-- **Bytes are stored one by one.** -/
theorem will_scatterBytes (hp : HasMemory p ns) (hn : n ≤ maxPages) (hm : KeepsBytes ns n m v)
    (hcount : count ≤ 4) (ha : v.reg "%ma" = some (a : Int)) (hx : v.reg "%mv" = some x)
    (hlt : a + count ≤ n * pageSize)
    (h : ∀ v', KeepsBytes ns n (overwrite m a count x) v' → v'.reg "%mv" = some x → v'.reg "%ma" = some (a : Int) → Leaves wideNames v v' → Q v') :
    Will p (count * 32 + 2) (scatterBytes ns count) v Q := by
  refine (Will.join_append (k := count * 32 + 1) (l := 1) (Will.join_append (.step (.copy ha
    (.nil ?_))))).mono
  refine (Will.loop (fun i hi u hu => will_scatter hp hn (by omega) (by omega) hu) ?_).imp
    fun v1 h1 => Will.step (.copy h1.base (.nil (h _ h1.keeps.put ?_ (reg_put_self ..)
      h1.leaves.put)))
  · refine ⟨?_, reg_put_self .., fun _ => by simp [reg_put, ha], by simp [reg_put, hx],
      (Leaves.refl _ v).put⟩
    rw [overwrite_zero]
    exact hm.put
  · rw [reg_put_of_ne _ (by decide), h1.value]

/-! ### Words -/

section Aligned

variable {f : Nat → Int}

theorem byteAt_aligned (ha : a % 4 = 0) {j : Nat} (hj : j < 4) : byteAt f (a + j) = byteOf (f (a / 4)) j := by
  have h1 : (a + j) / 4 = a / 4 := by omega
  have h2 : (a + j) % 4 = j := by omega
  rw [byteAt, h1, h2]

theorem word_eq_valueAt (hword : IsWord (f (a / 4))) (hbytes : ∀ b, byteAt f b = m b)
    (ha : a % 4 = 0) : f (a / 4) = wrap32 (valueAt m a 4) := by
  have hvalue : valueAt m a 4 = littleEndian [byteOf (f (a / 4)) 0, byteOf (f (a / 4)) 1,
      byteOf (f (a / 4)) 2, byteOf (f (a / 4)) 3] := by
    unfold valueAt
    simp only [range_succ, range_zero, nil_append, cons_append, map_cons, map_nil, ← hbytes]
    rw [byteAt_aligned ha (by decide), byteAt_aligned ha (by decide), byteAt_aligned ha (by decide),
      byteAt_aligned ha (by decide)]
  rw [hvalue, wrap32_congr (littleEndian_word (f (a / 4))), wrap32_of_isWord hword]

theorem byteAt_update_aligned (hbytes : ∀ b, byteAt f b = m b) (ha : a % 4 = 0) (x : Int)
    (b : Nat) : byteAt (Function.update f (a / 4) x) b = overwrite m a 4 x b := by
  rw [byteAt_update]
  unfold overwrite
  by_cases hb : b / 4 = a / 4
  · rw [if_pos hb, if_pos (by omega), show b - a = b % 4 by omega]
  · rw [if_neg hb, if_neg (by omega), hbytes]

end Aligned

/-- A word at an aligned address is handled as a whole, any other one byte by byte. -/
theorem performs_unlessAligned {name path : String} {f : Nat → Int} {s : Script} {rest : List Script} {k l : Nat}
    (hp : HasMemory p ns) (hk : Keeps ns n f v) (ha : v.reg "%ma" = some (a : Int))
    (hhas : p.Has ns name (.join (Emit.call ns "rt/mem/locate" :: unlessAligned ns path :: rest)))
    (hplain : (Script.join (Emit.call ns "rt/mem/locate" :: unlessAligned ns path :: rest)).Plain) (hs : p.Has ns path s) (hbytes : s.Plain)
    (hl : l ≤ k) (h : ∀ v1, Keeps ns n f v1 → Names ns (a / 4) v1 → Leaves locateNames v v1 →
      (a % 4 = 0 → Will p l (.join rest) v1 Q) ∧ Whole p k s (v1.entering (inNamespace ns path)) Q) :
    Performs p ns name (k + 1 + 11) v Q := by
  refine ⟨_, hhas, hplain, .cons (will_locate hp (hk.entering _) (by rwa [entering_reg]) fun v1 h1 => ?_)⟩
  obtain ⟨hword, hbytewise⟩ := h v1 (h1.keeps (hk.entering _)) h1.arguments ((Leaves.entering _ v _).trans h1.leaves)
  have htest := tests_isNot h1.place 0
  by_cases hal : a % 4 = 0
  · rw [decide_eq_false (by omega)] at htest
    exact .of_will (Will.mono (.step (.given_false rfl htest (hword hal))))
  · rw [decide_eq_true (by omega)] at htest
    exact .given_jump htest hs hbytes hbytewise

/-! ### Double words -/

theorem valueAt_eight (m : Nat → UInt8) (a : Nat) : valueAt m a 8 = valueAt m a 4 + 2 ^ 32 * valueAt m (a + 4) 4 := by
  simp only [valueAt_succ, valueAt_zero, Nat.add_assoc, Nat.reduceAdd]
  omega

/-- The words of the number in eight bytes. -/
theorem split64_valueAt (m : Nat → UInt8) (a : Nat) :
    split64 (valueAt m a 8) = (wrap32 (valueAt m a 4), wrap32 (valueAt m (a + 4) 4)) := by
  have hlow := valueAt_lt m a 4
  have hhigh := valueAt_lt m (a + 4) 4
  have hmod : Int.emod (valueAt m a 8 : Int) (2 ^ 64) = valueAt m a 4 + 2 ^ 32 * valueAt m (a + 4) 4 := by
    rw [valueAt_eight]
    show ((valueAt m a 4 + 2 ^ 32 * valueAt m (a + 4) 4 : Nat) : Int) % 2 ^ 64 = _
    omega
  unfold split64
  simp only [hmod, Prod.mk.injEq]
  exact ⟨wrap32_congr (by omega), wrap32_congr (by omega)⟩

/-- The bytes of two words are those of the number with these words. -/
theorem overwrite_words (m : Nat → UInt8) (a : Nat) (low high : Int) :
    overwrite (overwrite m a 4 low) (a + 4) 4 high = overwrite m a 8 (joinWords low high) := by
  have hjoin : joinWords low high = high % 2 ^ 32 * 2 ^ 32 + low % 2 ^ 32 := rfl
  have hlow : ∀ j < 4, byteOf (joinWords low high) j = byteOf low j :=
    fun j hj => byteOf_congr (by rw [hjoin]; omega) hj
  have hhigh : ∀ j < 4, byteOf (joinWords low high) (j + 4) = byteOf high j := by
    intro j hj
    have hdiv : joinWords low high / 256 ^ (j + 4) = high % 2 ^ 32 / 256 ^ j := by
      rw [pow_add, mul_comm, ← Int.ediv_ediv_of_nonneg (by positivity)]
      congr 1
      omega
    have hword : byteOf (high % 2 ^ 32) j = byteOf high j := byteOf_congr (by omega) hj
    rw [byteOf_eq_iff] at hword ⊢
    rw [hdiv, hword]
  funext b
  unfold overwrite
  by_cases hb1 : a + 4 ≤ b ∧ b < a + 4 + 4
  · rw [if_pos hb1, if_pos (by omega), show b - a = b - (a + 4) + 4 by omega, hhigh _ (by omega)]
  · rw [if_neg hb1]
    by_cases hb2 : a ≤ b ∧ b < a + 4
    · rw [if_pos hb2, if_pos (by omega), hlow _ (by omega)]
    · rw [if_neg hb2, if_neg (by omega)]

theorem will_secondWord (ha : u.reg "%ma" = some (a : Int)) (hlt : a + 4 < 2 ^ 31)
    (h : Q (u.put "%ma" ((a + 4 : Nat) : Int))) : Will p 1 (add "%ma" 4) u Q := by
  refine .add ⟨by decide, by decide⟩ (by decide) ha ?_
  rwa [wrap32_of_isWord ⟨by omega, by omega⟩]

/-! ### Single routines -/

section Routines

variable (hp : HasMemory p ns) (hn : n ≤ maxPages) (hm : KeepsBytes ns n m v) (ha : v.reg "%ma" = some (a : Int))

include hp hn hm ha

/-- **Two bytes are loaded.** -/
theorem performs_load16 (hlt : a + 2 ≤ n * pageSize)
    (h : ∀ v', KeepsBytes ns n m v' → v'.reg "%mv" = some (valueAt m a 2 : Int) → Q v') :
    Performs p ns "rt/mem/load16" 48 v Q := by
  have hhas := hp.nth 4 rfl
  refine ⟨_, hhas, ?_, Whole.of_will (will_gatherBytes hp hn (hm.entering _) (by decide) (by decide)
    (by rwa [entering_reg]) hlt fun v' hm' hv' _ _ => h v' hm' ?_)⟩
  · simp [gatherBytes, seek, range_succ]
  · have hsmall := valueAt_lt m a 2
    rw [hv', wrap32_of_isWord ⟨by omega, by omega⟩]

/-- **Two bytes are stored.** -/
theorem performs_store16 (hx : v.reg "%mv" = some x) (hlt : a + 2 ≤ n * pageSize)
    (h : ∀ v', KeepsBytes ns n (overwrite m a 2 x) v' → Q v') : Performs p ns "rt/mem/store16" 66 v Q := by
  have hhas := hp.nth 9 rfl
  refine ⟨_, hhas, ?_, Whole.of_will (will_scatterBytes hp hn (hm.entering _) (by decide)
    (by rwa [entering_reg]) (by rwa [entering_reg]) hlt fun v' hm' _ _ _ => h v' hm')⟩
  simp [scatterBytes, seek, range_succ]

/-- **Four bytes are loaded.** -/
theorem performs_load32 (hlt : a + 4 ≤ n * pageSize)
    (h : ∀ v', KeepsBytes ns n m v' → v'.reg "%mv" = some (wrap32 (valueAt m a 4)) → Leaves wideNames v v' → Q v') :
    Performs p ns "rt/mem/load32" 106 v Q := by
  obtain ⟨f, hk, hbytes⟩ := hm
  refine performs_unlessAligned (l := 3) hp hk ha (hp.nth 5 rfl) (by simp [unlessAligned, getWord]) (hp.nth 6 rfl)
    (by simp [gatherBytes, seek, range_succ]) (by decide) fun v1 hk1 hargs hl1 => ⟨fun hal => ?_, .of_will ?_⟩
  · refine .cons (will_getWord hp hk1 hn (word_lt_of_byte (by omega)) hargs fun v2 hk2 _ hw hl2 => ?_)
    refine .step (.copy hw (.nil (h _ ⟨f, hk2.put, hbytes⟩ ?_ (hl1.mono.trans hl2.mono).put)))
    rw [reg_put_self, word_eq_valueAt (hk.words _) hbytes hal]
  · exact will_gatherBytes hp hn ⟨f, hk1.entering _, hbytes⟩ (by decide) (by decide) (by rw [entering_reg, hl1 _ (by decide), ha])
      hlt fun v2 hm2 hv2 _ hl2 => h v2 hm2 hv2 ((hl1.mono.trans (.entering _ _ _)).trans hl2)

/-- **Four bytes are stored.** -/
theorem performs_store32 (hx : v.reg "%mv" = some x) (hlt : a + 4 ≤ n * pageSize)
    (h : ∀ v', KeepsBytes ns n (overwrite m a 4 x) v' → v'.reg "%mv" = some x → Leaves wideNames v v' → Q v') :
    Performs p ns "rt/mem/store32" 142 v Q := by
  obtain ⟨f, hk, hbytes⟩ := hm
  refine performs_unlessAligned (l := 3) hp hk ha (hp.nth 10 rfl) (by simp [unlessAligned, setWord]) (hp.nth 11 rfl)
    (by simp [scatterBytes, seek, range_succ]) (by decide) fun v1 hk1 hargs hl1 => ?_
  have hx1 : v1.reg "%mv" = some x := by rw [hl1 _ (by decide), hx]
  refine ⟨fun hal => .step (.copy hx1 ?_), .of_will ?_⟩
  · refine .cons (will_setWord hp hk1.put hn (word_lt_of_byte (by omega)) ?_ (reg_put_self ..)
      fun v2 hk2 hl2 => Will.nil (h _ ⟨_, hk2, byteAt_update_aligned hbytes hal x⟩ ?_ (hl1.mono.put.trans hl2.mono)))
    · unfold Names
      rw [put_stores]
      exact hargs
    · rw [hl2 _ not_mem_nil, reg_put_of_ne _ (by decide), hx1]
  · exact will_scatterBytes hp hn ⟨f, hk1.entering _, hbytes⟩ (by decide) (by rw [entering_reg, hl1 _ (by decide), ha])
      (by rwa [entering_reg]) hlt fun v2 hm2 hv2 _ hl2 => h v2 hm2 hv2 ((hl1.mono.trans (.entering _ _ _)).trans hl2)

/-- **Eight bytes are loaded.** -/
theorem performs_load64 (hlt : a + 8 ≤ n * pageSize)
    (h : ∀ v', KeepsBytes ns n m v' → v'.reg "%mv" = some (wrap32 (valueAt m a 4)) → v'.reg (.high "%mv") = some (wrap32 (valueAt m (a + 4) 4)) → Q v') :
    Performs p ns "rt/mem/load64" 221 v Q := by
  have hhas := hp.nth 7 rfl
  have hsmall := word_lt hn (word_lt_of_byte (a := a + 4) (by omega))
  refine ⟨_, hhas, by simp, Whole.of_will ?_⟩
  refine .step (.copy (by rwa [entering_reg]) ?_)
  refine .cons (performs_load32 hp hn ((hm.entering _).put) (a := a) (by simp [reg_put, ha])
    (by omega) fun v1 hm1 hv1 hl1 => ?_).will
  refine .step (.copy hv1 ?_)
  have hk1 : v1.reg "%mk" = some (a : Int) := by rw [hl1 _ (by decide), reg_put_self]
  refine .step (.copy (y := a) (by simp [reg_put, hk1]) ?_)
  refine .step (will_secondWord (reg_put_self ..) (by omega) ?_)
  refine .cons (performs_load32 hp hn hm1.put.put.put
    (reg_put_self ..) (by omega) fun v2 hm2 hv2 hl2 => ?_).will
  have hk2 : v2.reg "%mk" = some (a : Int) := by rw [hl2 _ (by decide)]; simp [reg_put, hk1]
  have hlo2 : v2.reg "%mlo" = some (wrap32 (valueAt m a 4)) := by rw [hl2 _ (by decide)]; simp [reg_put]
  have hhigh : (Reg.high "%mv").name = "%mvh" := by decide
  refine .step (.copy hv2 ?_)
  refine .step (.copy (y := wrap32 (valueAt m a 4)) (by simp [reg_put, hhigh, hlo2]) ?_)
  refine .step (.copy (y := a) (by simp [reg_put, hhigh, hk2]) (.nil ?_))
  refine h _ hm2.put.put.put (by simp [reg_put]) ?_
  simp [reg_put, hhigh]

/-- **Eight bytes are stored.** -/
theorem performs_store64 {low high : Int} (hlow : v.reg "%mv" = some low) (hhigh : v.reg (.high "%mv") = some high)
    (hlt : a + 8 ≤ n * pageSize) (h : ∀ v', KeepsBytes ns n (overwrite m a 8 (joinWords low high)) v' → Q v') :
    Performs p ns "rt/mem/store64" 293 v Q := by
  have hhas := hp.nth 12 rfl
  have hsmall := word_lt hn (word_lt_of_byte (a := a + 4) (by omega))
  have hname : (Reg.high "%mv").name = "%mvh" := by decide
  refine ⟨_, hhas, by simp, Whole.of_will ?_⟩
  refine .step (.copy (by rwa [entering_reg]) ?_)
  refine .cons (performs_store32 hp hn ((hm.entering _).put) (a := a) (by simp [reg_put, ha])
    (by simp [reg_put, hlow]; rfl) (by omega) fun v1 hm1 hv1 hl1 => ?_).will
  have hk1 : v1.reg "%mk" = some (a : Int) := by rw [hl1 _ (by decide), reg_put_self]
  have hhigh1 : v1.reg (.high "%mv") = some high := by rw [hl1 _ (by decide)]; simp [reg_put, hname, hhigh]
  refine .step (.copy hv1 ?_)
  refine .step (.copy (y := a) (by simp [reg_put, hk1]) ?_)
  refine .step (will_secondWord (reg_put_self ..) (by omega) ?_)
  refine .step (.copy (y := high) (by simp [reg_put, hname, hhigh1]) ?_)
  refine .cons (performs_store32 hp hn hm1.put.put.put.put (a := a + 4) (by simp [reg_put]) (reg_put_self ..) (by omega)
    fun v2 hm2 hv2 hl2 => ?_).will
  have hk2 : v2.reg "%mk" = some (a : Int) := by rw [hl2 _ (by decide)]; simp [reg_put, hk1]
  have hlo2 : v2.reg "%mlo" = some low := by rw [hl2 _ (by decide)]; simp [reg_put]
  rw [overwrite_words] at hm2
  refine .step (.copy hlo2 ?_)
  refine .step (.copy (y := a) (by simp [reg_put, hk2]) (.nil ?_))
  exact h _ hm2.put.put

end Routines

end ScoreWasm.Library
