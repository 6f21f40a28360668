import ScoreWasm.Machine.Call
import ScoreWasm.Proofs.Pack.Functions

/-!
# Linear memory is an array of bytes

Loads and stores of a compiled program, seen from outside.  A world keeps bytes if it shows a view that does
(`KeepsMemory`).  Reading memory gives these bytes (`readMemory_eq`), one access does to them what it should
(`Access.run_eq`), and so does every sequence of accesses.
-/

namespace ScoreWasm.Library

open Emit Machine Machine.View Word List

/-! ### Reading memory -/

section Reading

variable {w : World}

variable {k : Nat}

theorem itemAt_eq {items : Array Nbt} {d : Datum} {S : Set Nat} (hs : Heap.Stands w.heap (.list items) d S)
    {t : Nbt} (ht : items[k]? = some t) : ∃ e B, itemAt (k : Int) d w = .ok e w ∧ Heap.Stands w.heap t e B := by
  cases hs with
  | list _ hget _ size each =>
    rename_i a data P _ _
    obtain ⟨hk, -⟩ := Array.getElem?_eq_some_iff.mp ht
    have hlt : k < data.size := by omega
    have hdata : data[k]? = some data[k] := Array.getElem?_eq_getElem hlt
    refine ⟨data[k], P k, ?_, each k t _ ht hdata⟩
    simp only [itemAt, bind, EStateM.bind, MonadState.get, getThe, MonadStateOf.get, EStateM.get,
      hget, position?_of_lt hlt, Option.bind_some, hdata]
    rfl

theorem byteOf_unsigned (i : Int) (hk : k < 4) : UInt8.ofNat (i.emod (2 ^ 32) / 2 ^ (8 * k)).toNat = byteOf i k := by
  have hpos : 0 ≤ i.emod (2 ^ 32) / 2 ^ (8 * k) := Int.ediv_nonneg (Int.emod_nonneg _ (by decide)) (by positivity)
  have hpow : (2 : Int) ^ (8 * k) = 256 ^ k := by rw [pow_mul]; rfl
  rw [← byteOf_congr (show i % 2 ^ 32 % 2 ^ 32 = i % 2 ^ 32 by omega) hk, ← UInt8.toNat_inj,
    ← Int.natCast_inj, toNat_byteOf, UInt8.toNat_ofNat', hpow]
  show (((i % 2 ^ 32 / 256 ^ k).toNat % 2 ^ 8 : Nat) : Int) = _
  rw [hpow] at hpos
  change 0 ≤ i % 2 ^ 32 / 256 ^ k at hpos
  omega

variable {n : Nat} {f : Nat → Int} {d : Datum} {S : Set Nat}

theorem readByte_eq (hs : Heap.Stands w.heap (pagesOf pageWords n f) d S) {a : Nat}
    (ha : a < n * pageSize) : readByte d (a : Int) w = .ok (byteAt f a) w := by
  have hW := word_lt_of_byte ha
  have hpage : (Array.ofFn fun p : Fin n => Nbt.list (Array.ofFn fun i : Fin pageWords =>
      Nbt.int (f (p * pageWords + i))))[a / 4 / pageWords]?
      = some (.list (Array.ofFn fun i : Fin pageWords => .int (f (a / 4 / pageWords * pageWords + i)))) := by
    simp [page_lt hW]
  obtain ⟨page, B, hitem, hstands⟩ := itemAt_eq hs hpage
  have hword : (Array.ofFn fun i : Fin pageWords => Nbt.int (f (a / 4 / pageWords * pageWords + i)))[a / 4 % pageWords]?
      = some (.int (f (a / 4))) := by
    simp [place_lt hW, Nat.div_add_mod']
  obtain ⟨e, B', hitem', hstands'⟩ := itemAt_eq hstands hword
  cases hstands'
  have hquot : ∀ x y : Nat, Int.fdiv (x : Int) (y : Int) = ((x / y : Nat) : Int) := fun x y => by
    rw [Int.fdiv_eq_ediv_of_nonneg _ (Int.natCast_nonneg y), Int.natCast_ediv]
  have hrem : ∀ x y : Nat, Int.fmod (x : Int) (y : Int) = ((x % y : Nat) : Int) := fun x y => by
    rw [Int.fmod_eq_emod_of_nonneg _ (Int.natCast_nonneg y), Int.natCast_emod]
  unfold readByte
  rw [show (4 : Int) = ((4 : Nat) : Int) from rfl, show (16384 : Int) = ((pageWords : Nat) : Int) from rfl]
  simp only [hquot, hrem]
  rw [bind_ok hitem, bind_ok hitem']
  show EStateM.Result.ok (UInt8.ofNat _) w = _
  rw [Int.toNat_natCast, byteOf_unsigned _ (place_lt_four a)]
  rfl

/-- Bytes of memory are read one after the other. -/
theorem readBytes_eq (hs : Heap.Stands w.heap (pagesOf pageWords n f) d S) (count a : Nat)
    (done : List UInt8) (ha : a + count ≤ n * pageSize) :
    readBytes d count (a : Int) done w = .ok (done.reverse ++ (List.range count).map (fun i => byteAt f (a + i))) w
      := by
  induction count generalizing a done with
  | zero =>
    simp
    rfl
  | succ count ih =>
    rw [readBytes, bind_ok (readByte_eq hs (by omega))]
    have hmap : (List.range count).map (fun i => byteAt f (a + 1 + i))
        = (List.range count).map ((fun i => byteAt f (a + i)) ∘ Nat.succ) := by
      refine map_congr_left fun i _ => ?_
      rw [Function.comp, Nat.add_assoc, Nat.add_comm 1 i]
    rw [show ((a : Int) + 1) = ((a + 1 : Nat) : Int) by omega, ih (a + 1) _ (by omega),
      range_succ_eq_map, map_cons, map_map, hmap]
    simp

end Reading

/-- A world keeps bytes as linear memory of a number of pages. -/
def KeepsMemory (ns : String) (n : Nat) (m : Nat → UInt8) (w : World) : Prop :=
  ∃ v, Shows w v ∧ v.Sane ∧ KeepsBytes ns n m v

/-- Reading any part of memory gives bytes. -/
def ReadsAs (p : Program) (n : Nat) (m : Nat → UInt8) (w : World) : Prop :=
  ∀ a length : Nat, a + length ≤ n * pageSize →
    readMemory p a length w = .ok ((List.range length).map (fun i => m (a + i))) w

variable {p : Program} {ns : String} {n count : Nat} {m : Nat → UInt8} {w : World}

/-- **Reading memory gives the bytes that it keeps.** -/
theorem readMemory_eq (hns : p.namespaceName = ns) (hm : KeepsMemory ns n m w) : ReadsAs p n m w := by
  intro a length hlt
  obtain ⟨v, hw, -, f, hk, hbytes⟩ := hm
  obtain rfl : m = byteAt f := funext fun a => (hbytes a).symm
  unfold readMemory
  by_cases hzero : length = 0
  · subst hzero
    rfl
  have hfind : v.stores.find? (inNamespace ns "memory") [.key "pages"] = some (pagesOf pageWords n f) := by
    unfold Storages.find?
    rw [Nbt.lookup, Nbt.child?, hk.pages]
    rfl
  obtain ⟨d, B, hd, hs⟩ := hw.find? hfind
  have hsome : saysNothing d w = .ok false w := by
    have hpos : 0 < n := Nat.pos_of_ne_zero fun h => by simp [h] at hlt; omega
    cases hs with
    | list _ hget _ size _ =>
      rename_i a data _ _ _ _
      show EStateM.Result.ok ((((w.heap.get? a).map Container.size).getD 0) == 0) w = _
      rw [hget]
      simp only [Option.map_some, Option.getD_some, Container.size, ← size, Array.size_ofFn]
      rw [beq_eq_false_iff_ne.mpr (by omega)]
  rw [if_neg (by omega), bind_get, hns, show ns ++ ":memory" = inNamespace ns "memory" by
    rw [inNamespace, String.append_assoc]; rfl, hd]
  show (saysNothing d >>= _) w = _
  rw [bind_ok hsome]
  exact readBytes_eq hs length a [] hlt

/-! ### Accesses -/

/-- How much an access takes. -/
inductive Width where
  | byte
  | half
  | word
  | double
  deriving DecidableEq, Repr

/-- How many bytes an access is wide. -/
def Width.bytes : Width → Nat
  | byte => 1
  | half => 2
  | word => 4
  | double => 8

/-- The width as routine names give it. -/
def Width.bits : Width → String
  | byte => "8"
  | half => "16"
  | word => "32"
  | double => "64"

/-- An access to linear memory: a load, or a store of a number with two given words. -/
inductive Access where
  | load (width : Width) (address : Nat)
  | store (width : Width) (address : Nat) (low high : Int)
  deriving DecidableEq, Repr

namespace Access

variable {a : Nat} {v : View}

/-- The access is within `n` pages. -/
def Fits (n : Nat) : Access → Prop
  | load width address => address + width.bytes ≤ n * pageSize
  | store width address _ _ => address + width.bytes ≤ n * pageSize

instance (n : Nat) : DecidablePred (Fits n)
  | load width address => inferInstanceAs (Decidable (address + width.bytes ≤ n * pageSize))
  | store width address _ _ => inferInstanceAs (Decidable (address + width.bytes ≤ n * pageSize))

/-- The routine of the access. -/
def path : Access → String
  | load width _ => "rt/mem/load" ++ width.bits
  | store width _ _ _ => "rt/mem/store" ++ width.bits

/-- The registers that a caller sets: the address, and for a store the value. -/
def registers : Access → List (Reg × Int)
  | load _ address => [("%ma", address)]
  | store _ address low high => [("%ma", address), ("%m8", low), ("%mv", low), (.high "%mv", high)]

/-- Sets the registers and calls the routine. -/
def run (p : Program) (ns : String) (x : Access) : Run Unit := do
  x.registers.forM (fun r => writeScore r.1.score r.2)
  discard (runFunction p (inNamespace ns x.path) none)

/-- What an access makes of the bytes of memory: a store replaces those that it addresses by those of its
number, the lowest first. -/
def apply (m : Nat → UInt8) : Access → Nat → UInt8
  | load _ _ => m
  | store width address low high => overwrite m address width.bytes (joinWords low high)

/-- The registers in which a load gives the number at its address.  Bytes and half words are extended with
zeros; a register holds a word as a signed number. -/
def results (m : Nat → UInt8) : Access → List (Reg × Int)
  | load .byte address => [("%m8", valueAt m address 1)]
  | load .half address => [("%mv", valueAt m address 2)]
  | load .word address => [("%mv", wrap32 (valueAt m address 4))]
  | load .double address =>
    [("%mv", (split64 (valueAt m address 8)).1), (.high "%mv", (split64 (valueAt m address 8)).2)]
  | store _ _ _ _ => []

/-- The view with the registers set. -/
def prepare (x : Access) (v : View) : View := x.registers.foldl (fun v r => v.put r.1 (wrap32 r.2)) v

theorem forM_writeScore (rs : List (Reg × Int)) {w : World} {v : View} (hw : Shows w v)
    (hv : v.Sane) : ∃ w', (rs.forM (fun r => writeScore r.1.score r.2) : Run Unit) w = .ok () w'
      ∧ Shows w' (rs.foldl (fun v r => v.put r.1 (wrap32 r.2)) v)
      ∧ (rs.foldl (fun v r => v.put r.1 (wrap32 r.2)) v).Sane := by
  induction rs generalizing w v with
  | nil => exact ⟨_, rfl, hw, hv⟩
  | cons r rs ih =>
    obtain ⟨w', hrun, hw', hv'⟩ := ih (hw.put r.1 r.2) (hv.put r.1 (isWord_wrap32 r.2))
    refine ⟨w', ?_, hw', hv'⟩
    show (writeScore r.1.score r.2 >>= fun _ => rs.forM _) w = _
    rw [bind_ok (writeScore_put (hw.put? hv.live r.1 r.2))]
    exact hrun

theorem overwrite_congr (m : Nat → UInt8) (a : Nat) {x y : Int}
    (h : ∀ j < count, byteOf x j = byteOf y j) : overwrite m a count x = overwrite m a count y := by
  funext b
  unfold overwrite
  split
  · exact h _ (by omega)
  · rfl

theorem byteOf_joinWords (low high : Int) {j : Nat} (hj : j < 4) : byteOf (wrap32 low) j = byteOf (joinWords low high) j := by
  rw [byteOf_wrap32 _ hj]
  refine byteOf_congr ?_ hj
  show low % 2 ^ 32 = (high % 2 ^ 32 * 2 ^ 32 + low % 2 ^ 32) % 2 ^ 32
  omega

theorem joinWords_wrap32 (low high : Int) : joinWords (wrap32 low) (wrap32 high) = joinWords low high := by
  show wrap32 high % 2 ^ 32 * 2 ^ 32 + wrap32 low % 2 ^ 32 = _
  rw [wrap32_emod, wrap32_emod]
  rfl

theorem isWord_address (hn : n ≤ maxPages) (h : a + count ≤ n * pageSize) : IsWord (a : Int) := by
  have h1 : n * pageSize ≤ maxPages * pageSize := Nat.mul_le_mul_right _ hn
  have h2 : maxPages * pageSize < 2 ^ 31 := by decide
  constructor <;> omega

variable {width : Width}

section

variable (hp : HasMemory p ns) (hn : n ≤ maxPages) (hm : KeepsBytes ns n m v) (hlt : a + width.bytes ≤ n * pageSize)
include hp hn hm hlt

/-- A load gives the number at its address. -/
theorem performs_load : Performs p ns (load width a).path 293 ((load width a).prepare v)
      (fun v' => KeepsBytes ns n m v' ∧ ∀ r ∈ (load width a).results m, v'.reg r.1 = some r.2) := by
  have hprepare : (load width a).prepare v = v.put "%ma" a := by
    show v.put "%ma" (wrap32 a) = _
    rw [wrap32_of_isWord (isWord_address hn hlt)]
  have hk : KeepsBytes ns n m (v.put "%ma" a) := hm.put
  have ha : (v.put "%ma" a).reg "%ma" = some (a : Int) := reg_put_self ..
  rw [hprepare]
  cases width with
  | byte =>
    refine (performs_load8 hp hn hk ha hlt fun v' hm' hv' _ => ?_).mono
    refine ⟨hm', forall_mem_singleton.mpr ?_⟩
    rw [hv', valueAt_succ, valueAt_zero]
    simp
  | half =>
    refine (performs_load16 hp hn hk ha hlt fun v' hm' hv' => ?_).mono
    exact ⟨hm', forall_mem_singleton.mpr hv'⟩
  | word =>
    refine (performs_load32 hp hn hk ha hlt fun v' hm' hv' _ => ?_).mono
    simp only [results, forall_mem_singleton]
    exact ⟨hm', hv'⟩
  | double =>
    refine (performs_load64 hp hn hk ha hlt fun v' hm' hlow hhigh => ?_).mono
    simp only [results, split64_valueAt, forall_mem_cons]
    exact ⟨hm', hlow, hhigh, nofun⟩

/-- A store replaces the bytes at its address. -/
theorem performs_store {low high : Int} :
    Performs p ns (store width a low high).path 293 ((store width a low high).prepare v)
      (KeepsBytes ns n (overwrite m a width.bytes (joinWords low high))) := by
  have hprepare : (store width a low high).prepare v
      = (((v.put "%ma" a).put "%m8" (wrap32 low)).put "%mv" (wrap32 low)).put (.high "%mv") (wrap32 high) := by
    show (((v.put "%ma" (wrap32 a)).put _ _).put _ _).put _ _ = _
    rw [wrap32_of_isWord (isWord_address hn hlt)]
  have hname : (Reg.high "%mv").name = "%mvh" := by decide
  rw [hprepare]
  generalize hu : (((v.put "%ma" a).put "%m8" (wrap32 low)).put "%mv" (wrap32 low)).put (.high "%mv") (wrap32 high) = u
  have hk : KeepsBytes ns n m u := by
    rw [← hu]
    exact hm.put.put.put.put
  obtain ⟨ha, hbyte, hlow, hhigh⟩ : u.reg "%ma" = some (a : Int) ∧ u.reg "%m8" = some (wrap32 low) ∧
      u.reg "%mv" = some (wrap32 low) ∧ u.reg (.high "%mv") = some (wrap32 high) := by
    simp [← hu, reg_put, hname]
  have hjoin : ∀ {count : Nat}, count ≤ 4 →
      overwrite m a count (wrap32 low) = overwrite m a count (joinWords low high) :=
    fun hcount => overwrite_congr m a fun j hj => byteOf_joinWords low high (by omega)
  cases width with
  | byte =>
    refine (performs_store8 hp hn hk ha hbyte hlt fun v' hm' _ => ?_).mono
    rw [show overwrite m a Width.byte.bytes (joinWords low high) = Function.update m a (byteOf (wrap32 low) 0) by
      rw [← hjoin (show Width.byte.bytes ≤ 4 by decide)]
      exact (overwrite_succ m a 0 _).trans (by rw [overwrite_zero, Nat.add_zero])]
    exact hm'
  | half =>
    refine (performs_store16 hp hn hk ha hlow hlt fun v' hm' => ?_).mono
    exact hjoin (show 2 ≤ 4 by decide) ▸ hm'
  | word =>
    refine (performs_store32 hp hn hk ha hlow hlt fun v' hm' _ _ => ?_).mono
    exact hjoin (show 4 ≤ 4 by decide) ▸ hm'
  | double =>
    refine (performs_store64 hp hn hk ha hlow hhigh hlt fun v' hm' => ?_).mono
    rw [joinWords_wrap32] at hm'
    exact hm'

end

variable {x : Access}

/-- One access does what it should on a view. -/
theorem performs (hp : HasMemory p ns) (hn : n ≤ maxPages) (hm : KeepsBytes ns n m v)
    (hx : x.Fits n) : Performs p ns x.path 293 (x.prepare v)
      (fun v' => KeepsBytes ns n (x.apply m) v' ∧ ∀ r ∈ x.results m, v'.reg r.1 = some r.2) := by
  cases x with
  | load width a => exact performs_load hp hn hm hx
  | store width a low high =>
    exact (performs_store hp hn hm hx).mono (Nat.le_refl _) fun v' h => ⟨h, fun r hr => absurd hr not_mem_nil⟩

/-- **One access does what it should.** -/
theorem run_eq (hp : HasMemory p ns) (hn : n ≤ maxPages) (hmax : 293 ≤ p.maxCommands) (hm : KeepsMemory ns n m w)
    (hx : x.Fits n) : ∃ w', x.run p ns w = .ok () w' ∧ KeepsMemory ns n (x.apply m) w'
      ∧ ∀ r ∈ x.results m, w'.scores.get? r.1.score = some r.2 := by
  obtain ⟨v, hw, hv, hbytes⟩ := hm
  obtain ⟨w1, hset, hw1, hv1⟩ := forM_writeScore x.registers hw hv
  obtain ⟨y, w2, hrun, v2, hw2, hv2, hbytes2, hresults⟩ := (performs hp hn hbytes hx).run hw1 hv1 (by omega)
  refine ⟨w2, ?_, ⟨v2, hw2, hv2, hbytes2⟩, fun r hr => (hw2.scores _).trans (scores_of_reg (hresults r hr))⟩
  unfold run
  rw [bind_ok hset]
  exact map_ok hrun

end Access

/-! ### Sequences of accesses -/

/-- A program does what accesses should do, one after the other: each of them ends well, a load gives the
number at its address, and afterwards memory reads as the bytes that the access makes of it. -/
def Behaves (p : Program) (ns : String) (n : Nat) : List Access → (Nat → UInt8) → World → Prop
  | [], _, _ => True
  | x :: rest, m, w => ∃ w', x.run p ns w = .ok () w' ∧ (∀ r ∈ x.results m, w'.scores.get? r.1.score = some r.2)
    ∧ ReadsAs p n (x.apply m) w' ∧ Behaves p ns n rest (x.apply m) w'

/-- All accesses of a sequence do what they should. -/
theorem behaves (hp : HasMemory p ns) (hns : p.namespaceName = ns) (hn : n ≤ maxPages) (hmax : 293 ≤ p.maxCommands)
    {accesses : List Access} {m : Nat → UInt8} {w : World} (hm : KeepsMemory ns n m w)
    (hfits : ∀ x ∈ accesses, x.Fits n) : Behaves p ns n accesses m w := by
  induction accesses generalizing m w with
  | nil => trivial
  | cons x rest ih =>
    obtain ⟨w', hrun, hm', hresults⟩ := Access.run_eq hp hn hmax hm (hfits x (mem_cons_self ..))
    exact ⟨w', hrun, hresults, readMemory_eq hns hm', ih hm' fun y hy => hfits y (mem_cons_of_mem x hy)⟩

end ScoreWasm.Library
