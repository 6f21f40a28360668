import ScoreWasm.Proofs.Library.Words

/-!
# What the memory routines do

The routines that load and store, one after the other, on views that keep linear memory as pages of words.
-/

namespace ScoreWasm.Library

open Emit Machine Machine.View Word Text List Function

variable {es : List (String × Nbt)} {σ : Storages} {W a b : Nat} {x c : Int} {r : Reg} {m : Nat → UInt8}

/-! ### Registers -/

@[simp] theorem name_named (n : String) : (Reg.named n).name = n := rfl

/-- Only registers with some names change. -/
def Leaves (names : List String) (v v' : View) : Prop := ∀ r : Reg, r.name ∉ names → v'.reg r = v.reg r

namespace Leaves

variable {names more : List String} {v v1 v2 : View}

theorem refl (names : List String) (v : View) : Leaves names v v := fun _ _ => rfl

theorem trans (h1 : Leaves names v v1) (h2 : Leaves names v1 v2) : Leaves names v v2 :=
  fun r hr => (h2 r hr).trans (h1 r hr)

theorem mono (h : Leaves names v v1) (hsub : names ⊆ more := by decide) : Leaves more v v1 :=
  fun r hr => h r fun h => hr (hsub h)

theorem put {i : Int} (h : Leaves names v v1) (hr : r.name ∈ names := by decide) : Leaves names v (v1.put r i) := by
  intro s hs
  have hne : s.name ≠ r.name := fun heq => hs (by rwa [heq])
  rw [reg_put_of_ne i hne]
  exact h s hs

theorem entering (names : List String) (v : View) (name : String) : Leaves names v (v.entering name) :=
  fun r _ => entering_reg v name r

end Leaves

/-! ### Views with memory -/

/-- The numbers that the routines take from constant registers. -/
def memoryConstants : List Int := [4, 256, 65536, 16777216, 16384]

/-- A view keeps words as linear memory, ready for the routines. -/
structure Keeps (ns : String) (n : Nat) (f : Nat → Int) (v : View) : Prop where
  pages : Nbt.named? "pages" (v.stores (inNamespace ns "memory")) = some (pagesOf pageWords n f)
  arguments : ∃ es, Nbt.named? "m" (v.stores (inNamespace ns "rt")) = some (.compound es)
  words : ∀ i, IsWord (f i)
  constants : ∀ c ∈ memoryConstants, v.reg (const c) = some c

variable {p : Program} {ns : String} {n k : Nat} {f : Nat → Int} {v v' : View} {Q : View → Prop}

theorem inNamespace_inj {ns a b : String} : inNamespace ns a = inNamespace ns b ↔ a = b := by
  exact String.append_right_inj _

theorem rt_ne_memory (ns : String) : inNamespace ns "memory" ≠ inNamespace ns "rt" :=
  fun h => absurd (inNamespace_inj.mp h) (by decide)

namespace Keeps

theorem entering (hk : Keeps ns n f v) (name : String) : Keeps ns n f (v.entering name) :=
  ⟨by rw [entering_stores]; exact hk.pages, by rw [entering_stores]; exact hk.arguments, hk.words,
    fun c hc => by rw [entering_reg]; exact hk.constants c hc⟩

theorem put {i : Int} (hk : Keeps ns n f v)
    (hr : ∀ c ∈ memoryConstants, (const c).name ≠ r.name := by decide) : Keeps ns n f (v.put r i) :=
  ⟨by rw [put_stores]; exact hk.pages, by rw [put_stores]; exact hk.arguments, hk.words,
    fun c hc => by rw [reg_put_of_ne _ (hr c hc)]; exact hk.constants c hc⟩

end Keeps

/-- The arguments name the word `W`. -/
def Names (ns : String) (W : Nat) (v : View) : Prop :=
  ∃ es, Nbt.named? "m" (v.stores (inNamespace ns "rt")) = some (.compound es)
    ∧ Nbt.named? "p" es = some (.int (W / pageWords : Nat)) ∧ Nbt.named? "i" es = some (.int (W % pageWords : Nat))

/-! ### Reading and writing a word -/

theorem find?_arguments {id k : String} (h : Nbt.named? k (σ id) = some (.compound es)) :
    σ.find? id [.key k] = some (.compound es) := by
  unfold Storages.find?
  rw [Nbt.lookup, Nbt.child?, h]
  rfl

section Lines

variable (hp : Nbt.named? "p" es = some (.int (W / pageWords : Nat)))
  (hi : Nbt.named? "i" es = some (.int (W % pageWords : Nat)))

include hp hi

/-- The line that reads the word that the arguments name. -/
theorem fill_getWord : filled? es
      (.text ("execute store result score " ++ wordScore ++ " run data get storage ") :: wordPlace ns) ""
    = some ("" ++ ("execute store result score " ++ wordScore ++ " run data get storage ") ++ wordText ns W) := by
  simp [wordPlace, filled?, hp, hi, Nbt.isContainer, wordText, Nbt.outline, holeText, Snbt.write, String.append_assoc]

/-- The line that writes the word that the arguments name. -/
theorem fill_setWord : filled? es (.text "execute store result storage " :: wordPlace ns
      ++ [.text (" int 1 run scoreboard players get " ++ wordScore)]) ""
    = some ("" ++ "execute store result storage " ++ wordText ns W
        ++ (" int 1 run scoreboard players get " ++ wordScore)) := by
  simp [wordPlace, filled?, hp, hi, Nbt.isContainer, wordText, Nbt.outline, holeText, Snbt.write, String.append_assoc]

end Lines

/-- A program has the memory routines. -/
structure HasMemory (p : Program) (ns : String) : Prop where
  blank : Lacks ' ' ns
  routine : ∀ r ∈ wordRoutines ns ++ loadRoutines ns ++ storeRoutines ns, p.Has ns r.1 r.2

/-- The routine at a place of the list of them. -/
theorem HasMemory.nth (hp : HasMemory p ns) (i : Nat) {r : Routine}
    (h : (wordRoutines ns ++ loadRoutines ns ++ storeRoutines ns)[i]? = some r) : p.Has ns r.1 r.2 :=
  hp.routine r (mem_of_getElem? h)

/-- Memory is small enough for addresses to be scores. -/
theorem word_lt (hn : n ≤ maxPages) (hW : W < n * pageWords) : 4 * W + 4 < 2 ^ 31 := by
  have h1 : n * pageWords ≤ maxPages * pageWords := Nat.mul_le_mul_right _ hn
  have h2 : 4 * (maxPages * pageWords) + 4 < 2 ^ 31 := by decide
  omega

/-- The word that the arguments name is read. -/
theorem will_getWord (hp : HasMemory p ns) (hk : Keeps ns n f v) (hn : n ≤ maxPages)
    (hW : W < n * pageWords) (hargs : Names ns W v)
    (h : ∀ v', Keeps ns n f v' → Names ns W v' → v'.reg "%mw" = some (f W) → Leaves ["%mw"] v v' → Q v') :
    Will p 2 (getWord ns) v Q := by
  have hhas := hp.nth 0 rfl
  have hW32 : W < 2 ^ 32 := by
    have := word_lt hn hW
    omega
  obtain ⟨es, hes, hpage, hplace⟩ := id hargs
  refine .callWith hhas (find?_arguments hes) (fill_getWord hpage hplace) (parse_getWord hp.blank hW32) (fun hv => ?_)
    (h ((v.entering (inNamespace ns "rt/mem/get")).put "%mw" (f W)) ?_ ?_ (reg_put_self ..) ?_)
  · refine ⟨acts_readData (hv.entering _).live ?_ (hk.words W), (hv.entering _).put _ (hk.words W)⟩
    rw [entering_stores]
    show ((Nbt.named? "pages" (v.stores (inNamespace ns "memory"))).bind _) = _
    rw [hk.pages]
    exact lookup_pagesOf f hW
  · exact (hk.entering _).put
  · unfold Names
    rwa [put_stores, entering_stores]
  · intro r hr
    rw [reg_put_of_ne _ (by simpa using hr), entering_reg]

/-- The storages after a word was written. -/
theorem assign_word (hk : Keeps ns n f v) (hW : W < n * pageWords) (x : Int) :
    ∃ es, v.stores.assign (inNamespace ns "memory") (wordPath W) (.int x)
        = (true, v.stores.put (inNamespace ns "memory") es)
      ∧ Nbt.named? "pages" es = some (pagesOf pageWords n (update f W x)) := by
  have hentry : Nbt.assignEntry (.int x) [.index (W / pageWords : Nat), .index (W % pageWords : Nat)]
      (some (pagesOf pageWords n f)) = (true, some (pagesOf pageWords n (update f W x))) := by
    rw [Nbt.assignEntry, assign_pagesOf f hW]
  refine ⟨Nbt.setEntry "pages" (pagesOf pageWords n (update f W x)) (v.stores (inNamespace ns "memory")), ?_, ?_⟩
  · unfold Storages.assign wordPath
    simp only [Nbt.assignIn, hk.pages, hentry, Nbt.withEntry]
  · rw [Nbt.named?_setEntry, if_pos BEq.rfl]

theorem Keeps.withWord (hk : Keeps ns n f v) (hx : IsWord x)
    (hpages : Nbt.named? "pages" es = some (pagesOf pageWords n (update f W x))) :
    Keeps ns n (update f W x) (v.withStores (v.stores.put (inNamespace ns "memory") es)) := by
  refine ⟨?_, ?_, fun i => ?_, fun c hc => by rw [withStores_reg]; exact hk.constants c hc⟩
  · rw [withStores_stores, Storages.put, update_self]
    exact hpages
  · rw [withStores_stores, Storages.put, update_of_ne (rt_ne_memory ns).symm]
    exact hk.arguments
  · by_cases hi : i = W
    · rw [hi, update_self]
      exact hx
    · rw [update_of_ne hi]
      exact hk.words i

/-- The word that the arguments name is written. -/
theorem will_setWord (hp : HasMemory p ns) (hk : Keeps ns n f v) (hn : n ≤ maxPages)
    (hW : W < n * pageWords) (hargs : Names ns W v) (hx : v.reg "%mw" = some x)
    (h : ∀ v', Keeps ns n (update f W x) v' → Leaves [] v v' → Q v') : Will p 2 (setWord ns) v Q := by
  intro hv
  have hhas := hp.nth 1 rfl
  have hW32 : W < 2 ^ 32 := by
    have := word_lt hn hW
    omega
  obtain ⟨es, hes, hpage, hplace⟩ := id hargs
  obtain ⟨entries, hassign, hpages⟩ := assign_word (hk.entering _) hW x
  exact Will.callWith hhas (find?_arguments hes) (fill_setWord hpage hplace) (parse_setWord hp.blank hW32)
    (fun hv => ⟨acts_writeData (by rwa [entering_reg]) (hv.reg hx) hassign, (hv.entering _).withStores _⟩)
    (h _ ((hk.entering _).withWord (hv.reg hx) hpages) (fun r _ => by rw [withStores_reg, entering_reg])) hv

/-! ### Locating a word -/

theorem assign_argument {id k : String} (hm : Nbt.named? k (σ id) = some (.compound es))
    (key : String) (x : Nbt) : σ.assign id [.key k, .key key] x
      = (true, σ.put id (Nbt.setEntry k (.compound (Nbt.setEntry key x es)) (σ id))) := by
  unfold Storages.assign
  simp only [Nbt.assignIn, hm, Nbt.assignEntry, Nbt.assign, Nbt.accepts, Nbt.put, Nbt.withEntry]

theorem named?_argument {id k : String} (es : List (String × Nbt)) :
    Nbt.named? k ((σ.put id (Nbt.setEntry k (.compound es) (σ id))) id) = some (.compound es) := by
  unfold Storages.put
  rw [update_self, Nbt.named?_setEntry, if_pos BEq.rfl]

/-- The registers that locating a word changes. -/
def locateNames : List String := ["%mw", "%mb", "%mp", "%mi"]

/-- What locating an address does. -/
structure Located (ns : String) (a : Nat) (v v' : View) : Prop where
  arguments : Names ns (a / 4) v'
  place : v'.reg "%mb" = some ((a % 4 : Nat) : Int)
  memory : v'.stores (inNamespace ns "memory") = v.stores (inNamespace ns "memory")
  leaves : Leaves locateNames v v'

/-- Constant registers are none of the routines' own. -/
theorem constants_of_leaves {names : List String} (hk : Keeps ns n f v) (hleaves : Leaves names v v')
    (hnames : ∀ c ∈ memoryConstants, (const c).name ∉ names) : ∀ c ∈ memoryConstants, v'.reg (const c) = some c := by
  intro c hc
  rw [hleaves _ (hnames c hc)]
  exact hk.constants c hc

theorem Located.keeps (h : Located ns a v v') (hk : Keeps ns n f v) : Keeps ns n f v' := by
  obtain ⟨es, hes, -⟩ := h.arguments
  exact ⟨by rw [h.memory]; exact hk.pages, ⟨es, hes⟩, hk.words, constants_of_leaves hk h.leaves (by decide)⟩

/-- **An address is located: its word is named, and its place in the word is known.** -/
theorem will_locate (hp : HasMemory p ns) (hk : Keeps ns n f v) (ha : v.reg "%ma" = some (a : Int))
    (h : ∀ v', Located ns a v v' → Q v') : Will p 11 (Emit.call ns "rt/mem/locate") v Q := by
  have hhas := hp.nth 2 rfl
  have h4 : v.reg (const 4) = some 4 := hk.constants 4 (by decide)
  have hpage : v.reg (const (pageWords : Int)) = some 16384 := hk.constants 16384 (by decide)
  have hname4 : (const 4).name = "%c4" := by decide
  have hnamePage : (const (pageWords : Int)).name = "%c16384" := by decide
  obtain ⟨es, hes⟩ := hk.arguments
  refine .call hhas (by simp) (.of_will ?_)
  refine .step (.copy (y := a) (by simp [ha]) ?_)
  refine .step (.quotient (y := 4) (reg_put_self ..) (by simp [reg_put, hname4, h4]) (by decide) ?_)
  refine .step (.copy (y := a) (by simp [reg_put, ha]) ?_)
  refine .step (.remainder (y := 4) (reg_put_self ..) (by simp [reg_put, hname4, h4]) (by decide) ?_)
  refine .step (.copy (y := a / 4) (by simp [reg_put]) ?_)
  refine .step (.quotient (y := 16384) (reg_put_self ..) (by simp [reg_put, hnamePage, hpage]) (by decide) ?_)
  refine .step (.copy (y := a / 4) (by simp [reg_put]) ?_)
  refine .step (.remainder (y := 16384) (reg_put_self ..) (by simp [reg_put, hnamePage, hpage]) (by decide) ?_)
  refine .step (.writeData (x := a / 4 / 16384) (by simp [reg_put]) (assign_argument (by simpa using hes) "p" _) ?_)
  refine .step (.writeData (x := a / 4 % 16384) (by simp)
    (assign_argument (by rw [withStores_stores]; exact named?_argument _) "i" _) ?_)
  simp only [put_stores, entering_stores, withStores_stores]
  refine .nil (h _ ⟨⟨Nbt.setEntry "i" (.int (a / 4 % 16384)) (Nbt.setEntry "p" (.int (a / 4 / 16384)) es), ?_, ?_, ?_⟩,
    by simp [reg_put], ?_, fun r hr => ?_⟩)
  · rw [withStores_stores]
    exact named?_argument _
  · rw [Nbt.named?_setEntry, if_neg (by decide), Nbt.named?_setEntry, if_pos BEq.rfl]
    rfl
  · rw [Nbt.named?_setEntry, if_pos BEq.rfl]
    rfl
  · rw [withStores_stores, Storages.put, Storages.put, update_of_ne (rt_ne_memory ns), update_of_ne (rt_ne_memory ns)]
  · simp only [locateNames, mem_cons, not_mem_nil, or_false, not_or] at hr
    simp [reg_put, hr]

/-! ### Bytes of a word -/

/-- The factors of places other than the byte's are passed over. -/
theorem will_passScales {op : ScoreOp} {places : List Nat} (hplace : v.reg "%mb" = some (b : Int)) (hb : b ∉ places) (h : Q v) :
    Will p places.length (.join (places.map fun j : Nat => given [is "%mb" j] (Emit.operate r op (const (byteScale j))))) v Q := by
  induction places with
  | nil => exact .nil h
  | cons j places ih =>
    obtain ⟨hne, hb⟩ := not_or.mp (mt mem_cons.mpr hb)
    have htest := tests_is hplace (j : Int)
    rw [decide_eq_false (by omega)] at htest
    exact .step (.given_false rfl htest (ih hb))

section

variable (hk : Keeps ns n f v) (hb : b < 4) (hplace : v.reg "%mb" = some (b : Int))
  (hr : r.name ≠ "%mb") (hx : v.reg r = some x)
include hk hb hplace hr hx

/-- Only the factor of the byte's place is applied. -/
theorem will_scaleByPlace {op : ScoreOp} (hzero : b = 0 → Q v)
    (hscale : 0 < b → ∃ z, ScoreOp.outcome? op x (256 ^ b) = some z ∧ Q (v.put r (wrap32 z))) :
    Will p 3 (scaleByPlace r op) v Q := by
  rcases Nat.eq_zero_or_pos b with rfl | hpos
  · exact will_passScales hplace (by decide) (hzero rfl)
  obtain ⟨z, hz, hQ⟩ := hscale hpos
  obtain ⟨before, after, hplaces⟩ := append_of_mem (show b ∈ [1, 2, 3] by simp; omega)
  have hconst : v.reg (const (byteScale b)) = some (256 ^ b) := by
    refine hk.constants (256 ^ b) ?_
    interval_cases b <;> decide
  have hnodup : (before ++ b :: after).Nodup := hplaces ▸ (by decide)
  have htest := tests_is hplace (b : Int)
  rw [decide_eq_true rfl] at htest
  have hafter : (v.put r (wrap32 z)).reg "%mb" = some (b : Int) := by
    rw [reg_put_of_ne _ (fun h => hr h.symm), hplace]
  unfold scaleByPlace
  rw [hplaces, map_append, map_cons]
  have hlength := congrArg List.length hplaces
  refine (Will.join_append (will_passScales hplace ?_ (.step (.given_operate htest hx hconst hz
    (will_passScales hafter ?_ hQ))))).mono (by simp at hlength; omega)
  · exact fun h => (nodup_append.mp hnodup).2.2 b h b mem_cons_self rfl
  · exact (nodup_cons.mp (nodup_append.mp hnodup).2.1).1

/-- A register is divided by the factor of the byte's place. -/
theorem will_scaleDown (h : Q (v.put r (x / 256 ^ b))) : Will p 3 (scaleByPlace r .div) v Q := by
  intro hv
  refine will_scaleByPlace hk hb hplace hr hx (fun hzero => ?_) (fun _ => ⟨x / 256 ^ b, ?_, ?_⟩) hv
  · subst hzero
    rwa [pow_zero, Int.ediv_one, put_self hx] at h
  · exact outcome?_div (hv.reg hx) (by positivity)
  · rwa [wrap32_of_isWord (isWord_ediv (hv.reg hx) (by positivity))]

/-- A register is multiplied by the factor of the byte's place. -/
theorem will_scaleUp (h : Q (v.put r (wrap32 (x * 256 ^ b)))) : Will p 3 (scaleByPlace r .mul) v Q := by
  intro hv
  refine will_scaleByPlace hk hb hplace hr hx (fun hzero => ?_) (fun _ => ⟨wrap32 (x * 256 ^ b), rfl, ?_⟩) hv
  · subst hzero
    rwa [pow_zero, Int.mul_one, wrap32_of_isWord (hv.reg hx), put_self hx] at h
  · rwa [wrap32_wrap32]

end

/-- A byte of the words. -/
def byteAt (f : Nat → Int) (a : Nat) : UInt8 := byteOf (f (a / 4)) (a % 4)

theorem place_lt_four (a : Nat) : a % 4 < 4 := Nat.mod_lt a (by decide)

theorem byteAt_update (f : Nat → Int) (W : Nat) (w : Int) (a : Nat) :
    byteAt (update f W w) a = if a / 4 = W then byteOf w (a % 4) else byteAt f a := by
  unfold byteAt
  by_cases h : a / 4 = W
  · rw [if_pos h, h, update_self]
  · rw [if_neg h, update_of_ne h]

/-- The view keeps a memory of bytes. -/
def KeepsBytes (ns : String) (n : Nat) (m : Nat → UInt8) (v : View) : Prop :=
  ∃ f, Keeps ns n f v ∧ ∀ a, byteAt f a = m a

theorem KeepsBytes.put {i : Int} (h : KeepsBytes ns n m v)
    (hr : ∀ c ∈ memoryConstants, (const c).name ≠ r.name := by decide) : KeepsBytes ns n m (v.put r i) := by
  obtain ⟨f, hk, hbytes⟩ := h
  exact ⟨f, hk.put hr, hbytes⟩

theorem KeepsBytes.entering (h : KeepsBytes ns n m v) (name : String) : KeepsBytes ns n m (v.entering name) := by
  obtain ⟨f, hk, hbytes⟩ := h
  exact ⟨f, hk.entering name, hbytes⟩

theorem KeepsBytes.constant (h : KeepsBytes ns n m v) (hc : c ∈ memoryConstants) :
    v.reg (const c) = some c := by
  obtain ⟨f, hk, -⟩ := h
  exact hk.constants c hc

/-- The registers that loading and storing a byte change. -/
def byteNames : List String := ["%mw", "%mb", "%mp", "%mi", "%m8", "%mn", "%mz"]

theorem word_lt_of_byte (h : a < n * pageSize) : a / 4 < n * pageWords := by
  have : n * pageSize = n * pageWords * 4 := by
    rw [Nat.mul_assoc]
    rfl
  omega

section

variable (hp : HasMemory p ns) (hn : n ≤ maxPages) (hm : KeepsBytes ns n m v) (ha : v.reg "%ma" = some (a : Int))
include hp hn hm ha

/-- **A byte is loaded.** -/
theorem performs_load8 (hlt : a < n * pageSize)
    (h : ∀ v', KeepsBytes ns n m v' → v'.reg "%m8" = some ((m a).toNat : Int) → Leaves byteNames v v' → Q v') :
    Performs p ns "rt/mem/load8" 18 v Q := by
  obtain ⟨f, hk, hbytes⟩ := hm
  have hhas := hp.nth 3 rfl
  refine ⟨_, hhas, by simp [scaleByPlace, getWord], Whole.of_will ?_⟩
  refine .cons (will_locate hp (hk.entering _) (by rwa [entering_reg]) fun v1 h1 => ?_)
  refine .cons (will_getWord hp (h1.keeps (hk.entering _)) hn (word_lt_of_byte hlt) h1.arguments
    fun v2 hk2 _ hw hleaves => ?_)
  refine .step (.copy hw ?_)
  have hplace : v2.reg "%mb" = some ((a % 4 : Nat) : Int) := (hleaves _ (by decide)).trans h1.place
  have h256 : v2.reg (const 256) = some 256 := hk2.constants 256 (by decide)
  refine .cons (will_scaleDown hk2.put (place_lt_four a)
    (by rw [reg_put_of_ne _ (by decide)]; exact hplace) (by decide) (reg_put_self ..) ?_)
  refine .step (.remainder (reg_put_self ..)
    (by rw [reg_put_of_ne _ (by decide), reg_put_of_ne _ (by decide)]; exact h256) (by decide) ?_)
  refine .nil (h _ ⟨f, hk2.put.put.put, hbytes⟩ ?_ ?_)
  · rw [reg_put_self, ← hbytes a, byteAt, toNat_byteOf]
  · have hall := ((Leaves.entering byteNames v _).trans h1.leaves.mono).trans hleaves.mono
    exact hall.put.put.put

/-- **A byte is stored.** -/
theorem performs_store8 (hx : v.reg "%m8" = some x) (hlt : a < n * pageSize)
    (h : ∀ v', KeepsBytes ns n (update m a (byteOf x 0)) v' → Leaves byteNames v v' → Q v') :
    Performs p ns "rt/mem/store8" 27 v Q := by
  obtain ⟨f, hk, hbytes⟩ := hm
  have hhas := hp.nth 8 rfl
  have hW := word_lt_of_byte hlt
  refine ⟨_, hhas, by simp [scaleByPlace, getWord, setWord], Whole.of_will ?_⟩
  refine .cons (will_locate hp (hk.entering _) (by rwa [entering_reg]) fun v1 h1 => ?_)
  refine .cons (will_getWord hp (h1.keeps (hk.entering _)) hn hW h1.arguments
    fun v2 hk2 hargs hw hleaves => ?_)
  have hplace : v2.reg "%mb" = some ((a % 4 : Nat) : Int) := (hleaves _ (by decide)).trans h1.place
  have h256 : v2.reg (const 256) = some 256 := hk2.constants 256 (by decide)
  have hname : (const 256).name = "%c256" := by decide
  have hx2 : v2.reg "%m8" = some x := by
    rw [hleaves _ (by decide), h1.leaves _ (by decide), entering_reg, hx]
  -- The new byte, the old one, and their difference at the byte's place.
  refine .step (.copy hx2 ?_)
  refine .step (.remainder (y := 256) (reg_put_self ..) (by simp [reg_put, hname, h256]) (by decide) ?_)
  refine .step (.copy (y := f (a / 4)) (by simp [reg_put, hw]) ?_)
  refine .cons (will_scaleDown hk2.put.put.put
    (place_lt_four a) (by simp [reg_put, hplace]) (by decide) (reg_put_self ..) ?_)
  refine .step (.remainder (y := 256) (reg_put_self ..) (by simp [reg_put, hname, h256]) (by decide) ?_)
  refine .step (.difference (x := x % 256) (by simp [reg_put])
    (reg_put_self ..) ?_)
  have hword : IsWord (x % 256 - f (a / 4) / 256 ^ (a % 4) % 256) := by
    constructor <;> omega
  rw [wrap32_of_isWord hword]
  refine .cons (will_scaleUp hk2.put.put.put.put.put.put (place_lt_four a) (by simp [reg_put, hplace]) (by decide)
    (reg_put_self ..) ?_)
  refine .step (.sum (x := f (a / 4)) (by simp [reg_put, hw]) (reg_put_self ..) ?_)
  refine .cons (will_setWord hp hk2.put.put.put.put.put.put.put.put hn hW ?_
    (reg_put_self ..) fun v3 hk3 hleaves3 => ?_)
  · unfold Names
    simp only [put_stores]
    exact hargs
  refine .nil (h _ ⟨_, hk3, fun b => ?_⟩ ?_)
  · rw [byteAt_update]
    by_cases hb : b / 4 = a / 4
    · rw [if_pos hb, byteOf_replace _ _ (place_lt_four a) (place_lt_four b)]
      by_cases hab : b % 4 = a % 4
      · have : b = a := by omega
        rw [if_pos hab, this, update_self]
      · have : b ≠ a := fun h => hab (by rw [h])
        rw [if_neg hab, update_of_ne this, ← hbytes, byteAt, hb]
    · have : b ≠ a := fun h => hb (by rw [h])
      rw [if_neg hb, update_of_ne this, hbytes]
  · have hall := ((Leaves.entering byteNames v _).trans h1.leaves.mono).trans hleaves.mono
    refine Leaves.trans ?_ hleaves3.mono
    exact hall.put.put.put.put.put.put.put.put

end

end ScoreWasm.Library
