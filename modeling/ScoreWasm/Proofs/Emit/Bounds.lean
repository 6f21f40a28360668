import ScoreWasm.Emit.Instr
import ScoreWasm.Proofs.Library.Division
import ScoreWasm.Proofs.Wasm.StepRules

/-!
# Bounds of memory accesses

Code that reads or writes memory first jumps to the trap if the access does not end within memory.
-/

namespace ScoreWasm.Machine

open Emit List

variable {p : Program} {ns name line path : String} {w : World} {T : List Score}
  {ss rest : List Step} {clauses : List Clause} {t : Script} {c : Command} {b : Scoreboard}

theorem calculate_goto (hm : met? b clauses = some true) :
    calculate b (.execute clauses (goto ns path)) = some (.invoke ⟨inNamespace ns path, none, true, []⟩, b) := by
  rw [calculate, hm]
  rfl

/-- Steps of which one jumps. -/
theorem runs_jump (k : ℕ) (hp : p.Has ns path t) (hplain : t.Plain) (hjump : ss.drop k = .command line (.ok c) :: rest)
    (hc : target c = []) (hT : targets (ss.take k) ⊆ T) (h : ∃ b, calculated? w.scores (ss.take k) = some b ∧
      calculate b c = some (.invoke ⟨inNamespace ns path, none, true, []⟩, b)) :
    Runs p [⟨name, ss, none, []⟩] [⟨inNamespace ns path, t.steps, none, []⟩] w (k + 1) (Differs T w) := by
  rw [← take_append_drop k ss, hjump]
  refine ((runs_calculated h hT).trans fun w1 h1 => ?_).mono (Nat.add_le_add_right (length_take_le ..) 1)
  obtain ⟨x, hx, hstep⟩ := carries h1.1 (by rw [hc]; nofun) line
  refine (Runs.enter hx hp hplain.needsNoArguments).mono (Nat.le_refl _) ?_
  rintro _ rfl
  exact h1.2.trans (hstep.trans ⟨⟨rfl, fun _ _ => rfl⟩, rfl⟩)

theorem calculated?_passed (hm : met? b clauses = some false) :
    calculated? b (.command line (.ok (.execute clauses c)) :: rest) = calculated? b rest := by
  rw [calculated?, calculate, hm]
  rfl

end ScoreWasm.Machine

namespace ScoreWasm.Emit

open Wasm Word Machine Library List

/-- How deep on the stack the address of an access is, its offset, and how many bytes it has. -/
def access? : Instr → Option (ℕ × ℤ × ℕ)
  | .load op arg => some (0, arg.offset, op.size)
  | .store op arg => some (1, arg.offset, op.size)
  | _ => none

variable {site : Site} {c : Checked} {s s' : Stack} {code : Script} {depth width : ℕ} {offset : ℤ}

theorem plainCode_access (h : plainCode site c s = .ok (code, s')) (haccess : access? c.instr = some (depth, offset, width)) :
    0 < width ∧ ∃ v tail, s.values[depth]? = some v ∧ code = boundsCheck site.ns (.slot v.slot) offset width ++ tail := by
  unfold plainCode at h
  unfold access? at haccess
  obtain ⟨values⟩ := s
  split at haccess
  case h_1 op arg heq =>
    cases haccess
    rw [heq] at h
    obtain _ | ⟨v, values⟩ := values <;> cases h
    exact ⟨op.size_pos, v, _, rfl, rfl⟩
  case h_2 op arg heq =>
    cases haccess
    rw [heq] at h
    obtain _ | ⟨u, _ | ⟨v, values⟩⟩ := values <;> cases h
    exact ⟨op.size_pos, v, _, rfl, rfl⟩
  case h_3 => cases haccess

theorem steps_add_zero (r : Reg) : (add r 0).steps = [] := rfl

section Check

attribute [local simp] met? isNegative atMost cmp copy_eq Reg.name Comparison.holds? trap jump targets target calculated?_passed calculate_goto

/-- **The bounds of an access are checked exactly.**  If it ends outside memory, its code goes on in the trap; otherwise
what comes after the check has the address of the access in a register.  Nothing wraps around: both registers hold what
they would with unbounded numbers. -/
theorem bounds_checked (hcode : plainCode site c s = .ok (code, s')) (haccess : access? c.instr = some (depth, offset, width))
    (hoffset : 0 ≤ offset) : ∃ v tail, s.values[depth]? = some v ∧ code = boundsCheck site.ns (.slot v.slot) offset width ++ tail ∧
      ∀ (p : Program) (t : Script) (name : String) (rest : List Step) (w : World) (a : BitVec 32) (n : ℕ),
        p.Has site.ns (trapPath .outOfBounds) t → t.Plain → w.scores.Live → w.scores.reg (.slot v.slot) = some a.toInt →
        w.scores.reg "%membytes" = some (65536 * n : ℤ) → n ≤ maxPages →
        if 65536 * n < a.toNat + offset + width then
          Runs p [⟨name, code.steps ++ rest, none, []⟩] [⟨inNamespace site.ns (trapPath .outOfBounds), t.steps, none, []⟩] w 5
            (Differs ([("%ma" : Reg), "%mo"].map Reg.score) w)
        else
          Runs p [⟨name, code.steps ++ rest, none, []⟩] [⟨name, tail.steps ++ rest, none, []⟩] w 6 fun w' =>
            w'.scores.reg "%ma" = some (a.toNat + offset) ∧ w'.scores.reg "%mo" = some (65536 * n - (offset + width)) ∧
            Differs ([("%ma" : Reg), "%mo"].map Reg.score) w w' := by
  obtain ⟨hwidth, v, tail, hv, rfl⟩ := plainCode_access hcode haccess
  refine ⟨v, tail, hv, rfl, fun p t name rest w a n hp hplain hlive ha hn hmax => ?_⟩
  obtain ⟨hword, ha', haw⟩ : wrap32 a.toInt = a.toInt ∧ (a.toNat : ℤ) = a.toInt % 2 ^ 32 ∧ -2 ^ 31 ≤ a.toInt ∧ a.toInt < 2 ^ 31 := by
    have := a.isLt
    rw [wrap32_eq, BitVec.toInt_eq_toNat_cond]
    split_ifs <;> omega
  unfold maxPages at hmax
  rw [Script.steps_append, append_assoc, boundsCheck, pageSize, maxPages, Int.add_assoc]
  generalize tail.steps ++ rest = rest
  generalize he : offset + width = e
  by_cases hfar : ((32767 * 65536 : ℕ) : ℤ) < e
  · simp only [if_pos hfar]
    rw [if_pos (by omega)]
    refine (runs_jump 0 hp hplain rfl rfl (nil_subset _) ?_).mono (by decide) fun _ h => h
    exact ⟨_, rfl, rfl⟩
  have hadd := add_eq "%mo" (n := -e) ⟨by rw [wrap32_eq]; omega, by omega, by unfold minInt; omega⟩
  have hmem : wrap32 (65536 * n : ℤ) = 65536 * n := by rw [wrap32_eq]; omega
  have hdiff : wrap32 (65536 * n + -e) = 65536 * n - e := by rw [wrap32_eq]; omega
  simp only [if_neg hfar, hadd]
  split_ifs with hout
  · by_cases hneg : a.toInt ≤ -1
    · refine (runs_jump 3 hp hplain rfl rfl (by simp) ?_).mono (by decide) fun _ h => h
      simp [hlive, ha, hn, hword, hneg]
    · have hgt : 65536 * n - e < a.toInt := by omega
      refine runs_jump 4 hp hplain rfl rfl (by simp [goto]) ?_
      simp [hlive, ha, hn, hword, hneg, hmem, hdiff, hgt]
  · have hneg : ¬a.toInt ≤ -1 := by omega
    have hgt : ¬65536 * n - e < a.toInt := by omega
    refine (runs_calculated (R := fun b => b.reg "%ma" = some (a.toNat + offset) ∧
      b.reg "%mo" = some (65536 * n - e)) ?_ ?_).mono ?_ fun _ h => ⟨h.1.1, h.1.2, h.2⟩
    all_goals
      rcases hoffset.eq_or_lt with rfl | hpos
      · simp [hlive, ha, hn, hword, hneg, goto, hmem, hdiff, hgt, steps_add_zero]
        try omega
      · have hadd := add_eq "%ma" (n := offset) ⟨by rw [wrap32_eq]; omega, by omega, by unfold minInt; omega⟩
        simp [hlive, ha, hn, hword, hneg, hadd, goto, hmem, hdiff, hgt]
        try (rw [wrap32_eq]; omega)

/-- A word that begins in the last three bytes of a memory of one page. -/
theorem bounds_checked_last_bytes :
    ∃ (site : Site) (p : Program) (t : Script) (w : World) (code : Script) (s' : Stack),
      plainCode site ⟨.load (.whole .i32) ⟨2, 0⟩, 0, 1, none, none, none⟩ ⟨[⟨0, some .i32, none⟩]⟩ = .ok (code, s') ∧
      w.scores.reg (.slot 0) = some 65533 ∧ w.scores.reg "%membytes" = some 65536 ∧
      Runs p [⟨"", code.steps ++ [], none, []⟩] [⟨inNamespace site.ns (trapPath .outOfBounds), t.steps, none, []⟩] w 5
        (Differs ([("%ma" : Reg), "%mo"].map Reg.score) w) := by
  have hcode : plainCode ⟨"", .empty, 0, [], []⟩ ⟨.load (.whole .i32) ⟨2, 0⟩, 0, 1, none, none, none⟩ ⟨[⟨0, some .i32, none⟩]⟩ = .ok _ :=
    rfl
  obtain ⟨v, tail, hv, -, h⟩ := bounds_checked hcode rfl (by decide)
  cases hv
  let b : Scoreboard := ((⟨[objective], ∅⟩ : Scoreboard).put (.slot 0) 65533).put "%membytes" 65536
  have hb : b.reg (.slot 0) = some 65533 ∧ b.reg "%membytes" = some 65536 := by
    simp only [b, Scoreboard.reg_put]
    exact ⟨rfl, rfl⟩
  have hrun := h ⟨"", {(inNamespace "" (trapPath .outOfBounds), .ofLines [])}, .null, [], [], 0, true, id⟩ ⟨[], []⟩ "" []
    { World.fresh with scores := b } 65533 1 (by simp [Program.Has]) (by simp [Script.Plain, Script.All]) rfl hb.1 hb.2 (by decide)
  exact ⟨_, _, _, _, _, _, rfl, hb.1, hb.2, hrun⟩

end Check

end ScoreWasm.Emit
