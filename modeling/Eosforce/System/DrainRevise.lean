import Eosforce.Lib.Loop
import Eosforce.System.PunishFrame

/-!
# The revision of the drain blocks

`drainblock_revise` looks for a row with a wrong number of drain blocks, erases it, and begins again
from the first row, until a pass through the table finds none.

* `drainblockScan`: one round of its loop. `drainblockPass_spec`: what a pass finds.
* `drainblockScan_ends`: each round but the last makes the table smaller, so the loop ends.
* `drainblockRevise_erases`: the wrong rows are gone, the others are as they were, and the result is
  their sum.
* `monitorevise_revises`: which bps `monitorevise` does this for, and what it does to their monitor
  rows.
-/

namespace Eosforce.System

open Fallible Keyed Loops

variable {env : Env} {s s' : State} {b q : Name} {tbl tbl' : Table Nat Nat}

/-! ## One pass -/

/-- One round of the loop of `drainblock_revise`. -/
def drainblockScan (tbl : Table Nat Nat) : Table Nat Nat ⊕ (Table Nat Nat × Int) :=
  match drainblockPass 0 tbl.rows with
  | .inl block => .inl (tbl.erase block)
  | .inr result => .inr (tbl, result)

/-- The number of drain blocks in a table. -/
def drainSum (tbl : Table Nat Nat) : Int := tbl.sum fun _ num => (num : Int)

/-- A pass that stops has found a wrong row, and one that does not has added up all rows. -/
theorem drainblockPass_spec (result : Int) (rows : List (Nat × Nat)) :
    (∀ block, drainblockPass (i32 result) rows = .inl block →
      ∃ num, (block, num) ∈ rows ∧ wrongDrainBlock < num) ∧
    ∀ sum, drainblockPass (i32 result) rows = .inr sum →
      (∀ p ∈ rows, p.2 ≤ wrongDrainBlock) ∧
        sum = i32 (result + (rows.map fun p => (p.2 : Int)).sum) := by
  induction rows generalizing result with
  | nil =>
    refine ⟨nofun, fun sum h => ⟨nofun, ?_⟩⟩
    cases h
    rw [List.map_nil, List.sum_nil, Int.add_zero]
  | cons p rows ih =>
    obtain ⟨block, num⟩ := p
    unfold drainblockPass
    split
    · rename_i hwrong
      refine ⟨fun b h => ?_, nofun⟩
      cases h
      exact ⟨num, List.mem_cons_self, hwrong⟩
    · rename_i hright
      rw [i32_i32_add]
      obtain ⟨hstop, hend⟩ := ih (result + num)
      refine ⟨fun b h => ?_, fun sum h => ?_⟩
      · obtain ⟨num', hmem, hwrong⟩ := hstop b h
        exact ⟨num', List.mem_cons_of_mem _ hmem, hwrong⟩
      · obtain ⟨hall, hsum⟩ := hend sum h
        refine ⟨List.forall_mem_cons.mpr ⟨Nat.not_lt.mp hright, hall⟩, ?_⟩
        rw [hsum, List.map_cons, List.sum_cons, Int.add_assoc]

/-! ## The loop -/

/-- Some wrong rows of a table are erased. -/
def ErasesWrong (tbl tbl' : Table Nat Nat) : Prop :=
  ∀ block, tbl'.find block = tbl.find block ∨
    tbl'.find block = none ∧ ∃ num, tbl.find block = some num ∧ wrongDrainBlock < num

/-- **Step lemma.** A round that goes on erases a wrong row. -/
theorem drainblockScan_next {t : Table Nat Nat} (h : ErasesWrong tbl tbl')
    (hs : drainblockScan tbl' = .inl t) : ErasesWrong tbl t ∧ t.size < tbl'.size := by
  unfold drainblockScan at hs
  cases hp : drainblockPass 0 tbl'.rows with
  | inr sum =>
    rw [hp] at hs
    cases hs
  | inl block =>
    rw [hp] at hs
    cases hs
    obtain ⟨num, hmem, hwrong⟩ := (drainblockPass_spec 0 tbl'.rows).1 block hp
    have hfind := Table.mem_rows.mp hmem
    have hsize := Table.size_erase_of_find hfind
    refine ⟨fun k => ?_, by omega⟩
    rw [Table.find_erase]
    by_cases hk : block = k
    · rw [if_pos hk]
      subst hk
      refine .inr ⟨rfl, num, ?_, hwrong⟩
      rcases h block with hsame | ⟨hnone, -⟩
      · exact hsame.symm.trans hfind
      · cases hnone.symm.trans hfind
    · rw [if_neg hk]
      exact h k

/-- The table without its wrong rows, with the sum of its drain blocks. -/
structure Revised (tbl : Table Nat Nat) (r : Table Nat Nat × Int) : Prop where
  rows : ∀ block, r.1.find block =
    (tbl.find block).filter fun num => decide (num ≤ wrongDrainBlock)
  sum : r.2 = i32 (drainSum r.1)

/-- A round that ends the loop has found no wrong row. -/
theorem drainblockScan_done {r : Table Nat Nat × Int} (h : ErasesWrong tbl tbl')
    (hs : drainblockScan tbl' = .inr r) : Revised tbl r := by
  unfold drainblockScan at hs
  cases hp : drainblockPass 0 tbl'.rows with
  | inl block =>
    rw [hp] at hs
    cases hs
  | inr sum =>
    rw [hp] at hs
    cases hs
    obtain ⟨hall, hsum⟩ := (drainblockPass_spec 0 tbl'.rows).2 sum hp
    rw [Int.zero_add] at hsum
    refine ⟨fun block => ?_, hsum⟩
    show tbl'.find block = _
    rcases h block with hsame | ⟨hnone, num, hfind, hwrong⟩
    · rw [← hsame]
      cases hf : tbl'.find block with
      | none => rfl
      | some num =>
        have hle : num ≤ wrongDrainBlock := hall _ (Table.mem_rows.mpr hf)
        rw [Option.filter_some, if_pos (decide_eq_true hle)]
    · rw [hnone, hfind, Option.filter_some, if_neg]
      simpa using hwrong

/-- With as many passes as the loop has rounds, `drainblock_revise` has its result. -/
theorem drainblockReviseFuel_eq {n fuel : Nat} {r : Table Nat Nat × Int}
    (h : Ends drainblockScan n tbl r) (hf : n ≤ fuel) : drainblockReviseFuel fuel tbl = r := by
  induction h generalizing fuel with
  | @done tbl r hs =>
    obtain ⟨fuel, rfl⟩ := Nat.exists_eq_add_of_le' hf
    unfold drainblockScan at hs
    rw [drainblockReviseFuel]
    cases hp : drainblockPass 0 tbl.rows with
    | inl block => rw [hp] at hs; cases hs
    | inr sum => rw [hp] at hs; cases hs; rfl
  | @next n tbl t r hs _ ih =>
    obtain ⟨fuel, rfl⟩ := Nat.exists_eq_add_of_le' (Nat.le_of_add_left_le hf)
    unfold drainblockScan at hs
    rw [drainblockReviseFuel]
    cases hp : drainblockPass 0 tbl.rows with
    | inr sum => rw [hp] at hs; cases hs
    | inl block =>
      rw [hp] at hs
      cases hs
      exact ih (Nat.le_of_add_le_add_right hf)

/-- The loop ends, in at most one round for each row and one more. -/
theorem drainblockScan_ends (tbl : Table Nat Nat) :
    ∃ n ≤ tbl.size + 1, Ends drainblockScan n tbl (drainblockRevise tbl) ∧
      Revised tbl (drainblockRevise tbl) := by
  obtain ⟨n, r, hn, hends, hr⟩ := ends_of_measure (I := ErasesWrong tbl) (m := Table.size)
    (Q := Revised tbl) (fun _ _ h hs => drainblockScan_next h hs)
    (fun _ _ h hs => drainblockScan_done h hs) (fun _ => .inl rfl)
  have heq : drainblockRevise tbl = r := drainblockReviseFuel_eq hends hn
  rw [heq]
  exact ⟨n, hn, hends, hr⟩

/-- For every table, `drainblock_revise` ends, erases the rows with more than `WRONG_DRAIN_BLOCK`
drain blocks, leaves the others as they are, and returns the sum of these where it is an
`int32_t`. -/
theorem drainblockRevise_erases (tbl : Table Nat Nat) :
    (∃ n, Ends drainblockScan n tbl (drainblockRevise tbl)) ∧
      (∀ block, (drainblockRevise tbl).1.find block =
        (tbl.find block).filter fun num => decide (num ≤ wrongDrainBlock)) ∧
      (drainSum (drainblockRevise tbl).1 < 2 ^ 31 →
        (drainblockRevise tbl).2 = drainSum (drainblockRevise tbl).1) := by
  obtain ⟨n, -, hends, hr⟩ := drainblockScan_ends tbl
  refine ⟨⟨n, hends⟩, hr.rows, fun hfits => hr.sum.trans (i32_of_range ?_ hfits)⟩
  have hnonneg : 0 ≤ drainSum (drainblockRevise tbl).1 :=
    Table.sum_nonneg fun _ num _ => Int.natCast_nonneg num
  omega

/-- Two wrong rows, at the begin and between two right ones. -/
theorem drainblockRevise_erases_two :
    (drainblockRevise ((((Table.put ∅ 3 10000001).put 5 4).put 7 20000000).put 9 6)).2 = 10 ∧
      (drainblockRevise ((((Table.put ∅ 3 10000001).put 5 4).put 7 20000000).put 9 6)).1.find 7 =
        none := by
  obtain ⟨-, hrows, hsum⟩ :=
    drainblockRevise_erases ((((Table.put ∅ 3 10000001).put 5 4).put 7 20000000).put 9 6)
  exact ⟨hsum (by decide), hrows 7⟩

/-! ## `monitorevise` -/

/-- The count of the monitor row is a wrong one. -/
def HasWrongCount (m : BpMonitor) : Prop := wrongDrainBlock < m.totalDrainBlock

/-- The drain blocks and the monitor row of the bp are revised. -/
structure RevisedAt (s s' : State) (q : Name) (m : BpMonitor) : Prop where
  drainblocks : s'.drainblocks.scope q = (drainblockRevise (s.drainblocks.scope q)).1
  bpmonitor : s'.bpmonitor.find q = some { m with
    totalDrainBlock := u32OfInt (drainblockRevise (s.drainblocks.scope q)).2
    bpStatus := .normal }

/-- The drain blocks and the monitor row of the bp are as they were. -/
structure KeptAt (s s' : State) (q : Name) : Prop where
  drainblocks : s'.drainblocks.scope q = s.drainblocks.scope q
  bpmonitor : s'.bpmonitor.find q = s.bpmonitor.find q

theorem reviseMonitor_self (s : State) (q : Name) (m : BpMonitor) :
    RevisedAt s (reviseMonitor s q m) q m :=
  ⟨Scoped.scope_setScope_self _ _ _, Table.find_put_self _ _ _⟩

theorem reviseMonitor_other (s : State) (m : BpMonitor) (hne : b ≠ q) :
    KeptAt s (reviseMonitor s b m) q :=
  ⟨(Scoped.scope_setScope _ _ _ _).trans (if_neg hne), Table.find_put_ne _ _ hne⟩

/-- The loop of `monitorevise` revises the bps of the rows with a wrong count, each once. -/
theorem reviseAll_at {rows : List (Name × BpMonitor)} (hnd : (rows.map Prod.fst).Nodup)
    (s : State) (q : Name) :
    (∃ m, (q, m) ∈ rows ∧ HasWrongCount m ∧ RevisedAt s (rows.foldl reviseRow s) q m) ∨
      (∀ m, (q, m) ∈ rows → ¬HasWrongCount m) ∧ KeptAt s (rows.foldl reviseRow s) q := by
  induction rows generalizing s with
  | nil => exact .inr ⟨nofun, rfl, rfl⟩
  | cons row rows ih =>
    obtain ⟨k, m⟩ := row
    rw [List.map_cons, List.nodup_cons] at hnd
    obtain ⟨hk, hnd⟩ := hnd
    rw [List.foldl_cons]
    have ih := ih hnd (reviseRow s (k, m))
    by_cases hkq : k = q
    · -- no later row is one of the bp
      subst hkq
      have hlater : ∀ m', (k, m') ∉ rows := fun m' hm =>
        hk (List.mem_map.mpr ⟨(k, m'), hm, rfl⟩)
      have hrest := ih.resolve_left fun ⟨m', hm, _⟩ => hlater m' hm
      by_cases hw : m.totalDrainBlock > wrongDrainBlock
      · rw [reviseRow, if_pos hw] at hrest ⊢
        have hself := reviseMonitor_self s k m
        exact .inl ⟨m, List.mem_cons_self, hw, hrest.2.drainblocks.trans hself.drainblocks,
          hrest.2.bpmonitor.trans hself.bpmonitor⟩
      · rw [reviseRow, if_neg hw] at hrest ⊢
        refine .inr ⟨fun m' hm => ?_, hrest.2⟩
        rcases List.mem_cons.mp hm with he | hm
        · cases he
          exact hw
        · exact absurd hm (hlater m')
    · have hkept : KeptAt s (reviseRow s (k, m)) q := by
        unfold reviseRow
        split
        · exact reviseMonitor_other s m hkq
        · exact ⟨rfl, rfl⟩
      rcases ih with ⟨m', hm, hw, hr⟩ | ⟨hno, hr⟩
      · refine .inl ⟨m', List.mem_cons_of_mem _ hm, hw, ?_, ?_⟩
        · rw [hr.drainblocks, hkept.drainblocks]
        · rw [hr.bpmonitor, hkept.drainblocks]
      · refine .inr ⟨fun m' hm => ?_, hr.drainblocks.trans hkept.drainblocks,
          hr.bpmonitor.trans hkept.bpmonitor⟩
        rcases List.mem_cons.mp hm with he | hm
        · exact absurd (Prod.mk.inj he).1 (Ne.symm hkq)
        · exact hno m' hm

/-- `monitorevise` revises the named bp if its count is wrong, and else all bps with a wrong
count. -/
theorem monitorevise_revises (h : monitorevise env s b = .ok s') (q : Name) :
    (∃ m, s.bpmonitor.find q = some m ∧ HasWrongCount m ∧ RevisedAt s s' q m) ∨
      ((∃ m, s.bpmonitor.find b = some m ∧ HasWrongCount m ∧ b ≠ q) ∨
        ∀ m, s.bpmonitor.find q = some m → ¬HasWrongCount m) ∧ KeptAt s s' q := by
  rcases monitorevise_cases h with ⟨m, hm, hw, rfl⟩ | rfl
  · by_cases hbq : b = q
    · subst hbq
      exact .inl ⟨m, hm, hw, reviseMonitor_self s b m⟩
    · exact .inr ⟨.inl ⟨m, hm, hw, hbq⟩, reviseMonitor_other s m hbq⟩
  · have hall := reviseAll_at s.bpmonitor.keys_nodup s q
    simp only [Table.mem_rows] at hall
    exact hall.imp_right fun hr => ⟨.inr hr.1, hr.2⟩

end Eosforce.System
