import Eosforce.Pledge.Deal
import Eosforce.System.Punish

/-!
# The deduction of a punished bp

The approval that punishes a bp has the pledge contract deal out the deduction of the bp, if
`exec_punish_bp` finds that there is something to deal out.

* `punishReward_spec`: the guard of `exec_punish_bp` is the precondition of `dealreward`.
* `approvebp_sends`: the rewarders are the proposer and the approvers in the schedule, of whom the
  one who decides is one.
* `approvebp_deals`: all checks of a `dealreward` that is sent pass, but for the room that the
  rewards need; one that is not sent would have failed.
-/

namespace Eosforce.System

open Fallible Keyed
open Eosforce.Pledge (PledgeInfo distributable dealt Fits RowValid RewardsValid)

variable {env : Env} {s s' : State} {bpname approver : Name} {fx : List Effect}

/-! ## The guard -/

/-- The pledge contract is told to deal out a deduction exactly if something of it is left over the
pledge. -/
theorem punishReward_spec {proposaler : Name} {approvers : List Name}
    (h : punishReward env bpname proposaler approvers = .ok fx) :
    (env.blockOutPledge bpname = none ∧ fx = []) ∨
      ∃ b, env.blockOutPledge bpname = some b ∧
        (fx = [] ∧ distributable b ≤ 0 ∨
          fx = [.dealreward Eosforce.blockOutPledge bpname (proposaler :: approvers) ""] ∧
            0 < distributable b ∧ b.deduction.symbol = b.pledge.symbol) := by
  unfold punishReward at h
  cases hb : env.blockOutPledge bpname with
  | none =>
    simp only [hb, pure_eq_ok] at h
    exact .inl ⟨rfl, h.symm⟩
  | some b =>
    have hzero : Asset.zero.amount = 0 := rfl
    simp only [hb, bind_eq_ok, Asset.le_eq_ok] at h
    obtain ⟨_, ⟨-, rfl⟩, h⟩ := h
    rw [hzero] at h
    refine .inr ⟨b, rfl, ?_⟩
    unfold distributable
    split at h
    · rename_i hle
      cases h
      rw [decide_eq_true_eq] at hle
      refine .inl ⟨rfl, ?_⟩
      split <;> omega
    · rename_i hgt
      rw [decide_eq_true_eq] at hgt
      simp only [bind_eq_ok, Asset.add_eq_ok, Asset.le_eq_ok, pure_eq_ok] at h
      obtain ⟨_, ⟨hsym, -, rfl⟩, _, ⟨-, rfl⟩, rfl⟩ := h
      rw [hzero]
      simp only [decide_eq_true_eq]
      split
      · refine .inl ⟨rfl, ?_⟩
        split <;> omega
      · refine .inr ⟨rfl, ?_, hsym⟩
        split <;> omega

/-! ## The rewarders -/

/-- An approval that does not punish sends nothing and leaves the proposal; one that punishes sends
what the guard says, with the approver among the rewarders. -/
theorem approvebp_sends (h : approvebp env s bpname approver = .ok (s', fx)) :
    (fx = [] ∧ (s'.punishbps.find bpname).isSome = true) ∨
      ∃ proposaler approvers, approver ∈ approvers ∧
        punishReward env bpname proposaler approvers = .ok fx := by
  simp only [approvebp, bind_eq_ok, check_eq_ok, fetch_eq_ok, exists_const] at h
  obtain ⟨_, -, super, hsuper, rfl, p, -, -, -, h⟩ := h
  split at h
  · cases h
    exact .inl ⟨rfl, by rw [Table.find_put_self]; rfl⟩
  · simp only [execPunishBp, bind_eq_ok, fetch_eq_ok, check_eq_ok, exists_const,
      Table.find_put_self, Option.some.injEq, exists_eq_left'] at h
    obtain ⟨-, approvers, happ, h⟩ := h
    split at h
    · cases h
      exact .inl ⟨rfl, by rw [Table.find_put_self]; rfl⟩
    · simp only [bind_eq_ok, fetch_eq_ok, check_eq_ok, pure_eq_ok, exists_const,
        Prod.mk.injEq] at h
      obtain ⟨m, -, -, fx', hfx, -, rfl⟩ := h
      refine .inr ⟨p.proposaler, approvers, ?_, hfx⟩
      -- the approver has just been found in the schedule
      obtain ⟨v, sch, hlast, rfl⟩ := superApprovers_eq (by simp) happ
      simp only [isSuperBp, show s.schedules.last = some (v, sch) from hlast, fetch, ok_bind,
        pure_eq_ok, List.any_eq_true, decide_eq_true_eq] at hsuper
      refine List.mem_filter.mpr ⟨by simp, decide_eq_true ?_⟩
      exact List.mem_map.mpr hsuper

/-! ## The inline action -/

/-- A `dealreward` that an approval sends divides by no zero and succeeds exactly if the rewards have
room for the shares, as they have while the contract is solvent; and where a punishing approval sends
none though there is a pledge row, the precondition of `dealreward` would have failed. -/
theorem approvebp_deals {p : Pledge.State} {q : Asset} (hpledges : env.pledges = p.pledge)
    (htype : p.pledgetype.find Eosforce.blockOutPledge = some ⟨systemAccount, q⟩)
    (hrows : p.pledge.All fun _ _ b => b.pledge.IsValid ∧ b.deduction.IsValid)
    (hrewards : RewardsValid p) (h : approvebp env s bpname approver = .ok (s', fx)) :
    (∀ n pledger rewarder memo, .dealreward n pledger rewarder memo ∈ fx →
      2 * (rewarder.length - 1) ≠ 0 ∧ ∃ b, p.pledge.find pledger n = some b ∧
        ((∃ p', Pledge.dealreward { env with auths := [systemAccount] } p n pledger rewarder memo =
            .ok p') ↔
          Fits p b.deduction.symbol (dealt (distributable b) rewarder)) ∧
        (Pledge.Ok p → Pledge.backing p ≤ Asset.maxAmount →
          Fits p b.deduction.symbol (dealt (distributable b) rewarder))) ∧
    (s'.punishbps.find bpname = none → fx = [] →
      ∀ b, p.pledge.find bpname Eosforce.blockOutPledge = some b →
        ∀ pre, Pledge.preAllot b = .ok pre → ¬0 < pre.amount) := by
  have hblock : env.blockOutPledge bpname = p.pledge.find bpname Eosforce.blockOutPledge :=
    congrArg (fun t => t.find bpname Eosforce.blockOutPledge) hpledges
  rcases approvebp_sends h with ⟨rfl, hleft⟩ | ⟨proposaler, approvers, happ, hfx⟩
  · refine ⟨nofun, fun hnone => ?_⟩
    rw [hnone] at hleft
    cases hleft
  have hspec := punishReward_spec hfx
  rw [hblock] at hspec
  rcases hspec with ⟨hnone, rfl⟩ | ⟨b, hb, ⟨rfl, hle⟩ | ⟨rfl, hpos, hsym⟩⟩
  · refine ⟨nofun, fun _ _ b hb => ?_⟩
    rw [hnone] at hb
    cases hb
  · refine ⟨nofun, fun _ _ b' hb' pre hpre => ?_⟩
    cases hb.symm.trans hb'
    rw [Pledge.preAllot_amount hpre]
    exact not_lt.mpr hle
  · refine ⟨fun n pledger rewarder memo hmem => ?_, nofun⟩
    cases List.mem_singleton.mp hmem
    have hlen : 0 < approvers.length := List.length_pos_of_mem happ
    refine ⟨by rw [List.length_cons]; omega, b, hb, ?_, fun hok hmax => hok.fits hb hmax hpos _⟩
    have hvalid : RowValid b := ⟨(hrows _ _ _ hb).1, (hrows _ _ _ hb).2, hsym⟩
    rw [Pledge.dealreward_ok_iff htype (List.mem_singleton.mpr rfl) hb hvalid hrewards hpos]
    exact and_iff_right (Nat.succ_le_succ hlen)

/-! ### One approval that punishes -/

/-- A lack of pledge of account 1 that account 3 has reported; one approval is enough. -/
def reported : State :=
  { schedules := Table.put ∅ 1 ⟨1, [⟨2, 0⟩]⟩
    bpmonitor := Table.put ∅ 1 { bpStatus := .lackPledge }
    punishbps := Table.put ∅ 1 { proposaler := 3, effectiveBlockNum := 100 }
    systemconfig := Table.put ∅ configApproveToPunishNum ⟨1, ""⟩ }

/-- 5 tokens were deducted from account 1. -/
def finedPledges : Pledge.State :=
  { pledgetype := Table.put ∅ Eosforce.blockOutPledge ⟨systemAccount, Asset.zero⟩
    pledge := (∅ : Scoped Name Name PledgeInfo).put 1 Eosforce.blockOutPledge
      ⟨Asset.zero, ⟨50000, coreSymbol⟩⟩ }

/-- Account 2 approves at block 4. -/
def approving : Env := { Env.of 2 4 with pledges := finedPledges.pledge }

theorem reported_sends : ∃ s', approvebp approving reported 1 2 =
    .ok (s', [.dealreward Eosforce.blockOutPledge 1 [3, 2] ""]) := ⟨_, rfl⟩

theorem finedPledges_rows :
    finedPledges.pledge.All fun _ _ b => b.pledge.IsValid ∧ b.deduction.IsValid :=
  Scoped.All.put (Scoped.all_empty _) (by decide)

/-- The 5 tokens are dealt out. -/
theorem approvebp_deals_reported : ∃ p', Pledge.dealreward
    { approving with auths := [systemAccount] } finedPledges Eosforce.blockOutPledge 1 [3, 2] "" =
      .ok p' := by
  obtain ⟨s', h⟩ := reported_sends
  obtain ⟨-, b, hb, hiff, -⟩ := (approvebp_deals (p := finedPledges) rfl rfl finedPledges_rows
    (Scoped.all_empty _) h).1 _ _ _ _ (List.mem_singleton.mpr rfl)
  cases hb
  refine hiff.mpr fun r hr => ⟨fun old hold => (by cases hold), ?_⟩
  have hin : r = 3 ∨ r = 2 := by simpa [dealt] using hr
  rcases hin with rfl | rfl <;> decide

/-- With a reward of account 2 that is as large as an asset can be, the `dealreward` fails and takes
the approval with it. -/
theorem full_reward_refuses :
    (∃ s', approvebp approving reported 1 2 =
      .ok (s', [.dealreward Eosforce.blockOutPledge 1 [3, 2] ""])) ∧
    Pledge.dealreward { approving with auths := [systemAccount] }
      { finedPledges with
        reward := (∅ : Scoped Name Nat Asset).put 2 coreSymbol.code ⟨Asset.maxAmount, coreSymbol⟩ }
      Eosforce.blockOutPledge 1 [3, 2] "" = .error "addition overflow" :=
  ⟨reported_sends, rfl⟩

end Eosforce.System
