import Eosforce.Chain.Pledges
import Eosforce.Pledge.Growth
import Eosforce.System.Liveness

/-!
# Blocks never fail

A block deducts from the pledges of the producers that missed blocks. Where `eosio.pledge` refuses
a deduction, the block fails with it.

* `ChainStep`: a block comes first in its height, with enough producers.
* `Ready`: what `eosio.pledge` needs for the deductions of a block (`World.sendAll_ready`).
* `ChainInv`: what a chain keeps of all contracts.
* `onblock_never_fails`: every block of a chain succeeds with all that it sends, until its heights
  end.
-/

namespace Eosforce.Chain

open Fallible Keyed Relation Runs
open Eosforce.Pledge (Solvent Limited balance backing)

variable {env : Env} {w w' : World} {p q : Point} {D : Int}

/-- The system contract at a point. -/
def Point.system (p : Point) : System.Point := ⟨p.world.system, p.height⟩

/-- A step of a chain. -/
def ChainStep (p : Point) (a : Env × WorldAction) (q : Point) : Prop :=
  Step p a q ∧ ∀ b v, a.2 = .system (.onblock b v) → System.BlockStart p.system a.1

/-- The schedule version of a block. -/
def WorldAction.version : WorldAction → Option Nat
  | .system (.onblock _ v) => some v
  | _ => none

/-- The versions of the blocks, the oldest first. -/
def blockVersions (tr : Trace) : List Nat := tr.filterMap fun e => e.2.1.2.version

/-- What an action itself deducts from a `block.out` pledge. -/
def WorldAction.deducts : WorldAction → Int
  | .pledge a => a.deducts blockOutPledge
  | _ => 0

/-- What the actions of a run themselves deducted from `block.out` pledges. -/
def deducted (tr : Trace) : Int := (tr.map fun e => e.2.1.2.deducts).sum

theorem blockVersions_snoc (tr : Trace) (e : Point × (Env × WorldAction) × Point) :
    blockVersions (tr ++ [e]) = blockVersions tr ++ e.2.1.2.version.toList := by
  rw [blockVersions, List.filterMap_append, List.filterMap_cons]
  cases e.2.1.2.version <;> rfl

theorem deducted_snoc (tr : Trace) (e : Point × (Env × WorldAction) × Point) :
    deducted (tr ++ [e]) = deducted tr + e.2.1.2.deducts := by
  simp [deducted]

/-! ## What a block sends -/

/-- A settlement has at most one deduction for each producer of its row. -/
theorem rewardBlock_length {s s' : System.State} {b : Name} {v : Nat} {ch : Bool} {fx : List Effect}
    (hros : System.Rosters s) (h : System.rewardBlock env s b v ch = .ok (s', fx)) :
    fx.length ≤ System.numOfTopBps := by
  unfold System.rewardBlock at h
  split at h
  · cases h
    exact Nat.zero_le _
  · simp only [bind_eq_ok, fetch_eq_ok, pure_eq_ok, Prod.exists, Prod.mk.injEq] at h
    obtain ⟨sch, hsch, u, age, fx', hloop, br', -, -, rfl⟩ := h
    have hlen := foldlM_rest
      (I := fun rest (acc : System.State × Nat × List Effect) =>
        acc.2.2.length + rest.length ≤ sch.producers.zipIdx.length)
      (by simp) (fun x rest acc acc' hI hstep => ?_) hloop
    · have hroster := (hros _ _ hsch).length
      rw [List.length_zipIdx] at hlen
      rw [System.ScheduleInfo.names, List.length_map] at hroster
      simp only [List.length_nil] at hlen
      omega
    · rw [List.length_cons] at hI
      rcases settleProducer_sends hstep with hsame | ⟨y, -, happ⟩
      · rw [hsame]
        omega
      · rw [happ, List.length_append, List.length_singleton]
        omega

theorem settleRound_length {s s' : System.State} {b : Name} {v : Nat} {fx : List Effect}
    (hros : System.Rosters s) (hd : env.activeProducers.Nodup)
    (h : System.settleRound env s b v = .ok (s', fx)) : fx.length ≤ System.numOfTopBps := by
  unfold System.settleRound at h
  split at h
  · refine rewardBlock_length ?_ h
    exact Table.All.put hros (System.rosterRow_new hd)
  · split at h
    · exact rewardBlock_length hros h
    · cases h
      exact Nat.zero_le _

theorem onblock_sends {s s' : System.State} {b : Name} {v height : Nat} {fx : List Effect}
    (hros : System.Rosters s) (hstart : System.BlockStart ⟨s, height⟩ env)
    (h : System.onblock env s b v = .ok (s', fx)) :
    fx.length ≤ System.numOfTopBps + 1 ∧ ∀ x ∈ fx, IsBlockEffect env x := by
  obtain ⟨t, ded, u, elected, ht, -, hel, -, rfl⟩ := System.onblock_parts hstart.active h
  refine ⟨?_, onblock_effects h⟩
  rw [List.length_append]
  exact Nat.add_le_add (settleRound_length hros hstart.distinct ht) (electBps_sends hel).1

/-! ## The deductions of a block -/

/-- `eosio.pledge` is solvent, at most `D` is deducted in a `block.out` row, and the system contract
deducts core tokens from that type, if it is there. -/
structure Ready (D : Int) (w : World) : Prop where
  solvent : Solvent w.vault
  limited : Limited blockOutPledge D w.pledge
  type : ∀ t, w.pledge.pledgetype.find blockOutPledge = some t →
    t.deductionAccount = systemAccount ∧ t.pledge.symbol = coreSymbol
  balance : balance w.system pledgeAccount ≤ Asset.maxAmount

/-- A row stands for no more than the contract holds. -/
theorem Ready.backing_le (h : Ready D w) {v n : Name} {b : Pledge.PledgeInfo}
    (hb : w.pledge.pledge.find v n = some b) : b.backing ≤ Asset.maxAmount := by
  have hok : Pledge.Ok w.pledge := h.solvent.ok
  have hle : b.backing ≤ w.pledge.pledge.sum fun _ _ b => b.backing :=
    Scoped.le_sum (w := fun _ _ b => b.backing) (fun s k r hr => (hok.rows s k r hr).backed) hb
  have hrewards : 0 ≤ w.pledge.reward.sum fun _ _ r => r.amount :=
    Scoped.sum_nonneg fun s k r hr => (hok.rewards s k r hr).2
  have hbacked : backing w.pledge ≤ Pledge.balance w.system pledgeAccount := h.solvent.backed
  have hbal := h.balance
  unfold backing at hbacked
  omega

/-- A row that is written takes no pledge away. -/
theorem isDrainPunish_put {y : Effect} {u n : Name} {b : Pledge.PledgeInfo}
    (hy : IsDrainPunish (w.env env) y) :
    IsDrainPunish (World.env { w with pledge := { w.pledge with
      pledge := w.pledge.pledge.put u n b } } env) y := by
  cases y with
  | transfer | dealreward | setProposedProducers | setNeedCheckRamLimit | requireRecipient =>
    exact hy.elim
  | deduction m v x memo =>
    obtain ⟨hm, hq, hrow⟩ := hy
    refine ⟨hm, hq, ?_⟩
    show ((w.pledge.pledge.put u n b).find v blockOutPledge).isSome = true
    rw [Scoped.find_put]
    split
    · rfl
    · exact hrow

/-- A deduction of a block succeeds, and so can the others. -/
theorem World.send_ready {x : Effect} (hD : 0 ≤ D) (hw : Ready D w)
    (hroom : D + System.drainBlockPunish ≤ Asset.maxAmount) (hx : IsDrainPunish (w.env env) x) :
    ∃ w', w.send env systemAccount x = .ok w' ∧ Ready (D + System.drainBlockPunish) w' ∧
      ∀ y, IsDrainPunish (w.env env) y → IsDrainPunish (w'.env env) y := by
  cases x with
  | transfer | dealreward | setProposedProducers | setNeedCheckRamLimit | requireRecipient =>
    exact hx.elim
  | deduction m v x memo =>
    obtain ⟨rfl, rfl, hsome⟩ := hx
    obtain ⟨b, hb⟩ := Option.isSome_iff_exists.mp hsome
    have hb : w.pledge.pledge.find v blockOutPledge = some b := hb
    obtain ⟨⟨t, ht, htb⟩, hle⟩ := hw.limited _ _ _ hb
    obtain ⟨hauth, hsym⟩ := hw.type t ht
    have hle := hle rfl
    have hsucceeds : ∃ b', Pledge.deduction { w.env env with auths := [systemAccount] } w.pledge
        blockOutPledge v ⟨System.drainBlockPunish, coreSymbol⟩ memo =
          .ok { w.pledge with pledge := w.pledge.pledge.put v blockOutPledge b' } :=
      Pledge.deduction_succeeds ht (by simp [hauth]) hsym (htb.symm.trans hsym) (by decide) hb
        (hw.solvent.ok.rows _ _ _ hb) (hw.backing_le hb) (by simp only; omega)
    obtain ⟨b', hp⟩ := hsucceeds
    have hsend : w.send env systemAccount (.deduction blockOutPledge v
        ⟨System.drainBlockPunish, coreSymbol⟩ memo) = .ok { w with pledge :=
          { w.pledge with pledge := w.pledge.pledge.put v blockOutPledge b' } } :=
      bind_eq_ok.mpr ⟨_, hp, rfl⟩
    have hlim := Pledge.deduction_limited hD hw.limited hp
    rw [if_pos rfl] at hlim
    exact ⟨_, hsend, ⟨World.send_solvent (by decide) hw.solvent hsend, hlim, hw.type, hw.balance⟩,
      fun y hy => isDrainPunish_put hy⟩

/-- **Progress.** All that a block sends is done. -/
theorem World.sendAll_ready {fx : List Effect} : ∀ {w : World} {D : Int}, 0 ≤ D → Ready D w →
    D + fx.length * System.drainBlockPunish ≤ Asset.maxAmount →
    (∀ x ∈ fx, IsBlockEffect (w.env env) x) → ∃ w', w.sendAll env systemAccount fx = .ok w' := by
  induction fx with
  | nil => exact fun _ _ _ _ => ⟨_, rfl⟩
  | cons x fx ih =>
    intro w D hD hw hroom hfx
    have hpos : (0 : Int) ≤ System.drainBlockPunish := by decide
    have hlen : 0 ≤ (fx.length : Int) * System.drainBlockPunish :=
      Int.mul_nonneg (Int.natCast_nonneg _) hpos
    rw [List.length_cons, Nat.cast_succ, Int.add_mul, Int.one_mul] at hroom
    have hrest : ∃ w₁, w.send env systemAccount x = .ok w₁ ∧
        ∃ w', w₁.sendAll env systemAccount fx = .ok w' := by
      rcases hfx x List.mem_cons_self with hx | ⟨producers, rfl⟩
      · obtain ⟨w₁, hsend, hw₁, hkeep⟩ := World.send_ready hD hw (by omega) hx
        refine ⟨w₁, hsend, ih (by omega) hw₁ (by omega) fun y hy => ?_⟩
        exact (hfx y (List.mem_cons_of_mem x hy)).imp_left (hkeep y)
      · exact ⟨w, rfl, ih hD hw (by omega) fun y hy => hfx y (List.mem_cons_of_mem _ hy)⟩
    obtain ⟨w₁, hsend, w', hall⟩ := hrest
    exact ⟨w', by rw [World.sendAll, List.foldlM_cons, hsend]; exact hall⟩

/-! ## What the other actions deduct -/

theorem World.transfer_limited {src dst : Name} {q : Asset} {memo : String} (hD : 0 ≤ D)
    (hw : Limited blockOutPledge D w.pledge) (h : w.transfer env src dst q memo = .ok w') :
    Limited blockOutPledge D w'.pledge := by
  simp only [World.transfer, Pledge.runTransfer, bind_eq_ok, pure_eq_ok, Prod.exists] at h
  obtain ⟨c, ⟨s, fx, -, hc⟩, rfl⟩ := h
  split at hc
  · simp only [bind_eq_ok, pure_eq_ok] at hc
    obtain ⟨p, hp, rfl⟩ := hc
    exact Pledge.addpledge_limited hD hw hp
  · cases hc
    exact hw

/-- An inline action that deducts at most `k` raises the limit by that. -/
theorem World.send_limited {sender : Name} {x : Effect} {k : Int} (hD : 0 ≤ D) (hk : 0 ≤ k)
    (hx : ∀ m v q memo, x = .deduction m v q memo → q.amount ≤ k)
    (hw : Limited blockOutPledge D w.pledge) (h : w.send env sender x = .ok w') :
    Limited blockOutPledge (D + k) w'.pledge := by
  cases x with
  | transfer src dst q memo =>
    exact (World.transfer_limited hD hw h).mono (by omega)
  | deduction m v q memo =>
    simp only [World.send, bind_eq_ok, pure_eq_ok] at h
    obtain ⟨p, hp, rfl⟩ := h
    have hle := hx m v q memo rfl
    refine (Pledge.deduction_limited hD hw hp).mono ?_
    split <;> omega
  | dealreward =>
    simp only [World.send, bind_eq_ok, pure_eq_ok] at h
    obtain ⟨p, hp, rfl⟩ := h
    exact (Pledge.dealreward_limited hw hp).mono (by omega)
  | setProposedProducers | setNeedCheckRamLimit | requireRecipient =>
    cases h
    exact hw.mono (by omega)

theorem World.sendAll_limited {sender : Name} {fx : List Effect} {k : Int} (hk : 0 ≤ k)
    (hfx : ∀ m v q memo, .deduction m v q memo ∈ fx → q.amount ≤ k) :
    ∀ {w : World} {D : Int}, 0 ≤ D → Limited blockOutPledge D w.pledge →
      w.sendAll env sender fx = .ok w' →
      Limited blockOutPledge (D + fx.length * k) w'.pledge := by
  induction fx with
  | nil =>
    intro w D _ hw h
    cases h
    simpa using hw
  | cons x fx ih =>
    intro w D hD hw h
    rw [World.sendAll, List.foldlM_cons, bind_eq_ok] at h
    obtain ⟨w₁, hsend, h⟩ := h
    have hone := World.send_limited hD hk (fun m v q memo e => hfx m v q memo (e ▸ List.mem_cons_self))
      hw hsend
    have hall := ih (fun m v q memo hm => hfx m v q memo (List.mem_cons_of_mem x hm)) (by omega)
      hone h
    rw [List.length_cons, Nat.cast_succ, Int.add_mul, Int.one_mul, Int.add_comm _ k, ← Int.add_assoc]
    exact hall

/-- The most that one block deducts from a pledge. -/
def blockDeduction : Int := (System.numOfTopBps + 1) * System.drainBlockPunish

theorem deducts_nonneg {p p' : Pledge.State} {a : Pledge.Action} {fx : List Effect}
    (h : Pledge.exec env p a = .ok (p', fx)) : 0 ≤ a.deducts blockOutPledge := by
  cases a with
  | deduction m v q memo =>
    simp only [Pledge.exec, silent_eq_ok, Pledge.deduction, bind_eq_ok, check_eq_ok] at h
    obtain ⟨⟨_, -, _, -, _, hpos, -⟩, -⟩ := h
    show 0 ≤ if m = blockOutPledge then q.amount else 0
    split <;> omega
  | _ => exact le_refl _

theorem WorldAction.eq_block {a : WorldAction} (h : a.version.isSome = true) :
    ∃ b v, a = .system (.onblock b v) := by
  cases a with
  | system a => cases a <;> first | exact ⟨_, _, rfl⟩ | cases h
  | pledge | budget | freeze => cases h

theorem blockStart_env {t : System.Point} (w : World) (h : System.BlockStart t env) :
    System.BlockStart t (w.env env) := ⟨h.later, h.active, h.distinct, h.fresh⟩

/-- **Step lemma.** An action with all that it sends raises the limit by what it deducts itself, and
a block by what it may send. -/
theorem World.exec_limited {a : WorldAction} {height : Nat} (hself : pledgeAccount ∉ env.auths)
    (hros : System.Rosters w.system) (hD : 0 ≤ D)
    (hstart : ∀ b v, a = .system (.onblock b v) → System.BlockStart ⟨w.system, height⟩ env)
    (hw : Limited blockOutPledge D w.pledge) (h : w.exec env a = .ok w') :
    0 ≤ a.deducts ∧ Limited blockOutPledge
      (D + a.deducts + if a.version.isSome then blockDeduction else 0) w'.pledge := by
  rcases exec_cases h with ⟨src, dst, q, memo, rfl, h⟩ | ⟨u, sender, fx, hhead, h⟩
  · refine ⟨le_refl _, (World.transfer_limited hD hw h).mono ?_⟩
    simp [WorldAction.deducts, WorldAction.version]
  have hown : 0 ≤ a.deducts ∧ Limited blockOutPledge (D + a.deducts) u.pledge := by
    cases hhead with
    | pledge hx => exact ⟨deducts_nonneg hx, Pledge.exec_limited hself hD hw hx⟩
    | system | budget | freeze => exact ⟨le_refl _, hw.mono (Int.add_zero D).ge⟩
  refine ⟨hown.1, ?_⟩
  have hsends := hhead.sends
  by_cases hver : a.version.isSome = true
  · obtain ⟨b, v, rfl⟩ := WorldAction.eq_block hver
    cases hhead with
    | @system _ s fx _ hx =>
      obtain ⟨hlen, hfx⟩ := onblock_sends hros (blockStart_env w (hstart b v rfl)) hx
      have hall := World.sendAll_limited (k := System.drainBlockPunish) (by decide)
        (fun m v q memo hm => ?_) (by omega) hown.2 h
      · refine hall.mono ?_
        rw [if_pos hver]
        have hle : (fx.length : Int) * System.drainBlockPunish ≤ blockDeduction :=
          Int.mul_le_mul_of_nonneg_right (by exact_mod_cast hlen) (by decide)
        omega
      · rcases hfx _ hm with ⟨-, rfl, -⟩ | ⟨_, e⟩
        · exact le_refl _
        · cases e
  · have hall := World.sendAll_limited (k := 0) (le_refl _) (fun m v q memo hm => ?_) (by omega)
      hown.2 h
    · rw [Int.mul_zero] at hall
      rwa [if_neg hver]
    · obtain ⟨⟨b, v, rfl⟩, -⟩ := World.sends_deduction (hsends ▸ hm)
      exact absurd rfl hver

/-! ## Runs -/

section Runs

variable {total : Int}

/-- Transfers come in the same block. -/
theorem Sent.chainInv {l : List Nat} {block : Nat} {s s' : System.State}
    (h : ReflTransGen (Sent block) s s') (hs : System.ChainInv total l ⟨s, block⟩) :
    System.ChainInv total l ⟨s', block⟩ := by
  induction h with
  | refl => exact hs
  | tail _ hst ih =>
    obtain ⟨env, src, dst, q, memo, fx, rfl, hx⟩ := hst
    have hstep := ih.step (a := (env, .transfer src dst q memo)) (q := ⟨_, env.currentBlockNum⟩)
      ⟨⟨le_refl _, rfl, fx, hx⟩, fun b v e => by cases e⟩
    rwa [show System.calledVersion (env, .transfer src dst q memo) = none from rfl,
      Option.toList_none, List.append_nil] at hstep

/-- What an action does to the system contract, with what is sent after it. -/
theorem Step.chainInv {l : List Nat} {a : Env × WorldAction} (hp : System.ChainInv total l p.system)
    (h : ChainStep p a q) : System.ChainInv total (l ++ a.2.version.toList) q.system := by
  obtain ⟨env, a⟩ := a
  obtain ⟨⟨hheight, hq, hx⟩, hstart⟩ := h
  obtain ⟨s, hown, hsent⟩ := World.exec_own hx
  have hafter : System.ChainInv total (l ++ a.version.toList) ⟨s, env.currentBlockNum⟩ := by
    cases a with
    | system a =>
      have hver : WorldAction.version (.system a) =
          System.calledVersion (p.world.env env, a) := by
        cases a <;> rfl
      rw [hver]
      refine hp.step (q := ⟨s, env.currentBlockNum⟩) ⟨⟨hheight, rfl, hown⟩, fun b v e => ?_⟩
      exact blockStart_env p.world (hstart b v (congrArg WorldAction.system e))
    | pledge | budget | freeze =>
      obtain rfl : s = p.world.system := hown
      show System.ChainInv total (l ++ []) _
      rw [List.append_nil]
      exact System.ChainInv.later env hp hheight
  rw [Point.system, hq]
  exact Sent.chainInv hsent hafter

/-- What a chain keeps on which nobody signs as `eosio.pledge`. -/
structure ChainInv (total : Int) (tr : Trace) (p : Point) : Prop where
  system : System.ChainInv total (blockVersions tr) p.system
  solvent : Solvent p.world.vault
  deducted_nonneg : 0 ≤ deducted tr
  limited : Limited blockOutPledge (blockDeduction * p.height + deducted tr) p.world.pledge

/-- Each height has room for one block. -/
theorem ChainStep.heights {a : Env × WorldAction} (h : ChainStep p a q) :
    blockDeduction * p.height + (if a.2.version.isSome then blockDeduction else 0) ≤
      blockDeduction * q.height := by
  have hpos : (0 : Int) < blockDeduction := by decide
  have hq : q.height = a.1.currentBlockNum := h.1.2.1
  have hle := h.1.1
  split
  · rename_i hver
    obtain ⟨b, v, hb⟩ := WorldAction.eq_block hver
    have hlater : p.height < a.1.currentBlockNum := (h.2 b v hb).later
    calc blockDeduction * p.height + blockDeduction
        = blockDeduction * ((p.height : Int) + 1) := by rw [Int.mul_add, Int.mul_one]
      _ ≤ blockDeduction * q.height := Int.mul_le_mul_of_nonneg_left (by omega) hpos.le
  · rw [Int.add_zero]
    exact Int.mul_le_mul_of_nonneg_left (by omega) hpos.le

/-- **Step lemma.** -/
theorem ChainInv.step {tr : Trace} {a : Env × WorldAction} (hp : ChainInv total tr p)
    (h : ChainStep p a q) (hself : pledgeAccount ∉ a.1.auths) :
    ChainInv total (tr ++ [(p, a, q)]) q := by
  have hpos : (0 : Int) < blockDeduction := by decide
  have hD : 0 ≤ blockDeduction * p.height + deducted tr :=
    Int.add_nonneg (Int.mul_nonneg hpos.le (Int.natCast_nonneg _)) hp.deducted_nonneg
  obtain ⟨h0, hlimited⟩ := World.exec_limited hself hp.system.rosters hD
    (show ∀ b v, a.2 = .system (.onblock b v) →
      System.BlockStart ⟨p.world.system, p.height⟩ a.1 from h.2) hp.limited h.1.2.2
  refine ⟨?_, ?_, ?_, hlimited.mono ?_⟩
  · rw [blockVersions_snoc]
    exact Step.chainInv hp.system h
  · exact World.exec_solvent hp.system.reachable h.1.1 hself hp.solvent h.1.2.2
  · rw [deducted_snoc]
    exact Int.add_nonneg hp.deducted_nonneg h0
  · rw [deducted_snoc]
    have hheights := h.heights
    simp only at hheights ⊢
    omega

theorem Run.chainInv {w : World} {tr : Trace} (hg : Genesis w)
    (hbudget : (w.system.accounts.find budgetAccount).isSome = true)
    (h : Run ChainStep ⟨w, 0⟩ tr p) (hself : ∀ e ∈ tr, pledgeAccount ∉ e.2.1.1.auths) :
    ChainInv (System.coreTotal w.system) tr p := by
  refine (h.restrict hself).history (I := fun tr p => ChainInv _ tr p) ⟨?_, ?_, le_refl _, ?_⟩
    fun tr t a u hI hs => hI.step hs.1 hs.2
  · exact hg.system.chainInv hbudget
  · exact Pledge.Genesis.solvent hg.pledge
  · intro v n b hb
    rw [hg.pledge.pledge] at hb
    cases hb

end Runs

theorem balance_le_coreTotal {s : System.State} (hc : System.Coins s.ledger) (v : Name) :
    balance s v ≤ System.coreTotal s := by
  obtain ⟨h1, h2, h3, h4, h5, h6, h7⟩ := hc.parts
  have hle : balance s v ≤ s.ledger.accounts.sum fun _ a => a.available.amount := by
    unfold balance
    cases hf : s.accounts.find v with
    | none => exact h1
    | some a => exact Table.le_sum (fun k a ha => (hc.accounts k a ha).2) hf
  unfold System.coreTotal System.Ledger.coreTotal
  omega

/-- **Blocks never fail.** On a chain of all contracts that starts with at most `2 ^ 61` units and an
account of the budget, on which the versions of the blocks rise one at a time, nobody signs as
`eosio.pledge`, and the actions themselves deduct at most `2 ^ 61` units from `block.out` pledges:
every block succeeds with all the deductions that it sends, whatever other actions run before it, if
`block.out` is a type of core tokens that the system contract deducts from. -/
theorem onblock_never_fails {w : World} {tr : Trace} {b : Name} {v : Nat} (hg : Genesis w)
    (hbudget : (w.system.accounts.find budgetAccount).isSome = true)
    (htotal : System.coreTotal w.system ≤ 2 ^ 61) (h : Run ChainStep ⟨w, 0⟩ tr p)
    (hself : ∀ e ∈ tr, pledgeAccount ∉ e.2.1.1.auths) (hdeducted : deducted tr ≤ 2 ^ 61)
    (htype : ∀ t, p.world.pledge.pledgetype.find blockOutPledge = some t →
      t.deductionAccount = systemAccount ∧ t.pledge.symbol = coreSymbol)
    (hstart : System.BlockStart p.system env) (hauth : pledgeAccount ∉ env.auths)
    (hnext : (blockVersions tr ++ [v]).IsChain fun v w => w = v ∨ w = v + 1) (hv : v < 2 ^ 32) :
    ∃ q, ChainStep p (env, .system (.onblock b v)) q := by
  have hp := Run.chainInv hg hbudget h hself
  have hmax : Asset.maxAmount = 2 ^ 62 - 1 := rfl
  have hheight : p.height < 2 ^ 32 := hstart.later.trans env.currentBlockNum_lt
  have henv := blockStart_env p.world hstart
  obtain ⟨u, hu⟩ := hp.system.onblock (b := b) htotal henv hnext hv
  have hafter := hp.system.step ⟨hu, fun _ _ _ => henv⟩
  obtain ⟨hle, hblock, fx, hx⟩ := hu
  obtain ⟨hlen, hfx⟩ := onblock_sends hp.system.rosters henv hx
  have hbal : balance u.state pledgeAccount ≤ Asset.maxAmount := by
    have htot := hafter.total_le htotal (by rw [hblock]; exact env.currentBlockNum_lt)
    have hown := balance_le_coreTotal hafter.reachable.coins pledgeAccount
    omega
  have hready : Ready (blockDeduction * p.height + deducted tr) { p.world with system := u.state } :=
    ⟨World.systemAction_solvent hp.system.reachable hle hauth hp.solvent hx, hp.limited, htype, hbal⟩
  have hlen : (fx.length : Int) ≤ 24 := by exact_mod_cast hlen
  have hdrain : (System.drainBlockPunish : Int) = 100000 := by decide
  have hded : blockDeduction = 2400000 := by decide
  have hnonneg := hp.deducted_nonneg
  rw [hded] at hready
  obtain ⟨w', hall⟩ := World.sendAll_ready (by omega) hready (by rw [hdrain]; omega) hfx
  exact ⟨⟨w', env.currentBlockNum⟩, ⟨hle, rfl, bind_eq_ok.mpr ⟨_, hx, hall⟩⟩, fun _ _ _ => hstart⟩

/-- The first block after the pledge of account 1. -/
def firstBlock : Env × WorldAction := (System.Env.block 3, .system (.onblock 7 1))

def startedPoint : Point := ⟨pledgedPoint.world.next firstBlock.1 firstBlock.2, 3⟩

/-- The next block settles a round in which account 1 has made no block. -/
theorem onblock_never_fails_deducts :
    ∃ q, ChainStep startedPoint (System.Env.block 4, .system (.onblock 7 1)) q ∧
      Pledge.pledgeOf q.world.pledge 1 blockOutPledge = 200000 := by
  have htype : ChainStep ⟨launched, 0⟩ typeCall typedPoint :=
    ⟨World.next_step launched 0 typeCall.1 typeCall.2 (by decide) (by decide +kernel),
      fun _ _ e => by cases e⟩
  have hpledge : ChainStep typedPoint pledgeCall pledgedPoint :=
    ⟨World.next_step typedPoint.world 1 pledgeCall.1 pledgeCall.2 (by decide) (by decide +kernel),
      fun _ _ e => by cases e⟩
  have hblock : ChainStep pledgedPoint firstBlock startedPoint :=
    ⟨World.next_step pledgedPoint.world 2 firstBlock.1 firstBlock.2 (by decide) (by decide +kernel),
      fun _ _ _ => System.blockStart_block (by decide) (by decide)⟩
  have hrun := ((Run.nil.snoc htype).snoc hpledge).snoc hblock
  have hfound : startedPoint.world.pledge.pledgetype.find blockOutPledge =
      some ⟨systemAccount, Asset.zero⟩ := by
    decide +kernel
  obtain ⟨q, hq⟩ := onblock_never_fails (b := 7) (v := 1) launched_genesis (by decide) (by decide) hrun
    (fun e he => by
      simp only [List.nil_append, List.cons_append, List.mem_cons, List.not_mem_nil, or_false] at he
      rcases he with rfl | rfl | rfl <;> decide)
    (by decide) (fun t ht => by
      cases hfound.symm.trans ht
      exact ⟨rfl, rfl⟩)
    (System.blockStart_block (n := 4) (by decide) (by decide)) (by decide) (by decide) (by decide)
  have hnext := (World.next_step startedPoint.world 3 (System.Env.block 4) (.system (.onblock 7 1))
    (by decide) (by decide +kernel)).2.2
  refine ⟨q, hq, ?_⟩
  rw [Except.ok.inj (hq.1.2.2.symm.trans hnext)]
  decide +kernel

end Eosforce.Chain
