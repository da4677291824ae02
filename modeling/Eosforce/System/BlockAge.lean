import Eosforce.System.BlockCount
import Eosforce.System.Discipline

/-!
# The total of the block ages

A settlement adds to the `bock_age` of each producer of the round and to `total_block_age`, and a
`bpclaim` takes the `bock_age` of one producer off both.

* `SameOn`, `exec_same`: the other actions, but for those of the punishments, leave the monitor rows
  alone. `SameCounters`, `exec_counters`: they leave the counters alone.
* `Mirrored`, `exec_mirrored`: the total is the sum of the ages, as a `uint64_t`.
-/

namespace Eosforce.System

open Fallible Keyed Runs

variable {env : Env} {s s' : State} {b : Name} {v : Nat}

/-! ## The counters of the monitor rows -/

/-- What the settlements count in a monitor row. -/
def BpMonitor.counters (m : BpMonitor) : Nat × Nat := (m.bockAge, m.lastBlockNum)

/-- No counter has changed. -/
def SameCounters (t t' : Table Name BpMonitor) : Prop :=
  ∀ q, (t'.find q).map BpMonitor.counters = (t.find q).map BpMonitor.counters

/-- The sum of the `bock_age`s. -/
def ageSum (t : Table Name BpMonitor) : Int := t.sum fun _ m => (m.bockAge : Int)

theorem ageSum_nonneg (t : Table Name BpMonitor) : 0 ≤ ageSum t :=
  Table.sum_nonneg fun _ _ _ => Int.natCast_nonneg _

theorem SameCounters.getD {t t' : Table Name BpMonitor} (h : SameCounters t t') (q : Name) :
    ((t'.find q).getD {}).counters = ((t.find q).getD {}).counters := by
  have hq := congrArg (Option.getD · (BpMonitor.counters {})) (h q)
  simpa only [Option.getD_map] using hq

theorem SameCounters.ageSum {t t' : Table Name BpMonitor} (h : SameCounters t t') :
    ageSum t' = ageSum t := by
  apply Table.sum_eq_of_val
  intro q
  rw [Table.val_eq_getD (d := ({} : BpMonitor)) rfl, Table.val_eq_getD (d := ({} : BpMonitor)) rfl]
  exact congrArg (fun c : Nat × Nat => (c.1 : Int)) (h.getD q)

theorem SameCounters.last (h : SameCounters s.bpmonitor s'.bpmonitor) (q : Name) :
    (s'.monitor q).lastBlockNum = (s.monitor q).lastBlockNum := congrArg Prod.snd (h.getD q)

/-- What `f` reads of the monitor rows has not changed. -/
def SameOn {α : Type} (f : BpMonitor → α) (t t' : Table Name BpMonitor) : Prop :=
  ∀ q, (t'.find q).map f = (t.find q).map f

section SameOn

variable {α : Type} {f : BpMonitor → α}

theorem SameOn.refl (t : Table Name BpMonitor) : SameOn f t t := fun _ => rfl

theorem SameOn.put {t u : Table Name BpMonitor} (h : SameOn f t u) {k : Name} {m m' : BpMonitor}
    (hm : t.find k = some m) (hf : f m' = f m) : SameOn f t (u.put k m') := fun q => by
  rw [Table.find_put]
  split
  · subst_vars
    rw [hm]
    exact congrArg some hf
  · exact h q

/-- What `f` reads is not what the protocol of the punishments writes. -/
def Undisciplined (f : BpMonitor → α) : Prop := ∀ (m : BpMonitor) total status block,
  f { m with totalDrainBlock := total, bpStatus := status, endPunishBlock := block } = f m

theorem monitorevise_same (hf : Undisciplined f) (h : monitorevise env s b = .ok s') :
    SameOn f s.bpmonitor s'.bpmonitor := by
  apply monitorevise_inv (P := fun t => SameOn f s.bpmonitor t.bpmonitor) h (SameOn.refl _)
  intro t k m hm ht
  exact ht.put hm (hf m _ _ m.endPunishBlock)

/-- Only `onblock`, `bpclaim` and the protocol of the punishments write monitor rows. -/
theorem exec_same (hf : Undisciplined f) {a : Action} {fx : List Effect}
    (hblock : ∀ b v, a ≠ .onblock b v) (hclaim : ∀ b, a ≠ .bpclaim b)
    (h : exec env s a = .ok (s', fx)) : SameOn f s.bpmonitor s'.bpmonitor := by
  have hd := exec_discipline h
  have hrev : ∀ b, a = .monitorevise b → SameOn f s.bpmonitor s'.bpmonitor := by
    rintro b rfl
    exact monitorevise_same hf (silent_eq_ok.mp h).1
  show SameOn f s.discipline.bpmonitor s'.discipline.bpmonitor
  generalize hs' : s'.discipline = d at hd
  cases hd with
  | onblock => exact absurd rfl (hblock _ _)
  | bpclaim => exact absurd rfl (hclaim _)
  | @monitorevise b t =>
    have ht : s'.bpmonitor = t := congrArg Discipline.bpmonitor hs'
    exact ht ▸ hrev b rfl
  | @punished b approver p m _ _ _ _ _ _ _ hm =>
    exact (SameOn.refl _).put hm (hf m m.totalDrainBlock _ _)
  | @bailpunish b m hm => exact (SameOn.refl _).put hm (hf m m.totalDrainBlock _ _)
  | @removepunish b m hm => exact (SameOn.refl _).put hm (hf m m.totalDrainBlock _ m.endPunishBlock)
  | removebp => exact SameOn.refl _
  | punishbp => exact SameOn.refl _
  | approved => exact SameOn.refl _
  | updateconfig => exact SameOn.refl _
  | other => exact SameOn.refl _

end SameOn

/-- Only `onblock` and `bpclaim` write the counters. -/
theorem exec_counters {a : Action} {fx : List Effect} (hblock : ∀ b v, a ≠ .onblock b v)
    (hclaim : ∀ b, a ≠ .bpclaim b) (h : exec env s a = .ok (s', fx)) :
    SameCounters s.bpmonitor s'.bpmonitor :=
  exec_same (f := BpMonitor.counters) (fun _ _ _ _ => rfl) hblock hclaim h

/-! ## The ages of a settlement -/

theorem markLackPledge_bockAge (m : BpMonitor) : (markLackPledge m).bockAge = m.bockAge := by
  unfold markLackPledge; split <;> rfl

theorem countRound_bockAge (m : BpMonitor) (d : Int) (n : Nat) :
    (countRound m d n).bockAge = m.bockAge := by
  unfold countRound; split <;> rfl

theorem settleMonitor_bockAge (c : Settlement) (m : BpMonitor) (amount age : Nat) (d : Int) :
    (settleMonitor c m amount age d).bockAge = u64 (m.bockAge + age) :=
  (markLackPledge_bockAge _).trans (countRound_bockAge _ _ _)

/-- The `bp_age` of a producer at a settlement. -/
def State.ageOf (s : State) (env : Env) (x : Producer) : Nat :=
  bpAge env x.bpname (s.producerNum x) (s.monitor x.bpname).stability

/-- One iteration adds the age to the row of the producer and to the total. -/
theorem settleProducer_ages {c : Settlement} {acc acc' : State × Nat × List Effect}
    {p : Producer × Nat} (h : settleProducer env c acc p = .ok acc') :
    (∃ m, m.bockAge = u64 ((acc.1.monitor p.1.bpname).bockAge + acc.1.ageOf env p.1) ∧
      acc'.1.bpmonitor = acc.1.bpmonitor.put p.1.bpname m) ∧
      acc'.2.1 = u64 (acc.2.1 + acc.1.ageOf env p.1) := by
  simp only [settleProducer, bind_eq_ok, pure_eq_ok] at h
  obtain ⟨t, ht, rfl⟩ := h
  refine ⟨⟨_, ?_, congrArg (Table.put · p.1.bpname _) (recordDrain_ok ht).2⟩, rfl⟩
  exact settleMonitor_bockAge _ _ _ _ _

theorem ageSum_put (s : State) (q : Name) (m : BpMonitor) :
    ageSum (s.bpmonitor.put q m) = ageSum s.bpmonitor - (s.monitor q).bockAge + m.bockAge := by
  have hval : s.bpmonitor.val (fun _ m => (m.bockAge : Int)) q = (s.monitor q).bockAge :=
    Table.val_eq_getD rfl
  rw [ageSum, Table.sum_put, hval]
  rfl

/-! ### The total as a `uint64_t` -/

/-- The `total_block_age`: 0 before there is a row for it. -/
def totalAge (s : State) : Nat := (s.blockreward.map BlockReward.totalBlockAge).getD 0

/-- The total is the sum of the ages, as a `uint64_t`. -/
def Mirrored (s : State) : Prop := (totalAge s : Int) = ageSum s.bpmonitor % 2 ^ 64

theorem rewardBlock_mirrored {ch : Bool} {fx : List Effect} (hI : Mirrored s)
    (h : rewardBlock env s b v ch = .ok (s', fx)) : Mirrored s' := by
  unfold rewardBlock at h
  split at h
  · rename_i hnone
    cases h
    rw [Mirrored, totalAge, hnone] at hI
    cases ch
    · rw [Mirrored, totalAge]
      simpa [hnone] using hI
    · rw [Mirrored, totalAge]
      simpa using hI
  · rename_i br hbr
    simp only [bind_eq_ok, pure_eq_ok, Prod.exists, Prod.mk.injEq, payBlockOut] at h
    obtain ⟨sch, -, t, age, fx', hloop, _, ⟨_, -, _, -, rfl⟩, rfl, -⟩ := h
    have hsum := foldlM_inv (P := fun acc : State × Nat × List Effect =>
      ageSum acc.1.bpmonitor % 2 ^ 64 = (ageSum s.bpmonitor + acc.2.1) % 2 ^ 64)
      (by simp) (fun acc p acc' _ hP hstep => ?_) hloop
    · rw [Mirrored, totalAge, hbr] at hI
      simp only [Option.map_some, Option.getD_some] at hI
      simp only [Mirrored, totalAge, Option.map_some, Option.getD_some, u64]
      simp only at hsum
      omega
    · obtain ⟨⟨m, hm, hput⟩, hage⟩ := settleProducer_ages hstep
      rw [hput, ageSum_put, hm, hage]
      unfold u64
      omega

theorem onblock_mirrored {fx : List Effect} (hI : Mirrored s)
    (h : onblock env s b v = .ok (s', fx)) : Mirrored s' := by
  by_cases hact : env.activeProducers.length < numOfTopBps
  · obtain ⟨rfl, -⟩ := onblock_idle hact h
    exact hI
  · obtain ⟨t, ded, ht, -, hr⟩ := onblock_rounds (Nat.not_lt.mp hact) h
    have hbr : s'.blockreward = t.blockreward := congrArg Rounds.blockreward hr
    have hmon : s'.bpmonitor = t.bpmonitor := congrArg Rounds.bpmonitor hr
    rw [Mirrored, totalAge, hbr, hmon]
    unfold settleRound at ht
    split at ht
    · refine rewardBlock_mirrored ?_ ht
      exact hI
    · split at ht
      · exact rewardBlock_mirrored hI ht
      · cases ht
        exact hI

/-- A claim takes the age of the bp off both. -/
theorem claimBlockOut_ages {x : Asset} (h : claimBlockOut s b = .ok (s', x)) :
    (s' = s ∧ x.amount = 0) ∨ ∃ br m br', s.blockreward = some br ∧ s.bpmonitor.find b = some m ∧
      br'.totalBlockAge = u64OfInt ((br.totalBlockAge : Int) - m.bockAge) ∧
      br'.lastRewardBlockNum = br.lastRewardBlockNum ∧
      br'.rewardBlockOut.amount = br.rewardBlockOut.amount - x.amount ∧
      s' = { s with
        blockreward := some br'
        bpmonitor := s.bpmonitor.put b { m with bockAge := 0 } } := by
  unfold claimBlockOut at h
  split at h
  · rename_i br m hbr hm
    simp only [bind_eq_ok, pure_eq_ok, Prod.mk.injEq, Asset.sub_eq_ok] at h
    obtain ⟨_, -, _, -, _, -, _, ⟨-, -, rfl⟩, rfl, rfl⟩ := h
    refine .inr ⟨br, m, _, hbr, hm, ?_, ?_, ?_, rfl⟩ <;> rfl
  · cases h
    exact .inl ⟨rfl, rfl⟩

/-- A claim is the claim of the block-out share as far as the rounds go. -/
theorem bpclaim_rounds (h : bpclaim env s b = .ok s') :
    ∃ t x, claimBlockOut s b = .ok (t, x) ∧ s'.rounds = t.rounds := by
  obtain ⟨t, x, _, _, ht, rfl⟩ := bpclaim_writes h
  exact ⟨t, x, ht, rfl⟩

theorem bpclaim_mirrored (hI : Mirrored s) (h : bpclaim env s b = .ok s') : Mirrored s' := by
  obtain ⟨t, x, ht, hr⟩ := bpclaim_rounds h
  have hbr : s'.blockreward = t.blockreward := congrArg Rounds.blockreward hr
  have hmon : s'.bpmonitor = t.bpmonitor := congrArg Rounds.bpmonitor hr
  rw [Mirrored, totalAge, hbr, hmon]
  rcases claimBlockOut_ages ht with ⟨rfl, -⟩ | ⟨br, m, br', hb, hm, htot, -, -, rfl⟩
  · exact hI
  · rw [Mirrored, totalAge, hb] at hI
    simp only [Option.map_some, Option.getD_some] at hI ⊢
    have h0 : ({ m with bockAge := 0 } : BpMonitor).bockAge = 0 := rfl
    rw [ageSum_put, htot, State.monitor, hm, Option.getD_some, h0]
    unfold u64OfInt
    omega

/-- **Step lemma.** -/
theorem exec_mirrored {a : Action} {fx : List Effect} (hI : Mirrored s)
    (h : exec env s a = .ok (s', fx)) : Mirrored s' := by
  by_cases hblock : ∃ b v, a = .onblock b v
  · obtain ⟨b, v, rfl⟩ := hblock
    exact onblock_mirrored hI h
  by_cases hclaim : ∃ b, a = .bpclaim b
  · obtain ⟨b, rfl⟩ := hclaim
    exact bpclaim_mirrored hI (silent_eq_ok.mp h).1
  · have hb : ∀ b v, a ≠ .onblock b v := fun b v e => hblock ⟨b, v, e⟩
    have hc : ∀ b, a ≠ .bpclaim b := fun b e => hclaim ⟨b, e⟩
    rw [Mirrored, totalAge, exec_blockreward hb hc h, (exec_counters hb hc h).ageSum]
    exact hI

end Eosforce.System
