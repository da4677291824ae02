import Eosforce.System.Stake

/-!
# The global stake (`gvotestat`)

The row of the global stake is made by the first action that needs it, as the sum over the bps, and
is then changed with every stake. `vote`, `vote4ram`, `votefix` and `outfixvote` change the bp before
they make the row, so a row that one of them makes counts the change twice.

* `Counted`: the row, where it exists, is the sum over the bps.
* `StakeStep.counted_iff`: a step keeps this exactly when the row exists before it or it changes no
  stake.
* `counted_run_iff`: the same for runs.
-/

namespace Eosforce.System

open Fallible Keyed Runs

variable {env : Env} {s s' : State}

/-- The sum over the bps. -/
def bpsStake (t : Table Name BpInfo) : Int := t.sum fun _ b => b.totalStaked

/-- The row of the global stake, where it exists, is the sum over the bps. -/
def Counted (s : State) : Prop := ∀ t, s.gvotestat = some t → t = bpsStake s.bps

/-- The actions that may make or change the row, and those that may change the bps. -/
def Action.stakes : Action → Bool
  | .vote .. | .vote4ram .. | .revote .. | .votefix .. | .revotefix .. | .outfixvote ..
  | .updatebp .. | .onblock .. => true
  | _ => false

/-- One of these actions. -/
def StakeStep (s : State) (a : Env × Action) (s' : State) : Prop :=
  a.2.stakes = true ∧ ∃ fx, exec a.1 s a.2 = .ok (s', fx)

/-- The whole tokens that an action adds to a stake, before it is a success. -/
def stakeDelta (s : State) : Action → Int
  | .vote voter bpname stake =>
    whole (stake.amount - ((s.votes.find voter bpname).getD {}).voteage.staked.amount)
  | .vote4ram voter bpname stake =>
    whole (stake.amount - ((s.votes4ram.find voter bpname).getD {}).voteage.staked.amount)
  | .votefix _ _ typ stake _ =>
    whole (stake.amount * ((getDataByTyp typ).elim 0 fun d => d.power : Nat))
  | .outfixvote voter key =>
    -whole ((s.fixvotes.find voter key).elim 0 fun f => f.votepowerAge.staked.amount)
  | _ => 0

/-- The row exists before the action, or the action changes no stake. -/
def NotFirst (s : State) (a : Action) : Prop := s.gvotestat.isSome = true ∨ stakeDelta s a = 0

/-! ## The sum over the bps -/

theorem bpsStake_put {t : Table Name BpInfo} {k : Name} {r : BpInfo} (h : t.find k = some r)
    (r' : BpInfo) : bpsStake (t.put k r') = bpsStake t + (r'.totalStaked - r.totalStaked) :=
  Table.sum_put_of_find _ _ h

theorem bpsStake_add {t : Table Name BpInfo} {k : Name} {r : BpInfo} (h : t.find k = some r)
    (n : Nat) (x : Int) : bpsStake (t.put k (r.addTotalStaked n x)) = bpsStake t + whole x := by
  rw [bpsStake_put h]
  simp only [BpInfo.addTotalStaked, whole]
  omega

theorem SameStakes.bpsStake {t t' : Table Name BpInfo} (h : SameStakes t t') :
    bpsStake t' = bpsStake t := by
  apply Table.sum_eq_of_val
  intro k
  rw [Table.val_eq_getD (d := {}) rfl, Table.val_eq_getD (d := {}) rfl]
  exact (h k).1

/-! ## One step -/

/-- A stake change counts once in the row exactly when the row was there, or the change is none. -/
theorem stakeTotal_counted {g : Option Int} {t t' : Table Name BpInfo} {x : Int}
    (hg : ∀ n, g = some n → n = bpsStake t) (ht : bpsStake t' = bpsStake t + whole x) :
    (∀ n, stakeTotal g t' x = some n → n = bpsStake t') ↔ g.isSome = true ∨ whole x = 0 := by
  have hx : x.tdiv coreSymbolPrecision = whole x := rfl
  have hs : (t'.sum fun _ b => b.totalStaked) = bpsStake t' := rfl
  unfold stakeTotal
  rw [hx, hs]
  cases g with
  | none =>
    simp only [Option.getD_none, Option.some.injEq, forall_eq', Option.isSome_none,
      Bool.false_eq_true, false_or]
    omega
  | some n =>
    have hn := hg n rfl
    simp only [Option.getD_some, Option.some.injEq, forall_eq', Option.isSome_some, true_or,
      iff_true]
    omega

/-- The row and the sum are both kept. -/
theorem counted_of_same {s' : State} (hs : Counted s) (hg : s'.gvotestat = s.gvotestat)
    (hb : bpsStake s'.bps = bpsStake s.bps) {C : Prop} (hC : C) : Counted s' ↔ C := by
  refine ⟨fun _ => hC, fun _ t ht => ?_⟩
  rw [hb]
  exact hs t (hg ▸ ht)

theorem onblock_counted {bpname : Name} {version : Nat} {fx : List Effect} (hs : Counted s)
    (h : onblock env s bpname version = .ok (s', fx)) : Counted s' := by
  rcases onblock_spec h with rfl | ⟨-, -, -, hsame, -, hgv, -⟩
  · exact hs
  · intro t ht
    have hsum : bpsStake s'.bps = bpsStake s.bps := hsame.bpsStake
    rw [hgv] at ht
    cases ht
    cases hg : s.gvotestat with
    | none => exact hsum.symm
    | some n => rw [hsum, Option.getD_some]; exact hs n hg

/-- A change of the stakes of two bps that cancel out. -/
theorem bpsStake_move {t : Table Name BpInfo} {k k' : Name} {r r' : BpInfo} (hne : k ≠ k')
    (h : t.find k = some r) (h' : t.find k' = some r') (n : Nat) (x : Int) :
    bpsStake ((t.put k (r.addTotalStaked n (-x))).put k' (r'.addTotalStaked n x)) =
      bpsStake t := by
  rw [bpsStake_add ((Table.find_put_ne t _ hne).trans h'), bpsStake_add h, whole_neg]
  omega

/-- A step keeps the row counted exactly when the row exists before it or it changes no stake. -/
theorem StakeStep.counted_iff {a : Env × Action} (hs : Counted s) (h : StakeStep s a s') :
    Counted s' ↔ NotFirst s a.2 := by
  obtain ⟨env, a⟩ := a
  obtain ⟨ha, fx, hfx⟩ := h
  have hch := exec_change hfx
  generalize hl : s'.ledger = l at hch
  have hg : s'.gvotestat = l.gvotestat := congrArg Ledger.gvotestat hl
  have hb : s'.bps = l.bps := congrArg Ledger.bps hl
  cases hch with
  | transfer => cases ha
  | unfreeze => rename_i typ _ _ _ _ _ _ _; cases typ <;> cases ha
  | claim => cases ha
  | bpclaim => cases ha
  | @updatebp bpname key rate url r hr =>
    refine counted_of_same hs hg ?_ (.inr rfl)
    rw [hb]
    refine (SameStakes.put _ _ ?_ ?_ ?_).bpsStake <;> rw [hr]
  | @cast typ voter bpname stake act bp change v hact hbp hst hw hrow hle hblack =>
    have hd : stakeDelta s (castAction typ voter bpname stake) = whole change := by
      rw [hrow.change_eq]; cases typ <;> rfl
    change Counted s' ↔ NotFirst s (castAction typ voter bpname stake)
    by_cases h0 : change = 0
    · simp only [h0, BpInfo.stakeBy, ↓reduceIte, Table.put_find hbp] at hg hb
      rw [h0] at hd
      refine counted_of_same hs ?_ (by rw [hb]) (.inr hd)
      rw [hg]
    · simp only [h0, ↓reduceIte] at hg hb
      have hsum : bpsStake s'.bps = bpsStake s.bps + whole change := by
        rw [hb]
        simp only [BpInfo.stakeBy, h0, ↓reduceIte]
        exact bpsStake_add hbp _ _
      rw [NotFirst, hd, ← stakeTotal_counted hs hsum, Counted, hg, hb]
  | @revote voter frombp tobp restake bpf bpt vf vt hne hst hpos hw hbpf hbpt hvf hle hvt =>
    refine counted_of_same hs hg ?_ (.inr rfl)
    rw [hb]
    exact bpsStake_move hne hbpf hbpt _ _
  | @votefix voter bpname typ stake stakeTyp key d act bp accounts votes f hd hbp hact hst hpos hw
      hblack htake hkey hf =>
    have hdelta : stakeDelta s (.votefix voter bpname typ stake stakeTyp) =
        whole (stake.amount * d.power) := by
      simp only [stakeDelta, hd, Option.elim_some]
    have hsum : bpsStake s'.bps = bpsStake s.bps + whole (stake.amount * d.power) := by
      rw [hb]; exact bpsStake_add hbp _ _
    rw [NotFirst, hdelta, ← stakeTotal_counted hs hsum, Counted, hg, hb]
  | @revotefix voter key bpname f bpf bpt hf hne hwd hlt hblack hbpf hbpt hage =>
    refine counted_of_same hs hg ?_ (.inr rfl)
    rw [hb]
    exact bpsStake_move hne hbpf hbpt _ _
  | @outfixvote voter key f bp v hf hbp hle hwd hv =>
    have hdelta : stakeDelta s (.outfixvote voter key) =
        whole (-f.votepowerAge.staked.amount) := by
      simp only [stakeDelta, hf, Option.elim_some, whole_neg]
    have hsum : bpsStake s'.bps = bpsStake s.bps + whole (-f.votepowerAge.staked.amount) := by
      rw [hb]; exact bpsStake_add hbp _ _
    rw [NotFirst, hdelta, ← stakeTotal_counted hs hsum, Counted, hg, hb]
  | other hmv =>
    cases a <;> simp only [Action.moves, Bool.true_eq_false] at hmv <;>
      simp only [Action.stakes, Bool.false_eq_true] at ha
    exact ⟨fun _ => .inr rfl, fun _ => onblock_counted hs hfx⟩

/-! ## Runs -/

/-- From a state without the row, the row is the sum over the bps after every step of a run exactly
when no step of the run changes a stake while the row does not exist. -/
theorem counted_run_iff {tr : List (State × (Env × Action) × State)} (h : Run StakeStep s tr s')
    (hs : s.gvotestat = none) :
    (∀ e ∈ tr, Counted e.2.2) ↔ ∀ e ∈ tr, NotFirst e.1 e.2.1.2 :=
  h.always_iff (fun t ht => by rw [hs] at ht; cases ht) fun _ _ _ hI hstep => hstep.counted_iff hI

/-- The first vote, as the first action of all, makes the row with the vote counted twice. -/
theorem firstVote_not_counted : ¬∀ (s s' : State) (tr : List (State × (Env × Action) × State)),
    s.gvotestat = none → Run StakeStep s tr s' → ∀ e ∈ tr, Counted e.2.2 := by
  intro h
  have hrun : Run StakeStep founding
      [(founding, (Env.of 1 10, .vote 1 7 ⟨20000, coreSymbol⟩), firstVote)] firstVote :=
    .snoc .nil ⟨rfl, _, rfl⟩
  have := h _ _ _ rfl hrun _ (List.mem_singleton.mpr rfl) 4 rfl
  exact absurd this (by decide)

/-- A block has made the row. -/
def firstBlock : State := execTo (Env.block 9) founding (.onblock 7 1)

/-- The first vote comes after the block. -/
def laterVote : State := execTo (Env.of 1 10) firstBlock (.vote 1 7 ⟨20000, coreSymbol⟩)

/-- A block before the first vote makes the row, and the vote is counted once. -/
theorem counted_run_iff_block :
    Counted firstBlock ∧ Counted laterVote ∧ laterVote.gvotestat = some 2 := by
  have hrun : Run StakeStep founding [(founding, (Env.block 9, .onblock 7 1), firstBlock),
      (firstBlock, (Env.of 1 10, .vote 1 7 ⟨20000, coreSymbol⟩), laterVote)] laterVote :=
    .snoc (.snoc .nil ⟨rfl, [], rfl⟩) ⟨rfl, [], rfl⟩
  have h := (counted_run_iff hrun rfl).mpr fun e he => by
    simp only [List.mem_cons, List.not_mem_nil, or_false] at he
    rcases he with rfl | rfl
    · exact .inr rfl
    · exact .inl rfl
  exact ⟨h _ (List.mem_cons_self ..), h _ (List.mem_cons_of_mem _ (List.mem_cons_self ..)), rfl⟩

end Eosforce.System
