import Eosforce.System.FixRow
import Eosforce.System.Stake

/-!
# Fix-time votes that have expired

The weight of a fix-time vote is added to its bp by `votefix` and taken away only by the owner's
`outfixvote`, at any block after the lock.

* `CountsLive`: `total_staked` counts the fix-time votes that have not expired.
* `FixRowsOk`: what every row of `fixvotes` satisfies.
* `countsLive_iff`: a reachable state counts so exactly when no vote that is not withdrawn has
  expired.
* `expiry_run_iff`: the runs whose states all count so.
-/

namespace Eosforce.System

open Fallible Keyed Runs

variable {env : Env} {s s' : State} {a : Action}

/-- The weight of a fix-time vote at a height: none from its withdrawal height on. -/
def liveStake (h : Nat) (v : FixTimeVoteInfo) : Int :=
  if h < v.withdrawBlockNum then whole v.votepowerAge.staked.amount else 0

/-- The fix-time votes' part of the stake of each bp is the weight of those that have not
expired. -/
def CountsLive (p : Point) : Prop :=
  ∀ b bp, p.state.bps.find b = some bp →
    bp.totalStaked - votesFor p.state.votes b voteStake - votesFor p.state.votes4ram b voteStake =
      fixVotesFor p.state.fixvotes b (liveStake p.height)

/-! ## The rows -/

/-- A fix-time vote has weight, and is not withdrawn before its height. -/
def FixRowsOk (p : Point) : Prop :=
  p.state.fixvotes.All fun _ _ f => 0 < f.votepowerAge.staked.amount ∧
    (f.isWithdraw = true → f.withdrawBlockNum ≤ p.height)

theorem power_pos {typ : Name} {d : FixVoteData} (h : getDataByTyp typ = some d) : 0 < d.power := by
  unfold getDataByTyp at h
  obtain ⟨⟨n, d'⟩, hf, rfl⟩ := Option.map_eq_some_iff.mp h
  have hall : ∀ x ∈ fixVoteTypData, 0 < x.2.power := by decide
  exact hall _ (List.mem_of_find?_eq_some hf)

theorem FixRowsOk.step {p q : Point} {a : Env × Action} (hp : FixRowsOk p) (h : Step p a q) :
    FixRowsOk q := by
  obtain ⟨hle, hq, fx, hx⟩ := h
  intro v key f hf
  have hrow := exec_fixRow hx v key
  rw [hf] at hrow
  generalize ho : p.state.fixvotes.find v key = o at hrow
  cases hrow with
  | same =>
    obtain ⟨hpos, hw⟩ := hp v key f ho
    exact ⟨hpos, fun h => (hw h).trans (hle.trans hq.ge)⟩
  | @aged f₀ _ hwd hn hst =>
    obtain ⟨hpos, hw⟩ := hp v key f₀ ho
    exact ⟨hst ▸ hpos, fun h => hn ▸ (hw (hwd ▸ h)).trans (hle.trans hq.ge)⟩
  | made _ hd hpos hno _ hst =>
    refine ⟨?_, fun h => absurd (hno.symm.trans h) nofun⟩
    rw [hst]
    exact Int.mul_pos hpos (by exact_mod_cast power_pos hd)
  | @withdrawn f₀ _ _ hwd =>
    exact ⟨(hp v key f₀ ho).1, fun _ => hwd.trans hq.ge⟩

theorem Reachable.fixRowsOk {p : Point} (h : Reachable p) : FixRowsOk p :=
  h.inv (fun s hg v key f hf => by
    rw [show (Point.mk s 0).state.fixvotes = ∅ from hg.fixvotes] at hf
    cases hf) fun _ _ _ => FixRowsOk.step

/-! ## The weight of expired votes -/

/-- No vote that is not withdrawn has expired. -/
def NoneExpired (p : Point) : Prop :=
  p.state.fixvotes.All fun _ _ f => f.isWithdraw = false → p.height < f.withdrawBlockNum

section Sums

variable {t : Scoped Name Nat FixTimeVoteInfo} {b : Name}

theorem fixVotesFor_add (t : Scoped Name Nat FixTimeVoteInfo) (b : Name)
    (f g : FixTimeVoteInfo → Int) :
    fixVotesFor t b (fun v => f v + g v) = fixVotesFor t b f + fixVotesFor t b g := by
  unfold fixVotesFor
  rw [← Scoped.sum_add]
  apply Scoped.sum_congr
  intro _ _ v _
  split
  · rfl
  · rfl

/-- One row's weight is at most the sum of weights that are not negative. -/
theorem le_fixVotesFor {g : FixTimeVoteInfo → Int} (hg : t.All fun _ _ v => 0 ≤ g v) {voter : Name}
    {key : Nat} {v : FixTimeVoteInfo} (hv : t.find voter key = some v) :
    g v ≤ fixVotesFor t v.bpname g := by
  have hle := Scoped.le_sum (w := fun _ _ u => if u.bpname = v.bpname then g u else 0)
    (fun s k u hu => ?_) hv
  · rwa [if_pos rfl] at hle
  · split
    · exact hg s k u hu
    · exact le_refl _

theorem votesFor_nonneg {t : Scoped Name Name VoteInfo} (ht : t.All fun _ _ v => VoteOk v)
    (b : Name) : 0 ≤ votesFor t b voteStake := by
  apply Scoped.sum_nonneg
  intro v b' r hr
  split
  · exact whole_nonneg (ht v b' r hr).staked.2
  · exact le_refl _

end Sums

/-- The weight that a row has at a height and should not have. -/
def staleStake (h : Nat) (v : FixTimeVoteInfo) : Int := fixVoteStake v - liveStake h v

section Weight

variable {p : Point} {v : Name} {key : Nat} {f : FixTimeVoteInfo}

theorem fixVoteStake_nonneg (h : Reachable p) :
    p.state.fixvotes.All fun _ _ f => 0 ≤ fixVoteStake f := by
  intro v key f hf
  unfold fixVoteStake
  split
  · exact le_refl _
  · exact whole_nonneg (h.fixRowsOk v key f hf).1.le

/-- Only an expired vote that is not withdrawn weighs what it should not. -/
theorem staleStake_eq (h : Reachable p) (hf : p.state.fixvotes.find v key = some f) :
    staleStake p.height f = if f.isWithdraw = false ∧ f.withdrawBlockNum ≤ p.height then
      whole f.votepowerAge.staked.amount else 0 := by
  have hw := (h.fixRowsOk v key f hf).2
  unfold staleStake fixVoteStake liveStake
  cases hwd : f.isWithdraw with
  | true =>
    have hexp : ¬p.height < f.withdrawBlockNum := not_lt.mpr (hw hwd)
    simp [hexp]
  | false =>
    by_cases hlt : p.height < f.withdrawBlockNum
    · simp [hlt]
    · simp [hlt, not_lt.mp hlt]

theorem staleStake_nonneg (h : Reachable p) :
    p.state.fixvotes.All fun _ _ f => 0 ≤ staleStake p.height f := by
  intro v key f hf
  rw [staleStake_eq h hf]
  split
  · exact whole_nonneg (h.fixRowsOk v key f hf).1.le
  · exact le_refl _

/-- The fix-time votes' part of the stake of a bp is the live weight and the stale weight. -/
theorem fixPart_eq (h : Reachable p) (b : Name) : stakeAt p.state.bps b -
    votesFor p.state.votes b voteStake - votesFor p.state.votes4ram b voteStake =
      fixVotesFor p.state.fixvotes b (liveStake p.height) +
        fixVotesFor p.state.fixvotes b (staleStake p.height) := by
  have hsum : fixVotesFor p.state.fixvotes b fixVoteStake =
      fixVotesFor p.state.fixvotes b (liveStake p.height) +
        fixVotesFor p.state.fixvotes b (staleStake p.height) := by
    rw [← fixVotesFor_add]
    congr 1
    funext v
    unfold staleStake
    omega
  rw [h.stakes b, ← hsum]
  simp only [Ledger.stakeOf, State.ledger]
  omega

/-- The bp of a vote that weighs is registered. -/
theorem registered_of_fixVote (h : Reachable p) (hf : p.state.fixvotes.find v key = some f)
    (hpos : 0 < fixVoteStake f) : ∃ bp, p.state.bps.find f.bpname = some bp := by
  cases hb : p.state.bps.find f.bpname with
  | some bp => exact ⟨bp, rfl⟩
  | none =>
    have h0 : stakeAt p.state.bps f.bpname = 0 := by
      unfold stakeAt
      rw [hb]
      rfl
    have hstakes := h.stakes f.bpname
    have hv := votesFor_nonneg h.coins.votes f.bpname
    have hr := votesFor_nonneg h.coins.votes4ram f.bpname
    have hle := le_fixVotesFor (fixVoteStake_nonneg h) hf
    simp only [Ledger.stakeOf, State.ledger] at hstakes hv hr
    omega

/-- A reachable state counts only live votes exactly when none of its votes has expired. -/
theorem countsLive_iff (h : Reachable p) : CountsLive p ↔ NoneExpired p := by
  constructor
  · intro hlive v key f hf hno
    by_contra hexp
    have hpos := whole_pos (h.fixRowsOk v key f hf).1 (h.coins.fixvotes v key f hf).whole
    have hstale := staleStake_eq h hf
    rw [if_pos ⟨hno, not_lt.mp hexp⟩] at hstale
    obtain ⟨bp, hb⟩ := registered_of_fixVote h hf (by
      unfold fixVoteStake
      rwa [hno])
    have hle := le_fixVotesFor (staleStake_nonneg h) hf
    have hsame := hlive f.bpname bp hb
    rw [← stakeAt_of_find hb, fixPart_eq h] at hsame
    omega
  · intro hnone b bp hb
    have hzero : fixVotesFor p.state.fixvotes b (staleStake p.height) = 0 := by
      apply Scoped.sum_zero
      intro v key f hf
      have hlive : ¬(f.isWithdraw = false ∧ f.withdrawBlockNum ≤ p.height) := by
        rintro ⟨hno, hexp⟩
        exact absurd (hnone v key f hf hno) (not_lt.mpr hexp)
      rw [staleStake_eq h hf, if_neg hlive, ite_self]
    rw [← stakeAt_of_find hb, fixPart_eq h, hzero, add_zero]

end Weight

/-! ## Runs -/

/-- The action leaves no expired vote: each vote that has expired at its block and is not withdrawn
is the one that it withdraws, and the lock of a vote that it makes ends later. -/
def LeavesNoneExpired (p : Point) (a : Env × Action) : Prop :=
  (∀ v key f, p.state.fixvotes.find v key = some f → f.isWithdraw = false →
    f.withdrawBlockNum ≤ a.1.currentBlockNum → a.2 = .outfixvote v key) ∧
  ∀ v b typ stake stakeTyp d, a.2 = .votefix v b typ stake stakeTyp → getDataByTyp typ = some d →
    a.1.currentBlockNum < u32 (a.1.currentBlockNum + u32 (d.days * blockNumPerDay))

theorem Change.of_outfixvote {v : Name} {key : Nat} {l : Ledger}
    (h : Change env s (.outfixvote v key) l) :
    ∃ f, l.fixvotes.find v key = some f ∧ f.isWithdraw = true := by
  generalize ha : Action.outfixvote v key = a at h
  cases h with
  | outfixvote =>
    cases ha
    exact ⟨_, Scoped.find_put_self _ _ _ _, rfl⟩
  | @cast typ | @unfreeze typ => cases typ <;> cases ha
  | other hm =>
    subst ha
    cases hm
  | _ => cases ha

theorem Change.of_votefix {v b typ : Name} {stake : Asset} {stakeTyp : Nat} {l : Ledger}
    (h : Change env s (.votefix v b typ stake stakeTyp) l) : ∃ d key f,
    getDataByTyp typ = some d ∧ l.fixvotes.find v key = some f ∧ f.isWithdraw = false ∧
      f.withdrawBlockNum = u32 (env.currentBlockNum + u32 (d.days * blockNumPerDay)) := by
  generalize ha : Action.votefix v b typ stake stakeTyp = a at h
  cases h with
  | votefix hd _ _ _ _ _ _ _ _ hf =>
    cases ha
    subst hf
    exact ⟨_, _, _, hd, Scoped.find_put_self _ _ _ _, rfl, rfl⟩
  | @cast typ | @unfreeze typ => cases typ <;> cases ha
  | other hm =>
    subst ha
    cases hm
  | _ => cases ha

/-- **Step lemma.** A step leaves no expired vote exactly when it meets the condition. -/
theorem Step.noneExpired_iff {p q : Point} {a : Env × Action} (h : Step p a q) :
    NoneExpired q ↔ LeavesNoneExpired p a := by
  obtain ⟨-, hq, fx, hx⟩ := h
  have hrow := exec_fixRow hx
  have hch := exec_change hx
  obtain ⟨env, a⟩ := a
  simp only at hq hrow hch
  refine ⟨fun hnone => ⟨?_, ?_⟩, ?_⟩
  · intro v key f hf hno hexp
    change f.withdrawBlockNum ≤ env.currentBlockNum at hexp
    have hr := hrow v key
    rw [hf] at hr
    generalize ho : q.state.fixvotes.find v key = o at hr
    cases hr with
    | same =>
      have hlt := hnone v key f ho hno
      omega
    | @aged _ f' hw hn =>
      have hlt := hnone v key f' ho (hw.trans hno)
      omega
    | withdrawn ha => exact ha
    | erased hw => exact absurd (hno.symm.trans hw) nofun
  · rintro v b typ stake stakeTyp d rfl hd
    obtain ⟨d', key, f, hd', hf, hno, hw⟩ := hch.of_votefix
    obtain rfl := Option.some.inj (hd.symm.trans hd')
    have hlt := hnone v key f hf hno
    rw [hq, hw] at hlt
    exact hlt
  · rintro ⟨hold, hnew⟩ v key f hf hno
    have hout : a ≠ .outfixvote v key := by
      rintro rfl
      obtain ⟨f', hf', hw⟩ := hch.of_outfixvote
      obtain rfl := Option.some.inj (hf.symm.trans hf')
      exact absurd (hno.symm.trans hw) nofun
    have hr := hrow v key
    rw [hf] at hr
    generalize ho : p.state.fixvotes.find v key = o at hr
    rw [hq]
    cases hr with
    | same => exact not_le.mp fun hexp => hout (hold v key f ho hno hexp)
    | @aged f₀ _ hw hn =>
      rw [hn]
      exact not_le.mp fun hexp => hout (hold v key f₀ ho (hw ▸ hno) hexp)
    | made ha hd _ _ hn =>
      rw [hn]
      exact hnew _ _ _ _ _ _ ha hd
    | withdrawn => cases hno

/-- **Run theorem.** Over a run the stake of every bp counts only votes that have not expired
exactly when no step leaves an expired vote that is not withdrawn. -/
theorem expiry_run_iff {s : State} {tr : List (Point × (Env × Action) × Point)} {q : Point}
    (hg : Genesis s) (h : Run Step ⟨s, 0⟩ tr q) :
    (∀ e ∈ tr, CountsLive e.2.2) ↔ ∀ e ∈ tr, LeavesNoneExpired e.1 e.2.1 := by
  have hreach := (h.inv (I := Reachable) ⟨s, [], hg, .nil⟩ fun _ _ _ => Reachable.step).2
  refine forall₂_congr fun e he => ?_
  obtain ⟨-, hs, hr⟩ := hreach e he
  rw [countsLive_iff hr]
  exact hs.noneExpired_iff

/-! ### A vote locked for 90 days -/

def fixVoted : Point :=
  (Point.mk founding 0).next (Env.of 1 1) (.votefix 1 7 fvoteA ⟨10000, coreSymbol⟩ 1)

theorem fixVoted_rows : fixVoted.state.fixvotes.All fun v key _ => v = 1 ∧ key = 0 :=
  (Scoped.all_empty _).put ⟨rfl, rfl⟩

/-- Its owner withdraws it when it expires. -/
theorem expiry_run_iff_withdrawn : ∃ tr q, Run Step ⟨founding, 0⟩ tr q ∧ tr.length = 2 ∧
    ∀ e ∈ tr, CountsLive e.2.2 := by
  have hrun := (Run.nil.snoc (Point.next_step ⟨founding, 0⟩ (Env.of 1 1)
      (.votefix 1 7 fvoteA ⟨10000, coreSymbol⟩ 1) (by decide) rfl)).snoc
    (Point.next_step fixVoted (Env.of 1 2592001) (.outfixvote 1 0) (by decide) rfl)
  refine ⟨_, _, hrun, rfl, (expiry_run_iff founding_genesis hrun).mpr fun e he => ?_⟩
  simp only [List.nil_append, List.cons_append, List.mem_cons, List.not_mem_nil, or_false] at he
  rcases he with rfl | rfl
  · refine ⟨nofun, ?_⟩
    rintro v b typ stake stakeTyp d ha hd
    cases ha
    cases hd
    decide
  · refine ⟨fun v key f hf _ _ => ?_, nofun⟩
    obtain ⟨rfl, rfl⟩ := fixVoted_rows v key f hf
    rfl

theorem fixVoted_reachable : Reachable fixVoted :=
  founding_reachable.step (Point.next_step _ (Env.of 1 1)
    (.votefix 1 7 fvoteA ⟨10000, coreSymbol⟩ 1) (by decide) rfl)

/-- Its owner lets it stand when it has expired, and transfers a token. -/
theorem expired_counts : ¬∀ p, Reachable p → CountsLive p := by
  intro h
  have hr := fixVoted_reachable.step (Point.next_step fixVoted (Env.of 1 2592001)
    (.transfer 1 2 ⟨1, coreSymbol⟩ "") (by decide) rfl)
  exact absurd (h _ hr 7 _ rfl) (by decide)

end Eosforce.System
