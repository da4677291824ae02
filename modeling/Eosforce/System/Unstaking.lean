import Eosforce.System.FixRow
import Eosforce.System.TokenPath
import Eosforce.System.VoteAge

/-!
# How long tokens stay locked

A token is followed through a run together with the state of the contract. Many deposits share the
height of one pot and a fix-time vote may take tokens out of a pot without touching it, so the
bound is kept for the token: wherever it goes, it is in no account before block `B`.

* `Token`, `TokenStep`, `Minted`: a token, its steps, where it may start.
* `LockedUntil`, `LockedUntil.run`: the bound, which every step keeps.
* `released_late`: tokens leave a pot and a fix-time vote no sooner than after the delay.
-/

namespace Eosforce.System

open Fallible Keyed Runs

variable {env : Env} {s s' : State}

/-- The state of the contract and the place of one token. -/
structure Token where
  point : Point
  place : Place

/-- An action, with what it does to the token. -/
def TokenStep (p : Token) (a : Env × Action) (q : Token) : Prop :=
  Step p.point a q.point ∧ (q.place = p.place ∨
    Moves p.point.state.ledger q.point.state.ledger p.place q.place)

/-- A token of a genesis state, or of the rewards to come. -/
structure Minted (p : Token) : Prop where
  genesis : Genesis p.point.state
  height : p.point.height = 0
  place : p.place = .reward ∨ 0 < p.point.state.ledger.held p.place

theorem Minted.reachable {p : Token} (h : Minted p) : Reachable p.point := by
  obtain ⟨⟨s, n⟩, P⟩ := p
  obtain ⟨hg, rfl, -⟩ := h
  exact ⟨s, [], hg, .nil⟩

theorem Genesis.vote {s : State} (h : Genesis s) (typ : VoteTyp) (v b : Name) :
    s.ledger.vote typ v b = {} := by
  unfold Ledger.vote
  rw [ledger_votesTbl]
  cases typ with
  | votes => rw [State.votesTbl, h.votes]; rfl
  | votes4ram => rw [State.votesTbl, h.votes4ram]; rfl

theorem Minted.not_unstaking {p : Token} (h : Minted p) (typ : VoteTyp) (v b : Name) :
    p.place ≠ .unstaking typ v b := by
  intro hp
  rcases h.place with hr | hpos
  · exact absurd (hp.symm.trans hr) (by simp)
  · rw [hp] at hpos
    simp only [Ledger.held, h.genesis.vote] at hpos
    exact absurd hpos (lt_irrefl _)

/-- A step that moves the token is a flow of its action. -/
theorem TokenStep.flow {p q : Token} {a : Env × Action} (h : TokenStep p a q)
    (hp : Reachable p.point) (hne : q.place ≠ p.place) :
    Flow a.1.currentBlockNum p.point.state.ledger q.point.state.ledger a.2 p.place q.place := by
  obtain ⟨_, _, fx, hx⟩ := h.1
  exact exec_flow hp.coins hx (h.2.resolve_left hne)

theorem TokenStep.reachable {p q : Token} {a : Env × Action} (hp : Reachable p.point)
    (h : TokenStep p a q) : Reachable q.point := hp.step h.1

/-! ## Heights of the pots -/

/-- The pots are not locked from a later block on. -/
def PotsBelow (p : Point) : Prop :=
  ∀ typ v b, p.state.ledger.unstakeHeight typ v b ≤ p.height

theorem PotsBelow.step {p q : Point} {a : Env × Action} (hp : PotsBelow p) (h : Step p a q) :
    PotsBelow q := by
  obtain ⟨hle, hq, fx, hx⟩ := h
  intro typ v b
  have hpot := hp typ v b
  rcases exec_unstakeHeight hx typ v b with he | he <;> omega

theorem Reachable.potsBelow {p : Point} (h : Reachable p) : PotsBelow p := by
  refine h.inv (fun s hg typ v b => ?_) fun _ _ _ => PotsBelow.step
  unfold Ledger.unstakeHeight
  rw [hg.vote]

/-! ## The lock of a token -/

/-- Wherever the token goes, it is in no account before block `B`. -/
def LockedUntil (B : Nat) (p : Token) : Prop :=
  match p.place with
  | .fixed v key => (∃ f, p.point.state.fixvotes.find v key = some f ∧ f.isWithdraw = false ∧
      B ≤ f.withdrawBlockNum + frozenDelay + 1) ∨ B ≤ p.point.height + frozenDelay + 1
  | .unstaking typ v b => B ≤ p.point.state.ledger.unstakeHeight typ v b + frozenDelay + 1
  | _ => B ≤ p.point.height

section Locked

variable {B : Nat} {p q : Token} {a : Env × Action}

/-- A locked token that stays stays locked. -/
theorem LockedUntil.stay (h : LockedUntil B p) (hp : Reachable p.point) (hs : Step p.point a q.point)
    (hpl : q.place = p.place) : LockedUntil B q := by
  obtain ⟨hle, hq, fx, hx⟩ := hs
  unfold LockedUntil at h ⊢
  rw [hpl]
  cases hP : p.place with
  | unstaking typ v b =>
    rw [hP] at h
    have hpot := hp.potsBelow typ v b
    show B ≤ q.point.state.ledger.unstakeHeight typ v b + frozenDelay + 1
    rcases exec_unstakeHeight hx typ v b with he | he
    · rw [he]
      exact h
    · rw [he]
      exact h.trans (by omega)
  | fixed v key =>
    rw [hP] at h
    rcases h with ⟨f, hf, hno, hB⟩ | hB
    · have hrow := exec_fixRow hx v key
      rw [hf] at hrow
      show (∃ f, q.point.state.fixvotes.find v key = some f ∧ _) ∨ _
      generalize q.point.state.fixvotes.find v key = o at hrow
      cases hrow with
      | same => exact .inl ⟨f, rfl, hno, hB⟩
      | @aged f f' hw hn => exact .inl ⟨f', rfl, hw.trans hno, hn ▸ hB⟩
      | withdrawn _ _ hle' => exact .inr (by omega)
      | erased hw => exact absurd hno (by simp [hw])
    · exact .inr (by omega)
  | available | staked | reward =>
    rw [hP] at h
    exact h.trans (hle.trans hq.ge)

/-- A locked token that moves stays locked. -/
theorem LockedUntil.move (h : LockedUntil B p) (hp : Reachable p.point) (hs : TokenStep p a q)
    (hfit : a.1.currentBlockNum + frozenDelay < 2 ^ 32) (hne : q.place ≠ p.place) :
    LockedUntil B q := by
  have hflow := hs.flow hp hne
  have hpots := hp.potsBelow
  obtain ⟨env, act⟩ := a
  obtain ⟨u, P⟩ := p
  obtain ⟨w, Q⟩ := q
  obtain ⟨⟨hle, hq, -⟩, -⟩ := hs
  simp only at hle hq hfit hflow hpots
  cases hflow with
  | transfer | stake | revote | claim | bpclaim | onblock => exact Nat.le_trans h (hle.trans hq.ge)
  | @lower typ v b stake _ hpot =>
    -- the pot is locked from this block on
    have hB : B ≤ u.height := h
    show B ≤ w.state.ledger.unstakeHeight typ v b + frozenDelay + 1
    omega
  | @unfreeze typ v b hd =>
    have hB : B ≤ u.state.ledger.unstakeHeight typ v b + frozenDelay + 1 := h
    have hpot := hpots typ v b
    rw [u32_of_lt (by omega)] at hd
    show B ≤ w.height
    omega
  | @votefix v b typ stake stakeTyp key d P f hP =>
    refine .inr ?_
    rcases hP with rfl | rfl
    · have hB : B ≤ u.height := h
      simp only
      omega
    · have hB : B ≤ u.state.ledger.unstakeHeight .votes v b + frozenDelay + 1 := h
      have hpot := hpots .votes v b
      simp only
      omega
  | @outfixvote v key f hf hno hw hpot =>
    show B ≤ w.state.ledger.unstakeHeight .votes v f.bpname + frozenDelay + 1
    rcases h with ⟨f', hf', -, hB⟩ | hB
    · obtain rfl := Option.some.inj (hf.symm.trans hf')
      omega
    · simp only at hB
      omega

theorem LockedUntil.step (h : LockedUntil B p) (hp : Reachable p.point) (hs : TokenStep p a q)
    (hfit : a.1.currentBlockNum + frozenDelay < 2 ^ 32) : LockedUntil B q := by
  by_cases hpl : q.place = p.place
  · exact h.stay hp hs.1 hpl
  · exact h.move hp hs hfit hpl

end Locked

/-! ## Runs -/

/-- An action of a run, with the token before and after it. -/
abbrev TokenEvent := Token × (Env × Action) × Token

def TokenEvent.block (e : TokenEvent) : Nat := e.2.1.1.currentBlockNum

def TokenEvent.action (e : TokenEvent) : Action := e.2.1.2

/-- The delay after the block does not wrap. -/
def TokenEvent.DelayFits (e : TokenEvent) : Prop := e.block + frozenDelay < 2 ^ 32

/-- The token enters a pot: the vote is lowered, or a fix-time vote is over. -/
structure EntersPot (typ : VoteTyp) (v b : Name) (e : TokenEvent) : Prop where
  before : e.1.place ≠ .unstaking typ v b
  after : e.2.2.place = .unstaking typ v b
  cause : (∃ stake, e.action = castAction typ v b stake ∧
      stake.amount < e.1.point.state.ledger.held (.staked typ v b)) ∨
    typ = .votes ∧ ∃ key, e.action = .outfixvote v key

section Run

variable {B : Nat} {p q : Token} {tr : List TokenEvent}

theorem tokenRun_reachable (h : Run TokenStep p tr q) (hp : Reachable p.point) :
    Reachable q.point ∧ ∀ e ∈ tr, Reachable e.1.point ∧ TokenStep e.1 e.2.1 e.2.2 := by
  have hinv := h.inv (I := fun p => Reachable p.point) hp fun _ _ _ => TokenStep.reachable
  exact ⟨hinv.1, fun e he => ⟨(hinv.2 e he).1, (hinv.2 e he).2.1⟩⟩

/-- **Run lemma.** A token that is locked stays locked. -/
theorem LockedUntil.run (hl : LockedUntil B p) (h : Run TokenStep p tr q) (hp : Reachable p.point)
    (hfit : ∀ e ∈ tr, e.DelayFits) : ∀ e ∈ tr, LockedUntil B e.2.2 := by
  have hinv := (h.restrict hfit).inv (I := fun p => Reachable p.point ∧ LockedUntil B p) ⟨hp, hl⟩
    fun t a u hI hs => ⟨hs.1.reachable hI.1, hI.2.step hI.1 hs.1 hs.2⟩
  exact fun e he => (hinv.2 e he).2.2.2

/-- A token is not in an account before the block up to which it is locked. -/
theorem LockedUntil.le_block {e : TokenEvent} {k : Name} (h : LockedUntil B e.2.2)
    (hs : TokenStep e.1 e.2.1 e.2.2) (hk : e.2.2.place = .available k) : B ≤ e.block := by
  unfold LockedUntil at h
  rw [hk] at h
  exact h.trans hs.1.2.1.le

theorem Flow.of_unfreeze {block : Nat} {l l' : Ledger} {typ : VoteTyp} {v b : Name} {P Q : Place}
    (h : Flow block l l' (unfreezeAction typ v b) P Q) : P = .unstaking typ v b ∧ Q = .available v := by
  generalize ha : unfreezeAction typ v b = a at h
  cases h with
  | @unfreeze typ' =>
    cases typ <;> cases typ' <;> cases ha <;> exact ⟨rfl, rfl⟩
  | @stake typ' | @lower typ' => cases typ <;> cases typ' <;> cases ha
  | _ => cases typ <;> cases ha

theorem Flow.of_votefix {block : Nat} {l l' : Ledger} {v b typ : Name} {stake : Asset}
    {stakeTyp : Nat} {d : FixVoteData} {P Q : Place}
    (h : Flow block l l' (.votefix v b typ stake stakeTyp) P Q) (hd : getDataByTyp typ = some d) :
    ∃ key f, Q = .fixed v key ∧ l'.fixvotes.find v key = some f ∧ f.isWithdraw = false ∧
      f.withdrawBlockNum = u32 (block + u32 (d.days * blockNumPerDay)) := by
  generalize ha : Action.votefix v b typ stake stakeTyp = a at h
  cases h with
  | votefix _ hd' hf hno hw =>
    cases ha
    obtain rfl := Option.some.inj (hd.symm.trans hd')
    exact ⟨_, _, rfl, hf, hno, hw⟩
  | @stake typ' | @lower typ' | @unfreeze typ' => cases typ' <;> cases ha
  | _ => cases ha

theorem Flow.enters {block : Nat} {l l' : Ledger} {a : Action} {typ : VoteTyp} {v b : Name}
    {P : Place} (h : Flow block l l' a P (.unstaking typ v b)) :
    ((∃ stake, a = castAction typ v b stake ∧ stake.amount < l.held (.staked typ v b)) ∨
      typ = .votes ∧ ∃ key, a = .outfixvote v key) ∧ l'.unstakeHeight typ v b = block := by
  cases h with
  | lower hlt hpot => exact ⟨.inl ⟨_, rfl, hlt⟩, hpot⟩
  | outfixvote _ _ _ hpot => exact ⟨.inr ⟨rfl, _, rfl⟩, hpot⟩

/-- A token in a pot has entered it. -/
theorem enters_of_run {typ : VoteTyp} {v b : Name} (hp : Minted p) (h : Run TokenStep p tr q)
    (hq : q.place = .unstaking typ v b) :
    ∃ l z l', tr = l ++ z :: l' ∧ EntersPot typ v b z ∧
      (∀ y ∈ l', y.2.2.place = .unstaking typ v b) ∧ LockedUntil (z.block + frozenDelay + 1) z.2.2 := by
  obtain ⟨l, z, l', rfl, hpre, hpost, hall⟩ := h.entered (P := fun t => t.place = .unstaking typ v b)
    (hp.not_unstaking typ v b) hq
  have hz := (tokenRun_reachable h hp.reachable).2 z (by simp)
  have hflow := hz.2.flow hz.1 fun e => hpre (e.symm.trans hpost)
  rw [hpost] at hflow
  obtain ⟨hcause, hpot⟩ := hflow.enters
  refine ⟨l, z, l', rfl, ⟨hpre, hpost, hcause⟩, hall, ?_⟩
  unfold LockedUntil
  rw [hpost]
  show TokenEvent.block z + frozenDelay + 1 ≤ _
  rw [hpot]
  exact le_refl _

/-- The locked blocks of a fix-time vote. -/
def FixVoteData.lockedBlocks (d : FixVoteData) : Nat := d.days * blockNumPerDay

/-- A token of a fix-time vote whose lock does not wrap is locked over it and the delay. -/
theorem LockedUntil.of_votefix {z : TokenEvent} {v b typ : Name} {stake : Asset} {stakeTyp : Nat}
    {d : FixVoteData} (hz : Reachable z.1.point) (hs : TokenStep z.1 z.2.1 z.2.2)
    (ha : z.action = .votefix v b typ stake stakeTyp) (hd : getDataByTyp typ = some d)
    (hfit : LockFits z.2.1) (hne : z.2.2.place ≠ z.1.place) :
    (∃ key, z.2.2.place = .fixed v key) ∧
      LockedUntil (z.block + d.lockedBlocks + frozenDelay + 1) z.2.2 := by
  have hflow := hs.flow hz hne
  have hfit' := hfit v b typ stake stakeTyp d ha hd
  rw [show z.2.1.2 = _ from ha] at hflow
  obtain ⟨key, f, hQ, hf, hno, hw⟩ := hflow.of_votefix hd
  refine ⟨⟨key, hQ⟩, ?_⟩
  have hdays : u32 (d.days * blockNumPerDay) = d.days * blockNumPerDay := u32_of_lt (by omega)
  rw [hdays, u32_of_lt hfit'] at hw
  unfold LockedUntil
  rw [hQ]
  refine .inl ⟨f, hf, hno, ?_⟩
  rw [hw]
  exact le_refl _

/-- **Tokens leave a pot and a fix-time vote late.** A token that `unfreeze` or `unfreezeram`
credits entered its pot, and stayed there, more than the delay before. A token that `votefix` puts
into a fix-time vote, with a lock that does not wrap, is in no account before the end of the lock,
the delay and a block. -/
theorem released_late (hp : Minted p) (h : Run TokenStep p tr q) (hfit : ∀ e ∈ tr, e.DelayFits) :
    (∀ (l l' : List TokenEvent) (e : TokenEvent) (typ : VoteTyp) (v b : Name), tr = l ++ e :: l' →
      e.action = unfreezeAction typ v b → e.2.2.place ≠ e.1.place →
      e.1.place = .unstaking typ v b ∧ e.2.2.place = .available v ∧
        ∃ (l₁ l₂ : List TokenEvent) (z : TokenEvent), l = l₁ ++ z :: l₂ ∧ EntersPot typ v b z ∧
          (∀ y ∈ l₂, y.2.2.place = .unstaking typ v b) ∧ z.block + frozenDelay < e.block) ∧
    ∀ (l l' : List TokenEvent) (z : TokenEvent) (v b typ : Name) (stake : Asset) (stakeTyp : Nat)
      (d : FixVoteData), tr = l ++ z :: l' → z.action = .votefix v b typ stake stakeTyp →
      getDataByTyp typ = some d → LockFits z.2.1 → z.2.2.place ≠ z.1.place →
      (∃ key, z.2.2.place = .fixed v key) ∧ ∀ e ∈ l', ∀ k, e.2.2.place = .available k →
        z.block + d.lockedBlocks + frozenDelay + 1 ≤ e.block := by
  have hsteps := (tokenRun_reachable h hp.reachable).2
  refine ⟨?_, ?_⟩
  · rintro l l' e typ v b rfl ha hne
    obtain ⟨he, hs⟩ := hsteps e (by simp)
    have hflow := hs.flow he hne
    rw [show e.2.1.2 = _ from ha] at hflow
    obtain ⟨hP, hQ⟩ := hflow.of_unfreeze
    obtain ⟨hrun, -, -⟩ := h.split_at
    obtain ⟨l₁, z, l₂, rfl, hz, hall, hlock⟩ := enters_of_run hp hrun hP
    have hz' : z ∈ l₁ ++ z :: l₂ ++ e :: l' := by simp
    have hafter := hrun.split_at.2.2.snoc hs
    have hl := hlock.run hafter (TokenStep.reachable (hsteps z hz').1 (hsteps z hz').2)
      (fun y hy => hfit y (by simp at hy ⊢; tauto)) e (by simp)
    exact ⟨hP, hQ, l₁, l₂, z, rfl, hz, hall, hl.le_block hs hQ⟩
  · rintro l l' z v b typ stake stakeTyp d rfl ha hd hlf hne
    obtain ⟨hz, hs⟩ := hsteps z (by simp)
    obtain ⟨hfixed, hlock⟩ := LockedUntil.of_votefix hz hs ha hd hlf hne
    refine ⟨hfixed, fun e he k hk => ?_⟩
    have hafter := h.split_at.2.2
    have hl := hlock.run hafter (TokenStep.reachable hz hs) (fun y hy => hfit y (by simp [hy])) e he
    exact hl.le_block (hsteps e (by simp [he])).2 hk

end Run

/-! ## A fix-time vote and back -/

def Token.next (p : Token) (env : Env) (a : Action) (Q : Place) : Token := ⟨p.point.next env a, Q⟩

theorem Token.next_step (p : Token) (env : Env) (a : Action) (Q : Place)
    (h : p.point.height ≤ env.currentBlockNum) (hok : (exec env p.point.state a).isOk = true)
    (hQ : p.point.state.ledger.held Q < (p.next env a Q).point.state.ledger.held Q)
    (hP : (p.next env a Q).point.state.ledger.held p.place < p.point.state.ledger.held p.place) :
    TokenStep p (env, a) (p.next env a Q) :=
  ⟨p.point.next_step env a h hok, .inr ⟨hQ, .inl hP⟩⟩

def Token.founding : Token := ⟨⟨System.founding, 0⟩, .available 1⟩

theorem Token.founding_minted : Minted Token.founding := ⟨founding_genesis, rfl, .inr (by decide)⟩

/-- A token is put into a fix-time vote at block `s`, which is over at `u`, and leaves the pot at
`c`. -/
def fixCycle (typ : Name) (s u c : Nat) : List TokenEvent :=
  let votefix := (Env.of 1 s, Action.votefix 1 7 typ ⟨10000, coreSymbol⟩ 1)
  let outfixvote := (Env.of 1 u, Action.outfixvote 1 0)
  let unfreeze := (Env.of 1 c, Action.unfreeze 1 7)
  let fixed := Token.founding.next votefix.1 votefix.2 (.fixed 1 0)
  let pot := fixed.next outfixvote.1 outfixvote.2 (.unstaking .votes 1 7)
  [(.founding, votefix, fixed), (fixed, outfixvote, pot),
    (pot, unfreeze, pot.next unfreeze.1 unfreeze.2 (.available 1))]

theorem fixCycle_run : ∃ q, Run TokenStep .founding (fixCycle fvoteA 1 2592001 2678402) q :=
  ⟨_, ((Run.nil.snoc (Token.next_step _ _ _ _ (by decide) rfl (by decide) (by decide))).snoc
    (Token.next_step _ _ _ _ (by decide) rfl (by decide) (by decide))).snoc
    (Token.next_step _ _ _ _ (by decide) rfl (by decide) (by decide))⟩

/-- The token of a vote locked for 90 days. -/
theorem released_late_fixCycle :
    (∃ (l₁ l₂ : List TokenEvent) (z : TokenEvent),
      (fixCycle fvoteA 1 2592001 2678402).take 2 = l₁ ++ z :: l₂ ∧ EntersPot .votes 1 7 z ∧
        z.block + frozenDelay < 2678402) ∧
    1 + 90 * blockNumPerDay + frozenDelay + 1 ≤ 2678402 := by
  obtain ⟨q, h⟩ := fixCycle_run
  have hall := released_late Token.founding_minted h (by unfold TokenEvent.DelayFits; decide)
  obtain ⟨-, -, l₁, l₂, z, hl, hz, -, hb⟩ :=
    hall.1 ((fixCycle fvoteA 1 2592001 2678402).take 2) [] _ .votes 1 7 rfl rfl (by decide)
  refine ⟨⟨l₁, l₂, z, hl, hz, hb⟩, ?_⟩
  have hlf : LockFits (Env.of 1 1, Action.votefix 1 7 fvoteA ⟨10000, coreSymbol⟩ 1) := by
    intro voter b typ stake stakeTyp d ha hd
    cases ha
    cases hd
    decide
  have hfix := hall.2 [] ((fixCycle fvoteA 1 2592001 2678402).drop 1) _ 1 7 fvoteA
    ⟨10000, coreSymbol⟩ 1 ⟨90, 5⟩ rfl rfl rfl hlf (by decide)
  exact hfix.2 _ (List.mem_cons_of_mem _ (List.mem_singleton.mpr rfl)) 1 rfl

/-- A lock of 720 days that wraps is over at once. -/
theorem released_early : ¬∀ (p q : Token) (tr l l' : List TokenEvent) (z : TokenEvent)
    (v b typ : Name) (stake : Asset) (stakeTyp : Nat) (d : FixVoteData), Minted p →
    Run TokenStep p tr q → (∀ e ∈ tr, e.DelayFits) → tr = l ++ z :: l' →
    z.action = .votefix v b typ stake stakeTyp → getDataByTyp typ = some d →
    z.2.2.place ≠ z.1.place → ∀ e ∈ l', ∀ k, e.2.2.place = .available k →
      z.block + d.lockedBlocks + frozenDelay + 1 ≤ e.block := by
  intro h
  have hrun : ∃ q, Run TokenStep .founding (fixCycle fvoteD 4294000000 4294000000 4294086401) q :=
    ⟨_, ((Run.nil.snoc (Token.next_step _ _ _ _ (by decide) rfl (by decide) (by decide))).snoc
      (Token.next_step _ _ _ _ (by decide) rfl (by decide) (by decide))).snoc
      (Token.next_step _ _ _ _ (by decide) rfl (by decide) (by decide))⟩
  obtain ⟨q, hr⟩ := hrun
  have hle := h _ q _ [] _ _ 1 7 fvoteD ⟨10000, coreSymbol⟩ 1 ⟨720, 40⟩ Token.founding_minted hr
    (by unfold TokenEvent.DelayFits; decide) rfl rfl rfl (by decide) _
    (List.mem_cons_of_mem _ (List.mem_singleton.mpr rfl)) 1 rfl
  exact absurd hle (by decide)

end Eosforce.System
