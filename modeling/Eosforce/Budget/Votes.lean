import Eosforce.Budget.Poll
import Mathlib.Data.Multiset.AddSub

/-!
# Votes of the committee

* `Ballot.voters`: the approvers in the three lists of a ballot, with their multiplicities. A vote
  moves an approver from one list to another.
* `Ballot.Grows`: later states of one ballot. `Ballot.Passed` and `Ballot.Refused` stay, and a ballot
  never has both.
* `Elected`: a ballot was made in a step of the run, over the committee of then, and is there since.
* `committee_votes`: both for motions and for requests, the voters are the committee of then, and a
  section says that enough of them voted so.
-/

namespace Eosforce.Budget

open Fallible Keyed Runs

/-! ## Ballots -/

namespace Ballot

variable {b b' b'' : Ballot} {approver : Name}

/-- The approvers of a ballot. -/
def voters (b : Ballot) : Multiset Name := ↑b.requested + ↑b.approved + ↑b.unapproved

theorem card_voters (b : Ballot) : b.voters.card = b.size := by
  simp [voters, size, Nat.add_assoc]

theorem coe_erase_add {l : List Name} (h : approver ∈ l) :
    (↑(l.erase approver) + {approver} : Multiset Name) = ↑l := by
  rw [← Multiset.coe_erase, add_comm, Multiset.singleton_add,
    Multiset.cons_erase (Multiset.mem_coe.mpr h)]

theorem voters_agree (h : approver ∈ b.requested) : (b.agree approver).voters = b.voters := by
  unfold voters agree
  rw [← coe_erase_add h, ← Multiset.coe_add, Multiset.coe_singleton]
  abel

theorem voters_refuse (h : approver ∈ b.requested) : (b.refuse approver).voters = b.voters := by
  unfold voters refuse
  rw [← coe_erase_add h, ← Multiset.coe_add, Multiset.coe_singleton]
  abel

/-- A later state of the ballot. -/
structure Grows (b b' : Ballot) : Prop where
  voters : b'.voters = b.voters
  approved : b.approved.length ≤ b'.approved.length
  unapproved : b.unapproved.length ≤ b'.unapproved.length

theorem Grows.refl (b : Ballot) : b.Grows b := ⟨rfl, le_refl _, le_refl _⟩

theorem Grows.trans (h : b.Grows b') (h' : b'.Grows b'') : b.Grows b'' :=
  ⟨h'.voters.trans h.voters, h.approved.trans h'.approved, h.unapproved.trans h'.unapproved⟩

theorem Grows.size (h : b.Grows b') : b'.size = b.size := by
  rw [← card_voters, ← card_voters, h.voters]

theorem grows_agree (h : approver ∈ b.requested) : b.Grows (b.agree approver) :=
  ⟨voters_agree h, by simp [agree], le_refl _⟩

theorem grows_refuse (h : approver ∈ b.requested) : b.Grows (b.refuse approver) :=
  ⟨voters_refuse h, le_refl _, by simp [refuse]⟩

theorem Grows.passed (h : b.Grows b') (hp : b.Passed) : b'.Passed := by
  have hs := h.size
  have ha := h.approved
  unfold Passed at hp ⊢
  omega

theorem Grows.refused (h : b.Grows b') (hr : b.Refused) : b'.Refused := by
  have hs := h.size
  have hu := h.unapproved
  unfold Refused at hr ⊢
  omega

/-- Two thirds for and a third against do not fit. -/
theorem not_refused_of_passed (h : b.Passed) : ¬b.Refused := by
  unfold Passed Refused at *
  unfold size at *
  omega

theorem passed_iff {n : Nat} (hn : b.size = n) : b.Passed ↔ 2 * n < 3 * b.approved.length := by
  unfold Passed
  omega

theorem refused_iff {n : Nat} (hn : b.size = n) : b.Refused ↔ n < 3 * b.unapproved.length := by
  unfold Refused
  omega

/-- The section that says what the votes say. -/
structure Decides (b : Ballot) («section» : Nat) : Prop where
  passed : «section» = 1 → b.Passed
  refused : «section» = 2 → b.Refused

theorem Decides.of_other {n : Nat} (h1 : n ≠ 1) (h2 : n ≠ 2) : b.Decides n :=
  ⟨fun h => absurd h h1, fun h => absurd h h2⟩

theorem Decides.grows {n : Nat} (h : b.Decides n) (hg : b.Grows b') : b'.Decides n :=
  ⟨fun h1 => hg.passed (h.passed h1), fun h2 => hg.refused (h.refused h2)⟩

end Ballot

/-! ## Where a ballot comes from -/

/-- A ballot of the contract: that of a motion, or of a request. -/
abbrev Slot := State → Option Ballot

/-- The ballot of motion `i` of proposer `p`. -/
def motionSlot (p : Name) (i : Nat) : Slot := fun b => b.approvers.find p i

/-- The ballot of request `k` of proposer `p`. -/
def coinSlot (p : Name) (k : Nat) : Slot := fun b => (b.takecoins.find p k).map (·.ballot)

/-- The ballot in a slot is over committee `c`: it was made in a step of the trace, with the
committee `c` of then, and is there since. -/
def Elected (tr : List (State × Call × State)) (slot : Slot) (c : List Name) : Prop :=
  ∃ l e l', tr = l ++ e :: l' ∧ slot e.1 = none ∧ e.1.committee = some c ∧
    ∀ y ∈ e :: l', (slot y.2.2).isSome = true

/-- What a step does to a slot: the ballot grows, is made over the committee, or is gone. -/
inductive Voting (committee : Option (List Name)) : Option Ballot → Option Ballot → Prop
  | gone {o : Option Ballot} : Voting committee o none
  | grows {x y : Ballot} (hg : x.Grows y) : Voting committee (some x) (some y)
  | made {c : List Name} (hc : committee = some c) :
    Voting committee none (some { requested := c })

theorem Voting.refl (committee : Option (List Name)) (o : Option Ballot) : Voting committee o o := by
  cases o with
  | none => exact .gone
  | some x => exact .grows (.refl x)

theorem Elected.snoc {tr : List (State × Call × State)} {slot : Slot} {c : List Name}
    {e : State × Call × State} (h : Elected tr slot c) (he : (slot e.2.2).isSome = true) :
    Elected (tr ++ [e]) slot c := by
  obtain ⟨l, e₀, l', rfl, hnone, hc, hall⟩ := h
  refine ⟨l, e₀, l' ++ [e], by simp, hnone, hc, ?_⟩
  intro y hy
  rw [← List.cons_append, List.mem_append, List.mem_singleton] at hy
  rcases hy with hy | rfl
  · exact hall y hy
  · exact he

/-- **Run lemma.** The voters of a ballot are the committee that it was made over. -/
theorem run_elected (slot : Slot) {b b' : State} {tr : List (State × Call × State)}
    (hb : slot b = none) (h : Run Step b tr b')
    (hstep : ∀ t c u, Step t c u → Voting t.committee (slot t) (slot u)) :
    ∀ ballot, slot b' = some ballot → ∃ c, Elected tr slot c ∧ ballot.voters = c := by
  refine h.history (I := fun tr b' => ∀ ballot, slot b' = some ballot →
    ∃ c, Elected tr slot c ∧ ballot.voters = c) ?_ fun tr t a u ih hst ballot hu => ?_
  · intro ballot hs
    rw [hb] at hs
    cases hs
  · have hv := hstep t a u hst
    have hsome : (slot u).isSome = true := by rw [hu, Option.isSome_some]
    rw [hu] at hv
    generalize ht : slot t = o at hv
    cases hv with
    | @grows x _ hg =>
      obtain ⟨c, hel, hvoters⟩ := ih x ht
      exact ⟨c, hel.snoc hsome, hg.voters.trans hvoters⟩
    | @made c hc =>
      refine ⟨c, ⟨tr, (t, a, u), [], rfl, ht, hc, fun y hy => ?_⟩, by simp [Ballot.voters]⟩
      rw [List.mem_singleton] at hy
      subst hy
      exact hsome

/-! ## Motions -/

section Motions

variable {b : State} {a : Action} {motions : Table Nat MotionInfo}
  {approvers : Scoped Name Nat Ballot}

theorem voting_put {p p' : Name} {i i' : Nat} {x y : Ballot}
    (hx : b.approvers.find p' i' = some x) (hg : x.Grows y) :
    Voting b.committee (b.approvers.find p i) ((b.approvers.put p' i' y).find p i) := by
  rw [Scoped.find_put]
  by_cases hi : p' = p ∧ i' = i
  · obtain ⟨rfl, rfl⟩ := hi
    rw [if_pos ⟨rfl, rfl⟩, hx]
    exact .grows hg
  · rw [if_neg hi]
    exact .refl _ _

/-- What an action does to the ballot of a motion. -/
theorem Poll.voting (h : Poll b a motions approvers) (p : Name) (i : Nat) :
    Voting b.committee (b.approvers.find p i) (approvers.find p i) := by
  cases h with
  | handover | takecoin | agreecoin | unagreecoin | closecoin | updateconfig | pay | turndown =>
    exact .refl _ _
  | @propose proposer _ _ _ id m c hid hp h0 hnone hc =>
    rw [Scoped.find_put]
    by_cases hi : proposer = p ∧ id = i
    · obtain ⟨rfl, rfl⟩ := hi
      rw [if_pos ⟨rfl, rfl⟩, hnone]
      exact .made hc
    · rw [if_neg hi]
      exact .refl _ _
  | approve hm h0 hb hr => exact voting_put hb (Ballot.grows_agree hr)
  | unapprove hm hb hr => exact voting_put hb (Ballot.grows_refuse hr)
  | @closemotion id memo m hm =>
    rw [Scoped.find_erase]
    split
    · exact .gone
    · exact .refl _ _

/-- The section of each motion is what its ballot says. -/
def Decided (motions : Table Nat MotionInfo) (approvers : Scoped Name Nat Ballot) : Prop :=
  ∀ i m ballot, motions.find i = some m → approvers.find m.proposer i = some ballot →
    ballot.Decides m.section

/-- A motion written with its ballot. -/
theorem Decided.put (hd : Decided motions approvers) {id : Nat} {m : MotionInfo} {x : Ballot}
    (hx : x.Decides m.section) : Decided (motions.put id m) (approvers.put m.proposer id x) := by
  intro i m' y hm' hy
  rw [Table.find_put] at hm'
  by_cases hi : id = i
  · subst hi
    rw [if_pos rfl] at hm'
    cases hm'
    rw [Scoped.find_put_self] at hy
    cases hy
    exact hx
  · rw [if_neg hi] at hm'
    rw [Scoped.find_put_ne _ _ fun e => hi e.2] at hy
    exact hd i m' y hm' hy

/-- A motion written over one with the same ballot. -/
theorem Decided.put_motion (hd : Decided motions approvers) {id : Nat} {m m' : MotionInfo}
    (hm : motions.find id = some m) (hp : m'.proposer = m.proposer)
    (hs : ∀ x : Ballot, x.Decides m.section → x.Decides m'.section) :
    Decided (motions.put id m') approvers := by
  intro i n y hn hy
  rw [Table.find_put] at hn
  by_cases hi : id = i
  · subst hi
    rw [if_pos rfl] at hn
    cases hn
    rw [hp] at hy
    exact hs y (hd _ m y hm hy)
  · rw [if_neg hi] at hn
    exact hd i n y hn hy

/-- **Step lemma.** -/
theorem Poll.decided (hd : Decided b.motions b.approvers) (h : Poll b a motions approvers) :
    Decided motions approvers := by
  cases h with
  | handover | takecoin | agreecoin | unagreecoin | closecoin | updateconfig => exact hd
  | @propose proposer _ _ _ id m c hid hp h0 hnone hc =>
    rw [← hp]
    exact hd.put (.of_other (by omega) (by omega))
  | @approve approver id _ m x hm h0 hx hr =>
    by_cases hpass : (x.agree approver).Passed
    · rw [if_pos hpass]
      exact hd.put (m := { m with «section» := 1 }) ⟨fun _ => hpass, (by cases ·)⟩
    · rw [if_neg hpass]
      have hput : Decided (b.motions.put id m) (b.approvers.put m.proposer id (x.agree approver)) :=
        hd.put ((hd id m x hm hx).grows (Ballot.grows_agree hr))
      rwa [Table.put_find hm] at hput
  | @unapprove approver id _ m x hm hx hr =>
    by_cases href : (x.refuse approver).Refused
    · rw [if_pos href]
      exact hd.put (m := { m with «section» := 2 }) ⟨(by cases ·), fun _ => href⟩
    · rw [if_neg href]
      have hput : Decided (b.motions.put id m) (b.approvers.put m.proposer id (x.refuse approver)) :=
        hd.put ((hd id m x hm hx).grows (Ballot.grows_refuse hr))
      rwa [Table.put_find hm] at hput
  | pay hm => exact hd.put_motion hm rfl fun _ hx => hx
  | turndown hm =>
    exact hd.put_motion hm rfl fun _ _ => .of_other (n := 3) (by decide) (by decide)
  | @closemotion id memo m hm =>
    intro i n y hn hy
    rw [Table.find_erase] at hn
    rw [Scoped.find_erase] at hy
    by_cases hi : id = i
    · rw [if_pos hi] at hn
      cases hn
    · rw [if_neg hi] at hn
      rw [if_neg fun e => hi e.2] at hy
      exact hd i n y hn hy

theorem put_proposer {id i : Nat} {m₀ m₁ m m' : MotionInfo} (hm₀ : motions.find id = some m₀)
    (hm : motions.find i = some m) (hm' : (motions.put id m₁).find i = some m')
    (hp : m₁.proposer = m₀.proposer) : m'.proposer = m.proposer := by
  rw [Table.find_put] at hm'
  split at hm'
  · subst_vars
    cases hm'
    cases hm.symm.trans hm₀
    exact hp
  · cases hm.symm.trans hm'
    rfl

/-- A motion that is there before and after an action keeps its proposer. -/
theorem Poll.proposer (h : Poll b a motions approvers) {i : Nat} {m m' : MotionInfo}
    (hm : b.motions.find i = some m) (hm' : motions.find i = some m') :
    m'.proposer = m.proposer := by
  have hsame : b.motions.find i = some m' → m'.proposer = m.proposer := fun e => by
    cases hm.symm.trans e
    rfl
  cases h with
  | handover | takecoin | agreecoin | unagreecoin | closecoin | updateconfig => exact hsame hm'
  | propose hid hp h0 hnone hc =>
    rw [Table.find_put_ne _ _ (lt_availablePrimaryKey hid hm).ne'] at hm'
    exact hsame hm'
  | approve hm₀ | unapprove hm₀ =>
    split at hm'
    · exact put_proposer hm₀ hm hm' rfl
    · exact hsame hm'
  | pay hm₀ | turndown hm₀ => exact put_proposer hm₀ hm hm' rfl
  | closemotion hm₀ =>
    rw [Table.find_erase] at hm'
    split at hm'
    · cases hm'
    · exact hsame hm'

/-- Its ballot grows. -/
theorem Poll.grows (hp : Paired b.motions b.approvers) (h : Poll b a motions approvers) {i : Nat}
    {m m' : MotionInfo} {x : Ballot} (hm : b.motions.find i = some m)
    (hm' : motions.find i = some m') (hx : b.approvers.find m.proposer i = some x) :
    ∃ y, approvers.find m'.proposer i = some y ∧ x.Grows y := by
  obtain ⟨y, hy⟩ := (h.paired hp).find hm'
  refine ⟨y, hy, ?_⟩
  have hv := h.voting m.proposer i
  rw [h.proposer hm hm'] at hy
  rw [hx, hy] at hv
  cases hv with
  | grows hg => exact hg

end Motions

/-! ## Requests for tokens -/

section Requests

variable {env : Env} {b b' : State} {takecoins : Scoped Name Nat TakecoinInfo}

/-- What an action does to the requests for tokens and their ballots. -/
inductive CoinPoll (b : State) : Scoped Name Nat TakecoinInfo → Prop
  | still : CoinPoll b b.takecoins
  | takecoin {proposer : Name} {k : Nat} {t : TakecoinInfo} {c : List Name}
    (hk : b.takecoins.find proposer k = none) (h0 : t.section = 0) (hc : b.committee = some c)
    (hb : t.ballot = { requested := c }) : CoinPoll b (b.takecoins.put proposer k t)
  | vote {proposer : Name} {k : Nat} {t t' : TakecoinInfo}
    (ht : b.takecoins.find proposer k = some t) (hg : t.ballot.Grows t'.ballot)
    (hs : t'.ballot.Decides t'.section) : CoinPoll b (b.takecoins.put proposer k t')
  | closecoin {proposer : Name} {k : Nat} : CoinPoll b (b.takecoins.erase proposer k)

theorem takecoinUnderVote_requested {proposer : Name} {k : Nat} {approver : Name}
    {t : TakecoinInfo} (h : takecoinUnderVote env b proposer k approver = .ok t) :
    b.takecoins.find proposer k = some t ∧ t.section = 0 ∧ approver ∈ t.ballot.requested := by
  simp only [takecoinUnderVote, bind_eq_ok, fetch_eq_ok, check_eq_ok, pure_eq_ok] at h
  obtain ⟨_, ht, _, -, _, h0, _, hr, rfl⟩ := h
  exact ⟨ht, h0, hr⟩

theorem agreecoin_coinPoll {approver proposer : Name} {k : Nat} {memo : String} {fx : List Effect}
    (h : agreecoin env b approver proposer k memo = .ok (b', fx)) : CoinPoll b b'.takecoins := by
  simp only [agreecoin, bind_eq_ok] at h
  obtain ⟨_, -, t, ht, h⟩ := h
  obtain ⟨ht, h0, hr⟩ := takecoinUnderVote_requested ht
  split at h
  · rename_i hpass
    simp only [payTakecoin, bind_eq_ok, pure_eq_ok, Prod.mk.injEq, Scoped.put_put] at h
    obtain ⟨m, -, _, -, _, -, _, -, _, -, rfl, -⟩ := h
    exact .vote ht (Ballot.grows_agree hr) ⟨fun _ => hpass, (by cases ·)⟩
  · cases h
    exact .vote ht (Ballot.grows_agree hr) (.of_other (by simp [h0]) (by simp [h0]))

theorem unagreecoin_coinPoll {approver proposer : Name} {k : Nat} {memo : String}
    (h : unagreecoin env b approver proposer k memo = .ok b') : CoinPoll b b'.takecoins := by
  simp only [unagreecoin, bind_eq_ok, pure_eq_ok] at h
  obtain ⟨_, -, t, ht, rfl⟩ := h
  obtain ⟨ht, h0, hr⟩ := takecoinUnderVote_requested ht
  split
  · rename_i href
    exact .vote ht (Ballot.grows_refuse hr) ⟨(by cases ·), fun _ => href⟩
  · exact .vote ht (Ballot.grows_refuse hr) (.of_other (by simp [h0]) (by simp [h0]))

/-- The other actions about motions leave the requests alone. -/
theorem decideMotion_takecoins (id : Nat) (m : MotionInfo) (decided : Bool) (n : Nat) :
    (decideMotion b id m decided n).takecoins = b.takecoins := by
  cases decided <;> rfl

/-- What a successful action does. -/
theorem exec_coinPoll {a : Action} {fx : List Effect} (h : exec env b a = .ok (b', fx)) :
    CoinPoll b b'.takecoins := by
  cases a <;> simp only [exec, silent_eq_ok] at h
  case agreecoin => exact agreecoin_coinPoll h
  all_goals obtain ⟨h, -⟩ := h
  case unagreecoin => exact unagreecoin_coinPoll h
  case takecoin =>
    simp only [takecoin, bind_eq_ok, fetch_eq_ok, pure_eq_ok, emplace_eq_ok] at h
    obtain ⟨_, -, _, -, _, -, _, -, _, -, _, -, _, -, _, -, _, -, c, hc, k, -, _, ⟨hk, rfl⟩,
      rfl⟩ := h
    exact .takecoin hk rfl hc rfl
  case closecoin =>
    simp only [closecoin, bind_eq_ok, pure_eq_ok] at h
    obtain ⟨_, -, _, -, rfl⟩ := h
    exact .closecoin
  case handover =>
    simp only [handover, bind_eq_ok, pure_eq_ok] at h
    obtain ⟨_, -, rfl⟩ := h
    exact .still
  case updateconfig =>
    simp only [updateconfig, bind_eq_ok, pure_eq_ok] at h
    obtain ⟨_, -, rfl⟩ := h
    exact .still
  case propose =>
    simp only [propose, bind_eq_ok, pure_eq_ok] at h
    obtain ⟨_, -, _, -, _, -, _, -, _, -, _, -, rfl⟩ := h
    exact .still
  case approve =>
    simp only [approve, bind_eq_ok, pure_eq_ok] at h
    obtain ⟨_, -, _, -, _, -, _, -, rfl⟩ := h
    rw [decideMotion_takecoins]
    exact .still
  case unapprove =>
    simp only [unapprove, bind_eq_ok, pure_eq_ok] at h
    obtain ⟨_, -, _, -, _, -, rfl⟩ := h
    rw [decideMotion_takecoins]
    exact .still
  case turndown =>
    simp only [turndown, bind_eq_ok, pure_eq_ok] at h
    obtain ⟨_, -, _, -, rfl⟩ := h
    exact .still
  case closemotion =>
    simp only [closemotion, bind_eq_ok, pure_eq_ok] at h
    obtain ⟨_, -, _, -, _, -, rfl⟩ := h
    exact .still

/-- The section of each request is what its ballot says. -/
def CoinsDecided (takecoins : Scoped Name Nat TakecoinInfo) : Prop :=
  takecoins.All fun _ _ t => t.ballot.Decides t.section

/-- **Step lemma.** -/
theorem CoinPoll.decided (hd : CoinsDecided b.takecoins) (h : CoinPoll b takecoins) :
    CoinsDecided takecoins := by
  cases h with
  | still => exact hd
  | takecoin hk h0 hc hb => exact hd.put (.of_other (by omega) (by omega))
  | vote ht hg hs => exact hd.put hs
  | @closecoin proposer k =>
    intro p i t ht
    rw [Scoped.find_erase] at ht
    split at ht
    · cases ht
    · exact hd p i t ht

/-- What an action does to the ballot of a request. -/
theorem CoinPoll.voting (h : CoinPoll b b'.takecoins) (p : Name) (k : Nat) :
    Voting b.committee (coinSlot p k b) (coinSlot p k b') := by
  unfold coinSlot
  generalize b'.takecoins = takecoins at h
  cases h with
  | still => exact .refl _ _
  | @takecoin proposer k' t c hk h0 hc hb =>
    rw [Scoped.find_put]
    by_cases hi : proposer = p ∧ k' = k
    · obtain ⟨rfl, rfl⟩ := hi
      rw [if_pos ⟨rfl, rfl⟩, hk, Option.map_some, hb]
      exact .made hc
    · rw [if_neg hi]
      exact .refl _ _
  | @vote proposer k' t t' ht hg hs =>
    rw [Scoped.find_put]
    by_cases hi : proposer = p ∧ k' = k
    · obtain ⟨rfl, rfl⟩ := hi
      rw [if_pos ⟨rfl, rfl⟩, ht]
      exact .grows hg
    · rw [if_neg hi]
      exact .refl _ _
  | closecoin =>
    rw [Scoped.find_erase]
    split
    · exact .gone
    · exact .refl _ _

end Requests

/-! ## Runs -/

variable {b b' : State} {tr : List (State × Call × State)}

/-- **Run lemma.** The ballot of an open motion grows. -/
theorem run_grows {i : Nat} {m : MotionInfo} {x : Ballot} (hp : Paired b.motions b.approvers)
    (hm : b.motions.find i = some m) (hx : b.approvers.find m.proposer i = some x)
    (h : Run Step b tr b') (hopen : ∀ e ∈ tr, ¬e.2.1.action.ClosesMotion i) :
    ∃ m' y, b'.motions.find i = some m' ∧ b'.approvers.find m'.proposer i = some y ∧
      x.Grows y := by
  have hinv := (h.restrict hopen).inv
    (I := fun b => Paired b.motions b.approvers ∧ ∃ m' y, b.motions.find i = some m' ∧
      b.approvers.find m'.proposer i = some y ∧ x.Grows y) ⟨hp, m, x, hm, hx, .refl x⟩ ?_
  · exact hinv.1.2
  · rintro t c u ⟨ht, m', y, hm', hy, hg⟩ ⟨hst, hclose⟩
    have hpoll := exec_poll hst.1
    obtain ⟨m'', hm'', -⟩ := (exec_change hst.1).charged u hm' hclose
    obtain ⟨z, hz, hyz⟩ := hpoll.grows ht hm' hm'' hy
    exact ⟨hpoll.paired ht, m'', z, hm'', hz, hg.trans hyz⟩

theorem Deployed.decided (hb : Deployed b) (h : Run Step b tr b') :
    Decided b'.motions b'.approvers ∧ CoinsDecided b'.takecoins := by
  refine (h.inv (I := fun b => Decided b.motions b.approvers ∧ CoinsDecided b.takecoins) ⟨?_, ?_⟩
    fun _ _ _ ht hst => ⟨(exec_poll hst.1).decided ht.1, (exec_coinPoll hst.1).decided ht.2⟩).1
  · intro i m x hm
    rw [hb.motions] at hm
    cases hm
  · rw [hb.takecoins]
    exact Scoped.all_empty _

/-- In every state that is reached, the voters of a ballot are the committee of the step that made
it. A motion that has passed has more than two thirds for it, a refused one more than a third
against it; so have the requests for tokens. Until it is closed, a motion that has passed is not
refused later, and a refused one does not pass. -/
theorem committee_votes (hb : Deployed b) (h : Run Step b tr b') :
    (∀ p i ballot, b'.approvers.find p i = some ballot → ∃ c m, Elected tr (motionSlot p i) c ∧
      ballot.voters = c ∧ b'.motions.find i = some m ∧ m.proposer = p ∧
      (m.section = 1 → 2 * c.length < 3 * ballot.approved.length) ∧
      (m.section = 2 → c.length < 3 * ballot.unapproved.length)) ∧
    (∀ p k t, b'.takecoins.find p k = some t → ∃ c, Elected tr (coinSlot p k) c ∧
      t.ballot.voters = c ∧
      (t.section = 1 → 2 * c.length < 3 * t.ballot.approved.length) ∧
      (t.section = 2 → c.length < 3 * t.ballot.unapproved.length)) ∧
    ∀ i m, b'.motions.find i = some m → ∀ b'' tr', Run Step b' tr' b'' →
      (∀ e ∈ tr', ¬e.2.1.action.ClosesMotion i) → ∃ m', b''.motions.find i = some m' ∧
        (m.section = 1 → m'.section ≠ 2) ∧ (m.section = 2 → m'.section ≠ 1) := by
  have hpaired := hb.paired h
  obtain ⟨hdecided, hcoins⟩ := hb.decided h
  refine ⟨fun p i x hx => ?_, fun p k t ht => ?_, fun i m hm b'' tr' h' hopen => ?_⟩
  · obtain ⟨m, hm, rfl⟩ := (hpaired p i).mpr (Option.isSome_iff_exists.mpr ⟨x, hx⟩)
    obtain ⟨c, hel, hvoters⟩ := run_elected (motionSlot m.proposer i)
      (by rw [motionSlot, hb.approvers, Scoped.find_empty]) h
      (fun t c u hst => (exec_poll hst.1).voting _ _) x hx
    have hsize : x.size = c.length := by
      rw [← Ballot.card_voters, hvoters, Multiset.coe_card]
    have hd := hdecided i m x hm hx
    exact ⟨c, m, hel, hvoters, hm, rfl, fun h1 => (Ballot.passed_iff hsize).mp (hd.passed h1),
      fun h2 => (Ballot.refused_iff hsize).mp (hd.refused h2)⟩
  · obtain ⟨c, hel, hvoters⟩ := run_elected (coinSlot p k)
      (by rw [coinSlot, hb.takecoins, Scoped.find_empty, Option.map_none]) h
      (fun t c u hst => (exec_coinPoll hst.1).voting _ _) t.ballot (by rw [coinSlot, ht]; rfl)
    have hsize : t.ballot.size = c.length := by
      rw [← Ballot.card_voters, hvoters, Multiset.coe_card]
    have hd := hcoins p k t ht
    exact ⟨c, hel, hvoters, fun h1 => (Ballot.passed_iff hsize).mp (hd.passed h1),
      fun h2 => (Ballot.refused_iff hsize).mp (hd.refused h2)⟩
  · obtain ⟨x, hx⟩ := hpaired.find hm
    obtain ⟨m', y, hm', hy, hg⟩ := run_grows hpaired hm hx h' hopen
    have hd := hdecided i m x hm hx
    have hd' := (hb.decided (h.append h')).1 i m' y hm' hy
    refine ⟨m', hm', fun h1 h2 => ?_, fun h2 h1 => ?_⟩
    · exact Ballot.not_refused_of_passed (hg.passed (hd.passed h1)) (hd'.refused h2)
    · exact Ballot.not_refused_of_passed (hd'.passed h1) (hg.refused (hd.refused h2))

/-- After a payment, the motion and the request both have the vote of account 3, the committee. -/
theorem committee_votes_paid : ∃ tr c, Run Step seated tr paid ∧ Elected tr (coinSlot 1 0) c ∧
    (∃ ballot, paid.approvers.find 1 0 = some ballot) ∧
    ∃ t, paid.takecoins.find 1 0 = some t ∧ t.section = 1 ∧ t.ballot.voters = c ∧
      2 * c.length < 3 * t.ballot.approved.length := by
  have hr : Run Step seated _ paid := .snoc (.snoc (.snoc (.snoc .nil proposed_step) passed_step)
    requested_step) paid_step
  obtain ⟨c, hel, hvoters, hpass, -⟩ := (committee_votes seated_deployed hr).2.1 1 0 _ rfl
  exact ⟨_, c, hr, hel, ⟨_, rfl⟩, _, rfl, rfl, hvoters, hpass rfl⟩

end Eosforce.Budget
