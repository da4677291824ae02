import Eosforce.System.Change

/-!
# What `claim` does to the votes

`claim` cleans the age of the voter's vote and fix-time votes for the bp, and erases the withdrawn
ones. `claimFixVotes_find` says what its loop leaves of each row; the sums over the tables follow.
-/

namespace Eosforce.System

open Fallible Keyed

variable {h : Nat} {bpname : Name}

/-- What is left of a row of the voter's fix-time votes. -/
def claimedFixVote (h : Nat) (bpname : Name) (v : FixTimeVoteInfo) : Option FixTimeVoteInfo :=
  if v.bpname = bpname then (if v.isWithdraw then none else some (v.cleanAge h)) else some v

/-! ## The loop over the fix-time votes -/

theorem claimFixVote_foldl_find (l : List (Nat × FixTimeVoteInfo)) (hs : SortedKeys l)
    (acc : Int × Table Nat FixTimeVoteInfo) (k : Nat) :
    (l.foldl (claimFixVote h) acc).2.find k =
      match findRow k l with
      | none => acc.2.find k
      | some v => if v.isWithdraw then none else some (v.cleanAge h) := by
  induction l generalizing acc with
  | nil => rfl
  | cons p l ih =>
    obtain ⟨k', v⟩ := p
    obtain ⟨hlt, hs'⟩ := List.pairwise_cons.mp hs
    rw [List.foldl_cons, ih hs']
    by_cases hk : k' = k
    · subst hk
      rw [findRow_eq_none fun p hp => (ne_of_lt (hlt p hp)).symm]
      simp only [findRow, ↓reduceIte, claimFixVote]
      split <;> simp
    · have he : (claimFixVote h acc (k', v)).2.find k = acc.2.find k := by
        unfold claimFixVote
        split
        · exact Table.find_erase_ne _ hk
        · exact Table.find_put_ne _ _ hk
      simp only [findRow, hk, ↓reduceIte, he]

theorem findRow_fixVotesByBp (tbl : Table Nat FixTimeVoteInfo) (k : Nat) :
    findRow k (fixVotesByBp tbl bpname) = (tbl.find k).filter fun v => v.bpname = bpname := by
  have hs : SortedKeys (fixVotesByBp tbl bpname) := tbl.sorted.filter _
  ext v
  rw [findRow_eq_some hs, fixVotesByBp, List.mem_filter, Table.mem_rows, Option.filter_eq_some_iff]

/-- What the loop leaves of each row. -/
theorem claimFixVotes_find (h : Nat) (bpname : Name) (tbl : Table Nat FixTimeVoteInfo) (n : Int)
    (k : Nat) :
    (claimFixVotes h tbl bpname n).2.find k = (tbl.find k).bind (claimedFixVote h bpname) := by
  have hs : SortedKeys (fixVotesByBp tbl bpname) := tbl.sorted.filter _
  rw [claimFixVotes, claimFixVote_foldl_find _ hs, findRow_fixVotesByBp]
  cases hf : tbl.find k with
  | none => simp
  | some v =>
    by_cases hb : v.bpname = bpname
    · simp [Option.filter, hb, claimedFixVote]
    · simp [Option.filter, hb, claimedFixVote]

theorem claimFixVotes_sum (h : Nat) (bpname : Name) (tbl : Table Nat FixTimeVoteInfo) (n : Int)
    (w : Nat → FixTimeVoteInfo → Int) :
    (claimFixVotes h tbl bpname n).2.sum w =
      tbl.sum fun k v => (claimedFixVote h bpname v).elim 0 (w k) := by
  apply Table.sum_eq_of_val
  intro k
  simp only [Table.val, claimFixVotes_find]
  cases tbl.find k <;> rfl

theorem claimFixVotes_all (h : Nat) (bpname : Name) {tbl : Table Nat FixTimeVoteInfo}
    {P : Nat → FixTimeVoteInfo → Prop} (hP : tbl.All P)
    (hc : ∀ k v, P k v → P k (v.cleanAge h)) (n : Int) :
    (claimFixVotes h tbl bpname n).2.All P := by
  intro k v hv
  rw [claimFixVotes_find, Option.bind_eq_some_iff] at hv
  obtain ⟨v', hv', hcl⟩ := hv
  unfold claimedFixVote at hcl
  split at hcl
  · split at hcl
    · cases hcl
    · cases hcl; exact hc _ _ (hP _ _ hv')
  · cases hcl; exact hP _ _ hv'

/-- The age that the loop counts. -/
theorem claimFixVotes_age (h : Nat) (bpname : Name) (tbl : Table Nat FixTimeVoteInfo) (n : Int) :
    (claimFixVotes h tbl bpname n).1 =
      n + tbl.sum fun _ v => if v.bpname = bpname then v.getAge h else 0 := by
  have key : ∀ (l : List (Nat × FixTimeVoteInfo)) (acc : Int × Table Nat FixTimeVoteInfo),
      ((l.filter fun p => p.2.bpname = bpname).foldl (claimFixVote h) acc).1 =
        acc.1 + rowSum (fun _ v => if v.bpname = bpname then v.getAge h else 0) l := by
    intro l
    induction l with
    | nil => intro acc; simp [rowSum]
    | cons p l ih =>
      intro acc
      simp only [rowSum, List.map_cons, List.sum_cons] at ih ⊢
      by_cases hb : p.2.bpname = bpname
      · simp only [hb, decide_true, List.filter_cons_of_pos, List.foldl_cons, ih, claimFixVote,
          ↓reduceIte]
        omega
      · simp only [hb, decide_false, Bool.false_eq_true, not_false_eq_true,
          List.filter_cons_of_neg, ih, ↓reduceIte]
        omega
  exact key tbl.rows (n, tbl)

/-! ## The vote -/

/-- The vote with a cleaned age. -/
def VoteInfo.clean (v : VoteInfo) (h : Nat) : VoteInfo := { v with voteage := v.voteage.cleanAge h }

/-- The age of the vote, and the table with its age cleaned. -/
theorem claimVote_spec {votes votes' : Scoped Name Name VoteInfo} {voter : Name} {age : Int}
    (hc : claimVote h votes voter bpname = (age, votes')) :
    age = ((votes.find voter bpname).getD {}).voteage.getAge h ∧
      (votes' = votes ∧ votes.find voter bpname = none ∨
        ∃ v, votes.find voter bpname = some v ∧ votes' = votes.put voter bpname (v.clean h)) := by
  unfold claimVote at hc
  split at hc
  · rename_i hn
    cases hc
    rw [hn]
    exact ⟨by simp [AssetAge.getAge, Asset.zero], .inl ⟨rfl, rfl⟩⟩
  · rename_i v hv
    cases hc
    rw [hv]
    exact ⟨rfl, .inr ⟨v, rfl, rfl⟩⟩

/-- The three parts of `newestVoteage`. -/
theorem newestVoteage_eq {s : State} {voter : Name} {newest : Int}
    {votes : Scoped Name Name VoteInfo} {fixvotes : Table Nat FixTimeVoteInfo}
    (hn : newestVoteage h s voter bpname = (newest, votes, fixvotes)) :
    ∃ age, claimVote h s.votes voter bpname = (age, votes) ∧
      claimFixVotes h (s.fixvotes.scope voter) bpname age = (newest, fixvotes) := by
  simp only [newestVoteage, Prod.mk.injEq] at hn
  obtain ⟨h1, h2, h3⟩ := hn
  exact ⟨_, Prod.ext rfl h2, Prod.ext h1 h3⟩

end Eosforce.System
