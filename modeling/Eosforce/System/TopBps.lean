import Eosforce.Lib.Top
import Eosforce.System.Onblock

/-!
# The bps that an election chooses

`update_elected_bps` keeps the bps with the most votes as it goes through the table, and proposes
them sorted by name.

* `insertBp_eq`, `electBp_eq`: one iteration, where the memory past the list holds zeros.
* `updateElectedBps_top`: the proposal has the eligible bps with the highest stakes, up to 23.
* `ReadsInBounds`: each index of `vote_schedule` that the loop reads is below the size.
* `reads_in_bounds_iff`: the loop keeps to the list only where no bp is eligible.
-/

namespace Eosforce.System

open Fallible Keyed Tops

variable {env : Env} {s : State}

/-! ## Whom an election may choose -/

/-- The bp is neither blacklisted nor punished. -/
def isEligible (s : State) (b : Name) : Bool :=
  !isProducerInBlacklist s b && !isProducerInPunished s b

theorem isEligible_eq (s : State) (b : Name) :
    isEligible s b = !(isProducerInBlacklist s b || isProducerInPunished s b) :=
  (Bool.not_or ..).symm

/-- The number of registered bps that an election may choose. -/
def eligibleBps (s : State) : Nat := s.bps.keys.countP (isEligible s)

/-- The reserved buffer is memory that was not used before, which holds zeros. -/
def FreshBuffer (env : Env) : Prop := ∀ i, env.reserved i = 0

/-- What `vote_schedule` records of a bp. -/
def candidate (bp : Name × BpInfo) : ProducerKey × Int :=
  (⟨bp.1, bp.2.blockSigningKey⟩, bp.2.totalStaked)

/-- What `vote_schedule` would record without its bound. -/
def candidates (s : State) (rows : List (Name × BpInfo)) : List (ProducerKey × Int) :=
  (rows.filter fun bp => isEligible s bp.1).map candidate

/-- The order of `vote_schedule`: a bp goes before others with as many votes. -/
def AtLeast (l r : ProducerKey × Int) : Prop := r.2 ≤ l.2

instance : DecidableRel AtLeast := fun l r => inferInstanceAs (Decidable (r.2 ≤ l.2))

instance : Std.Total AtLeast := ⟨fun l r => le_total r.2 l.2⟩

instance : IsTrans (ProducerKey × Int) AtLeast := ⟨fun _ _ _ h h' => le_trans h' h⟩

/-! ## The loop of `update_elected_bps` -/

section Loop

variable {vs : List (ProducerKey × Int)}

/-- The search and the insertion put a bp at its place in the order. -/
theorem insertBp_eq (hbuf : FreshBuffer env) (hlen : vs.length ≤ numOfTopBps)
    {bp : ProducerKey × Int} (hst : 0 ≤ bp.2) :
    insertBp env vs bp = .ok ((vs.orderedInsert AtLeast bp).take numOfTopBps) := by
  let place := vs.findIdx fun v => decide (AtLeast bp v)
  have hplace : place ≤ vs.length := List.findIdx_le_length
  have hsplit : vs.orderedInsert AtLeast bp = vs.take place ++ bp :: vs.drop place := by
    rw [List.orderedInsert_eq_take_drop, List.takeWhile_eq_take_findIdx_not,
      List.dropWhile_eq_drop_findIdx_not]
    simp only [decide_not, Bool.not_not, place]
  have hbefore : ∀ j < place, ¬scheduledStake env vs j ≤ bp.2 := by
    intro j hj
    have h := List.not_of_lt_findIdx hj
    unfold scheduledStake
    rw [List.getElem?_eq_getElem (Nat.lt_of_lt_of_le hj hplace)]
    exact of_decide_eq_false h
  -- past the list, the first zero ends the search
  have hat : scheduledStake env vs place ≤ bp.2 := by
    unfold scheduledStake
    rcases Nat.lt_or_ge place vs.length with hin | hend
    · rw [List.getElem?_eq_getElem hin]
      exact of_decide_eq_true (List.findIdx_getElem (w := hin))
    · rw [List.getElem?_eq_none hend]
      exact le_of_eq_of_le (hbuf _) hst
  rw [hsplit]
  unfold insertBp
  rcases Nat.lt_or_ge place numOfTopBps with hroom | hfull
  · have hfind : ((List.range numOfTopBps).find? fun i => scheduledStake env vs i ≤ bp.2) =
        some place := by
      rw [List.find?_range_eq_some]
      exact ⟨decide_eq_true hat, List.mem_range.mpr hroom, fun j hj => by simpa using hbefore j hj⟩
    rw [hfind]
    exact bind_eq_ok.mpr ⟨(), check_eq_ok.mpr hplace, rfl⟩
  · have hfind : ((List.range numOfTopBps).find? fun i => scheduledStake env vs i ≤ bp.2) =
        none := by
      rw [List.find?_eq_none]
      intro j hj
      simpa using hbefore j (Nat.lt_of_lt_of_le (List.mem_range.mp hj) hfull)
    have hall : vs.take place = vs := List.take_of_length_le (by omega)
    rw [hfind, hall, List.take_append_of_le_length (by omega), List.take_of_length_le hlen]
    rfl

/-- An iteration keeps the eligible bps with the most votes. -/
theorem electBp_eq (hbuf : FreshBuffer env) (xs : List (ProducerKey × Int))
    {bp : Name × BpInfo} (hst : 0 ≤ bp.2.totalStaked) :
    electBp env s (top AtLeast numOfTopBps xs) bp =
      .ok (top AtLeast numOfTopBps (xs ++ candidates s [bp])) := by
  have hlen := length_top (r := AtLeast) numOfTopBps xs
  unfold electBp candidates
  rw [List.filter_singleton, isEligible_eq]
  cases isProducerInBlacklist s bp.1 || isProducerInPunished s bp.1 with
  | true =>
    simp only [Bool.true_or, ↓reduceIte, Bool.not_true, cond_false, List.map_nil, List.append_nil]
    rfl
  | false =>
    simp only [Bool.false_or, Bool.not_false, cond_true, List.map_cons, List.map_nil]
    split
    · -- the early skip: 23 bps have more votes
      rename_i hskip
      obtain ⟨hfull, hlast⟩ := (Bool.and_eq_true ..).mp hskip
      obtain ⟨v, hv, hgt⟩ := (Option.any_eq_true ..).mp hlast
      rw [top_concat_of_full (of_decide_eq_true hfull) hv]
      · rfl
      · exact not_le.mpr (of_decide_eq_true hgt)
    · rw [top_concat]
      exact insertBp_eq hbuf (by omega) hst

theorem electLoop_eq (hbuf : FreshBuffer env) (rows : List (Name × BpInfo))
    (hst : ∀ p ∈ rows, 0 ≤ p.2.totalStaked) : ∀ xs : List (ProducerKey × Int),
    rows.foldlM (electBp env s) (top AtLeast numOfTopBps xs) =
      .ok (top AtLeast numOfTopBps (xs ++ candidates s rows)) := by
  induction rows with
  | nil =>
    intro xs
    rw [show candidates s [] = [] from rfl, List.append_nil]
    rfl
  | cons p rows ih =>
    intro xs
    rw [List.foldlM_cons, electBp_eq hbuf xs (hst p List.mem_cons_self)]
    refine (ih (fun q hq => hst q (List.mem_cons_of_mem p hq)) _).trans ?_
    rw [List.append_assoc, candidates, candidates, ← List.map_append, ← List.filter_append]
    rfl

end Loop

/-! ## The proposal -/

/-- The proposals for the chain's schedule. -/
def proposals (fx : List Effect) : List (List ProducerKey) :=
  fx.filterMap fun
    | .setProposedProducers producers => some producers
    | _ => none

theorem proposals_append (fx fx' : List Effect) :
    proposals (fx ++ fx') = proposals fx ++ proposals fx' := List.filterMap_append

theorem mem_candidates {c : ProducerKey × Int} : c ∈ candidates s s.bps.rows ↔
    ∃ k b, s.bps.find k = some b ∧ isEligible s k = true ∧ c = candidate (k, b) := by
  simp only [candidates, List.mem_map, List.mem_filter, Prod.exists, Table.mem_rows, and_assoc,
    eq_comm (b := c)]

theorem length_candidates (s : State) : (candidates s s.bps.rows).length = eligibleBps s := by
  rw [candidates, List.length_map, ← List.countP_eq_length_filter, eligibleBps, Table.keys,
    List.countP_map]
  rfl

theorem candidates_nodup (s : State) :
    ((candidates s s.bps.rows).map fun c => c.1.producerName).Nodup := by
  have h : ((s.bps.rows.filter fun bp => isEligible s bp.1).map Prod.fst).Nodup :=
    s.bps.keys_nodup.sublist (List.filter_sublist.map Prod.fst)
  rwa [candidates, List.map_map]

/-- The producers of an election: as many eligible bps as there is room for, in the order of their
names, with the keys of their rows, and no other eligible bp has more votes than one of them. -/
structure TopProposal (s : State) (producers : List ProducerKey) : Prop where
  length : producers.length = min numOfTopBps (eligibleBps s)
  sorted : producers.Pairwise fun l r => l.producerName < r.producerName
  chosen : ∀ p ∈ producers, ∃ b, s.bps.find p.producerName = some b ∧
    isEligible s p.producerName = true ∧ p.blockSigningKey = b.blockSigningKey ∧
    ∀ k b', s.bps.find k = some b' → isEligible s k = true →
      k ∉ producers.map ProducerKey.producerName → b'.totalStaked ≤ b.totalStaked

/-- Each election proposes the eligible bps with the most votes. -/
theorem updateElectedBps_top (hbuf : FreshBuffer env)
    (hst : s.bps.All fun _ b => 0 ≤ b.totalStaked) :
    ∃ producers, updateElectedBps env s = .ok [.setProposedProducers producers] ∧
      TopProposal s producers := by
  have hloop := electLoop_eq (s := s) hbuf s.bps.rows
    (fun p hp => hst _ _ (Table.mem_rows.mp hp)) []
  rw [top_nil, List.nil_append] at hloop
  let vs := top AtLeast numOfTopBps (candidates s s.bps.rows)
  let byName : ProducerKey × Int → ProducerKey × Int → Prop :=
    fun l r => l.1.producerName ≤ r.1.producerName
  have htotal : Std.Total byName := ⟨fun _ _ => le_total ..⟩
  have htrans : IsTrans _ byName := ⟨fun _ _ _ => le_trans⟩
  have hmem : ∀ c, c ∈ vs.insertionSort byName ↔ c ∈ vs := fun c => List.mem_insertionSort byName
  refine ⟨(vs.insertionSort byName).map Prod.fst, ?_, ?_, ?_, ?_⟩
  · unfold updateElectedBps
    rw [hloop]
    rfl
  · rw [List.length_map, List.length_insertionSort, length_top, length_candidates]
  · have hne : ((vs.insertionSort byName).map fun c => c.1.producerName).Nodup :=
      (((List.perm_insertionSort byName vs).map _).nodup_iff).mpr
        (nodup_map_top (candidates_nodup s))
    have hle := List.pairwise_insertionSort byName vs
    exact List.pairwise_map.mpr ((hle.and (List.pairwise_map.mp hne)).imp fun ⟨h, hn⟩ =>
      lt_of_le_of_ne h hn)
  · intro p hp
    obtain ⟨c, hc, rfl⟩ := List.mem_map.mp hp
    have hc := (hmem c).mp hc
    obtain ⟨k, b, hb, he, rfl⟩ := mem_candidates.mp (mem_of_mem_top hc)
    refine ⟨b, hb, he, rfl, fun k' b' hb' he' hout => ?_⟩
    refine top_before (y := candidate (k', b')) hc (mem_candidates.mpr ⟨k', b', hb', he', rfl⟩) ?_
    exact fun hin => hout (List.mem_map_of_mem (List.mem_map_of_mem ((hmem _).mpr hin)))

/-- Two bps, the second of which has more votes. -/
def twoBps : State :=
  { bps := (Table.put ∅ 1 { totalStaked := 5 }).put 2 { blockSigningKey := "k", totalStaked := 9 } }

theorem updateElectedBps_top_twoBps : ∃ producers,
    updateElectedBps (Env.of systemAccount 1) twoBps = .ok [.setProposedProducers producers] ∧
      TopProposal twoBps producers :=
  updateElectedBps_top (fun _ => rfl)
    (((Table.all_empty _).put (by decide)).put (by decide))

/-- An election proposes the eligible bps, up to 23. -/
theorem updateElectedBps_length (hbuf : FreshBuffer env)
    (hst : s.bps.All fun _ b => 0 ≤ b.totalStaked) {fx : List Effect}
    (h : updateElectedBps env s = .ok fx) :
    ∃ producers, proposals fx = [producers] ∧
      producers.length = min numOfTopBps (eligibleBps s) := by
  obtain ⟨producers, hel, htop⟩ := updateElectedBps_top hbuf hst
  cases hel.symm.trans h
  exact ⟨producers, rfl, htop.length⟩

/-! ## The accesses to `vote_schedule` -/

/-- The indices of `vote_schedule` that an iteration reads: the last one of a full list, and those of
the search up to the first stake that is not above the bp's. -/
def electReads (env : Env) (s : State) (voteSchedule : List (ProducerKey × Int))
    (bp : Name × BpInfo) : List Nat :=
  if isProducerInBlacklist s bp.1 || isProducerInPunished s bp.1 then []
  else
    let lastRead := if voteSchedule.length ≥ numOfTopBps then [voteSchedule.length - 1] else []
    if decide (voteSchedule.length ≥ numOfTopBps) &&
        voteSchedule.getLast?.any fun v => decide (v.2 > bp.2.totalStaked) then lastRead
    else
      match (List.range numOfTopBps).find? fun i =>
        scheduledStake env voteSchedule i ≤ bp.2.totalStaked with
      | some i => lastRead ++ List.range (i + 1)
      | none => lastRead ++ List.range numOfTopBps

/-- Each iteration of `update_elected_bps` reads within the list that the ones before it made. -/
def ReadsInBounds (env : Env) (s : State) : Prop :=
  ∀ l bp l' vs, s.bps.rows = l ++ bp :: l' → l.foldlM (electBp env s) [] = .ok vs →
    ∀ i ∈ electReads env s vs bp, i < vs.length

/-- The election does not depend on the memory past the list. -/
def BufferFree (env : Env) (s : State) : Prop :=
  ∀ buffer buffer' : Nat → Int, updateElectedBps { env with reserved := buffer } s =
    updateElectedBps { env with reserved := buffer' } s

theorem electBp_ineligible (env : Env) {vs : List (ProducerKey × Int)} {bp : Name × BpInfo}
    (h : isEligible s bp.1 = false) :
    electBp env s vs bp = .ok vs ∧ electReads env s vs bp = [] := by
  rw [isEligible_eq, Bool.not_eq_false'] at h
  unfold electBp electReads
  rw [h, Bool.true_or]
  exact ⟨rfl, rfl⟩

theorem electLoop_ineligible (env : Env) {rows : List (Name × BpInfo)}
    (h : ∀ bp ∈ rows, isEligible s bp.1 = false) (vs : List (ProducerKey × Int)) :
    rows.foldlM (electBp env s) vs = .ok vs := by
  induction rows with
  | nil => rfl
  | cons bp rows ih =>
    rw [List.foldlM_cons, (electBp_ineligible env (h bp List.mem_cons_self)).1]
    exact ih fun q hq => h q (List.mem_cons_of_mem bp hq)

/-- The first eligible bp is compared with index 0 of an empty list. -/
theorem zero_mem_electReads (env : Env) {bp : Name × BpInfo} (h : isEligible s bp.1 = true) :
    0 ∈ electReads env s [] bp := by
  rw [isEligible_eq, Bool.not_eq_true'] at h
  have hempty : ¬0 ≥ numOfTopBps := by decide
  unfold electReads
  rw [h]
  simp only [List.length_nil, hempty, decide_false, Bool.false_and, Bool.false_eq_true, ↓reduceIte,
    List.nil_append]
  split <;> simp [numOfTopBps]

theorem eligibleBps_eq_zero : eligibleBps s = 0 ↔ ∀ bp ∈ s.bps.rows, isEligible s bp.1 = false := by
  simp only [eligibleBps, Table.keys, List.countP_map, List.countP_eq_zero, Function.comp_apply,
    Bool.not_eq_true]

/-- All accesses to `vote_schedule` are in bounds, so that the election does not depend on other
memory, exactly when no registered bp is eligible. -/
theorem reads_in_bounds_iff (env : Env) (s : State) :
    ReadsInBounds env s ∧ BufferFree env s ↔ eligibleBps s = 0 := by
  rw [eligibleBps_eq_zero]
  constructor
  · intro ⟨hreads, _⟩ q hq
    by_contra hqe
    obtain ⟨bp, hbp⟩ : ∃ bp, s.bps.rows.find? (fun bp => isEligible s bp.1) = some bp := by
      rw [← Option.isSome_iff_exists, List.find?_isSome]
      exact ⟨q, hq, Bool.not_eq_false _ ▸ hqe⟩
    -- the bps before the first eligible one leave the list empty
    obtain ⟨he, l, l', hrows, hbefore⟩ := List.find?_eq_some_iff_append.mp hbp
    have hloop := electLoop_ineligible env (fun q hq => by simpa using hbefore q hq) []
    exact Nat.not_lt_zero 0 (hreads l bp l' [] hrows hloop 0 (zero_mem_electReads env he))
  · intro hnone
    refine ⟨fun l bp l' vs hrows _ i hi => ?_, fun buffer buffer' => ?_⟩
    · have hbp := hnone bp (hrows ▸ List.mem_append_right l List.mem_cons_self)
      rw [(electBp_ineligible env hbp).2] at hi
      cases hi
    · unfold updateElectedBps
      rw [electLoop_ineligible _ hnone, electLoop_ineligible _ hnone]

/-- With two bps, the election reads past the list, and what it finds there decides whom it
proposes. -/
theorem election_reads_past_list :
    ¬ReadsInBounds (Env.of systemAccount 1) twoBps ∧ ¬BufferFree (Env.of systemAccount 1) twoBps := by
  constructor
  · intro hreads
    exact Nat.not_lt_zero 0 (hreads [] (1, { totalStaked := 5 })
      [(2, { blockSigningKey := "k", totalStaked := 9 })] [] rfl rfl 0
      (zero_mem_electReads _ (by decide)))
  · intro hfree
    have hsame := congrArg (Except.map fun fx => (proposals fx).map List.length)
      (hfree (fun _ => 0) fun _ => 10)
    exact absurd hsame (by decide +kernel)

end Eosforce.System
