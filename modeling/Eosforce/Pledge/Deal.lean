import Eosforce.Pledge.Solvency

/-!
# Dealing out a deduction

`dealreward` takes what can be paid out from the deduction of a row and credits it to a list of
rewarders, in which names may repeat: half for the first one, the other half in equal shares.

* `assignAll`: `reward_assign` for each entry of a list. `assignAll_ok_iff`, `assignAll_credits`: when
  all entries fit into the rewards, and what they add.
* `distributable`, `shares`: what is dealt out, and to which entry of the list.
* `dealreward_ok_iff`, `dealreward_deals`: when `dealreward` succeeds, and what it does.
* `dealreward_exact_iff`: it deals out all that it takes exactly if there are at least two entries and
  the shares are whole numbers.
-/

namespace Eosforce.Pledge

open Fallible Keyed

variable {env : Env} {p p' : State} {sym : Symbol} {r : Name} {l : List (Name × Int)}

/-! ## Entries -/

/-- The sum of the entries of an account. -/
def due (l : List (Name × Int)) (r : Name) : Int :=
  (l.map fun e => if e.1 = r then e.2 else 0).sum

@[simp] theorem due_nil (r : Name) : due [] r = 0 := rfl

theorem due_cons (e : Name × Int) (l : List (Name × Int)) (r : Name) :
    due (e :: l) r = (if e.1 = r then e.2 else 0) + due l r := by
  rw [due, List.map_cons, List.sum_cons]
  rfl

theorem due_nonneg (h : ∀ e ∈ l, 0 ≤ e.2) (r : Name) : 0 ≤ due l r := by
  induction l with
  | nil => exact le_refl _
  | cons e l ih =>
    have he := h e List.mem_cons_self
    have hl := ih fun d hd => h d (List.mem_cons_of_mem e hd)
    rw [due_cons]
    split <;> omega

theorem due_of_notMem (h : r ∉ l.map Prod.fst) : due l r = 0 := by
  induction l with
  | nil => rfl
  | cons e l ih =>
    rw [List.map_cons, List.mem_cons, not_or] at h
    rw [due_cons, if_neg (Ne.symm h.1), ih h.2, Int.add_zero]

/-! ## Rewards -/

/-- The reward of an account in a token. -/
def rewardOf (p : State) (code : Nat) (r : Name) : Int := (p.reward.find r code).elim 0 Asset.amount

/-- All rewards. -/
def rewards (p : State) : Int := p.reward.sum fun _ _ r => r.amount

/-- The reward row of an account, where there is one, is of the token. -/
def Holds (p : State) (sym : Symbol) (r : Name) : Prop :=
  ∀ old, p.reward.find r sym.code = some old → old.symbol = sym

/-- The rewards are amounts of an asset. -/
def RewardsValid (p : State) : Prop := p.reward.All fun _ _ r => Asset.InRange r.amount

/-- A credit succeeds if the reward is of the token and has room for it. -/
theorem rewardAssign_ok_iff {x : Int} (hx : Asset.InRange x) :
    (∃ p', rewardAssign p r ⟨x, sym⟩ = .ok p') ↔
      Holds p sym r ∧ Asset.InRange (rewardOf p sym.code r + x) := by
  unfold rewardAssign Holds rewardOf
  cases p.reward.find r sym.code with
  | none => simp [pure_eq_ok, hx]
  | some old =>
    simp only [bind_eq_ok, pure_eq_ok, Asset.add_eq_ok, Option.some.injEq, forall_eq',
      Option.elim_some, eq_comm (b := sym)]
    constructor
    · rintro ⟨_, _, ⟨hs, hin, -⟩, -⟩
      exact ⟨hs, hin⟩
    · rintro ⟨hs, hin⟩
      exact ⟨_, _, ⟨hs, hin, rfl⟩, rfl⟩

/-- The row that `reward_assign` writes. -/
theorem rewardAssign_row {x : Int} (h : rewardAssign p r ⟨x, sym⟩ = .ok p') :
    p' = { p with reward := p.reward.put r sym.code ⟨rewardOf p sym.code r + x, sym⟩ } := by
  unfold rewardAssign at h
  unfold rewardOf
  cases hf : p.reward.find r sym.code with
  | none =>
    simp only [hf, pure_eq_ok] at h
    simp only [Option.elim_none, Int.zero_add, h]
  | some old =>
    simp only [hf, bind_eq_ok, pure_eq_ok, Asset.add_eq_ok] at h
    obtain ⟨_, ⟨hs, -, rfl⟩, rfl⟩ := h
    rw [Option.elim_some, hs]

theorem rewardOf_put (p : State) (r r' : Name) (code : Nat) (a : Asset) :
    rewardOf { p with reward := p.reward.put r code a } code r' =
      if r = r' then a.amount else rewardOf p code r' := by
  unfold rewardOf
  rw [Scoped.find_put]
  by_cases h : r = r'
  · simp [h]
  · simp [h]

theorem rewards_put (p : State) (r : Name) (code : Nat) (a : Asset) :
    rewards { p with reward := p.reward.put r code a } =
      rewards p - rewardOf p code r + a.amount := by
  have hv : (p.reward.val (fun _ _ r => r.amount) r code) = rewardOf p code r := by
    unfold rewardOf
    cases hf : p.reward.find r code with
    | none => exact Scoped.val_of_none hf
    | some b => exact Scoped.val_of_find hf
  simp only [rewards, Scoped.sum_put, hv]

/-- A credit leaves the token of each row as it should be. -/
theorem holds_put (hr : Holds p sym r) (x : Int) (r' : Name) :
    Holds { p with reward := p.reward.put r sym.code ⟨x, sym⟩ } sym r' ↔ Holds p sym r' := by
  unfold Holds
  simp only [Scoped.find_put, and_true]
  by_cases h : r = r'
  · subst h
    simp only [↓reduceIte, Option.some.injEq, forall_eq', true_iff]
    exact hr
  · simp only [h, ↓reduceIte]

/-! ## Lists of credits -/

/-- `reward_assign` for each entry. -/
def assignAll (sym : Symbol) (l : List (Name × Int)) (p : State) : Except String State :=
  l.foldlM (fun p e => rewardAssign p e.1 ⟨e.2, sym⟩) p

theorem assignAll_cons (e : Name × Int) (l : List (Name × Int)) :
    assignAll sym (e :: l) p = rewardAssign p e.1 ⟨e.2, sym⟩ >>= assignAll sym l :=
  List.foldlM_cons ..

/-- The same credit for each of a list of accounts. -/
theorem assignAll_map (l : List Name) (x : Int) :
    assignAll sym (l.map fun a => (a, x)) p =
      l.foldlM (fun p reward => rewardAssign p reward ⟨x, sym⟩) p := by
  rw [assignAll, List.foldlM_map]

/-- The reward row of each account of the list, where there is one, is of the token, and has room for
the account's entries. -/
def Fits (p : State) (sym : Symbol) (l : List (Name × Int)) : Prop :=
  ∀ r ∈ l.map Prod.fst, Holds p sym r ∧ rewardOf p sym.code r + due l r ≤ Asset.maxAmount

theorem RewardsValid.rewardOf_ge (h : RewardsValid p) (code : Nat) (r : Name) :
    -Asset.maxAmount ≤ rewardOf p code r := by
  unfold rewardOf
  cases hf : p.reward.find r code with
  | none => decide
  | some old => exact (h _ _ _ hf).1

/-- The first credit of a list that fits. -/
theorem Fits.first {e : Name × Int} (h : Fits p sym (e :: l)) (hv : RewardsValid p)
    (hl : ∀ d ∈ e :: l, 0 ≤ d.2) : Asset.InRange (rewardOf p sym.code e.1 + e.2) := by
  have hlow := hv.rewardOf_ge sym.code e.1
  have h0 := hl e List.mem_cons_self
  have hrest := due_nonneg (fun d hd => hl d (List.mem_cons_of_mem e hd)) e.1
  have hmax := (h e.1 List.mem_cons_self).2
  rw [due_cons, if_pos rfl] at hmax
  exact ⟨by omega, by omega⟩

/-- After the first credit, the rest of the list fits exactly if all of it did. -/
theorem fits_cons_iff {e : Name × Int} (he : Holds p sym e.1)
    (hroom : rewardOf p sym.code e.1 + e.2 ≤ Asset.maxAmount) :
    Fits p sym (e :: l) ↔
      Fits { p with reward := p.reward.put e.1 sym.code ⟨rewardOf p sym.code e.1 + e.2, sym⟩ }
        sym l := by
  have hof : ∀ r, rewardOf { p with
      reward := p.reward.put e.1 sym.code ⟨rewardOf p sym.code e.1 + e.2, sym⟩ } sym.code r +
      due l r = rewardOf p sym.code r + due (e :: l) r := by
    intro r
    rw [rewardOf_put, due_cons]
    split
    · subst_vars
      simp only
      omega
    · omega
  constructor
  · intro h r hr
    have hr' := h r (List.mem_cons_of_mem _ hr)
    exact ⟨(holds_put he _ r).mpr hr'.1, by rw [hof]; exact hr'.2⟩
  · intro h r hr
    by_cases hin : r ∈ l.map Prod.fst
    · have hr' := h r hin
      exact ⟨(holds_put he _ r).mp hr'.1, by rw [← hof]; exact hr'.2⟩
    · rw [List.map_cons, List.mem_cons] at hr
      obtain rfl := hr.resolve_right hin
      rw [due_cons, if_pos rfl, due_of_notMem hin, Int.add_zero]
      exact ⟨he, hroom⟩

/-- The credits of a list succeed exactly if they fit. -/
theorem assignAll_ok_iff (hv : RewardsValid p)
    (hl : ∀ e ∈ l, 0 ≤ e.2 ∧ e.2 ≤ Asset.maxAmount) :
    (∃ p', assignAll sym l p = .ok p') ↔ Fits p sym l := by
  induction l generalizing p with
  | nil => exact iff_of_true ⟨p, rfl⟩ nofun
  | cons e l ih =>
    have hl' : ∀ d ∈ l, 0 ≤ d.2 ∧ d.2 ≤ Asset.maxAmount :=
      fun d hd => hl d (List.mem_cons_of_mem e hd)
    obtain ⟨h0, hmax⟩ := hl e List.mem_cons_self
    -- what the first credit leads to, if it succeeds
    have hnext : Asset.InRange (rewardOf p sym.code e.1 + e.2) → RewardsValid { p with
        reward := p.reward.put e.1 sym.code ⟨rewardOf p sym.code e.1 + e.2, sym⟩ } :=
      fun hin => Scoped.All.put hv hin
    have hfirst : (∃ p₁, rewardAssign p e.1 ⟨e.2, sym⟩ = .ok p₁) ↔ _ :=
      rewardAssign_ok_iff ⟨by omega, hmax⟩
    constructor
    · rintro ⟨p', h⟩
      rw [assignAll_cons, bind_eq_ok] at h
      obtain ⟨p₁, h₁, h⟩ := h
      obtain ⟨hholds, hin⟩ := hfirst.mp ⟨p₁, h₁⟩
      obtain rfl := rewardAssign_row h₁
      exact (fits_cons_iff hholds hin.2).mpr ((ih (hnext hin) hl').mp ⟨p', h⟩)
    · intro hfits
      have hholds := (hfits e.1 List.mem_cons_self).1
      have hin := hfits.first hv fun d hd => (hl d hd).1
      obtain ⟨p₁, h₁⟩ := hfirst.mpr ⟨hholds, hin⟩
      obtain rfl := rewardAssign_row h₁
      obtain ⟨p', h⟩ := (ih (hnext hin) hl').mpr ((fits_cons_iff hholds hin.2).mp hfits)
      exact ⟨p', by rw [assignAll_cons, h₁]; exact h⟩

/-- What the credits of a list add. -/
theorem assignAll_credits (h : assignAll sym l p = .ok p') :
    p'.pledge = p.pledge ∧ rewards p' = rewards p + (l.map Prod.snd).sum ∧
      ∀ r, rewardOf p' sym.code r = rewardOf p sym.code r + due l r := by
  induction l generalizing p with
  | nil =>
    cases h
    simp
  | cons e l ih =>
    rw [assignAll_cons, bind_eq_ok] at h
    obtain ⟨p₁, h₁, h⟩ := h
    obtain rfl := rewardAssign_row h₁
    obtain ⟨hpl, hsum, hof⟩ := ih h
    refine ⟨hpl, ?_, fun r => ?_⟩
    · rw [hsum, rewards_put, List.map_cons, List.sum_cons]
      simp only
      omega
    · rw [hof, rewardOf_put, due_cons]
      split
      · subst_vars
        simp only
        omega
      · omega

/-! ## What is dealt out -/

/-- What can be paid out of a row: the deduction, less what the pledge did not cover. -/
def distributable (b : PledgeInfo) : Int :=
  if b.pledge.amount < 0 then b.deduction.amount + b.pledge.amount else b.deduction.amount

/-- The entries that `dealreward` credits: half for the first rewarder, the other half in equal parts
for the others, both truncated. -/
def dealt (d : Int) : List Name → List (Name × Int)
  | [] => []
  | reporter :: approvers =>
    (reporter, d.tdiv 2) :: approvers.map fun a => (a, d.tdiv (2 * approvers.length : Nat))

/-- The assets of a row are valid, and of one token. -/
structure RowValid (b : PledgeInfo) : Prop where
  pledge : b.pledge.IsValid
  deduction : b.deduction.IsValid
  symbol : b.deduction.symbol = b.pledge.symbol

/-- `pre_allot`, where it can be computed. -/
theorem preAllot_amount {b : PledgeInfo} {pre : Asset} (h : preAllot b = .ok pre) :
    pre.amount = distributable b := by
  simp only [preAllot, bind_eq_ok, Asset.make_eq_ok, Asset.lt_eq_ok] at h
  obtain ⟨_, ⟨-, -, rfl⟩, _, ⟨-, rfl⟩, h⟩ := h
  unfold distributable
  split at h
  · rename_i hlt
    obtain ⟨-, -, rfl⟩ := Asset.add_eq_ok.mp h
    rw [if_pos (of_decide_eq_true hlt)]
  · rename_i hge
    cases h
    rw [if_neg fun hlt => hge (decide_eq_true hlt)]

theorem preAllot_eq {b : PledgeInfo} (hb : RowValid b) (hpos : 0 < distributable b) :
    preAllot b = .ok ⟨distributable b, b.deduction.symbol⟩ := by
  have hmax : (0 : Int) ≤ Asset.maxAmount := by decide
  have hzero : Asset.make 0 b.pledge.symbol = .ok ⟨0, b.pledge.symbol⟩ :=
    Asset.make_eq_ok.mpr ⟨by decide, hb.pledge.2, rfl⟩
  have hlt : b.pledge.lt ⟨0, b.pledge.symbol⟩ = .ok (decide (b.pledge.amount < 0)) :=
    Asset.lt_eq_ok.mpr ⟨rfl, rfl⟩
  obtain ⟨-, hd⟩ := hb.deduction.1
  unfold distributable at hpos ⊢
  rw [preAllot, hzero, ok_bind, hlt, ok_bind]
  by_cases hneg : b.pledge.amount < 0
  · simp only [hneg, decide_true, ↓reduceIte] at hpos ⊢
    exact Asset.add_eq_ok.mpr ⟨hb.symbol.symm, ⟨by omega, by omega⟩, rfl⟩
  · simp only [hneg, decide_false, Bool.false_eq_true, ↓reduceIte]
    rfl

/-- What is left of the deduction. -/
theorem rest_eq {b : PledgeInfo} (hb : RowValid b) :
    b.deduction.sub ⟨distributable b, b.deduction.symbol⟩ =
      .ok ⟨b.deduction.amount - distributable b, b.deduction.symbol⟩ := by
  obtain ⟨hp, hp'⟩ := hb.pledge.1
  refine Asset.sub_eq_ok.mpr ⟨rfl, ?_, rfl⟩
  have hmax : (0 : Int) ≤ Asset.maxAmount := by decide
  unfold distributable
  simp only
  split
  · exact ⟨by omega, by omega⟩
  · exact ⟨by omega, by omega⟩

theorem distributable_le {b : PledgeInfo} (hb : RowValid b) :
    distributable b ≤ Asset.maxAmount := by
  obtain ⟨-, hd⟩ := hb.deduction.1
  unfold distributable
  split <;> omega

/-- The shares of a positive amount. -/
theorem shares_nonneg {d : Int} (hd : 0 < d) (k : Nat) :
    0 ≤ d.tdiv (2 * k : Nat) ∧ d.tdiv (2 * k : Nat) ≤ d.tdiv 2 ∧ d.tdiv 2 ≤ d := by
  have hhalf : 0 ≤ d.tdiv 2 ∧ d.tdiv 2 ≤ d := by
    rw [Int.tdiv_eq_ediv_of_nonneg hd.le]
    omega
  rcases Nat.eq_zero_or_pos k with rfl | hk
  · rw [show ((2 * 0 : Nat) : Int) = 0 from rfl, Int.tdiv_zero]
    exact ⟨le_refl _, hhalf.1, hhalf.2⟩
  · obtain ⟨h0, hle, -⟩ := shares_le hd hk
    exact ⟨h0, hle, hhalf.2⟩

/-! ## `dealreward` -/

section Dealreward

variable {n pledger reporter : Name} {approvers rewarder : List Name} {memo : String}
  {pt : PledgeType} {b : PledgeInfo}

/-- The tables after the deduction is taken. -/
def taken (p : State) (n pledger : Name) (b : PledgeInfo) : State :=
  let deduction : Asset := ⟨b.deduction.amount - distributable b, b.deduction.symbol⟩
  { p with pledge := p.pledge.put pledger n { b with deduction } }

/-- The credits in their order: to the first rewarder what its half is more than a share, then a share
to each. -/
def credited (d : Int) (reporter : Name) (approvers : List Name) : List (Name × Int) :=
  (reporter, d.tdiv 2 - d.tdiv (2 * approvers.length : Nat)) ::
    (reporter :: approvers).map fun a => (a, d.tdiv (2 * approvers.length : Nat))

theorem due_credited (d : Int) (reporter : Name) (approvers : List Name) (r : Name) :
    due (credited d reporter approvers) r = due (dealt d (reporter :: approvers)) r := by
  simp only [credited, dealt, List.map_cons, due_cons]
  split <;> omega

theorem mem_credited {d : Int} {r : Name} : r ∈ (credited d reporter approvers).map Prod.fst ↔
    r ∈ (dealt d (reporter :: approvers)).map Prod.fst := by
  simp [credited, dealt]

theorem fits_credited {d : Int} : Fits p sym (credited d reporter approvers) ↔
    Fits p sym (dealt d (reporter :: approvers)) := by
  simp only [Fits, mem_credited, due_credited]

/-- `dealreward` with approvers takes the deduction, and credits the rewarders. -/
theorem dealreward_eq (htype : p.pledgetype.find n = some pt)
    (hauth : pt.deductionAccount ∈ env.auths) (hb : p.pledge.find pledger n = some b)
    (hvalid : RowValid b) (hpos : 0 < distributable b) (hk : 0 < approvers.length) :
    dealreward env p n pledger (reporter :: approvers) memo =
      assignAll b.deduction.symbol (credited (distributable b) reporter approvers)
        (taken p n pledger b) := by
  have hd := distributable_le hvalid
  obtain ⟨h0, hle, hhalf⟩ := shares_nonneg hpos approvers.length
  have hmax : (0 : Int) ≤ Asset.maxAmount := by decide
  have hauth' : requireAuth env pt.deductionAccount = .ok () := check_eq_ok.mpr hauth
  have hchk : check (0 < distributable b) "the quantity must be a positive number" = .ok () :=
    check_eq_ok.mpr hpos
  have hreport : Asset.div ⟨distributable b, b.deduction.symbol⟩ 2 =
      .ok ⟨(distributable b).tdiv 2, b.deduction.symbol⟩ :=
    Asset.div_eq_ok.mpr ⟨by decide, by simp, rfl⟩
  have happrove : Asset.div ⟨distributable b, b.deduction.symbol⟩ (2 * approvers.length : Nat) =
      .ok ⟨(distributable b).tdiv (2 * approvers.length : Nat), b.deduction.symbol⟩ :=
    Asset.div_eq_ok.mpr ⟨by omega, by simp only; omega, rfl⟩
  have hextra : Asset.sub ⟨(distributable b).tdiv 2, b.deduction.symbol⟩
      ⟨(distributable b).tdiv (2 * approvers.length : Nat), b.deduction.symbol⟩ =
      .ok ⟨(distributable b).tdiv 2 - (distributable b).tdiv (2 * approvers.length : Nat),
        b.deduction.symbol⟩ :=
    Asset.sub_eq_ok.mpr ⟨rfl, ⟨by simp only; omega, by simp only; omega⟩, rfl⟩
  simp only [dealreward, htype, hb, fetch, ok_bind, hauth', preAllot_eq hvalid hpos, hchk,
    rest_eq hvalid, hreport, List.length_cons, Nat.add_sub_cancel, happrove, hextra]
  rw [credited, assignAll_cons]
  congr 1
  funext s
  exact (assignAll_map ..).symm

/-- Without approvers, the other half is divided by zero. -/
theorem dealreward_alone (p' : State) : dealreward env p n pledger [reporter] memo ≠ .ok p' := by
  intro h
  simp only [dealreward, bind_eq_ok, fetch_eq_ok, check_eq_ok, exists_const, Asset.div_eq_ok] at h
  obtain ⟨_, -, _, -, _, -, _, -, -, _, -, _, -, _, ⟨hzero, -⟩, -⟩ := h
  exact hzero rfl

theorem credited_range {d : Int} (hd : 0 < d) (hmax : d ≤ Asset.maxAmount) :
    ∀ e ∈ credited d reporter approvers, 0 ≤ e.2 ∧ e.2 ≤ Asset.maxAmount := by
  obtain ⟨h0, hle, hhalf⟩ := shares_nonneg hd approvers.length
  intro e he
  simp only [credited, List.mem_cons, List.mem_map] at he
  rcases he with rfl | ⟨a, -, rfl⟩
  · exact ⟨by simp only; omega, by simp only; omega⟩
  · exact ⟨h0, by simp only; omega⟩

theorem exists_approvers {l : List Name} (h : 2 ≤ l.length) :
    ∃ reporter approvers, l = reporter :: approvers ∧ 0 < approvers.length := by
  cases l with
  | nil => cases h
  | cons a l => exact ⟨a, l, rfl, Nat.le_of_succ_le_succ h⟩

/-- A deduction is dealt out exactly if there are at least two rewarders and the rewards have room for
the shares. -/
theorem dealreward_ok_iff (htype : p.pledgetype.find n = some pt)
    (hauth : pt.deductionAccount ∈ env.auths) (hb : p.pledge.find pledger n = some b)
    (hvalid : RowValid b) (hrewards : RewardsValid p) (hpos : 0 < distributable b) :
    (∃ p', dealreward env p n pledger rewarder memo = .ok p') ↔
      2 ≤ rewarder.length ∧ Fits p b.deduction.symbol (dealt (distributable b) rewarder) := by
  by_cases hlen : 2 ≤ rewarder.length
  · obtain ⟨reporter, approvers, rfl, hk⟩ := exists_approvers hlen
    rw [dealreward_eq htype hauth hb hvalid hpos hk, assignAll_ok_iff
      (show RewardsValid (taken p n pledger b) from hrewards)
      (credited_range hpos (distributable_le hvalid)), fits_credited]
    exact ⟨fun h => ⟨hlen, h⟩, fun h => h.2⟩
  · refine iff_of_false (fun ⟨p', h⟩ => ?_) fun h => hlen h.1
    match rewarder with
    | [] =>
      simp only [dealreward, bind_eq_ok] at h
      obtain ⟨_, -, h⟩ := h
      cases h
    | [reporter] => exact dealreward_alone p' h
    | reporter :: approver :: approvers => exact hlen (Nat.le_add_left 2 approvers.length)

/-- What a `dealreward` that succeeds does. -/
theorem dealreward_deals {p' : State} (htype : p.pledgetype.find n = some pt)
    (hauth : pt.deductionAccount ∈ env.auths) (hb : p.pledge.find pledger n = some b)
    (hvalid : RowValid b) (hrewards : RewardsValid p) (hpos : 0 < distributable b)
    (h : dealreward env p n pledger rewarder memo = .ok p') :
    p'.pledge = (taken p n pledger b).pledge ∧
      rewards p' = rewards p + ((dealt (distributable b) rewarder).map Prod.snd).sum ∧
      ∀ r, rewardOf p' b.deduction.symbol.code r =
        rewardOf p b.deduction.symbol.code r + due (dealt (distributable b) rewarder) r := by
  have hlen := ((dealreward_ok_iff htype hauth hb hvalid hrewards hpos).mp ⟨p', h⟩).1
  obtain ⟨reporter, approvers, rfl, hk⟩ := exists_approvers hlen
  rw [dealreward_eq htype hauth hb hvalid hpos hk] at h
  obtain ⟨hpl, hsum, hof⟩ := assignAll_credits h
  refine ⟨hpl, ?_, fun r => ?_⟩
  · rw [hsum]
    simp only [credited, dealt, List.map_cons, List.sum_cons, rewards, taken]
    omega
  · rw [hof, due_credited]
    rfl

/-! ## Nothing is lost -/

theorem sum_dealt (d : Int) (reporter : Name) (approvers : List Name) :
    ((dealt d (reporter :: approvers)).map Prod.snd).sum =
      d.tdiv 2 + approvers.length * d.tdiv (2 * approvers.length : Nat) := by
  rw [dealt, List.map_cons, List.sum_cons, List.map_map]
  have h : ∀ (l : List Name) (x : Int), (l.map (Prod.snd ∘ fun a => (a, x))).sum = l.length * x := by
    intro l x
    induction l with
    | nil => simp
    | cons a l ih =>
      rw [List.map_cons, List.sum_cons, ih, List.length_cons]
      push_cast
      simp only [Function.comp_apply]
      ring
  rw [h]

/-- Half and the equal parts of the other half make up a positive amount exactly if the parts are
whole. -/
theorem halves_eq_iff {d : Int} (hd : 0 < d) {k : Nat} (hk : 0 < k) :
    d.tdiv 2 + k * d.tdiv (2 * k : Nat) = d ↔ ((2 * k : Nat) : Int) ∣ d := by
  rw [Int.tdiv_eq_ediv_of_nonneg hd.le, Int.tdiv_eq_ediv_of_nonneg hd.le]
  have hne : ((2 * k : Nat) : Int) ≠ 0 := by omega
  have hparts : ((2 * k : Nat) : Int) * (d / (2 * k : Nat)) = 2 * (k * (d / (2 * k : Nat))) := by
    push_cast
    ring
  have hle := Int.mul_ediv_self_le (x := d) hne
  rw [hparts] at hle
  constructor
  · intro h
    refine ⟨d / (2 * k : Nat), ?_⟩
    rw [hparts]
    omega
  · intro h
    have heq := Int.mul_ediv_cancel' h
    rw [hparts] at heq
    omega

/-- `dealreward` succeeds, what it credits is what it takes from the deduction, the first rewarder
receives half of it, and the others equal parts, up to one unit, of the other half. -/
def DealsExactly (env : Env) (p : State) (n pledger : Name) (rewarder : List Name)
    (memo : String) : Prop :=
  ∃ p' b b', dealreward env p n pledger rewarder memo = .ok p' ∧
    p.pledge.find pledger n = some b ∧ p'.pledge.find pledger n = some b' ∧
    rewards p' - rewards p = b.deduction.amount - b'.deduction.amount ∧
    ∃ reporter half others, rewarder = reporter :: others.map Prod.fst ∧
      |2 * half - (b.deduction.amount - b'.deduction.amount)| ≤ 1 ∧
      (∀ e ∈ others, ∀ e' ∈ others, e.2 ≤ e'.2 + 1) ∧
      ∀ r, rewardOf p' b.deduction.symbol.code r =
        rewardOf p b.deduction.symbol.code r + due ((reporter, half) :: others) r

/-- With a positive amount to deal out, `dealreward` deals out all of it exactly if there are at least
two rewarders, the shares are whole, and the rewards have room for them. -/
theorem dealreward_exact_iff (htype : p.pledgetype.find n = some pt)
    (hauth : pt.deductionAccount ∈ env.auths) (hb : p.pledge.find pledger n = some b)
    (hvalid : RowValid b) (hrewards : RewardsValid p) (hpos : 0 < distributable b) :
    DealsExactly env p n pledger rewarder memo ↔
      2 ≤ rewarder.length ∧ ((2 * (rewarder.length - 1) : Nat) : Int) ∣ distributable b ∧
        Fits p b.deduction.symbol (dealt (distributable b) rewarder) := by
  have hok : (∃ p', dealreward env p n pledger rewarder memo = .ok p') ↔ _ :=
    dealreward_ok_iff htype hauth hb hvalid hrewards hpos
  -- the row after the deduction is taken
  have hrow : (taken p n pledger b).pledge.find pledger n = some
      { b with deduction := ⟨b.deduction.amount - distributable b, b.deduction.symbol⟩ } :=
    Scoped.find_put_self ..
  constructor
  · rintro ⟨p', b₀, b', h, hb₀, hb', htotal, -⟩
    obtain ⟨hlen, hfits⟩ := hok.mp ⟨p', h⟩
    obtain ⟨hpl, hsum, -⟩ := dealreward_deals htype hauth hb hvalid hrewards hpos h
    rw [hpl, hrow] at hb'
    cases hb'
    cases hb.symm.trans hb₀
    obtain ⟨reporter, approvers, rfl, hk⟩ := exists_approvers hlen
    refine ⟨hlen, ?_, hfits⟩
    rw [sum_dealt] at hsum
    refine (halves_eq_iff hpos hk).mp ?_
    simp only at htotal
    omega
  · rintro ⟨hlen, hdvd, hfits⟩
    obtain ⟨p', h⟩ := hok.mpr ⟨hlen, hfits⟩
    obtain ⟨hpl, hsum, hof⟩ := dealreward_deals htype hauth hb hvalid hrewards hpos h
    obtain ⟨reporter, approvers, rfl, hk⟩ := exists_approvers hlen
    have hwhole := (halves_eq_iff hpos hk).mpr hdvd
    refine ⟨p', b, _, h, hb, hpl ▸ hrow, ?_, reporter, _, _, ?_, ?_, ?_, hof⟩
    · rw [sum_dealt] at hsum
      simp only
      omega
    · rw [List.map_map, show (Prod.fst ∘ fun a : Name => (a, _)) = id from rfl, List.map_id]
    · have hhalf : (2 : Int) ∣ distributable b := Int.dvd_trans ⟨_, Nat.cast_mul ..⟩ hdvd
      rw [Int.tdiv_eq_ediv_of_nonneg hpos.le, Int.mul_ediv_cancel' hhalf]
      simp
    · intro e he e' he'
      obtain ⟨_, -, rfl⟩ := List.mem_map.mp he
      obtain ⟨_, -, rfl⟩ := List.mem_map.mp he'
      simp

end Dealreward

/-! ## Room for the shares -/

theorem due_le_sum (h : ∀ e ∈ l, 0 ≤ e.2) (r : Name) : due l r ≤ (l.map Prod.snd).sum := by
  induction l with
  | nil => exact le_refl _
  | cons e l ih =>
    have he := h e List.mem_cons_self
    have hl := ih fun d hd => h d (List.mem_cons_of_mem e hd)
    rw [due_cons, List.map_cons, List.sum_cons]
    split <;> omega

theorem sum_dealt_le {d : Int} (hd : 0 < d) (rewarder : List Name) :
    ((dealt d rewarder).map Prod.snd).sum ≤ d := by
  cases rewarder with
  | nil => exact hd.le
  | cons reporter approvers =>
    rw [sum_dealt]
    rcases Nat.eq_zero_or_pos approvers.length with h | hk
    · have hhalf := (shares_nonneg hd 0).2.2
      rw [h, Nat.cast_zero, Int.zero_mul, Int.add_zero]
      exact hhalf
    · have hle := (shares_le hd hk).2.2
      rw [Int.add_mul, Int.one_mul] at hle
      omega

theorem dealt_nonneg {d : Int} (hd : 0 < d) (rewarder : List Name) :
    ∀ e ∈ dealt d rewarder, 0 ≤ e.2 := by
  intro e he
  cases rewarder with
  | nil => cases he
  | cons reporter approvers =>
    obtain ⟨h0, hA, -⟩ := shares_nonneg hd approvers.length
    simp only [dealt, List.mem_cons, List.mem_map] at he
    rcases he with rfl | ⟨a, -, rfl⟩
    · exact Int.le_trans h0 hA
    · exact h0

/-- A reward is one of those that the contract owes. -/
theorem Ok.rewardOf_le (hp : Ok p) (code : Nat) (r : Name) :
    rewardOf p code r ≤ Pledge.rewards p := by
  unfold rewardOf Pledge.rewards
  cases hf : p.reward.find r code with
  | none => exact Scoped.sum_nonneg fun _ _ _ hr => (hp.rewards _ _ _ hr).2
  | some old => exact Scoped.le_sum (fun _ _ _ hr => (hp.rewards _ _ _ hr).2) hf

/-- Only a row of core tokens has something to deal out, no more than the row is backed by. -/
theorem RowOk.distributable_le {b : PledgeInfo} (hrow : RowOk b) (hpos : 0 < distributable b) :
    b.deduction.symbol = coreSymbol ∧ distributable b ≤ b.backing := by
  have hd := hrow.deduction
  have hle : distributable b ≤ b.backing := by
    unfold distributable PledgeInfo.backing
    split <;> omega
  refine ⟨?_, hle⟩
  by_contra hne
  have hzero := hrow.foreign (hrow.symbol ▸ hne)
  omega

/-- While the contract owes no more than an asset can be, the rewards have room for all that a row
deals out. -/
theorem Ok.fits (hp : Ok p) {n pledger : Name} {b : PledgeInfo}
    (hb : p.pledge.find pledger n = some b) (hmax : backing p ≤ Asset.maxAmount)
    (hpos : 0 < distributable b) (rewarder : List Name) :
    Fits p b.deduction.symbol (dealt (distributable b) rewarder) := by
  obtain ⟨hcore, hle⟩ := (hp.rows _ _ _ hb).distributable_le hpos
  intro r _
  refine ⟨fun old hold => (hp.rewards _ _ _ hold).1.trans hcore.symm, ?_⟩
  have hdue := Int.le_trans (due_le_sum (dealt_nonneg hpos rewarder) r)
    (sum_dealt_le hpos rewarder)
  have hold := hp.rewardOf_le b.deduction.symbol.code r
  have hrows : b.backing ≤ p.pledge.sum fun _ _ b => b.backing :=
    Scoped.le_sum (fun _ _ _ hr => (hp.rows _ _ _ hr).backed) hb
  unfold backing at hmax
  unfold Pledge.rewards at hold
  omega

/-! ### 50 tokens to deal out -/

theorem deducted_type : deducted.pledge.pledgetype.find blockOutPledge =
    some ⟨systemAccount, Asset.zero⟩ := rfl

theorem deducted_row : deducted.pledge.pledge.find 1 blockOutPledge =
    some ⟨⟨-300000, coreSymbol⟩, ⟨800000, coreSymbol⟩⟩ := rfl

theorem deducted_row_valid : RowValid ⟨⟨-300000, coreSymbol⟩, ⟨800000, coreSymbol⟩⟩ :=
  ⟨by decide, by decide, rfl⟩

/-- Account 2 reports; accounts 3 and 2 approve. -/
theorem dealreward_exact_iff_deducted :
    DealsExactly (Env.of systemAccount 4) deducted.pledge blockOutPledge 1 [2, 3, 2] "" := by
  refine (dealreward_exact_iff deducted_type (by decide) deducted_row deducted_row_valid
    (Scoped.all_empty _) (by decide)).mpr ⟨by decide, by decide, ?_⟩
  intro r hr
  have hin : r = 2 ∨ r = 3 ∨ r = 2 := by simpa [dealt] using hr
  refine ⟨fun old hold => (by cases hold), ?_⟩
  rcases hin with rfl | rfl | rfl <;> decide

/-- A list of one is divided by zero, and three approvers are not an equal split of 25 tokens: one unit
is taken from the deduction and credited to nobody. -/
theorem deal_loses :
    ¬DealsExactly (Env.of systemAccount 4) deducted.pledge blockOutPledge 1 [2] "" ∧
      ¬DealsExactly (Env.of systemAccount 4) deducted.pledge blockOutPledge 1 [2, 3, 4, 5] "" := by
  constructor
  · rintro ⟨p', -, -, h, -⟩
    exact dealreward_alone p' h
  · rintro ⟨p', b, b', h, hb, hb', htotal, -⟩
    obtain ⟨hpl, hsum, -⟩ := dealreward_deals deducted_type (by decide) deducted_row
      deducted_row_valid (Scoped.all_empty _) (by decide) h
    cases deducted_row.symm.trans hb
    rw [hpl, taken, Scoped.find_put_self] at hb'
    cases hb'
    have hlost : ((dealt 500000 [2, 3, 4, 5]).map Prod.snd).sum = 499999 := by decide
    have hdist : distributable ⟨⟨-300000, coreSymbol⟩, ⟨800000, coreSymbol⟩⟩ = 500000 := by decide
    rw [hdist] at hsum htotal
    simp only at htotal
    omega

end Eosforce.Pledge
