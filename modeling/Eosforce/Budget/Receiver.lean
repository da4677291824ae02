import Eosforce.Budget.Run

/-!
# Who is paid out of a motion

A request for tokens keeps the id of its motion, and `takecoin` makes the motion's proposer the
receiver. `closemotion` leaves the requests behind, and an id that it frees is taken by a later
motion, of any proposer.

* `Rightful`: each request under review is by the proposer of the motion that has its id.
* `rightful_run_iff`: this holds over a run, and with it each payment goes to the proposer of the
  motion that pays, exactly when no proposal takes an id that another account's request waits for.
-/

namespace Eosforce.Budget

open Fallible Keyed Runs

/-- Each request under review is by the proposer of its motion, if the motion exists. -/
def Rightful (motions : Table Nat MotionInfo) (takecoins : Scoped Name Nat TakecoinInfo) : Prop :=
  ∀ proposer k t m, takecoins.find proposer k = some t → t.section = 0 →
    motions.find t.montionId = some m → t.receiver = m.proposer

/-- The transfers of an `agreecoin` go to the proposer of the motion that pays. -/
def PaysProposer (e : State × Call × State) : Prop :=
  ∀ approver proposer k memo t m, e.2.1.action = .agreecoin approver proposer k memo →
    e.1.takecoins.find proposer k = some t → e.1.motions.find t.montionId = some m →
    ∀ src dst quantity memo', .transfer src dst quantity memo' ∈ e.2.1.effects → dst = m.proposer

/-- A proposal takes an id that no request of another account under review refers to. -/
def FreshId (b : State) : Action → Prop
  | .propose proposer _ _ _ => ∀ id, availablePrimaryKey b.motions = .ok id →
      ∀ p k t, b.takecoins.find p k = some t → t.section = 0 → t.montionId = id →
        t.receiver = proposer
  | _ => True

variable {b b' : State} {a : Action}

theorem FreshId.of_other (ha : a.proposes = false) : FreshId b a := by
  cases a with
  | propose => cases ha
  | _ => trivial

/-- A motion written over one of the same proposer. -/
theorem Rightful.put_motion {motions : Table Nat MotionInfo}
    {takecoins : Scoped Name Nat TakecoinInfo} (h : Rightful motions takecoins) {id : Nat}
    {m m' : MotionInfo} (hm : motions.find id = some m) (hp : m'.proposer = m.proposer) :
    Rightful (motions.put id m') takecoins := by
  intro p k t n ht h0 hn
  rw [Table.find_put] at hn
  split at hn
  · rename_i hid
    cases hn
    rw [hp]
    exact h p k t m ht h0 (hid ▸ hm)
  · exact h p k t n ht h0 hn

/-- A request written where it is rightful itself. -/
theorem Rightful.put_takecoin {motions : Table Nat MotionInfo}
    {takecoins : Scoped Name Nat TakecoinInfo} (h : Rightful motions takecoins) {proposer : Name}
    {k : Nat} {t : TakecoinInfo} (ht : t.section = 0 → ∀ m, motions.find t.montionId = some m →
      t.receiver = m.proposer) : Rightful motions (takecoins.put proposer k t) := by
  intro p k' t' m ht' h0 hm
  rw [Scoped.find_put] at ht'
  split at ht'
  · cases ht'
    exact ht h0 m hm
  · exact h p k' t' m ht' h0 hm

/-- **Step lemma.** -/
theorem Change.rightful_iff {motions : Table Nat MotionInfo}
    {takecoins : Scoped Name Nat TakecoinInfo} {fx : List Effect}
    (hb : Rightful b.motions b.takecoins) (h : Change b a motions takecoins fx) :
    Rightful motions takecoins ↔ FreshId b a := by
  cases h with
  | still ha => exact iff_of_true hb (.of_other ha)
  | decide ha hm => exact iff_of_true (hb.put_motion hm rfl) (.of_other ha)
  | takecoin hm hp hk hid hr =>
    refine iff_of_true (hb.put_takecoin fun _ m' hm' => ?_) trivial
    rw [hid, hm] at hm'
    cases hm'
    rw [hr, hp]
  | @voteCoin a proposer k n ballot t ha ht h0 =>
    refine iff_of_true (hb.put_takecoin fun _ m hm => ?_) (.of_other ha)
    exact hb proposer k t m ht h0 hm
  | pay ht h0 hm h1 hs hle =>
    refine iff_of_true (.put_takecoin (hb.put_motion hm ?_) fun h1 => ?_) trivial
    · rfl
    · cases h1
  | closemotion hm =>
    refine iff_of_true (fun p k t m ht h0 hm' => ?_) trivial
    rw [Table.find_erase] at hm'
    split at hm'
    · cases hm'
    · exact hb p k t m ht h0 hm'
  | closecoin ht =>
    refine iff_of_true (fun p k t m ht' h0 hm => ?_) trivial
    rw [Scoped.find_erase] at ht'
    split at ht'
    · cases ht'
    · exact hb p k t m ht' h0 hm
  | @propose proposer title content quantity id m hid hq hp =>
    constructor
    · intro h id' hid' p k t ht h0 ht'
      cases hid.symm.trans hid'
      rw [← hp]
      exact h p k t m ht h0 (ht' ▸ Table.find_put_self _ _ _)
    · intro h p k t n ht h0 hn
      rw [Table.find_put] at hn
      split at hn
      · rename_i hid'
        cases hn
        rw [hp]
        exact h id hid p k t ht h0 hid'.symm
      · exact hb p k t n ht h0 hn

/-- From rightful requests, a payment goes to the proposer. -/
theorem Step.paysProposer {c : Call} (hb : Rightful b.motions b.takecoins) (h : Step b c b') :
    PaysProposer (b, c, b') := by
  intro approver proposer k memo t m ha ht hm src dst q memo' hfx
  have hch := exec_change h.1
  rw [ha] at hch
  generalize b'.motions = motions, b'.takecoins = takecoins, c.effects = fx at hch hfx
  cases hch with
  | still | decide | voteCoin => cases hfx
  | pay ht' h0 hm' h1 hs hle =>
    rw [List.mem_singleton] at hfx
    cases hfx
    cases ht.symm.trans ht'
    exact hb _ _ _ m ht h0 hm

/-- Over a run, each request under review is by the proposer of its motion and each payment goes to
the proposer of the motion that pays, exactly when no proposal takes an id that another account's
request waits for. -/
theorem rightful_run_iff {tr : List (State × Call × State)} (hg : Genesis b)
    (h : Run Step b tr b') :
    (∀ e ∈ tr, Rightful e.2.2.motions e.2.2.takecoins ∧ PaysProposer e) ↔
      ∀ e ∈ tr, FreshId e.1 e.2.1.action := by
  have hb : Rightful b.motions b.takecoins := fun p k t m ht => by
    rw [hg.takecoins] at ht; cases ht
  have hiff := h.always_iff (P := fun b => Rightful b.motions b.takecoins) hb
    fun t c u ht hs => (exec_change hs.1).rightful_iff ht
  constructor
  · exact fun hU => hiff.mp fun e he => (hU e he).1
  · intro hC e he
    have hpost := hiff.mpr hC
    have hpre := h.pre (P := fun b => Rightful b.motions b.takecoins) hb hpost
    exact ⟨hpost e he, (h.steps e he).paysProposer (hpre e he)⟩

/-! ### A motion whose id is taken again -/

/-- Account 1 is paid out of its own motion. -/
theorem rightful_run_iff_paid : ∃ tr, Run Step seated tr paid ∧
    ∀ e ∈ tr, Rightful e.2.2.motions e.2.2.takecoins ∧ PaysProposer e := by
  have hr : Run Step seated _ paid := .snoc (.snoc (.snoc (.snoc .nil proposed_step) passed_step)
    requested_step) paid_step
  refine ⟨_, hr, (rightful_run_iff seated_genesis hr).mpr ?_⟩
  simp only [List.nil_append, List.cons_append, List.mem_cons, List.not_mem_nil, or_false]
  rintro e (rfl | rfl | rfl | rfl)
  · exact fun _ _ p k t ht => by cases ht
  all_goals exact (by trivial)

/-- Account 1 closes its motion. -/
def closed : State := requested.next (pledgedEnv 1 403203) (.closemotion 0 "")

/-- Account 2 proposes to spend 10 tokens. -/
def reissued : State := closed.next (pledgedEnv 2 403204) (.propose 2 "" "" ⟨100000, coreSymbol⟩)

def repassed : State := reissued.next (pledgedEnv 3 403205) (.approve 3 0 "")

/-- The committee agrees to the request of account 1. -/
def mispaid : State := repassed.next (pledgedEnv 3 403206) (.agreecoin 3 1 0 "")

/-- Account 1 is paid out of the motion of account 2. -/
theorem reissuedId_pays_other : ¬∀ (b b' : State) (tr : List (State × Call × State)), Genesis b →
    Run Step b tr b' → ∀ e ∈ tr, Rightful e.2.2.motions e.2.2.takecoins ∧ PaysProposer e := by
  intro hall
  have hr : Run Step seated _ mispaid :=
    .snoc (.snoc (.snoc (.snoc (.snoc (.snoc (.snoc .nil proposed_step) passed_step) requested_step)
      (State.next_step _ _ _ rfl (accepted_nil _) : Step _ _ closed))
      (State.next_step _ _ _ rfl (accepted_nil _) : Step _ _ reissued))
      (State.next_step _ _ _ rfl (accepted_nil _) : Step _ _ repassed))
      (State.next_step _ _ _ rfl (accepted_payment _))
  have hlast := (hall _ _ _ seated_genesis hr _
    (List.mem_append_right _ (List.mem_singleton.mpr rfl))).2
  exact absurd (hlast 3 1 0 "" _ _ rfl rfl rfl _ _ _ _ (List.mem_singleton.mpr rfl)) (by decide)

end Eosforce.Budget
