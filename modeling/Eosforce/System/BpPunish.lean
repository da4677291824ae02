import Eosforce.System.State

/-!
# Punishment of producers (`contracts/eosio.system/src/bppunish.cpp`)

The actions `punishbp`, `approvebp`, `bailpunish`, `monitorevise` and `removepunish`.

A C++ access through the iterator of an absent row is undefined; it is the failure
`danglingIterator` here.
-/

namespace Eosforce.System

open Fallible Keyed

/-- An access through an end iterator. -/
def danglingIterator : String := "dereference of an end iterator"

/-- Action `punishbp`. -/
def punishbp (env : Env) (s : State) (bpname proposaler : Name) : Except String State := do
  requireAuth env proposaler
  check ((s.bpmonitor.find bpname).any fun m => m.bpStatus == .lackPledge)
    "the bp can not to be punish"
  let currBlockNum := env.currentBlockNum
  check ((s.punishbps.find bpname).all fun p => p.effectiveBlockNum < currBlockNum)
    "the bp was Being resolved"
  let pledge ← fetch (env.blockOutPledge proposaler)
    "the proposaler must pledge 100 EOS on block.out"
  let more ← Asset.lt ⟨100 * 10000, coreSymbol⟩ pledge.pledge
  check (more = true) "the proposaler must pledge 100 EOS on block.out"
  pure { s with
    punishbps := s.punishbps.put bpname
      { proposaler, effectiveBlockNum := u32 (currBlockNum + punishBpLimit) } }

/-- `is_super_bp`: in the producers of the latest schedule row. -/
def isSuperBp (s : State) (bpname : Name) : Except String Bool := do
  let schLast ← fetch s.schedules.last danglingIterator
  pure (schLast.2.producers.any fun p => p.bpname = bpname)

/-- The number of approvals that punish: `APPROVE_TO_PUNISH_NUM`, or the configured number stored
in a `uint32_t`. -/
def approveToPunishNumInForce (s : State) : Nat :=
  match s.systemconfig.find configApproveToPunishNum with
  | some c => u32 c.numberValue
  | none => approveToPunishNum

/-- The approvers that are producers of the latest schedule, in the order of their approvals. -/
def superApprovers (s : State) (approveBp : List Name) : Except String (List Name) :=
  approveBp.filterM (isSuperBp s)

/-- The `dealreward` that `exec_punish_bp` sends, if the bp has a deduction to pay out. -/
def punishReward (env : Env) (bpname proposaler : Name) (approvers : List Name) :
    Except String (List Effect) :=
  match env.blockOutPledge bpname with
  | none => pure []
  | some pledge => do
    let none₁ ← pledge.deduction.le Asset.zero
    if none₁ then pure []
    else do
      let sum ← pledge.pledge.add pledge.deduction
      let none₂ ← sum.le Asset.zero
      pure (if none₂ then [] else
        [.dealreward Eosforce.blockOutPledge bpname (proposaler :: approvers) ""])

/-- `exec_punish_bp`. The count of approvals is an `int`, compared as a `uint32_t`. -/
def execPunishBp (env : Env) (s : State) (bpname : Name) : Except String (State × List Effect) := do
  let currBlockNum := env.currentBlockNum
  let punishBp ← fetch (s.punishbps.find bpname) "the bp was not Being resolved"
  check (punishBp.effectiveBlockNum > currBlockNum) "the bp was not Being resolved"
  let approvers ← superApprovers s punishBp.approveBp
  if u32 approvers.length < approveToPunishNumInForce s then pure (s, [])
  else do
    let m ← fetch (s.bpmonitor.find bpname) "the bp can not to be punish"
    check (m.bpStatus = .lackPledge) "the bp can not to be punish"
    let effects ← punishReward env bpname punishBp.proposaler approvers
    pure ({ s with
      bpmonitor := s.bpmonitor.put bpname
        { m with bpStatus := .punished, endPunishBlock := u32 (currBlockNum + punishBpLimit) }
      punishbps := s.punishbps.erase bpname }, effects)

/-- Action `approvebp`. -/
def approvebp (env : Env) (s : State) (bpname approver : Name) :
    Except String (State × List Effect) := do
  requireAuth env approver
  let super ← isSuperBp s approver
  check (super = true) "only bp can approve punish bp"
  let punishBp ← fetch (s.punishbps.find bpname) "the bp was not Being resolved"
  check (punishBp.effectiveBlockNum > env.currentBlockNum) "the bp was not Being resolved"
  check (approver ∉ punishBp.approveBp) "the bp has approved"
  let approveBp := punishBp.approveBp ++ [approver]
  let s := { s with punishbps := s.punishbps.put bpname { punishBp with approveBp } }
  if u32 approveBp.length < approveToPunishNumInForce s then pure (s, [])
  else execPunishBp env s bpname

/-- Action `bailpunish`. -/
def bailpunish (env : Env) (s : State) (bpname : Name) : Except String State := do
  requireAuth env bpname
  let m ← fetch (s.bpmonitor.find bpname) "the bp can not bail"
  check (m.bpStatus = .punished ∧ m.endPunishBlock < env.currentBlockNum) "the bp can not bail"
  pure { s with
    bpmonitor := s.bpmonitor.put bpname { m with bpStatus := .normal, endPunishBlock := 0 } }

/-- One pass of the loop of `drainblock_revise`, from the row with the smallest block: the pass
stops at the first wrong row and erases it, or returns the sum of all rows. -/
def drainblockPass (result : Int) : List (Nat × Nat) → Nat ⊕ Int
  | [] => .inr result
  | (block, num) :: rows =>
    if num > wrongDrainBlock then .inl block
    else drainblockPass (i32 (result + num)) rows

/-- `drainblock_revise`: passes until one erases nothing. Each other pass erases a row, so the
number of rows bounds the passes. -/
def drainblockReviseFuel : Nat → Table Nat Nat → Table Nat Nat × Int
  | 0, tbl => (tbl, 0)
  | fuel + 1, tbl =>
    match drainblockPass 0 tbl.rows with
    | .inl block => drainblockReviseFuel fuel (tbl.erase block)
    | .inr result => (tbl, result)

/-- `drainblock_revise` on the drain blocks of a bp. -/
def drainblockRevise (tbl : Table Nat Nat) : Table Nat Nat × Int :=
  drainblockReviseFuel (tbl.rows.length + 1) tbl

/-- The revision of one monitor row. -/
def reviseMonitor (s : State) (bpname : Name) (m : BpMonitor) : State :=
  let (tbl, totalDrainNum) := drainblockRevise (s.drainblocks.scope bpname)
  { s with
    drainblocks := s.drainblocks.setScope bpname tbl
    bpmonitor := s.bpmonitor.put bpname
      { m with totalDrainBlock := u32OfInt totalDrainNum, bpStatus := .normal } }

/-- Action `monitorevise`: the named bp if its count is wrong, else every bp with a wrong count. -/
def monitorevise (env : Env) (s : State) (bpname : Name) : Except String State := do
  requireAuth env systemAccount
  let all := s.bpmonitor.rows.foldl (fun s row =>
    if row.2.totalDrainBlock > wrongDrainBlock then reviseMonitor s row.1 row.2 else s) s
  match s.bpmonitor.find bpname with
  | some m => pure (if m.totalDrainBlock > wrongDrainBlock then reviseMonitor s bpname m else all)
  | none => pure all

/-- Action `removepunish`. -/
def removepunish (env : Env) (s : State) (bpname : Name) : Except String State := do
  requireAuth env bpname
  let m ← fetch (s.bpmonitor.find bpname) "can not find monitor infomation"
  check (m.bpStatus = .lackPledge) "the status of bp is not to be punish"
  let lastproducer ← fetch s.lastproducer "can not find lastproducer information"
  check (bpname ∈ lastproducer.producers) "the bp is not in last producers"
  pure { s with bpmonitor := s.bpmonitor.put bpname { m with bpStatus := .normal } }

end Eosforce.System
