import Eosforce.Tools.Dump
import Eosforce.Tools.Push

/-!
# From a list of accounts to the frozen accounts

A committer pushes accounts (`push.js`), locks its table, the producers review its dump (`dump.js`),
and the chain activates it.

* `StatRow`, `checkFreezeTableStat`, `dump`: the tool dumps a table only if it is not committing.
* `checkFreezeTableStat_iff`: what it asks of the table's state.
* `push_dump_activate`: the dump and the frozen accounts are the accounts that were pushed.
-/

namespace Eosforce.Dump

open Freeze Keyed Pages Push Runs

/-! ## The tool -/

/-- A row of the table `freezedstat` in an answer. -/
structure StatRow where
  committer : String
  state : Nat
  freezedSize : Nat
  lockedBlockNum : Nat

/-- `check_freeze_table_stat`, from the rows of the answer. -/
def checkFreezeTableStat (rows : List StatRow) (committer : String) : Bool :=
  match rows.head? with
  | none => false
  | some row => row.committer = committer && row.state != 0

/-- What the tool writes: nothing for a table that may still change. -/
def dump (statRows : List StatRow) (rpc : Rpc) (committer : String) (fuel : Nat) :
    Option (Option (List String)) :=
  if checkFreezeTableStat statRows committer then (dumpAll rpc committer fuel).map some
  else some none

/-! ## The node -/

variable {text : Name → String} {bound value : String → Name}

/-- The number of a state. -/
def stateCode : FreezedTableStat → Nat
  | .committing => 0
  | .locked => 1
  | .actived => 2
  | .banned => 3

/-- A row as the node writes it. -/
def statRow (text : Name → String) (p : Name × FreezedTableState) : StatRow :=
  ⟨text p.1, stateCode p.2.state, p.2.freezedSize, p.2.lockedBlockNum⟩

/-- The answer to the tool, which asks for one row from the committer's on. -/
def statAnswer (text : Name → String) (s : Freeze.State) (c : Name) : List StatRow :=
  (page 1 c s.freezedstat.rows).map (statRow text)

/-- The first row of a page from the key of a row is that row. -/
theorem page_head {κ ρ : Type} [LinearOrder κ] {l : List (κ × ρ)} (hs : SortedKeys l) {k : κ} {r : ρ}
    (h : (k, r) ∈ l) : (page 1 k l).head? = some (k, r) := by
  obtain ⟨i, hi, he⟩ := List.getElem_of_mem h
  have hp := entriesFrom_getElem hs hi
  rw [he] at hp
  unfold page
  rw [hp, List.head?_take, if_neg (by decide), List.head?_drop, List.getElem?_eq_getElem hi, he]

/-- The tool goes on with a table that is there and not committing. -/
theorem checkFreezeTableStat_iff {s : Freeze.State} {c : Name}
    (htext : ∀ k f, s.freezedstat.find k = some f → text k = text c → k = c) :
    checkFreezeTableStat (statAnswer text s c) (text c) = true ↔
      ∃ f, s.freezedstat.find c = some f ∧ f.state ≠ .committing := by
  have hcode : ∀ st, stateCode st = 0 ↔ st = .committing := fun st => by cases st <;> decide
  unfold checkFreezeTableStat statAnswer
  rw [List.head?_map]
  cases hfind : s.freezedstat.find c with
  | some f =>
    rw [page_head s.freezedstat.sorted (Table.mem_rows.mpr hfind)]
    simp [statRow, hcode]
  | none =>
    cases hhead : (page 1 c s.freezedstat.rows).head? with
    | none => simp
    | some p =>
      -- the first row is that of another committer
      have hp : s.freezedstat.find p.1 = some p.2 :=
        Table.mem_rows.mp (mem_of_mem_page (List.mem_of_mem_head? hhead))
      have hne : text p.1 ≠ text c := fun e => by
        rw [htext _ _ hp e, hfind] at hp
        cases hp
      simp [statRow, hne]

/-! ## From the list to the frozen accounts -/

/-- A locked table is not the active one. -/
theorem Locked.gfstate_ne {s : Freeze.State} {c : Name} (h : Locked c s) (hs : Sound s) :
    s.gfstate ≠ some c := by
  obtain ⟨f, hf, hlock⟩ := h
  intro hg
  rw [(hs.actived c f hf).mpr hg] at hlock
  cases hlock

variable {rpc : Rpc} {states : Nat → Freeze.State} {c : Name} {committer memo : String}
  {accounts : List String}

/-- The accounts that a committer pushes, whatever other committers do in between, are the accounts
that the dump of its locked table writes, each once and in key order, and the accounts that the
activation of the table freezes. -/
theorem push_dump_activate {tr : Trace} (h : Run Step {} tr (states 0)) (hval : value committer = c)
    (hpush : (labels tr).filterMap (editOf c) = pushedActs value committer accounts memo)
    (hc : Locked c (states 0)) (hstay : ∀ i, StaysLocked c (states i) (states (i + 1)))
    (htext : ∀ k f, (states 0).freezedstat.find k = some f → text k = text c → k = c)
    (hnames : ReadsNames text bound ((states 0).freezed.scope c).rows)
    (hrpc : ∀ i, Serves text bound (rpc i) c (states i)) :
    (∃ names : List Name, names.Pairwise (· < ·) ∧ (∀ a, a ∈ names ↔ a ∈ accounts.map value) ∧
      ∃ n, ∀ fuel, n ≤ fuel →
        dump (statAnswer text (states 0) c) rpc (text c) fuel = some (some (names.map text))) ∧
    ∀ i env s, Step (states i) (env, .actfreezed c) s →
      ∀ a block, a ∈ freezedAccounts s block ↔ a ∈ accounts.map value := by
  subst hval
  have hs : Reachable (states 0) := ⟨tr, h⟩
  have hlisted : ∀ a, a ∈ ((states 0).freezed.scope (value committer)).keys ↔
      a ∈ accounts.map value := fun a => by
    have hl := pushed_listed h sound_empty (Locked.gfstate_ne hc hs.sound) hpush a
    rw [Table.mem_keys, ← Option.isSome_iff_exists]
    show (states 0).listed (value committer) a = true ↔ _
    rw [hl]
    simp [State.listed]
  refine ⟨⟨_, ((states 0).freezed.scope _).keys_sorted, hlisted, ?_⟩, fun i env s hst a block => ?_⟩
  · obtain ⟨n, hends⟩ := dumpAll_locked hs hc hstay hnames hrpc
    refine ⟨n, fun fuel hf => ?_⟩
    obtain ⟨f, hf', hlock⟩ := hc
    have hcheck := (checkFreezeTableStat_iff htext).mpr ⟨f, hf', by rw [hlock]; exact nofun⟩
    unfold dump
    rw [if_pos hcheck, hends fuel hf]
    rfl
  · rw [mem_freezedAccounts_of_stays hs hc hstay hst, hlisted]

/-- Committer 5 pushes the accounts 7 and 8, and locks its table. -/
theorem push_dump_activate_two :
    (∃ names : List Name, names.Pairwise (· < ·) ∧
      (∀ a, a ∈ names ↔ a ∈ ["............b", "............c"].map nameValue) ∧
      ∃ n, ∀ fuel, n ≤ fuel →
        dump (statAnswer Name.toText locked 5) (fun _ => nodeAt locked) (Name.toText 5) fuel =
          some (some (names.map Name.toText))) ∧
    ∀ (_ : Nat) (env : Env) (s : Freeze.State), Step locked (env, .actfreezed 5) s →
      ∀ a block, a ∈ freezedAccounts s block ↔
        a ∈ ["............b", "............c"].map nameValue := by
  have hnames : ReadsNames Name.toText nameValue (locked.freezed.scope 5).rows :=
    readsNames_toText (by decide)
  have hserves := fun _ : Nat => serves_nodeAt (c := 5) (by decide) locked
  have hpush : (labels ([({}, (Env.of 5 1, .addfreezed 5 [7, 8] ""), added),
      (added, (Env.of 5 2, .lockfreezed 5 true), locked)] : Trace)).filterMap (editOf 5) =
        pushedActs nameValue "............5" ["............b", "............c"] "" := by decide
  have hkeys : locked.freezedstat.keys = [5] := rfl
  have htext : ∀ k f, locked.freezedstat.find k = some f → Name.toText k = Name.toText 5 → k = 5 :=
    fun k f hk _ => List.mem_singleton.mp (hkeys ▸ Table.mem_keys.mpr ⟨f, hk⟩)
  have hstay : ∀ _ : Nat, StaysLocked 5 locked locked := fun _ =>
    ⟨[], .nil, fun _ he => absurd he List.not_mem_nil⟩
  exact push_dump_activate locked_run (by decide) hpush ⟨_, rfl, rfl⟩ hstay htext hnames hserves

end Eosforce.Dump
