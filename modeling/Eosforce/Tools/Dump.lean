import Eosforce.Freeze.Activation
import Eosforce.Lib.Loop
import Eosforce.Lib.Page
import Eosforce.NameText

/-!
# The dump of a freezed table (`tools/push_freezeds/src/dump.js`)

The tool reads the table of a committer page by page through the node's `get_table_rows` and writes
the accounts to a file, which the producers review before the table is activated.

* `dumpTableRows`, `dumpAll`: the loop over the pages, and the accounts it collects.
* `Serves`, `ReadsNames`: what the node answers from its state, and how it reads account names
  (`readsNames_toText`: so it does with the texts of 64-bit names).
* `StaysLocked`: between two answers the contract may run, but it leaves the table locked.
* `dumpTableRows_locked`: each row of a locked table is handled once, in order, with at most one
  request for every 99 rows and one more.
* `dumpAll_activated`: the accounts that are written are the ones that the activation freezes.
-/

namespace Eosforce.Dump

open Freeze Keyed Loops Pages Runs

/-! ## The tool -/

/-- What `get_table_rows` is asked for. -/
structure Params where
  scope : String
  code : String
  table : String
  limit : Nat
  json : Bool
  lowerBound : String := ""

/-- A row of the table `freezed` in an answer. -/
structure Row where
  account : String
  unfreezeBlockNum : Nat
  deriving DecidableEq

/-- An answer of `get_table_rows`. -/
structure Response where
  rows : List Row
  more : Bool

/-- The node: its answer to each request, the first one having number 0. -/
abbrev Rpc := Nat → Params → Response

/-- The variables of the loop, with the number of the requests so far and what the handler made of
the rows so far. -/
structure Reading (σ : Type) where
  l : String := ""
  more : Bool := true
  requests : Nat := 0
  handled : σ

variable {σ : Type}

/-- The rows at the start of a page that were in the one before. -/
def start (l : String) : Nat := if l = "" then 0 else 1

/-- The body of the loop of `dump_table_rows`. -/
def readPage (rpc : Rpc) (params : Params) (handlerFunc : σ → Row → σ) (r : Reading σ) :
    Reading σ :=
  let res := rpc r.requests { params with lowerBound := r.l }
  let r := { r with more := res.more, requests := r.requests + 1 }
  match res.rows.getLast? with
  | none => r
  | some row =>
    { r with l := row.account, handled := (res.rows.drop (start r.l)).foldl handlerFunc r.handled }

/-- The loop of `dump_table_rows`. -/
def dumpLoop (rpc : Rpc) (params : Params) (handlerFunc : σ → Row → σ) (r : Reading σ) :
    Reading σ ⊕ σ :=
  if r.more then .inl (readPage rpc params handlerFunc r) else .inr r.handled

/-- `dump_table_rows`. -/
def dumpTableRows (rpc : Rpc) (code scope table : String) (handlerFunc : σ → Row → σ) (init : σ)
    (fuel : Nat) : Option σ :=
  runLoop (dumpLoop rpc { scope, code, table, limit := 100, json := true } handlerFunc) fuel
    { handled := init }

/-- `dump_all`: the accounts that it writes. -/
def dumpAll (rpc : Rpc) (committer : String) (fuel : Nat) : Option (List String) :=
  dumpTableRows rpc "eosio.freeze" committer "freezed" (fun res row => res ++ [row.account]) [] fuel

/-! ## The node -/

variable {text : Name → String} {bound : String → Name} {rows : List (Name × Nat)}

/-- A row as the node writes it. -/
def freezedRow (text : Name → String) (p : Name × Nat) : Row := ⟨text p.1, p.2⟩

/-- The answer from these rows: in key order, the first ones that are not below the bound, and
whether others remain. -/
def answer (text : Name → String) (bound : String → Name) (rows : List (Name × Nat)) (limit : Nat)
    (l : String) : Response where
  rows := (page limit (bound l) rows).map (freezedRow text)
  more := Pages.more limit (bound l) rows

/-- The node answers from this state where it is asked for 100 rows of the committer's table. -/
def Serves (text : Name → String) (bound : String → Name) (getTableRows : Params → Response)
    (c : Name) (s : Freeze.State) : Prop :=
  ∀ l, getTableRows
    { scope := text c, code := "eosio.freeze", table := "freezed", limit := 100, json := true,
      lowerBound := l } = answer text bound (s.freezed.scope c).rows 100 l

/-- The node reads the names that it wrote, and nothing is below the empty bound. The tool sends no key
type, so this asks that no row is of a name of digits only, which the node takes for a number. -/
structure ReadsNames (text : Name → String) (bound : String → Name) (rows : List (Name × Nat)) :
    Prop where
  text : ∀ p ∈ rows, bound (text p.1) = p.1
  empty : ∀ p ∈ rows, bound "" ≤ p.1

/-- A node that takes every bound for a name reads the texts of names, where these have 64 bits. -/
theorem readsNames_toText (h : ∀ p ∈ rows, p.1 < 2 ^ 64) :
    ReadsNames Name.toText nameValue rows where
  text := by
    intro p hp
    rw [nameValue, Name.ofString_toText (h p hp)]
    rfl
  empty := fun p _ => Nat.zero_le p.1

/-- The contract leads from one state to another without unlocking the table. -/
def StaysLocked (c : Name) (s s' : Freeze.State) : Prop :=
  ∃ tr, Run Step s tr s' ∧ ∀ e ∈ tr, Locked c e.2.2

/-! ## The loop over the pages -/

section Loop

variable {rpc : Rpc} {params : Params} {handlerFunc : σ → Row → σ} {init : σ} {r : Reading σ}

/-- What the handler makes of these rows. -/
def handleRows (text : Name → String) (handlerFunc : σ → Row → σ) (init : σ)
    (rows : List (Name × Nat)) : σ :=
  (rows.map (freezedRow text)).foldl handlerFunc init

theorem handleRows_append (l l' : List (Name × Nat)) :
    handleRows text handlerFunc init (l ++ l') =
      handleRows text handlerFunc (handleRows text handlerFunc init l) l' := by
  simp only [handleRows, List.map_append, List.foldl_append]

/-- The requests of the loop are answered from these rows. -/
def AnsweredFrom (text : Name → String) (bound : String → Name) (rows : List (Name × Nat))
    (rpc : Rpc) (params : Params) : Prop :=
  ∀ i l, rpc i { params with lowerBound := l } = answer text bound rows params.limit l

/-- Before a request the rows up to the bound have been handled, and at the end all of them. -/
inductive Reads (text : Name → String) (bound : String → Name) (rows : List (Name × Nat))
    (handlerFunc : σ → Row → σ) (init : σ) : Reading σ → Prop
  | page {l : String} {n : Nat} {got : List (Name × Nat)} :
    ReadUpTo rows (bound l) (start l) got →
    Reads text bound rows handlerFunc init ⟨l, true, n, handleRows text handlerFunc init got⟩
  | done {l : String} {n : Nat} :
    Reads text bound rows handlerFunc init ⟨l, false, n, handleRows text handlerFunc init rows⟩

/-- A bound on the requests that follow: each but the last moves the bound by all rows of a page
but one. -/
def requestsLeft (bound : String → Name) (rows : List (Name × Nat)) (limit : Nat)
    (r : Reading σ) : Nat :=
  if r.more then (entriesFrom (bound r.l) rows).length / (limit - 1) + 1 else 0

/-- What a page does to the variables of the loop. -/
theorem readPage_eq (hrpc : AnsweredFrom text bound rows rpc params) (l : String) (m : Bool)
    (n : Nat) (acc : σ) :
    readPage rpc params handlerFunc ⟨l, m, n, acc⟩ =
      ⟨((page params.limit (bound l) rows).getLast?.map fun p => text p.1).getD l,
        Pages.more params.limit (bound l) rows, n + 1,
        handleRows text handlerFunc acc ((page params.limit (bound l) rows).drop (start l))⟩ := by
  simp only [readPage, hrpc n l, answer, List.getLast?_map]
  cases hp : (page params.limit (bound l) rows).getLast? with
  | none =>
    rw [List.getLast?_eq_none_iff.mp hp, List.drop_nil]
    rfl
  | some p =>
    rw [handleRows, List.map_drop]
    rfl

theorem start_le (l : String) : start l ≤ 1 := by
  unfold start
  split <;> omega

/-- **Step lemma.** A page keeps what has been handled in step with the bound. -/
theorem Reads.step (h : Reads text bound rows handlerFunc init r) (hs : SortedKeys rows)
    (hnames : ReadsNames text bound rows) (hrpc : AnsweredFrom text bound rows rpc params)
    (hlimit : 1 < params.limit) (hmore : r.more = true) :
    Reads text bound rows handlerFunc init (readPage rpc params handlerFunc r) ∧
      requestsLeft bound rows params.limit (readPage rpc params handlerFunc r) <
        requestsLeft bound rows params.limit r := by
  cases h with
  | done => cases hmore
  | @page l n got hgot =>
    rw [readPage_eq hrpc, ← handleRows_append]
    cases hm : Pages.more params.limit (bound l) rows with
    | false =>
      rw [hgot.last hm]
      exact ⟨.done, Nat.succ_pos _⟩
    | true =>
      have hstart := start_le l
      obtain ⟨p, hp, hnext, hlen⟩ := hgot.next hs (by omega) (by omega) hm
      have htext := hnames.text p (mem_of_mem_page (List.mem_of_getLast? hp))
      rw [hp, Option.map_some, Option.getD_some]
      constructor
      · apply Reads.page
        -- the bound has moved, so it is not the empty one
        have hne : text p.1 ≠ "" := by
          intro he
          rw [he] at htext
          rw [← htext, entriesFrom_all hnames.empty] at hlen
          have hle := List.length_filter_le (fun q => decide (bound l ≤ q.1)) rows
          unfold entriesFrom at hlen
          omega
        rw [htext, start, if_neg hne]
        exact hnext
      · simp only [requestsLeft, htext, ↓reduceIte, ← hlen]
        rw [Nat.add_div_right _ (by omega)]
        exact Nat.lt_succ_self _

/-- Where the node answers from fixed rows, the loop ends, and the handler got these rows. -/
theorem dumpLoop_ends (hs : SortedKeys rows) (hnames : ReadsNames text bound rows)
    (hrpc : AnsweredFrom text bound rows rpc params) (hlimit : 1 < params.limit) :
    ∃ n, n ≤ rows.length / (params.limit - 1) + 2 ∧
      Ends (dumpLoop rpc params handlerFunc) n { handled := init }
        (handleRows text handlerFunc init rows) := by
  have hnext : ∀ r t, Reads text bound rows handlerFunc init r →
      dumpLoop rpc params handlerFunc r = .inl t → Reads text bound rows handlerFunc init t ∧
        requestsLeft bound rows params.limit t < requestsLeft bound rows params.limit r := by
    intro r t h hb
    unfold dumpLoop at hb
    split at hb
    · rename_i hmore
      obtain rfl := Sum.inl.inj hb
      exact h.step hs hnames hrpc hlimit hmore
    · cases hb
  have hdone : ∀ r b, Reads text bound rows handlerFunc init r →
      dumpLoop rpc params handlerFunc r = .inr b → b = handleRows text handlerFunc init rows := by
    intro r b h hb
    cases h with
    | page => cases hb
    | done => exact (Sum.inr.inj hb).symm
  have hinit : Reads text bound rows handlerFunc init ⟨"", true, 0, init⟩ :=
    Reads.page (ReadUpTo.start hnames.empty)
  obtain ⟨n, b, hn, hends, rfl⟩ := ends_of_measure hnext hdone hinit
  refine ⟨n, ?_, hends⟩
  rw [requestsLeft, if_pos rfl, entriesFrom_all hnames.empty] at hn
  exact hn

end Loop

/-! ## Locked tables -/

variable {rpc : Rpc} {c : Name} {states : Nat → Freeze.State}

/-- The table that stays locked stays as it is. -/
theorem StaysLocked.sameTable {s s' : Freeze.State} (h : StaysLocked c s s') (hs : Sound s)
    (hc : Locked c s) : SameTable c s s' ∧ Sound s' ∧ Locked c s' := by
  obtain ⟨tr, hr, hall⟩ := h
  refine ((hr.restrict (C := fun e => Locked c e.2.2) hall).inv
    (I := fun t => SameTable c s t ∧ Sound t ∧ Locked c t) ⟨.refl c s, hs, hc⟩ ?_).1
  rintro t a u ⟨hsame, ht, htc⟩ ⟨hst, huc⟩
  rcases (hst.locked ht htc).2 with h | ⟨-, hn⟩
  · exact ⟨hsame.trans h, hst.sound ht, huc⟩
  · exact absurd huc hn

theorem sameTable_of_stays (hs : Reachable (states 0)) (hc : Locked c (states 0))
    (hstay : ∀ i, StaysLocked c (states i) (states (i + 1))) (i : Nat) :
    SameTable c (states 0) (states i) ∧ Sound (states i) ∧ Locked c (states i) := by
  induction i with
  | zero => exact ⟨.refl c _, hs.sound, hc⟩
  | succ i ih =>
    obtain ⟨h, hsi, hci⟩ := ih
    obtain ⟨h', hsi', hci'⟩ := (hstay i).sameTable hsi hci
    exact ⟨h.trans h', hsi', hci'⟩

/-- All answers are from the table of the first. -/
theorem answeredFrom (hs : Reachable (states 0)) (hc : Locked c (states 0))
    (hstay : ∀ i, StaysLocked c (states i) (states (i + 1)))
    (hrpc : ∀ i, Serves text bound (rpc i) c (states i)) :
    AnsweredFrom text bound ((states 0).freezed.scope c).rows rpc
      { scope := text c, code := "eosio.freeze", table := "freezed", limit := 100, json := true }
    := by
  intro i l
  obtain ⟨h, -, -⟩ := sameTable_of_stays hs hc hstay i
  rw [← h.freezed]
  exact hrpc i l

/-- **The dump.** Where the node answers from states in which the table stays locked,
`dump_table_rows` ends, and its handler got every row of the table once, in order. -/
theorem dumpTableRows_locked (hs : Reachable (states 0)) (hc : Locked c (states 0))
    (hstay : ∀ i, StaysLocked c (states i) (states (i + 1)))
    (hnames : ReadsNames text bound ((states 0).freezed.scope c).rows)
    (hrpc : ∀ i, Serves text bound (rpc i) c (states i)) (handlerFunc : σ → Row → σ) (init : σ) :
    ∃ n, n ≤ ((states 0).freezed.scope c).size / 99 + 2 ∧ ∀ fuel, n ≤ fuel →
      dumpTableRows rpc "eosio.freeze" (text c) "freezed" handlerFunc init fuel =
        some ((((states 0).freezed.scope c).rows.map (freezedRow text)).foldl handlerFunc init) := by
  obtain ⟨n, hn, hends⟩ := dumpLoop_ends ((states 0).freezed.scope c).sorted hnames
    (answeredFrom hs hc hstay hrpc) (Nat.le_add_left 2 98)
  exact ⟨n, hn, fun fuel hf => hends.runLoop_eq hf⟩

/-- A node whose chain is in this state. -/
def nodeAt (s : Freeze.State) (p : Params) : Response :=
  if p.code = "eosio.freeze" ∧ p.table = "freezed" then
    answer Name.toText nameValue (s.freezed.scope (nameValue p.scope)).rows p.limit p.lowerBound
  else ⟨[], false⟩

/-- The node reads the name of the committer, and answers from its table. -/
theorem serves_nodeAt {c : Name} (hc : nameValue (Name.toText c) = c) (s : Freeze.State) :
    Serves Name.toText nameValue (nodeAt s) c s := by
  intro l
  rw [nodeAt, if_pos ⟨rfl, rfl⟩, hc]

/-- 130 accounts. -/
def many : List Name := List.range' 1 130

/-- Committer 5 lists them. -/
def manyListed : Freeze.State := State.next {} (Env.of 5 1) (.addfreezed 5 many "")

/-- It locks its table. -/
def manyLocked : Freeze.State := manyListed.next (Env.of 5 2) (.lockfreezed 5 true)

/-- Committer 6 lists an account meanwhile. -/
def otherListed : Freeze.State := manyLocked.next (Env.of 6 3) (.addfreezed 6 [2] "")

/-- The states in which the node answers. -/
def manyStates : Nat → Freeze.State
  | 0 => manyLocked
  | _ + 1 => otherListed

theorem many_eval :
    (exec (Env.of 5 1) {} (.addfreezed 5 many "")).isOk = true ∧
    (exec (Env.of 5 2) manyListed (.lockfreezed 5 true)).isOk = true ∧
    (exec (Env.of 6 3) manyLocked (.addfreezed 6 [2] "")).isOk = true ∧
    (manyLocked.freezed.scope 5).rows = many.map (fun k => (k, 0)) ∧
    (manyLocked.freezedstat.find 5).map FreezedTableState.state = some .locked ∧
    (otherListed.freezedstat.find 5).map FreezedTableState.state = some .locked := by
  decide +kernel

theorem manyLocked_reachable : Reachable manyLocked := by
  obtain ⟨hadd, hlock, -⟩ := many_eval
  have hadd' : Step {} (Env.of 5 1, .addfreezed 5 many "") manyListed :=
    State.next_step _ _ _ (by decide) hadd
  have hlock' : Step manyListed (Env.of 5 2, .lockfreezed 5 true) manyLocked :=
    State.next_step _ _ _ (by decide) hlock
  exact ⟨_, (Run.nil.snoc hadd').snoc hlock'⟩

theorem manyStates_stay (i : Nat) : StaysLocked 5 (manyStates i) (manyStates (i + 1)) := by
  obtain ⟨-, -, hother, -, -, hstat⟩ := many_eval
  have hstep : Step manyLocked (Env.of 6 3, .addfreezed 6 [2] "") otherListed :=
    State.next_step _ _ _ (by decide) hother
  cases i with
  | zero =>
    refine ⟨_, Run.nil.snoc hstep, fun e he => ?_⟩
    obtain rfl := List.mem_singleton.mp he
    exact Option.map_eq_some_iff.mp hstat
  | succ i => exact ⟨[], .nil, nofun⟩

/-- Two pages, between which another committer edits its table. -/
theorem dumpTableRows_locked_many : ∃ n, n ≤ 3 ∧ ∀ fuel, n ≤ fuel →
    dumpTableRows (fun i => nodeAt (manyStates i)) "eosio.freeze" "............5" "freezed"
      (fun res row => res ++ [row]) [] fuel = some (many.map fun k => ⟨Name.toText k, 0⟩) := by
  obtain ⟨-, -, -, hrows, hstat, -⟩ := many_eval
  have hreach : Reachable (manyStates 0) := manyLocked_reachable
  have hc : Locked 5 (manyStates 0) := Option.map_eq_some_iff.mp hstat
  have hrows' : ((manyStates 0).freezed.scope 5).rows = many.map fun k => (k, 0) := hrows
  have hnames : ReadsNames Name.toText nameValue ((manyStates 0).freezed.scope 5).rows := by
    refine readsNames_toText fun p hp => ?_
    rw [hrows'] at hp
    obtain ⟨k, hk, rfl⟩ := List.mem_map.mp hp
    exact lt_trans (List.mem_range'_1.mp hk).2 (by decide)
  have hserves := fun i => serves_nodeAt (c := 5) (by decide) (manyStates i)
  obtain ⟨n, hn, hends⟩ := dumpTableRows_locked hreach hc manyStates_stay hnames hserves
    (fun res row => res ++ [row]) ([] : List Row)
  have hsize : ((manyStates 0).freezed.scope 5).size = 130 := by
    rw [Table.size, hrows']
    rfl
  have hfold : ∀ rows : List Row, rows.foldl (fun res row => res ++ [row]) [] = rows := fun rows => by
    rw [List.foldl_append_eq_append, List.nil_append, ← List.flatMap_def, List.flatMap_singleton']
  refine ⟨n, by rwa [hsize] at hn, fun fuel hf => ?_⟩
  rw [show "............5" = Name.toText 5 by decide, hends fuel hf, hfold, hrows', List.map_map]
  rfl

/-! ## The accounts of the dump -/

/-- The activation of a table that stayed locked freezes the accounts of its rows. -/
theorem mem_freezedAccounts_of_stays (hs : Reachable (states 0)) (hc : Locked c (states 0))
    (hstay : ∀ i, StaysLocked c (states i) (states (i + 1))) {i : Nat} {env : Env}
    {s : Freeze.State} (hst : Step (states i) (env, .actfreezed c) s) {a : Name} {block : Nat} :
    a ∈ freezedAccounts s block ↔ a ∈ ((states 0).freezed.scope c).keys := by
  obtain ⟨hsame, hi, -⟩ := sameTable_of_stays hs hc hstay i
  rw [(hst.sound hi).mem_freezedAccounts, ← hsame.freezed, Table.mem_keys]
  cases exec_change (a := .actfreezed c) hst.2 with
  | actfreezed =>
    constructor
    · rintro ⟨_, n, ⟨⟩, hn⟩
      exact ⟨n, hn⟩
    · rintro ⟨n, hn⟩
      exact ⟨c, n, rfl, hn⟩

theorem foldl_account (l : List (Name × Nat)) (res : List String) :
    (l.map (freezedRow text)).foldl (fun res row => res ++ [row.account]) res =
      res ++ (l.map Prod.fst).map text := by
  rw [List.foldl_append_eq_append, List.map_map, List.map_map, ← List.flatMap_def,
    List.map_eq_flatMap]
  rfl

/-- `dump_all` writes the accounts of the table, each once, in key order. -/
theorem dumpAll_locked (hs : Reachable (states 0)) (hc : Locked c (states 0))
    (hstay : ∀ i, StaysLocked c (states i) (states (i + 1)))
    (hnames : ReadsNames text bound ((states 0).freezed.scope c).rows)
    (hrpc : ∀ i, Serves text bound (rpc i) c (states i)) :
    ∃ n, ∀ fuel, n ≤ fuel →
      dumpAll rpc (text c) fuel = some (((states 0).freezed.scope c).keys.map text) := by
  obtain ⟨n, -, hends⟩ := dumpLoop_ends ((states 0).freezed.scope c).sorted hnames
    (answeredFrom hs hc hstay hrpc) (Nat.le_add_left 2 98)
  exact ⟨n, fun fuel hf => (hends.runLoop_eq hf).trans (congrArg some (foldl_account _ []))⟩

/-- `dump_all` writes the accounts that the activation of the table freezes, each once, in key
order. -/
theorem dumpAll_activated (hs : Reachable (states 0)) (hc : Locked c (states 0))
    (hstay : ∀ i, StaysLocked c (states i) (states (i + 1)))
    (hnames : ReadsNames text bound ((states 0).freezed.scope c).rows)
    (hrpc : ∀ i, Serves text bound (rpc i) c (states i)) {i : Nat} {env : Env} {s : Freeze.State}
    (hst : Step (states i) (env, .actfreezed c) s) :
    ∃ names : List Name, names.Pairwise (· < ·) ∧
      (∀ a block, a ∈ freezedAccounts s block ↔ a ∈ names) ∧
      ∃ n, ∀ fuel, n ≤ fuel → dumpAll rpc (text c) fuel = some (names.map text) :=
  ⟨_, ((states 0).freezed.scope c).keys_sorted,
    fun _ _ => mem_freezedAccounts_of_stays hs hc hstay hst, dumpAll_locked hs hc hstay hnames hrpc⟩

end Eosforce.Dump
