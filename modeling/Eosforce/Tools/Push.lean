import Eosforce.Freeze.History
import Eosforce.Lib.Batch
import Eosforce.NameText

/-!
# Filling a freezed table (`tools/push_freezeds/src/push.js`)

The tool pushes a list of accounts to the table of a committer: 64 accounts in an action, 6 actions
in a transaction.

* `PushedAction`, `pushAccount`, `freezedAccountsAction`: the tool; its result is the transactions
  in the order in which it pushes them.
* `Batched`: its loop is a batching of actions, which are a batching of accounts.
* `pushed_batches`: what is pushed is the accounts, in transactions that the contract's limit allows.
* `pushes_succeed`, `pushed_listed`: what the transactions do to the contract.
-/

namespace Eosforce.Push

open Freeze Keyed Batches Runs

/-! ## The tool -/

/-- An action as the tool writes it. -/
structure PushedAction where
  account : String
  name : String
  actor : String
  permission : String
  committer : String
  freezeds : List String
  memo : String
  deriving DecidableEq

/-- `get_freezed_accounts_action`. -/
def getFreezedAccountsAction (committer : String) (accounts : List String) (memo : String) :
    PushedAction where
  account := "eosio.freeze"
  name := "addfreezed"
  actor := committer
  permission := "active"
  committer := committer
  freezeds := accounts
  memo := memo

/-- The variables of the loop, and the transactions that it has pushed. -/
structure Pushing where
  pushed : List (List PushedAction) := []
  actions : List PushedAction := []
  accs : List String := []

/-- 64 accounts make an action. -/
def fillAction (committer memo : String) (p : Pushing) : Pushing :=
  if 64 ≤ p.accs.length then
    { p with actions := p.actions ++ [getFreezedAccountsAction committer p.accs memo], accs := [] }
  else p

/-- 6 actions make a transaction. -/
def fillTransaction (p : Pushing) : Pushing :=
  if 6 ≤ p.actions.length then { p with pushed := p.pushed ++ [p.actions], actions := [] } else p

/-- The body of the loop of `freezed_accounts_action`. -/
def pushAccount (committer memo : String) (p : Pushing) (account : String) : Pushing :=
  fillTransaction (fillAction committer memo { p with accs := p.accs ++ [account] })

/-- `freezed_accounts_action`: the transactions that it pushes. -/
def freezedAccountsAction (committer : String) (accounts : List String) (memo : String) :
    List (List PushedAction) :=
  let p := accounts.foldl (pushAccount committer memo) {}
  let actions := if 0 < p.accs.length then
    p.actions ++ [getFreezedAccountsAction committer p.accs memo] else p.actions
  if 0 < actions.length then p.pushed ++ [actions] else p.pushed

/-! ## The batches -/

variable {committer memo : String}

/-- The loop has made batches of 64 accounts, and of the actions with them batches of 6. -/
structure Batched (committer memo : String) (p : Pushing) (accs : Batching String)
    (acts : Batching PushedAction) : Prop where
  fullAccs : Full 64 accs
  fullActs : Full 6 acts
  /-- The actions are those of the full batches of accounts. -/
  actions : acts.content = accs.batches.map fun l => getFreezedAccountsAction committer l memo
  state : p = ⟨acts.batches, acts.buffer, accs.buffer⟩

theorem batched_start : Batched committer memo {} {} {} :=
  ⟨full_empty (by decide), full_empty (by decide), rfl, rfl⟩

/-- **Step lemma.** -/
theorem Batched.step {p : Pushing} {accs : Batching String} {acts : Batching PushedAction}
    (h : Batched committer memo p accs acts) (account : String) :
    ∃ acts', Batched committer memo (pushAccount committer memo p account)
      (accs.add 64 account) acts' := by
  have hacts := h.fullActs.buffer
  obtain rfl := h.state
  unfold pushAccount fillAction
  simp only [List.length_append, List.length_singleton]
  rcases h.fullAccs.add_eq account with ⟨hlt, e⟩ | ⟨hlen, e⟩
  · refine ⟨acts, h.fullAccs.add account, h.fullActs, ?_, ?_⟩
    · rw [e]
      exact h.actions
    · rw [e, if_neg (by omega)]
      exact if_neg (by simpa using hacts)
  · -- the buffer of accounts is full: its action goes to the buffer of actions
    let action := getFreezedAccountsAction committer (accs.buffer ++ [account]) memo
    refine ⟨acts.add 6 action, h.fullAccs.add account, h.fullActs.add action, ?_, ?_⟩
    · rw [e, content_add, h.actions, List.map_append, List.map_singleton]
    · rw [e, if_pos (by omega)]
      unfold fillTransaction
      simp only [List.length_append, List.length_singleton]
      rcases h.fullActs.add_eq action with ⟨hlt, e'⟩ | ⟨hlen', e'⟩
      · rw [e', if_neg (by omega)]
      · rw [e', if_pos (by omega)]

/-- **Loop lemma.** -/
theorem batched_loop (committer memo : String) (accounts : List String) :
    ∃ accs acts, Batched committer memo (accounts.foldl (pushAccount committer memo) {}) accs acts ∧
      accs.content = accounts := by
  induction accounts using List.reverseRecOn with
  | nil => exact ⟨{}, {}, batched_start, rfl⟩
  | append_singleton accounts account ih =>
    obtain ⟨accs, acts, h, hcontent⟩ := ih
    obtain ⟨acts', h'⟩ := h.step account
    refine ⟨accs.add 64 account, acts', ?_, by rw [content_add, hcontent]⟩
    rw [List.foldl_append, List.foldl_cons, List.foldl_nil]
    exact h'

/-- What is pushed: the batches of actions, which are those of the batches of accounts. -/
theorem freezedAccountsAction_eq (committer memo : String) (accounts : List String) :
    ∃ (accs : Batching String) (acts : Batching PushedAction), Full 64 accs ∧ Full 6 acts ∧
      accs.content = accounts ∧
      acts.content = accs.close.map (fun l => getFreezedAccountsAction committer l memo) ∧
      freezedAccountsAction committer accounts memo = acts.close := by
  obtain ⟨accs, acts, h, hcontent⟩ := batched_loop committer memo accounts
  unfold freezedAccountsAction
  rw [h.state]
  simp only
  by_cases hrest : 0 < accs.buffer.length
  · let last := getFreezedAccountsAction committer accs.buffer memo
    refine ⟨accs, acts.add 6 last, h.fullAccs, h.fullActs.add last, hcontent, ?_, ?_⟩
    · unfold Batching.close
      rw [content_add, h.actions, if_pos hrest, List.map_append, List.map_singleton]
    · rw [if_pos hrest, if_pos (by simp)]
      unfold Batching.close
      rcases h.fullActs.add_eq last with ⟨-, e⟩ | ⟨-, e⟩
      · rw [e]
        exact (if_pos (by simp)).symm
      · rw [e]
        exact (if_neg (by simp)).symm
  · refine ⟨accs, acts, h.fullAccs, h.fullActs, hcontent, ?_, ?_⟩
    · rw [h.actions, Batching.close, if_neg hrest]
    · rw [if_neg hrest]
      rfl

/-- The actions that are pushed hold the accounts, each at most 64. -/
theorem flatten_eq (committer memo : String) (accounts : List String) :
    ∃ ls : List (List String), ls.flatten = accounts ∧ (∀ l ∈ ls, 0 < l.length ∧ l.length ≤ 64) ∧
      (freezedAccountsAction committer accounts memo).flatten =
        ls.map fun l => getFreezedAccountsAction committer l memo := by
  obtain ⟨accs, acts, haccs, hacts, hcontent, hactions, heq⟩ :=
    freezedAccountsAction_eq committer memo accounts
  exact ⟨accs.close, by rw [close_flatten, hcontent], haccs.close,
    by rw [heq, close_flatten, hactions]⟩

/-- What is pushed are the accounts in their order, and nothing is pushed twice: in actions of at
most 64 accounts, of which at most 6 are in a transaction, in as few transactions as that allows. -/
theorem pushed_batches (committer memo : String) (accounts : List String) :
    (freezedAccountsAction committer accounts memo).flatten.flatMap (·.freezeds) = accounts ∧
      (∀ trx ∈ freezedAccountsAction committer accounts memo, 0 < trx.length ∧ trx.length ≤ 6) ∧
      (∀ trx ∈ freezedAccountsAction committer accounts memo, ∀ a ∈ trx,
        0 < a.freezeds.length ∧ a.freezeds.length ≤ 64 ∧
          a = getFreezedAccountsAction committer a.freezeds memo) ∧
      accounts.length ≤ 384 * (freezedAccountsAction committer accounts memo).length ∧
      384 * (freezedAccountsAction committer accounts memo).length < accounts.length + 384 := by
  obtain ⟨accs, acts, haccs, hacts, hcontent, hactions, heq⟩ :=
    freezedAccountsAction_eq committer memo accounts
  rw [heq, close_flatten, hactions]
  refine ⟨?_, hacts.close, fun trx htrx a ha => ?_, ?_⟩
  · rw [List.flatMap_map]
    show accs.close.flatMap (fun l => l) = accounts
    rw [List.flatMap_id', close_flatten, hcontent]
  · have hmem : a ∈ acts.content := by
      rw [← close_flatten]
      exact List.mem_flatten.mpr ⟨trx, htrx, ha⟩
    rw [hactions] at hmem
    obtain ⟨l, hl, rfl⟩ := List.mem_map.mp hmem
    obtain ⟨h0, h64⟩ := haccs.close l hl
    exact ⟨h0, h64, rfl⟩
  · have h64 := haccs.close_length
    have h6 := hacts.close_length
    rw [hactions, List.length_map] at h6
    rw [hcontent] at h64
    omega

/-! ## On the chain -/

variable {value : String → Name} {s t : Freeze.State}

/-- The action that the contract gets: `value` is how the chain reads names. -/
def PushedAction.act (value : String → Name) (a : PushedAction) : Freeze.Action :=
  .addfreezed (value a.committer) (a.freezeds.map value) a.memo

/-- The actions of the transactions, in order. -/
def pushedActs (value : String → Name) (committer : String) (accounts : List String)
    (memo : String) : List Freeze.Action :=
  (freezedAccountsAction committer accounts memo).flatten.map (PushedAction.act value)

/-- The edit of a committer's table that an action is. -/
def editOf (c : Name) (x : Env × Freeze.Action) : Option Freeze.Action :=
  match x.2 with
  | .addfreezed c' _ _ => if c' = c then some x.2 else none
  | .delfreezed c' _ _ => if c' = c then some x.2 else none
  | _ => none

theorem edit_eq (c a : Name) (x : Env × Freeze.Action) :
    x.2.edit c a = (editOf c x).bind fun y => y.edit c a := by
  obtain ⟨env, x⟩ := x
  cases x with
  | addfreezed c' l memo => by_cases h : c' = c <;> simp [Freeze.Action.edit, editOf, h]
  | delfreezed c' a' memo => by_cases h : c' = c <;> simp [Freeze.Action.edit, editOf, h]
  | _ => rfl

/-- The pushed actions add each of the accounts, and delete none. -/
theorem pushedActs_edit (committer : String) (accounts : List String) (memo : String) (a : Name) :
    ((pushedActs value committer accounts memo).filterMap
      fun y => y.edit (value committer) a).getLast? =
        if a ∈ accounts.map value then some true else none := by
  obtain ⟨ls, rfl, -, heq⟩ := flatten_eq committer memo accounts
  unfold pushedActs
  rw [heq, List.map_map]
  clear heq
  induction ls using List.reverseRecOn with
  | nil => simp
  | append_singleton ls l ih =>
    rw [List.map_append, List.filterMap_append, List.getLast?_append, ih, List.flatten_append,
      List.flatten_singleton, List.map_append, List.map_singleton]
    have hlast : [(PushedAction.act value ∘ fun l => getFreezedAccountsAction committer l memo) l].filterMap
        (fun y => y.edit (value committer) a) = if a ∈ l.map value then [true] else [] := by
      rw [List.filterMap_cons, List.filterMap_nil]
      simp only [Function.comp_apply, PushedAction.act, getFreezedAccountsAction,
        Freeze.Action.edit, true_and]
      by_cases h : a ∈ l.map value <;> simp only [h, if_true, if_false]
    rw [hlast]
    by_cases h : a ∈ l.map value
    · rw [if_pos h, if_pos (List.mem_append_right _ h)]
      rfl
    · simp only [h, if_false, List.getLast?_nil, List.mem_append, or_false]
      exact Option.none_or

/-- Where the edits of a committer's table are the actions of the tool, whatever other committers do
in between, the table lists what it listed and the accounts. -/
theorem pushed_listed {committer memo : String} {accounts : List String} {tr : Trace}
    (h : Run Step s tr t) (hs : Sound s) (hg : t.gfstate ≠ some (value committer))
    (hpush : (labels tr).filterMap (editOf (value committer)) =
      pushedActs value committer accounts memo) (a : Name) :
    t.listed (value committer) a =
      (decide (a ∈ accounts.map value) || s.listed (value committer) a) := by
  rw [listed_of_run h hs hg]
  have hedits : edits (value committer) a tr =
      (pushedActs value committer accounts memo).filterMap fun y => y.edit (value committer) a := by
    unfold edits
    rw [← hpush, List.filterMap_filterMap]
    exact List.filterMap_congr fun x _ => edit_eq _ a x
  rw [hedits, pushedActs_edit]
  by_cases ha : a ∈ accounts.map value <;> simp [ha]

/-- A committer that may edit its table adds up to 256 accounts, and may still edit it. -/
theorem addfreezed_ok {env : Env} {c : Name} {l : List Name} (memo : String)
    (hauth : c ∈ env.auths) (hact : NotActivited s) (hc : Committing s c) (hl : l.length ≤ 256) :
    ∃ s', exec env s (.addfreezed c l memo) = .ok s' ∧ NotActivited s' ∧ Committing s' c := by
  have hok : (exec env s (.addfreezed c l memo)).isOk = true := by
    simp only [exec, addfreezed, requireAuth, Fallible.check, if_pos hauth, if_pos hl, if_pos hact,
      if_pos hc]
    rfl
  cases he : exec env s (.addfreezed c l memo) with
  | error e =>
    rw [he] at hok
    cases hok
  | ok s' =>
    refine ⟨s', rfl, ?_⟩
    cases exec_change he with
    | addfreezed =>
      refine ⟨hact, fun f hf => ?_⟩
      obtain rfl := Option.some.inj ((Table.find_put_self _ _ _).symm.trans hf)
      show ((s.freezedstat.find c).getD {}).state = .committing
      cases hfind : s.freezedstat.find c with
      | none => rfl
      | some f => exact hc f hfind

/-- So it adds any number of lists of accounts. -/
theorem adds_succeed {c : Name} {memo : String} (calls : List (Env × Freeze.Action))
    (hcalls : ∀ x ∈ calls, c ∈ x.1.auths ∧ 0 ∉ x.1.auths ∧
      ∃ l : List Name, l.length ≤ 256 ∧ x.2 = .addfreezed c l memo)
    (hact : NotActivited s) (hc : Committing s c) :
    ∃ (tr : Trace) (t : Freeze.State), Run Step s tr t ∧ labels tr = calls ∧ NotActivited t ∧
      Committing t c := by
  induction calls generalizing s with
  | nil => exact ⟨[], s, .nil, rfl, hact, hc⟩
  | cons x calls ih =>
    obtain ⟨hauth, hne, l, hl, hx⟩ := hcalls x (by simp)
    obtain ⟨s', hok, hact', hc'⟩ := addfreezed_ok memo hauth hact hc hl
    obtain ⟨tr, t, hrun, hlabels, ht⟩ := ih (fun y hy => hcalls y (by simp [hy])) hact' hc'
    have hstep : Step s x s' := ⟨hne, by rw [hx]; exact hok⟩
    refine ⟨_, t, (Run.snoc .nil hstep).append hrun, ?_, ht⟩
    rw [labels_append, hlabels]
    rfl

/-- Each pushed action adds at most 64 accounts to the committer's table. -/
theorem mem_pushedActs {committer memo : String} {accounts : List String} {x : Freeze.Action}
    (hx : x ∈ pushedActs value committer accounts memo) :
    ∃ l : List Name, l.length ≤ 256 ∧ x = .addfreezed (value committer) l memo := by
  obtain ⟨ls, -, hlen, heq⟩ := flatten_eq committer memo accounts
  unfold pushedActs at hx
  rw [heq, List.map_map] at hx
  obtain ⟨l, hl, rfl⟩ := List.mem_map.mp hx
  refine ⟨l.map value, ?_, rfl⟩
  rw [List.length_map]
  exact (hlen l hl).2.trans (by decide)

/-- A committer that may edit its table gets all transactions of the tool through, in any blocks, and
then its table lists what it listed and the accounts. -/
theorem pushes_succeed {committer memo : String} {accounts : List String} (hs : Sound s)
    (hact : NotActivited s) (hc : Committing s (value committer))
    {calls : List (Env × Freeze.Action)}
    (hcalls : calls.map Prod.snd = pushedActs value committer accounts memo)
    (hauth : ∀ x ∈ calls, value committer ∈ x.1.auths ∧ 0 ∉ x.1.auths) :
    ∃ (tr : Trace) (t : Freeze.State), Run Step s tr t ∧ labels tr = calls ∧ NotActivited t ∧
      Committing t (value committer) ∧ ∀ a, t.listed (value committer) a =
        (decide (a ∈ accounts.map value) || s.listed (value committer) a) := by
  have hadds : ∀ x ∈ calls, ∃ l : List Name, l.length ≤ 256 ∧
      x.2 = .addfreezed (value committer) l memo := fun x hx =>
    mem_pushedActs (hcalls ▸ List.mem_map_of_mem hx)
  obtain ⟨tr, t, hrun, hlabels, hact', hc'⟩ := adds_succeed calls
    (fun x hx => ⟨(hauth x hx).1, (hauth x hx).2, hadds x hx⟩) hact hc
  have ht := (hrun.inv hs fun _ _ _ hI hst => hst.sound hI).1
  have hg : t.gfstate ≠ some (value committer) := by
    rw [ht.notActivited_iff.mp hact']
    exact nofun
  have hpush : (labels tr).filterMap (editOf (value committer)) =
      pushedActs value committer accounts memo := by
    rw [hlabels, ← hcalls, ← List.filterMap_eq_map]
    refine List.filterMap_congr fun x hx => ?_
    obtain ⟨l, -, hl⟩ := hadds x hx
    simp [editOf, hl]
  exact ⟨tr, t, hrun, hlabels, hact', hc', pushed_listed hrun hs hg hpush⟩

/-- The 64 accounts of the first action and the one of the second, in two blocks. -/
def pushCalls (c : Name) : List (Env × Freeze.Action) :=
  [(Env.of c 1, .addfreezed c (List.range' 1 64) ""), (Env.of c 3, .addfreezed c [65] "")]

theorem pushes_succeed_carol :
    ∃ (tr : Trace) (t : Freeze.State), Run Step {} tr t ∧
      labels tr = pushCalls (nameValue "carol") ∧ NotActivited t ∧
      Committing t (nameValue "carol") ∧ ∀ a, t.listed (nameValue "carol") a =
        (decide (a ∈ ((List.range' 1 65).map Name.toText).map nameValue) ||
          State.listed {} (nameValue "carol") a) := by
  have hcalls : (pushCalls (nameValue "carol")).map Prod.snd =
      pushedActs nameValue "carol" ((List.range' 1 65).map Name.toText) "" := by decide +kernel
  exact pushes_succeed sound_empty (by decide) (by decide) hcalls (by decide)

end Eosforce.Push
