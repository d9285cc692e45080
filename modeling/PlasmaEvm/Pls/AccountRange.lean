import PlasmaEvm.Pls.Range

/-!
# `debug_accountRange`

`accountRange` returns one page of the account trie: the hashed addresses from `start` on (the
zero hash when `start` is nil), at most `maxResults` of them and never more than
`AccountRangeMaxResults`, each with its preimage address when known, and the key after the page
as `Next`. Here no next key is written as the zero hash.

The zero hash cannot be confused with a real next key: a page of at least one key puts `Next`
strictly after a key of the page, and no 32-byte key is below the zero hash (`Hash.zero_le`).
So `Next` is the zero hash exactly when the page reached the last key (`accountRange_next`), and a
client paging from `Next` to `Next` (`AccountRangeRun`) reads every key from `start` once. With a
page size of at most zero the page is empty and `Next` is the first key itself, so paging never
gets past it (`AccountRangeRun.head_eq_zero`).
-/

namespace PlasmaEvm

/-- `AccountRangeResult`: the preimage of each hashed address (nil if unknown), and the key to
continue from. -/
structure AccountRangeResult where
  accounts : List (Hash × Option Address)
  next : Hash
deriving DecidableEq

/-- `AccountRangeMaxResults`, the maximum number of results to be returned per call. -/
def accountRangeMaxResults : Int := 256

/-- The body of the loop of `accountRange`: the preimage address of a hashed key. -/
def accountOf (st : Trie) (key _value : Bytes) : Except String (Option Address) :=
  .ok ((st.getKey key).map Address.setBytes)

/-- `accountRange`. -/
def accountRange (st : Trie) (start : Option Hash) (maxResults : Int) :
    Except String AccountRangeResult :=
  let start := start.getD Hash.zero
  let maxResults := if maxResults > accountRangeMaxResults then accountRangeMaxResults
    else maxResults
  match rangeLoop (accountOf st) maxResults.toNat (st.newIterator start.bytes) [] with
  | .error e => .error e
  | .ok (it, accounts) =>
    match it.next with
    | (true, it) => .ok ⟨accounts, bytesToHash it.key⟩
    | (false, _) => .ok ⟨accounts, Hash.zero⟩

/-! ## One page -/

section Page

variable (st : Trie) (start : Option Hash) (maxResults : Int)

/-- The page size: `maxResults`, capped at `AccountRangeMaxResults`. -/
def accountPageSize (maxResults : Int) : Nat := (min maxResults accountRangeMaxResults).toNat

theorem accountPageSize_pos {maxResults : Int} (hmax : 1 ≤ maxResults) :
    0 < accountPageSize maxResults := by
  unfold accountPageSize accountRangeMaxResults
  omega

/-- The entry `accountRange` makes of a leaf. -/
def accountSpec (st : Trie) (e : Bytes × Bytes) : Hash × Option Address :=
  (bytesToHash e.1, (st.getKey e.1).map Address.setBytes)

/-- The page from `start`: the first leaves from it, and the key of the one after them or the
zero hash when there is none. -/
theorem accountRange_eq :
    accountRange st start maxResults =
      .ok ⟨((st.nodeIterator (start.getD Hash.zero).bytes).take
          (accountPageSize maxResults)).map (accountSpec st),
        (((st.nodeIterator (start.getD Hash.zero).bytes).drop
          (accountPageSize maxResults)).head?.map fun e => bytesToHash e.1).getD Hash.zero⟩ := by
  obtain ⟨it, hloop, hrest⟩ := @rangeLoop_eq _ (accountOf st) (fun e => (accountSpec st e).2)
    (accountPageSize maxResults) (st.newIterator (start.getD Hash.zero).bytes) []
    (fun _ _ => rfl) (by simpa using st.nodup_nodeIterator_hashes _)
  have hsize : (if maxResults > accountRangeMaxResults then accountRangeMaxResults
      else maxResults).toNat = accountPageSize maxResults := by
    unfold accountPageSize
    split <;> omega
  have hf : (fun e => (bytesToHash e.1, (accountSpec st e).2)) = accountSpec st := rfl
  rw [accountRange]
  simp only [hsize, hloop, hf]
  match hd : (st.nodeIterator (start.getD Hash.zero).bytes).drop (accountPageSize maxResults) with
  | [] => simp [Iterator.next_nil (hrest.trans hd)]
  | e :: q => simp [Iterator.next_cons (hrest.trans hd)]

/-- With room for a key on the page, `Next` is the zero hash exactly when no key is left after
the page. -/
theorem accountRange_next (hmax : 1 ≤ maxResults) {r : AccountRangeResult}
    (hr : accountRange st start maxResults = .ok r) :
    r.next = Hash.zero ↔
      (st.nodeIterator (start.getD Hash.zero).bytes).drop (accountPageSize maxResults) = [] := by
  rw [accountRange_eq] at hr
  cases hr
  match hd : (st.nodeIterator (start.getD Hash.zero).bytes).drop (accountPageSize maxResults) with
  | [] => simp
  | e :: q =>
    simp only [List.head?_cons, Option.map_some', Option.getD_some, reduceCtorEq, iff_false]
    intro hzero
    -- the first key from `start` is on the page, so `e` is above a 32-byte key
    obtain ⟨m, hm⟩ := Nat.exists_eq_succ_of_ne_zero (accountPageSize_pos hmax).ne'
    obtain ⟨f, rest, hf⟩ := List.exists_cons_of_ne_nil
      (fun h => by simp [h] at hd : st.nodeIterator (start.getD Hash.zero).bytes ≠ [])
    have hfe := st.lt_of_mem_take _ hd
      (by rw [hf, hm, List.take_succ_cons]; exact List.mem_cons_self f _)
    have hf32 := st.key_length_of_mem_nodeIterator _ (hf ▸ List.mem_cons_self f rest)
    rw [← st.hash_bytes_of_drop _ hd, hzero] at hfe
    exact absurd hfe (not_lt.mpr (Hash.zero_le hf32))

end Page

/-! ## Paging -/

/-- A client paging through the accounts: it calls `accountRange` from `start`, then from each
`Next`, until `Next` is the zero hash. `pages` are the keys of each call's `Accounts`. -/
inductive AccountRangeRun (st : Trie) (maxResults : Int) :
    Option Hash → List (List Hash) → Prop
  | last {start : Option Hash} {r : AccountRangeResult} :
      accountRange st start maxResults = .ok r → r.next = Hash.zero →
      AccountRangeRun st maxResults start [r.accounts.map Prod.fst]
  | next {start : Option Hash} {r : AccountRangeResult} {pages : List (List Hash)} :
      accountRange st start maxResults = .ok r → r.next ≠ Hash.zero →
      AccountRangeRun st maxResults (some r.next) pages →
      AccountRangeRun st maxResults start (r.accounts.map Prod.fst :: pages)

section Paging

variable {st : Trie} {maxResults : Int} (hmax : 1 ≤ maxResults)

include hmax

/-- The pages of a run are the keys from its first `start`, in order, at most a page size
each. -/
theorem AccountRangeRun.flatten_eq {start : Option Hash} {pages : List (List Hash)}
    (hrun : AccountRangeRun st maxResults start pages) :
    pages.flatten =
        (st.nodeIterator (start.getD Hash.zero).bytes).map (fun e => bytesToHash e.1) ∧
      ∀ p ∈ pages, p.length ≤ accountPageSize maxResults := by
  induction hrun with
  | @last start r hr hnext =>
    have hd := (accountRange_next st start maxResults hmax hr).mp hnext
    rw [accountRange_eq] at hr
    cases hr
    simp only [List.drop_eq_nil_iff] at hd
    simp [List.take_of_length_le hd, accountSpec, hd]
  | @next start r pages hr hnext _ ih =>
    have hd := (accountRange_next st start maxResults hmax hr).not.mp hnext
    rw [accountRange_eq] at hr
    cases hr
    obtain ⟨e, q, hq⟩ := List.exists_cons_of_ne_nil hd
    have hfst : Prod.fst ∘ accountSpec st = fun e => bytesToHash e.1 := rfl
    simp only [hq, List.head?_cons, Option.map_some', Option.getD_some,
      st.hash_bytes_of_drop _ hq, st.nodeIterator_of_drop _ hq] at ih
    refine ⟨?_, ?_⟩
    · rw [List.flatten_cons, ih.1, ← hq, List.map_map, hfst, ← List.map_append,
        List.take_append_drop]
    · simp only [List.forall_mem_cons, List.length_map]
      exact ⟨List.length_take_le _ _, ih.2⟩

/-- From every `start` the client's paging comes to an end. -/
theorem accountRangeRun_exists (start : Option Hash) :
    ∃ pages, AccountRangeRun st maxResults start pages := by
  obtain ⟨len, hlen⟩ : ∃ len, (st.nodeIterator (start.getD Hash.zero).bytes).length = len :=
    ⟨_, rfl⟩
  induction len using Nat.strong_induction_on generalizing start with
  | _ len ih =>
    have hr := accountRange_eq st start maxResults
    match hd : (st.nodeIterator (start.getD Hash.zero).bytes).drop
        (accountPageSize maxResults) with
    | [] => exact ⟨_, .last hr ((accountRange_next st start maxResults hmax hr).mpr hd)⟩
    | e :: q =>
      have hnext := (accountRange_next st start maxResults hmax hr).not.mpr (by simp [hd])
      have hshorter : (e :: q).length < len := by
        have hl := congrArg List.length hd
        have hpos := accountPageSize_pos hmax
        simp only [List.length_drop, hlen, List.length_cons] at hl ⊢
        omega
      obtain ⟨pages, hrun⟩ := ih _ hshorter (some (bytesToHash e.1))
        (by simp [st.hash_bytes_of_drop _ hd, st.nodeIterator_of_drop _ hd])
      exact ⟨_, .next hr hnext (by simpa [hd] using hrun)⟩

end Paging

/-- One call returns the first `min maxResults AccountRangeMaxResults` keys from `start` (the zero
hash when nil) and the key after them as `Next`, the zero hash exactly when none is left; a
client paging from `Next` to `Next` comes to an end, and its pages, each at most that size,
split the keys from `start` without gap or overlap. -/
theorem accountRange_paging (st : Trie) (start : Option Hash) (maxResults : Int)
    (hmax : 1 ≤ maxResults) :
    (∃ r, accountRange st start maxResults = .ok r ∧
      r.accounts.map (fun x => x.1.bytes) =
        ((st.leavesFrom (start.getD Hash.zero).bytes).take
          (min maxResults accountRangeMaxResults).toNat).map Prod.fst ∧
      r.next.bytes = ((((st.leavesFrom (start.getD Hash.zero).bytes).drop
          (min maxResults accountRangeMaxResults).toNat).head?.map Prod.fst).getD
          Hash.zero.bytes) ∧
      (r.next = Hash.zero ↔ (st.leavesFrom (start.getD Hash.zero).bytes).length ≤
          (min maxResults accountRangeMaxResults).toNat)) ∧
    (∃ pages, AccountRangeRun st maxResults start pages) ∧
    ∀ pages, AccountRangeRun st maxResults start pages →
      pages.flatten.map Hash.bytes = (st.leavesFrom (start.getD Hash.zero).bytes).map Prod.fst ∧
      pages.Pairwise List.Disjoint ∧
      ∀ p ∈ pages, (p.length : Int) ≤ min maxResults accountRangeMaxResults := by
  rw [← st.nodeIterator_eq_leavesFrom]
  have hr := accountRange_eq st start maxResults
  refine ⟨⟨_, hr, ?_, ?_, ?_⟩, accountRangeRun_exists hmax start, fun pages hrun => ?_⟩
  · have := st.map_hash_bytes_of_sublist (start.getD Hash.zero).bytes
      (List.take_sublist (accountPageSize maxResults) _)
    rw [List.map_map] at this ⊢
    exact this
  · match hd : (st.nodeIterator (start.getD Hash.zero).bytes).drop
        (accountPageSize maxResults) with
    | [] => simp [accountPageSize, hd]
    | e :: q => simp [accountPageSize, hd, st.hash_bytes_of_drop _ hd]
  · rw [accountRange_next st start maxResults hmax hr, List.drop_eq_nil_iff]
    rfl
  · obtain ⟨hflat, hlen⟩ := hrun.flatten_eq hmax
    refine ⟨by rw [hflat, st.map_hash_bytes_of_sublist _ (List.Sublist.refl _)],
      (List.nodup_flatten.mp (hflat ▸ st.nodup_nodeIterator_hashes _)).2, fun p hp => ?_⟩
    have := hlen p hp
    simp only [accountPageSize, accountRangeMaxResults] at this ⊢
    omega

/-- Two accounts, the first one hashed to the zero hash itself. -/
def sampleAccounts : Trie where
  leaves := [(List.replicate 32 0, []), (List.replicate 32 7, [])]
  sorted := by decide
  key_length := by decide
  getKey _ := none

theorem accountRange_paging_sample :
    (1 : Int) ≤ 1 ∧
    (∃ r, accountRange sampleAccounts none 1 = .ok r ∧
      r.accounts.map (fun x => x.1.bytes) =
        ((sampleAccounts.leavesFrom ((none : Option Hash).getD Hash.zero).bytes).take
          (min 1 accountRangeMaxResults).toNat).map Prod.fst ∧
      r.next.bytes =
        ((((sampleAccounts.leavesFrom ((none : Option Hash).getD Hash.zero).bytes).drop
          (min 1 accountRangeMaxResults).toNat).head?.map Prod.fst).getD Hash.zero.bytes) ∧
      (r.next = Hash.zero ↔
        (sampleAccounts.leavesFrom ((none : Option Hash).getD Hash.zero).bytes).length ≤
          (min 1 accountRangeMaxResults).toNat)) ∧
    (∃ pages, AccountRangeRun sampleAccounts 1 none pages) ∧
    ∀ pages, AccountRangeRun sampleAccounts 1 none pages →
      pages.flatten.map Hash.bytes =
        (sampleAccounts.leavesFrom ((none : Option Hash).getD Hash.zero).bytes).map Prod.fst ∧
      pages.Pairwise List.Disjoint ∧
      ∀ p ∈ pages, (p.length : Int) ≤ min 1 accountRangeMaxResults :=
  ⟨le_rfl, accountRange_paging sampleAccounts none 1 le_rfl⟩

/-! ## Pages of no account -/

section Nonpos

variable {st : Trie} {maxResults : Int} (hmax : maxResults ≤ 0)

include hmax

/-- With `maxResults ≤ 0` a page holds no account and `Next` is the first key from `start`. -/
theorem accountRange_of_nonpos (start : Option Hash) :
    accountRange st start maxResults =
      .ok ⟨[], ((st.nodeIterator (start.getD Hash.zero).bytes).head?.map
        fun e => bytesToHash e.1).getD Hash.zero⟩ := by
  have h0 : accountPageSize maxResults = 0 := by
    unfold accountPageSize
    omega
  simp [accountRange_eq, h0]

/-- A page of no account sends the client back to the key it started from, so with
`maxResults ≤ 0` a paging that ends started where the first key left, if any, is the zero
hash. -/
theorem AccountRangeRun.head_eq_zero {start : Option Hash} {pages : List (List Hash)}
    (hrun : AccountRangeRun st maxResults start pages) :
    ∀ e ∈ (st.nodeIterator (start.getD Hash.zero).bytes).head?, e.1 = Hash.zero.bytes := by
  induction hrun with
  | @last start r hr hnext =>
    rw [accountRange_of_nonpos hmax] at hr
    cases hr
    intro e he
    obtain ⟨q, hq⟩ : ∃ q, (st.nodeIterator (start.getD Hash.zero).bytes).drop 0 = e :: q :=
      ⟨_, List.eq_cons_of_mem_head? he⟩
    rw [← st.hash_bytes_of_drop _ hq]
    simpa [Option.mem_def.mp he] using congrArg Hash.bytes hnext
  | @next start r pages hr hnext _ ih =>
    rw [accountRange_of_nonpos hmax] at hr
    cases hr
    match hd : (st.nodeIterator (start.getD Hash.zero).bytes) with
    | [] => simp [hd] at hnext
    | e :: q =>
      have hq : (st.nodeIterator (start.getD Hash.zero).bytes).drop 0 = e :: q := hd
      simp only [hd, List.head?_cons, Option.map_some', Option.getD_some,
        st.hash_bytes_of_drop _ hq, st.nodeIterator_of_drop _ hq] at hnext ih
      exact (hnext (by rw [ih e rfl, bytesToHash_hash])).elim

end Nonpos

/-- With `maxResults ≤ 0` a page holds no account and its `Next` is the first key from `start`
itself, so a client paging from `Next` never gets past that key: its paging ends only when no
key is left from `start` or the first one is the zero hash, the end marker. -/
theorem accountRangeRun_of_nonpos (st : Trie) {maxResults : Int} (hmax : maxResults ≤ 0)
    (start : Option Hash) :
    accountRange st start maxResults =
      .ok ⟨[], ((st.leavesFrom (start.getD Hash.zero).bytes).head?.map
        fun e => bytesToHash e.1).getD Hash.zero⟩ ∧
    ((∃ pages, AccountRangeRun st maxResults start pages) ↔
      ∀ e ∈ (st.leavesFrom (start.getD Hash.zero).bytes).head?, e.1 = Hash.zero.bytes) := by
  rw [← st.nodeIterator_eq_leavesFrom]
  refine ⟨accountRange_of_nonpos hmax start, fun ⟨_, hrun⟩ => hrun.head_eq_zero hmax,
    fun h => ⟨_, .last (accountRange_of_nonpos hmax start) ?_⟩⟩
  cases hd : (st.nodeIterator (start.getD Hash.zero).bytes).head? with
  | none => rfl
  | some e => simp only [Option.map_some', Option.getD_some, h e hd, bytesToHash_hash]

theorem accountRangeRun_of_nonpos_sample :
    (0 : Int) ≤ 0 ∧
    accountRange sampleAccounts none 0 =
      .ok ⟨[], ((sampleAccounts.leavesFrom ((none : Option Hash).getD Hash.zero).bytes).head?.map
        fun e => bytesToHash e.1).getD Hash.zero⟩ ∧
    ((∃ pages, AccountRangeRun sampleAccounts 0 none pages) ↔
      ∀ e ∈ (sampleAccounts.leavesFrom ((none : Option Hash).getD Hash.zero).bytes).head?,
        e.1 = Hash.zero.bytes) :=
  ⟨le_rfl, accountRangeRun_of_nonpos sampleAccounts le_rfl none⟩

/-! ## Paging while the head moves -/

/-- A client paging through `AccountRange`, which reads the state of the chain's current head:
the head may move between two calls, so each call may read another trie. `tries` are the tries
the calls read, in order, and `pages` the keys of each call's `Accounts`. -/
inductive AccountRangeHeadRun (maxResults : Int) :
    List Trie → Option Hash → List (List Hash) → Prop
  | last {st : Trie} {start : Option Hash} {r : AccountRangeResult} :
      accountRange st start maxResults = .ok r → r.next = Hash.zero →
      AccountRangeHeadRun maxResults [st] start [r.accounts.map Prod.fst]
  | next {st : Trie} {tries : List Trie} {start : Option Hash} {r : AccountRangeResult}
      {pages : List (List Hash)} :
      accountRange st start maxResults = .ok r → r.next ≠ Hash.zero →
      AccountRangeHeadRun maxResults tries (some r.next) pages →
      AccountRangeHeadRun maxResults (st :: tries) start (r.accounts.map Prod.fst :: pages)

section HeadRun

variable {st : Trie} {start : Option Hash} {maxResults : Int} {r : AccountRangeResult}

/-- The accounts of one call are the leaves of its page, as hashes. -/
theorem mem_accounts_iff (hr : accountRange st start maxResults = .ok r) {h : Hash} :
    h ∈ r.accounts.map Prod.fst ↔
      ∃ e ∈ (st.nodeIterator (start.getD Hash.zero).bytes).take (accountPageSize maxResults),
        bytesToHash e.1 = h := by
  rw [accountRange_eq] at hr
  cases hr
  rw [List.map_map, List.mem_map]
  rfl

theorem accounts_sorted (hr : accountRange st start maxResults = .ok r) :
    (r.accounts.map Prod.fst).Pairwise (fun a b => a.bytes < b.bytes) := by
  rw [accountRange_eq] at hr
  cases hr
  rw [List.map_map]
  exact st.pairwise_hash_of_sublist _ (List.take_sublist _ _)

/-- A `Next` that is not the zero hash is the leaf after the page, and seeking it resumes the
walk there. -/
theorem accountRange_next_ne_zero (hr : accountRange st start maxResults = .ok r)
    (hne : r.next ≠ Hash.zero) :
    ∃ e q, (st.nodeIterator (start.getD Hash.zero).bytes).drop (accountPageSize maxResults) =
      e :: q ∧ r.next = bytesToHash e.1 ∧ st.nodeIterator r.next.bytes = e :: q := by
  rw [accountRange_eq] at hr
  cases hr
  match hd : (st.nodeIterator (start.getD Hash.zero).bytes).drop (accountPageSize maxResults) with
  | [] => simp [hd] at hne
  | e :: q =>
    refine ⟨e, q, rfl, by simp [hd], ?_⟩
    simp only [hd, List.head?_cons, Option.map_some', Option.getD_some,
      st.hash_bytes_of_drop _ hd, st.nodeIterator_of_drop _ hd]

variable {tries : List Trie} {pages : List (List Hash)}

/-- Every account of a run is at a key, not below `start`, of a trie some call read. -/
theorem AccountRangeHeadRun.sound (hrun : AccountRangeHeadRun maxResults tries start pages) :
    ∀ h ∈ pages.flatten, (start.getD Hash.zero).bytes ≤ h.bytes ∧
      ∃ st ∈ tries, h.bytes ∈ st.leaves.map Prod.fst := by
  induction hrun with
  | @last st start r hr _ =>
    intro h hh
    rw [List.flatten_singleton, mem_accounts_iff hr] at hh
    obtain ⟨e, he, rfl⟩ := hh
    obtain ⟨hs, hk⟩ := st.hash_mem_of_mem_nodeIterator _ (List.mem_of_mem_take he)
    exact ⟨hs, st, List.mem_singleton_self st, hk⟩
  | @next st tries start r pages hr hne _ ih =>
    intro h hh
    obtain ⟨e, q, hd, hnext, -⟩ := accountRange_next_ne_zero hr hne
    rcases List.mem_append.mp (List.flatten_cons ▸ hh) with hh | hh
    · obtain ⟨e', he', rfl⟩ := (mem_accounts_iff hr).mp hh
      obtain ⟨hs, hk⟩ := st.hash_mem_of_mem_nodeIterator _ (List.mem_of_mem_take he')
      exact ⟨hs, st, List.mem_cons_self st tries, hk⟩
    · obtain ⟨hle, st', hst', hk⟩ := ih h hh
      have he := List.mem_of_mem_drop (hd ▸ List.mem_cons_self e q)
      have hstart := (st.hash_mem_of_mem_nodeIterator _ he).1
      rw [← hnext] at hstart
      exact ⟨hstart.trans hle, st', List.mem_cons_of_mem st hst', hk⟩

/-- The accounts of a run come in strictly increasing key order. -/
theorem AccountRangeHeadRun.sorted (hrun : AccountRangeHeadRun maxResults tries start pages) :
    pages.flatten.Pairwise (fun a b => a.bytes < b.bytes) := by
  induction hrun with
  | last hr _ => simpa using accounts_sorted hr
  | @next st tries start r pages hr hne hrest ih =>
    obtain ⟨e, q, hd, hnext, -⟩ := accountRange_next_ne_zero hr hne
    rw [List.flatten_cons, List.pairwise_append]
    refine ⟨accounts_sorted hr, ih, fun a ha b hb => ?_⟩
    -- the page is below the leaf after it, where the rest of the run starts
    obtain ⟨e', he', rfl⟩ := (mem_accounts_iff hr).mp ha
    have hlt := st.lt_of_mem_take _ hd he'
    rw [bytesToHash_of_length (st.key_length_of_mem_nodeIterator _ (List.mem_of_mem_take he'))]
    have hle := (hrest.sound b hb).1
    rw [Option.getD_some, hnext, st.hash_bytes_of_drop _ hd] at hle
    exact lt_of_lt_of_le hlt hle

/-- With room for a key on every page, a run returns every account that each trie it read holds
at a key not below `start`. -/
theorem AccountRangeHeadRun.complete (hmax : 1 ≤ maxResults)
    (hrun : AccountRangeHeadRun maxResults tries start pages) :
    ∀ k, (start.getD Hash.zero).bytes ≤ k → (∀ st ∈ tries, k ∈ st.leaves.map Prod.fst) →
      bytesToHash k ∈ pages.flatten := by
  induction hrun with
  | @last st start r hr hnext =>
    intro k hk hall
    obtain ⟨⟨_, v⟩, hl, rfl⟩ := List.mem_map.mp (hall st (List.mem_singleton_self st))
    have hdrop := (accountRange_next st start maxResults hmax hr).mp hnext
    rw [List.flatten_singleton, mem_accounts_iff hr, List.take_of_length_le
      (List.drop_eq_nil_iff.mp hdrop)]
    exact ⟨_, (st.mem_nodeIterator _).mpr ⟨hl, hk⟩, rfl⟩
  | @next st tries start r pages hr hne _ ih =>
    intro k hk hall
    obtain ⟨⟨_, v⟩, hl, rfl⟩ := List.mem_map.mp (hall st (List.mem_cons_self st tries))
    obtain ⟨e, q, hd, hnext, -⟩ := accountRange_next_ne_zero hr hne
    have hmem := (st.mem_nodeIterator _).mpr ⟨hl, hk⟩
    rw [← List.take_append_drop (accountPageSize maxResults)
      (st.nodeIterator (start.getD Hash.zero).bytes), List.mem_append] at hmem
    rw [List.flatten_cons, List.mem_append]
    rcases hmem with htake | hdrop
    · exact .inl ((mem_accounts_iff hr).mpr ⟨_, htake, rfl⟩)
    · -- the key is at or after the leaf the next call starts from
      refine .inr (ih _ ?_ fun st' hst' => hall st' (List.mem_cons_of_mem st hst'))
      rw [Option.getD_some, hnext, st.hash_bytes_of_drop _ hd]
      exact st.le_of_mem_drop _ hd hdrop

end HeadRun

/-- While the head of the chain moves between calls, a client paging through `AccountRange`
from `Next` to `Next` gets the accounts in strictly increasing key order, so none twice, each at
a key not below `start` of a trie some call read, and misses no account that every trie it read
holds at a key not below `start`. -/
theorem accountRange_paging_moving_head {maxResults : Int} (hmax : 1 ≤ maxResults)
    {tries : List Trie} {start : Option Hash} {pages : List (List Hash)}
    (hrun : AccountRangeHeadRun maxResults tries start pages) :
    pages.flatten.Pairwise (fun a b => a.bytes < b.bytes) ∧
    (∀ h ∈ pages.flatten, (start.getD Hash.zero).bytes ≤ h.bytes ∧
      ∃ st ∈ tries, h.bytes ∈ st.leaves.map Prod.fst) ∧
    ∀ k, (start.getD Hash.zero).bytes ≤ k → (∀ st ∈ tries, k ∈ st.leaves.map Prod.fst) →
      bytesToHash k ∈ pages.flatten :=
  ⟨hrun.sorted, hrun.sound, hrun.complete hmax⟩

/-- A later head than `sampleAccounts`: the account at the zero key is gone and one at `9…9`
came. -/
def sampleAccountsLater : Trie where
  leaves := [(List.replicate 32 7, []), (List.replicate 32 9, [])]
  sorted := by decide
  key_length := by decide
  getKey _ := none

theorem accountRange_paging_moving_head_sample :
    (1 : Int) ≤ 1 ∧
    ∃ pages, AccountRangeHeadRun 1 [sampleAccounts, sampleAccountsLater, sampleAccountsLater]
        none pages ∧
      (pages.flatten.Pairwise (fun a b => a.bytes < b.bytes) ∧
      (∀ h ∈ pages.flatten, ((none : Option Hash).getD Hash.zero).bytes ≤ h.bytes ∧
        ∃ st ∈ [sampleAccounts, sampleAccountsLater, sampleAccountsLater],
          h.bytes ∈ st.leaves.map Prod.fst) ∧
      ∀ k, ((none : Option Hash).getD Hash.zero).bytes ≤ k →
        (∀ st ∈ [sampleAccounts, sampleAccountsLater, sampleAccountsLater],
          k ∈ st.leaves.map Prod.fst) →
        bytesToHash k ∈ pages.flatten) := by
  have hrun := AccountRangeHeadRun.next (accountRange_eq sampleAccounts none 1) (by decide)
    (AccountRangeHeadRun.next (accountRange_eq sampleAccountsLater _ 1) (by decide)
      (AccountRangeHeadRun.last (accountRange_eq sampleAccountsLater _ 1) (by decide)))
  exact ⟨le_rfl, _, hrun, accountRange_paging_moving_head le_rfl hrun⟩

end PlasmaEvm
