import PlasmaEvm.Pls.Range
import PlasmaEvm.Rlp.Split

/-!
# `debug_storageRangeAt`

`storageRangeAt` returns one page of a contract's storage: the slots from `start` on, at most
`maxResult` of them, each value taken out of its RLP string and padded to a hash, and the key
after the page as `NextKey` (nil when the page reached the last slot).

1. `storageRangeAt_eq`: on a trie whose values are well-formed RLP strings of at most 32 bytes,
   the page is the first `maxResult` leaves from `start` and `NextKey` the leaf after them.
2. A client pages through the storage by calling again from each `NextKey` until it is nil
   (`StorageRangeRun`). Seeking a `NextKey` continues the walk exactly where the last page
   stopped (`Trie.nodeIterator_of_drop`), so the pages of a run partition the slots from the
   first `start`, and a run exists for every page size of at least one.
3. The loop decodes only the values of the page, and fails with the first error of `rlp.Split`
   among them. With a page size of at most zero it decodes nothing and `NextKey` is the first
   key itself, so paging never gets past it (`StorageRangeRun.nodeIterator_eq_nil`).
-/

namespace PlasmaEvm

/-- `storageEntry`: the preimage of the slot's hashed key, if known, and its value. -/
structure StorageEntry where
  key : Option Hash
  value : Hash
deriving DecidableEq

/-- `StorageRangeResult`; `nextKey` is nil if `storage` includes the last key in the trie. -/
structure StorageRangeResult where
  storage : List (Hash × StorageEntry)
  nextKey : Option Hash
deriving DecidableEq

/-- The body of the loop of `storageRangeAt`: the entry of the leaf `key`, `value`. -/
def storageEntryOf (st : Trie) (key value : Bytes) : Except String StorageEntry :=
  match Rlp.split value with
  | .error e => .error e
  | .ok (_, content, _) => .ok ⟨(st.getKey key).map bytesToHash, bytesToHash content⟩

/-- `storageRangeAt`. -/
def storageRangeAt (st : Trie) (start : Bytes) (maxResult : Int) :
    Except String StorageRangeResult :=
  match rangeLoop (storageEntryOf st) maxResult.toNat (st.newIterator start) [] with
  | .error e => .error e
  | .ok (it, storage) =>
    -- add the 'next key' so clients can continue downloading
    match it.next with
    | (true, it) => .ok ⟨storage, some (bytesToHash it.key)⟩
    | (false, _) => .ok ⟨storage, none⟩

/-! ## One page -/

section Page

variable {st : Trie} {payload : Bytes → Bytes}

/-- Every value of the trie is the RLP string of a payload of at most 32 bytes. -/
def StorageWellFormed (st : Trie) (payload : Bytes → Bytes) : Prop :=
  ∀ e ∈ st.leaves, (payload e.1).length ≤ 32 ∧ e.2 = Rlp.encodeString (payload e.1)

/-- The entry `storageRangeAt` makes of a leaf whose value holds `payload`. -/
def storageEntrySpec (st : Trie) (payload : Bytes → Bytes) (e : Bytes × Bytes) :
    Hash × StorageEntry :=
  (bytesToHash e.1, ⟨(st.getKey e.1).map bytesToHash, bytesToHash (payload e.1)⟩)

theorem storageEntryOf_eq (hst : StorageWellFormed st payload) {e : Bytes × Bytes}
    (he : e ∈ st.leaves) :
    storageEntryOf st e.1 e.2 = .ok (storageEntrySpec st payload e).2 := by
  obtain ⟨hlen, hv⟩ := hst e he
  obtain ⟨k, -, hs⟩ := Rlp.split_encodeString_short (show (payload e.1).length < 56 by omega)
  simp [storageEntryOf, storageEntrySpec, hv, hs]

/-- The page from `start`: the first `maxResult` leaves and the key of the one after them. -/
theorem storageRangeAt_eq (hst : StorageWellFormed st payload) (start : Bytes)
    (maxResult : Int) :
    storageRangeAt st start maxResult =
      .ok ⟨((st.nodeIterator start).take maxResult.toNat).map (storageEntrySpec st payload),
        ((st.nodeIterator start).drop maxResult.toNat).head?.map fun e => bytesToHash e.1⟩ := by
  obtain ⟨it, hloop, hrest⟩ := @rangeLoop_eq _ (storageEntryOf st)
    (fun e => (storageEntrySpec st payload e).2) maxResult.toNat (st.newIterator start) []
    (fun e he => storageEntryOf_eq hst (List.dropWhile_subset _ he))
    (by simpa using st.nodup_nodeIterator_hashes start)
  have hf : (fun e => (bytesToHash e.1, (storageEntrySpec st payload e).2)) =
      storageEntrySpec st payload := rfl
  rw [storageRangeAt, hloop, hf]
  match hd : (st.nodeIterator start).drop maxResult.toNat with
  | [] => simp [Iterator.next_nil (hrest.trans hd)]
  | e :: q => simp [Iterator.next_cons (hrest.trans hd)]

end Page

/-! ## Values that are not RLP -/

theorem errorOf_storageEntryOf (st : Trie) (key value : Bytes) :
    errorOf (storageEntryOf st key value) = errorOf (Rlp.split value) := by
  rcases h : Rlp.split value with e | ⟨k, c, r⟩ <;> simp [storageEntryOf, h]

/-- `storageRangeAt` decodes the values of its page and no other: it fails exactly when one of
them is not RLP, with the error `rlp.Split` gives for the first such value. -/
theorem storageRangeAt_eq_error_iff (st : Trie) (start : Bytes) (maxResult : Int)
    (err : String) :
    storageRangeAt st start maxResult = .error err ↔
      ((st.leavesFrom start).take maxResult.toNat).findSome? (fun e => errorOf (Rlp.split e.2)) =
        some err := by
  have h := @rangeLoop_eq_error_iff _ (storageEntryOf st) maxResult.toNat (st.newIterator start)
    [] err
  simp only [errorOf_storageEntryOf, Trie.newIterator_rest, st.nodeIterator_eq_leavesFrom] at h
  rw [← h, storageRangeAt]
  rcases rangeLoop (storageEntryOf st) maxResult.toNat (st.newIterator start) [] with
    e | ⟨it, storage⟩
  · simp
  · simp only
    split <;> simp

/-! ## Paging -/

/-- A client paging through a contract's storage: it calls `storageRangeAt` from `start`, then
from each `NextKey`, until `NextKey` is nil. `pages` are the keys of each call's `Storage`. -/
inductive StorageRangeRun (st : Trie) (maxResult : Int) : Bytes → List (List Hash) → Prop
  | last {start : Bytes} {r : StorageRangeResult} :
      storageRangeAt st start maxResult = .ok r → r.nextKey = none →
      StorageRangeRun st maxResult start [r.storage.map Prod.fst]
  | next {start : Bytes} {r : StorageRangeResult} {k : Hash} {pages : List (List Hash)} :
      storageRangeAt st start maxResult = .ok r → r.nextKey = some k →
      StorageRangeRun st maxResult k.bytes pages →
      StorageRangeRun st maxResult start (r.storage.map Prod.fst :: pages)

section Paging

variable {st : Trie} {payload : Bytes → Bytes} (hst : StorageWellFormed st payload)
  {maxResult : Int}

include hst

/-- The pages of a run are the keys from its first `start`, in order. -/
theorem StorageRangeRun.flatten_eq {start : Bytes} {pages : List (List Hash)}
    (hrun : StorageRangeRun st maxResult start pages) :
    pages.flatten = (st.nodeIterator start).map fun e => bytesToHash e.1 := by
  induction hrun with
  | last hr hnext =>
    rw [storageRangeAt_eq hst] at hr
    cases hr
    simp only [Option.map_eq_none', List.head?_eq_none_iff, List.drop_eq_nil_iff] at hnext
    simp [List.take_of_length_le hnext, storageEntrySpec]
  | @next start r k pages hr hnext _ ih =>
    rw [storageRangeAt_eq hst] at hr
    cases hr
    obtain ⟨e, q, hq, rfl, hseek⟩ := st.nodeIterator_of_next start hnext
    have hfst : Prod.fst ∘ storageEntrySpec st payload = fun e => bytesToHash e.1 := rfl
    rw [List.flatten_cons, ih, hseek, ← hq, List.map_map, hfst, ← List.map_append,
      List.take_append_drop]

/-- From every `start` the client's paging comes to an end when a page holds a key. -/
theorem storageRangeRun_exists (hmax : 1 ≤ maxResult) (start : Bytes) :
    ∃ pages, StorageRangeRun st maxResult start pages := by
  obtain ⟨len, hlen⟩ : ∃ len, (st.nodeIterator start).length = len := ⟨_, rfl⟩
  induction len using Nat.strong_induction_on generalizing start with
  | _ len ih =>
    match hd : (st.nodeIterator start).drop maxResult.toNat with
    | [] => exact ⟨_, .last (storageRangeAt_eq hst start maxResult) (by simp [hd])⟩
    | e :: q =>
      have hshorter : (e :: q).length < len := by
        have := congrArg List.length hd
        simp only [List.length_drop, hlen, List.length_cons] at this ⊢
        omega
      obtain ⟨pages, hrun⟩ := ih _ hshorter e.1 (by rw [st.nodeIterator_of_drop start hd])
      exact ⟨_, @StorageRangeRun.next _ _ _ _ (bytesToHash e.1) _
        (storageRangeAt_eq hst start maxResult) (by simp [hd])
        (by rwa [st.hash_bytes_of_drop start hd])⟩

end Paging

/-- One call returns the first `maxResult` keys from `keyStart`, each with its RLP payload padded
on the left to 32 bytes, and the key after them as `NextKey`, nil exactly when none is left; a
client paging from `keyStart` comes to an end, and its pages split the keys from `keyStart`
without gap or overlap. -/
theorem storageRangeAt_paging (st : Trie) (payload : Bytes → Bytes)
    (hst : StorageWellFormed st payload) (keyStart : Bytes) (maxResult : Int)
    (hmax : 1 ≤ maxResult) :
    (∃ r, storageRangeAt st keyStart maxResult = .ok r ∧
      r.storage.map (fun x => (x.1.bytes, x.2.value.bytes)) =
        ((st.leavesFrom keyStart).take maxResult.toNat).map
          (fun e => (e.1, List.replicate (32 - (payload e.1).length) 0 ++ payload e.1)) ∧
      r.nextKey.map Hash.bytes =
        ((st.leavesFrom keyStart).drop maxResult.toNat).head?.map Prod.fst) ∧
    (∃ pages, StorageRangeRun st maxResult keyStart pages) ∧
    ∀ pages, StorageRangeRun st maxResult keyStart pages →
      pages.flatten.map Hash.bytes = (st.leavesFrom keyStart).map Prod.fst ∧
      pages.Pairwise List.Disjoint := by
  rw [← st.nodeIterator_eq_leavesFrom]
  refine ⟨⟨_, storageRangeAt_eq hst keyStart maxResult, ?_, ?_⟩,
    storageRangeRun_exists hst hmax keyStart, fun pages hrun => ?_⟩
  · rw [List.map_map]
    refine List.map_congr_left fun e he => ?_
    have hmem : e ∈ st.leaves := List.dropWhile_subset _ (List.mem_of_mem_take he)
    simp only [Function.comp, storageEntrySpec]
    rw [bytesToHash_of_length (st.key_length e hmem), bytesToHash_bytes,
      @setBytes_of_length_le hashLength _ (hst e hmem).1]
    rfl
  · match hd : (st.nodeIterator keyStart).drop maxResult.toNat with
    | [] => simp
    | e :: q => simp [st.hash_bytes_of_drop keyStart hd]
  · have hflat := hrun.flatten_eq hst
    refine ⟨by rw [hflat, st.map_hash_bytes_of_sublist keyStart (List.Sublist.refl _)], ?_⟩
    exact (List.nodup_flatten.mp (hflat ▸ st.nodup_nodeIterator_hashes keyStart)).2

/-- Two slots; the second value is a byte above `0x7f`, so it is RLP-encoded behind `0x81`. -/
def sampleStorage : Trie where
  leaves := [(List.replicate 32 1, [0x05]), (List.replicate 32 2, [0x81, 0x90])]
  sorted := by decide
  key_length := by decide
  getKey _ := none

/-- The payloads of `sampleStorage`. -/
def samplePayload (k : Bytes) : Bytes := if k = List.replicate 32 1 then [0x05] else [0x90]

theorem storageRangeAt_paging_sample :
    StorageWellFormed sampleStorage samplePayload ∧ (1 : Int) ≤ 1 ∧
    ((∃ r, storageRangeAt sampleStorage [] 1 = .ok r ∧
      r.storage.map (fun x => (x.1.bytes, x.2.value.bytes)) =
        ((sampleStorage.leavesFrom []).take (1 : Int).toNat).map
          (fun e =>
            (e.1, List.replicate (32 - (samplePayload e.1).length) 0 ++ samplePayload e.1)) ∧
      r.nextKey.map Hash.bytes =
        ((sampleStorage.leavesFrom []).drop (1 : Int).toNat).head?.map Prod.fst) ∧
    (∃ pages, StorageRangeRun sampleStorage 1 [] pages) ∧
    ∀ pages, StorageRangeRun sampleStorage 1 [] pages →
      pages.flatten.map Hash.bytes = (sampleStorage.leavesFrom []).map Prod.fst ∧
      pages.Pairwise List.Disjoint) :=
  have hst : StorageWellFormed sampleStorage samplePayload := by
    unfold StorageWellFormed
    decide
  ⟨hst, le_rfl, storageRangeAt_paging sampleStorage samplePayload hst [] 1 le_rfl⟩

/-! ## Pages of no slot -/

/-- With `maxResult ≤ 0` the loop takes no slot and decodes no value, and `NextKey` is the first
key from `start`. -/
theorem storageRangeAt_of_nonpos (st : Trie) (start : Bytes) {maxResult : Int}
    (hmax : maxResult ≤ 0) :
    storageRangeAt st start maxResult =
      .ok ⟨[], (st.nodeIterator start).head?.map fun e => bytesToHash e.1⟩ := by
  rw [storageRangeAt, Int.toNat_eq_zero.mpr hmax, rangeLoop]
  match hd : st.nodeIterator start with
  | [] => simp [@Iterator.next_nil (st.newIterator start) hd]
  | e :: q => simp [@Iterator.next_cons (st.newIterator start) _ _ hd, hd]

/-- A page of no slot sends the client back to the key it started from, so with `maxResult ≤ 0`
a paging that ends started past the last key. -/
theorem StorageRangeRun.nodeIterator_eq_nil {st : Trie} {maxResult : Int} (hmax : maxResult ≤ 0)
    {start : Bytes} {pages : List (List Hash)} (hrun : StorageRangeRun st maxResult start pages) :
    st.nodeIterator start = [] := by
  induction hrun with
  | @last start r hr hnext =>
    rw [storageRangeAt_of_nonpos st start hmax] at hr
    cases hr
    simpa using hnext
  | @next start r k pages hr hnext _ ih =>
    rw [storageRangeAt_of_nonpos st start hmax] at hr
    cases hr
    obtain ⟨e, q, -, rfl, hseek⟩ := @Trie.nodeIterator_of_next st start 0 k (by simpa using hnext)
    rw [hseek] at ih
    cases ih

/-- With `maxResult ≤ 0` a page holds no slot and its `NextKey` is the first key from `start`
itself, so a client paging from `NextKey` never gets past that key: its paging ends only when no
key is left from `start`. -/
theorem storageRangeRun_of_nonpos (st : Trie) {maxResult : Int} (hmax : maxResult ≤ 0)
    (start : Bytes) :
    storageRangeAt st start maxResult =
      .ok ⟨[], (st.leavesFrom start).head?.map fun e => bytesToHash e.1⟩ ∧
    ((∃ pages, StorageRangeRun st maxResult start pages) ↔ st.leavesFrom start = []) := by
  rw [← st.nodeIterator_eq_leavesFrom]
  refine ⟨storageRangeAt_of_nonpos st start hmax,
    fun ⟨_, hrun⟩ => hrun.nodeIterator_eq_nil hmax,
    fun h => ⟨_, .last (storageRangeAt_of_nonpos st start hmax) (by simp [h])⟩⟩

theorem storageRangeRun_of_nonpos_sample :
    (0 : Int) ≤ 0 ∧
    storageRangeAt sampleStorage [] 0 =
      .ok ⟨[], (sampleStorage.leavesFrom []).head?.map fun e => bytesToHash e.1⟩ ∧
    ((∃ pages, StorageRangeRun sampleStorage 0 [] pages) ↔ sampleStorage.leavesFrom [] = []) :=
  ⟨le_rfl, storageRangeRun_of_nonpos sampleStorage le_rfl []⟩

end PlasmaEvm
