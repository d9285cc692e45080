import PlasmaEvm.Common.Types

/-!
# The trie and its leaf iterator

`state.Trie` as the range queries use it: its leaves in key order, and the preimage store behind
`GetKey`. `NodeIterator(start)` seeks the first leaf whose key is not below `start`, and
`trie.NewIterator` walks on from there: each `Next` moves to the following leaf and sets `Key`
and `Value`, and once the leaves run out it reports `false` and clears both.

The seek and the walk meet in `nodeIterator_of_drop`: seeking the key of the leaf that `n` steps
of the walk from `start` reach gives the rest of that walk.
-/

namespace PlasmaEvm

/-- Modelled from the spec: `state.Trie` (package `trie` is not among the sources), a finite
set of distinct 32-byte keys in bytewise order with a value each, and the preimages of its
hashed keys for `GetKey`. -/
structure Trie where
  leaves : List (Bytes × Bytes)
  sorted : leaves.Pairwise (fun a b => a.1 < b.1)
  key_length : ∀ e ∈ leaves, e.1.length = hashLength
  getKey : Bytes → Option Bytes

/-- Modelled from the spec: `trie.Iterator` over the leaves still to come. -/
structure Iterator where
  rest : List (Bytes × Bytes)
  key : Bytes
  value : Bytes

namespace Trie

/-- `NodeIterator(start)` as the leaf iterator sees it: the leaves from the first one whose key
is not below `start`. -/
def nodeIterator (st : Trie) (start : Bytes) : List (Bytes × Bytes) :=
  st.leaves.dropWhile (fun e => e.1 < start)

/-- The leaves whose key is at least `start`, in key order. -/
def leavesFrom (st : Trie) (start : Bytes) : List (Bytes × Bytes) :=
  st.leaves.filter (fun e => start ≤ e.1)

/-- `trie.NewIterator(st.NodeIterator(start))`. -/
def newIterator (st : Trie) (start : Bytes) : Iterator := ⟨st.nodeIterator start, [], []⟩

end Trie

/-- `it.Next()`. -/
def Iterator.next (it : Iterator) : Bool × Iterator :=
  match it.rest with
  | [] => (false, ⟨[], [], []⟩)
  | (k, v) :: rest => (true, ⟨rest, k, v⟩)

@[simp] theorem Iterator.next_nil {it : Iterator} (h : it.rest = []) :
    it.next = (false, ⟨[], [], []⟩) := by
  simp [Iterator.next, h]

@[simp] theorem Iterator.next_cons {it : Iterator} {e : Bytes × Bytes}
    {rest : List (Bytes × Bytes)} (h : it.rest = e :: rest) :
    it.next = (true, ⟨rest, e.1, e.2⟩) := by
  simp [Iterator.next, h]

@[simp] theorem Trie.newIterator_rest (st : Trie) (start : Bytes) :
    (st.newIterator start).rest = st.nodeIterator start := rfl

/-! ## Seeking a sorted list -/

section Seek

variable {l : List (Bytes × Bytes)} {a : Bytes}

/-- Dropping the leaves below `a` from a sorted list keeps exactly those at or above it. -/
theorem dropWhile_eq_filter (hl : l.Pairwise (fun a b => a.1 < b.1)) :
    l.dropWhile (fun e => e.1 < a) = l.filter (fun e => a ≤ e.1) := by
  induction l with
  | nil => rfl
  | cons e l ih =>
    rw [List.pairwise_cons] at hl
    by_cases h : e.1 < a
    · simp [List.dropWhile_cons, h, not_le.mpr h, ih hl.2]
    · have ha : a ≤ e.1 := not_lt.mp h
      rw [List.dropWhile_cons_of_neg (by simpa using h),
        List.filter_cons_of_pos (by simpa using ha),
        List.filter_eq_self.mpr fun x hx => by simpa using ha.trans (hl.1 x hx).le]

/-- Seeking the key of a leaf reached from `a` gives the walk from that leaf on. -/
theorem dropWhile_of_eq_append (hl : l.Pairwise (fun a b => a.1 < b.1))
    {p q : List (Bytes × Bytes)} {e : Bytes × Bytes}
    (h : l.dropWhile (fun e => e.1 < a) = p ++ e :: q) :
    l.dropWhile (fun x => x.1 < e.1) = e :: q := by
  obtain ⟨t, rfl⟩ : ∃ t, l = t ++ e :: q :=
    ⟨_, by rw [List.append_assoc, ← h, List.takeWhile_append_dropWhile]⟩
  have hlt : ∀ x ∈ t, x.1 < e.1 :=
    fun x hx => (List.pairwise_append.mp hl).2.2 x hx e (List.mem_cons_self _ _)
  rw [List.dropWhile_append, if_pos (by simpa [List.dropWhile_eq_nil_iff] using hlt),
    List.dropWhile_cons_of_neg (by simp)]

end Seek

namespace Trie

variable (st : Trie) (start : Bytes)

theorem nodeIterator_eq_leavesFrom : st.nodeIterator start = st.leavesFrom start :=
  dropWhile_eq_filter st.sorted

theorem mem_nodeIterator {e : Bytes × Bytes} :
    e ∈ st.nodeIterator start ↔ e ∈ st.leaves ∧ start ≤ e.1 := by
  rw [nodeIterator_eq_leavesFrom, leavesFrom, List.mem_filter, decide_eq_true_iff]

/-- Seeking the key of the leaf `n` steps past `start` continues the walk from `start`. -/
theorem nodeIterator_of_drop {n : Nat} {e : Bytes × Bytes} {q : List (Bytes × Bytes)}
    (h : (st.nodeIterator start).drop n = e :: q) : st.nodeIterator e.1 = e :: q :=
  dropWhile_of_eq_append st.sorted (by rw [← h, List.take_append_drop]; rfl)

theorem key_length_of_mem_nodeIterator {e : Bytes × Bytes} (he : e ∈ st.nodeIterator start) :
    e.1.length = hashLength :=
  st.key_length e (List.dropWhile_subset _ he)

/-- The key of the leaf `n` steps past `start` is its own hash. -/
theorem hash_bytes_of_drop {n : Nat} {e : Bytes × Bytes} {q : List (Bytes × Bytes)}
    (h : (st.nodeIterator start).drop n = e :: q) : (bytesToHash e.1).bytes = e.1 :=
  bytesToHash_of_length
    (st.key_length_of_mem_nodeIterator start (List.mem_of_mem_drop (h ▸ List.mem_cons_self e q)))

/-- The key after `n` steps of the walk, as a hash, seeks the rest of the walk. -/
theorem nodeIterator_of_next {n : Nat} {k : Hash}
    (h : ((st.nodeIterator start).drop n).head?.map (fun e => bytesToHash e.1) = some k) :
    ∃ e q, (st.nodeIterator start).drop n = e :: q ∧ k = bytesToHash e.1 ∧
      st.nodeIterator k.bytes = e :: q := by
  obtain ⟨e, he, rfl⟩ := Option.map_eq_some'.mp h
  obtain ⟨q, hq⟩ : ∃ q, (st.nodeIterator start).drop n = e :: q :=
    ⟨_, List.eq_cons_of_mem_head? he⟩
  exact ⟨e, q, hq, rfl, by rw [st.hash_bytes_of_drop start hq, st.nodeIterator_of_drop start hq]⟩

theorem nodeIterator_sorted : (st.nodeIterator start).Pairwise (fun a b => a.1 < b.1) :=
  st.sorted.sublist (List.dropWhile_sublist _)

/-- A leaf the walk reaches after `n` steps is above every leaf of those steps. -/
theorem lt_of_mem_take {n : Nat} {e f : Bytes × Bytes} {q : List (Bytes × Bytes)}
    (h : (st.nodeIterator start).drop n = e :: q) (hf : f ∈ (st.nodeIterator start).take n) :
    f.1 < e.1 := by
  have hs := st.nodeIterator_sorted start
  rw [← List.take_append_drop n (st.nodeIterator start), h, List.pairwise_append] at hs
  exact hs.2.2 f hf e (List.mem_cons_self e q)

/-- Every leaf the walk still reaches after `n` steps is at or above the next one. -/
theorem le_of_mem_drop {n : Nat} {e x : Bytes × Bytes} {q : List (Bytes × Bytes)}
    (h : (st.nodeIterator start).drop n = e :: q) (hx : x ∈ (st.nodeIterator start).drop n) :
    e.1 ≤ x.1 := by
  have hs := (st.nodeIterator_sorted start).sublist (List.drop_sublist n _)
  rw [h] at hs hx
  rcases List.mem_cons.mp hx with rfl | hq
  · exact le_rfl
  · exact (List.rel_of_pairwise_cons hs hq).le

/-- A leaf reached from `start`, as a hash, is a key of the trie not below `start`. -/
theorem hash_mem_of_mem_nodeIterator {e : Bytes × Bytes} (he : e ∈ st.nodeIterator start) :
    start ≤ (bytesToHash e.1).bytes ∧ (bytesToHash e.1).bytes ∈ st.leaves.map Prod.fst := by
  rw [bytesToHash_of_length (st.key_length_of_mem_nodeIterator start he)]
  obtain ⟨hl, hs⟩ := (st.mem_nodeIterator start).mp he
  exact ⟨hs, List.mem_map_of_mem _ hl⟩

/-- Leaves taken in order from `start` stay in strictly increasing key order as hashes. -/
theorem pairwise_hash_of_sublist {l : List (Bytes × Bytes)}
    (hl : List.Sublist l (st.nodeIterator start)) :
    (l.map fun e => bytesToHash e.1).Pairwise (fun a b => a.bytes < b.bytes) := by
  refine List.pairwise_map.mpr (((st.nodeIterator_sorted start).sublist hl).imp_of_mem ?_)
  intro a b ha hb hab
  rw [bytesToHash_of_length (st.key_length_of_mem_nodeIterator start (hl.subset ha)),
    bytesToHash_of_length (st.key_length_of_mem_nodeIterator start (hl.subset hb))]
  exact hab

/-- Hashing the keys from `start` changes no key. -/
theorem map_hash_bytes_of_sublist {l : List (Bytes × Bytes)}
    (hl : List.Sublist l (st.nodeIterator start)) :
    (l.map fun e => bytesToHash e.1).map Hash.bytes = l.map Prod.fst := by
  rw [List.map_map]
  exact List.map_congr_left fun e he =>
    bytesToHash_of_length (st.key_length_of_mem_nodeIterator start (hl.subset he))

/-- The keys from `start` stay distinct as hashes. -/
theorem nodup_nodeIterator_hashes :
    ((st.nodeIterator start).map fun e => bytesToHash e.1).Nodup := by
  refine List.pairwise_map.mpr ((st.nodeIterator_sorted start).imp_of_mem ?_)
  intro a b ha hb hab heq
  have := congrArg Hash.bytes heq
  rw [bytesToHash_of_length (st.key_length_of_mem_nodeIterator start ha),
    bytesToHash_of_length (st.key_length_of_mem_nodeIterator start hb)] at this
  exact hab.ne this

end Trie

end PlasmaEvm
