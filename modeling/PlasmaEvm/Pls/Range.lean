import PlasmaEvm.Trie.Iterator
import Mathlib.Data.List.Nodup

/-!
# The range loop of the debug API

`storageRangeAt` and `accountRange` walk the trie with the same loop,

    for i := 0; i < maxResult && it.Next(); i++ { ... result.M[common.BytesToHash(it.Key)] = v }

and then call `it.Next()` once more to find the key a client continues from. `rangeLoop` is that
loop, the value of each leaf computed by a function that may fail. `rangeLoop_eq`: when it does
not fail, the loop enters the first `n` leaves (all of them if there are fewer) under their
hashes, and leaves the iterator before the rest, so the `Next` after it yields the first leaf not
entered. `rangeLoop_eq_error_iff`: it fails exactly with the error of the first of those `n`
leaves whose value fails, and looks at no value after them.
-/

namespace PlasmaEvm

/-- `m[k] = v` on a Go map, the map held as the list of its entries. -/
def mapAssign {κ ν : Type} [DecidableEq κ] (m : List (κ × ν)) (k : κ) (v : ν) :
    List (κ × ν) :=
  m.filter (fun x => x.1 ≠ k) ++ [(k, v)]

theorem mapAssign_of_not_mem {κ ν : Type} [DecidableEq κ] {m : List (κ × ν)} {k : κ} (v : ν)
    (h : k ∉ m.map Prod.fst) : mapAssign m k v = m ++ [(k, v)] := by
  rw [mapAssign, List.filter_eq_self.mpr]
  intro x hx
  simpa using fun hk : x.1 = k => h (hk ▸ List.mem_map_of_mem Prod.fst hx)

/-- The error of a failed computation, `none` for one that succeeded. -/
def errorOf {ε α : Type} : Except ε α → Option ε
  | .error e => some e
  | .ok _ => none

@[simp] theorem errorOf_error {ε α : Type} (e : ε) :
    errorOf (.error e : Except ε α) = some e := rfl

@[simp] theorem errorOf_ok {ε α : Type} (a : α) : errorOf (.ok a : Except ε α) = none := rfl

/-- The loop of the range queries: `n` is how many more times `i < maxResult` holds, and
`value` computes the value entered for a leaf from its key and value. -/
def rangeLoop {ν : Type} (value : Bytes → Bytes → Except String ν) :
    Nat → Iterator → List (Hash × ν) → Except String (Iterator × List (Hash × ν))
  | 0, it, m => .ok (it, m)
  | n + 1, it, m =>
    match it.next with
    | (false, it) => .ok (it, m)
    | (true, it) =>
      match value it.key it.value with
      | .error e => .error e
      | .ok v => rangeLoop value n it (mapAssign m (bytesToHash it.key) v)

section Loop

variable {ν : Type} {value : Bytes → Bytes → Except String ν} (f : Bytes × Bytes → ν)

/-- The loop enters the first `n` leaves still to come and stops before the others. -/
theorem rangeLoop_eq (n : Nat) {it : Iterator} {m : List (Hash × ν)}
    (hv : ∀ e ∈ it.rest, value e.1 e.2 = .ok (f e))
    (hd : (m.map Prod.fst ++ it.rest.map fun e => bytesToHash e.1).Nodup) :
    ∃ it', rangeLoop value n it m =
        .ok (it', m ++ (it.rest.take n).map fun e => (bytesToHash e.1, f e)) ∧
      it'.rest = it.rest.drop n := by
  induction n generalizing it m with
  | zero => exact ⟨it, by simp [rangeLoop]⟩
  | succ n ih =>
    match hr : it.rest with
    | [] => exact ⟨⟨[], [], []⟩, by simp [rangeLoop, Iterator.next_nil hr], by simp⟩
    | e :: rest =>
      rw [hr] at hv hd
      have hm : bytesToHash e.1 ∉ m.map Prod.fst :=
        fun h => (List.nodup_append.mp hd).2.2 h (List.mem_cons_self _ _)
      obtain ⟨it', h, hrest⟩ := @ih ⟨rest, e.1, e.2⟩ (m ++ [(bytesToHash e.1, f e)])
        (fun x hx => hv x (List.mem_cons_of_mem _ hx)) (by simpa using hd)
      refine ⟨it', ?_, hrest⟩
      simp only [rangeLoop, Iterator.next_cons hr, hv e (List.mem_cons_self _ _),
        mapAssign_of_not_mem _ hm, h]
      simp

/-- The loop fails exactly when the value of one of the first `n` leaves fails, with the error
of the first such leaf. -/
theorem rangeLoop_eq_error_iff (n : Nat) (it : Iterator) (m : List (Hash × ν)) (err : String) :
    rangeLoop value n it m = .error err ↔
      (it.rest.take n).findSome? (fun e => errorOf (value e.1 e.2)) = some err := by
  induction n generalizing it m with
  | zero => simp [rangeLoop]
  | succ n ih =>
    match hr : it.rest with
    | [] => simp [rangeLoop, Iterator.next_nil hr]
    | e :: rest =>
      cases hv : value e.1 e.2 with
      | error e' => simp [rangeLoop, Iterator.next_cons hr, hv]
      | ok v => simp [rangeLoop, Iterator.next_cons hr, hv, ih]

end Loop

end PlasmaEvm
