import PlasmaEvm.Pls.ApiBackend

/-!
# `debug_getModifiedAccountsByNumber` and `debug_getModifiedAccountsByHash`

Both name two blocks, by number or by hash, or one block, which is then compared with its
parent; `getModifiedAccounts` opens the account tries at the two blocks' roots and walks the
leaves that the difference iterator yields for them, reporting the preimage address of each
hashed key.

`dirtyLoop_eq` gives the walk in closed form: it stops at the first leaf without a preimage and
returns nothing then. So the call answers exactly when the start block is below the end block,
both tries open and every leaf the iterator yields has a preimage, and it answers with those
preimages, in the iterator's order.
-/

namespace PlasmaEvm

/-- `%x` of a byte slice: two lowercase hex digits a byte. -/
def hexBytes (b : Bytes) : String :=
  String.join
    (b.map fun x => String.mk [Nat.digitChar (x.toNat / 16), Nat.digitChar (x.toNat % 16)])

/-- `%x` of an unsigned integer: its lowercase hex digits. -/
def hexNat (n : Nat) : String := String.mk (Nat.toDigits 16 n)

/-- `PrivateDebugAPI`. -/
structure PrivateDebugAPI (β σ : Type) where
  pls : Plasma β σ

/-- The loop `for iter.Next()` of `getModifiedAccounts` over the leaves still to come, `dirty`
the addresses found so far. -/
def dirtyLoop (newTrie : Trie) :
    List (Bytes × Bytes) → List Address → Except String (List Address)
  | [], dirty => .ok dirty
  | (key, _) :: rest, dirty =>
    match newTrie.getKey key with
    | none => .error ("no preimage found for hash " ++ hexBytes key)
    | some preimage => dirtyLoop newTrie rest (dirty ++ [Address.setBytes preimage])

/-- The loop fails at the first leaf without a preimage, and otherwise appends the preimage
addresses of all leaves. -/
theorem dirtyLoop_eq (newTrie : Trie) (leaves : List (Bytes × Bytes)) (dirty : List Address) :
    dirtyLoop newTrie leaves dirty =
      match leaves.find? (fun e => (newTrie.getKey e.1).isNone) with
      | some e => .error ("no preimage found for hash " ++ hexBytes e.1)
      | none =>
        .ok (dirty ++ leaves.filterMap fun e => (newTrie.getKey e.1).map Address.setBytes) := by
  induction leaves generalizing dirty with
  | nil => simp [dirtyLoop]
  | cons e rest ih =>
    obtain ⟨key, value⟩ := e
    cases hk : newTrie.getKey key with
    | none => simp [dirtyLoop, hk]
    | some preimage =>
      simp only [dirtyLoop, hk, ih, List.find?_cons, Option.isNone_some, List.filterMap_cons,
        Option.map_some', List.append_assoc, List.singleton_append]

/-- The loop answers exactly when every leaf has a preimage, with their addresses. -/
theorem dirtyLoop_eq_ok_iff (newTrie : Trie) (leaves : List (Bytes × Bytes))
    (addrs : List Address) :
    dirtyLoop newTrie leaves [] = .ok addrs ↔
      (∀ e ∈ leaves, (newTrie.getKey e.1).isSome) ∧
      addrs = leaves.filterMap fun e => (newTrie.getKey e.1).map Address.setBytes := by
  rw [dirtyLoop_eq]
  cases hf : leaves.find? (fun e => (newTrie.getKey e.1).isNone) with
  | some e =>
    have hnone : newTrie.getKey e.1 = none := by simpa using List.find?_some hf
    simp only [reduceCtorEq, false_iff, not_and]
    intro hall
    simpa [hnone] using hall e (List.mem_of_find?_eq_some hf)
  | none =>
    have hall : ∀ e ∈ leaves, (newTrie.getKey e.1).isSome := by
      simpa [Option.isSome_iff_ne_none] using List.find?_eq_none.mp hf
    exact ⟨fun h => ⟨hall, (Except.ok.inj h).symm⟩, fun h => by rw [h.2]; rfl⟩

namespace PrivateDebugAPI

variable {β σ : Type} (api : PrivateDebugAPI β σ)

/-- `getModifiedAccounts`. -/
def getModifiedAccounts (startBlock endBlock : β) : Except String (List Address) :=
  let startNum := (api.pls.header startBlock).number
  let endNum := (api.pls.header endBlock).number
  if startNum ≥ endNum then
    .error ("start block height (" ++ toString startNum ++
      ") must be less than end block height (" ++ toString endNum ++ ")")
  else
    match api.pls.newSecure (api.pls.header startBlock).root with
    | .error err => .error err
    | .ok oldTrie =>
      match api.pls.newSecure (api.pls.header endBlock).root with
      | .error err => .error err
      | .ok newTrie => dirtyLoop newTrie (api.pls.newDifferenceIterator oldTrie newTrie) []

/-- The lookup `GetModifiedAccountsByNumber` and `GetModifiedAccountsByHash` share, over blocks
named by `κ`: `getBlock` finds a block, and `startText`, `endText` print a name in the error for
a missing start or end block. With no end block, the start block is compared with its
parent. -/
def getModifiedAccountsBy {κ : Type} (getBlock : κ → Option β)
    (startText endText : κ → String) (start : κ) (stop : Option κ) :
    Except String (List Address) :=
  match getBlock start with
  | none => .error ("start block " ++ startText start ++ " not found")
  | some startBlock =>
    match stop with
    | none =>
      match api.pls.getBlockByHash (api.pls.header startBlock).parentHash with
      | none =>
        .error ("block " ++ hexNat (api.pls.header startBlock).number.toNat ++ " has no parent")
      | some parent => api.getModifiedAccounts parent startBlock
    | some stop =>
      match getBlock stop with
      | none => .error ("end block " ++ endText stop ++ " not found")
      | some endBlock => api.getModifiedAccounts startBlock endBlock

/-- `GetModifiedAccountsByNumber`: a missing start block is named in hex (`%x`), a missing end
block in decimal (`%d`). -/
def getModifiedAccountsByNumber (startNum : UInt64) (endNum : Option UInt64) :
    Except String (List Address) :=
  api.getModifiedAccountsBy api.pls.getBlockByNumber (fun n => hexNat n.toNat) toString startNum
    endNum

/-- `GetModifiedAccountsByHash`. -/
def getModifiedAccountsByHash (startHash : Hash) (endHash : Option Hash) :
    Except String (List Address) :=
  api.getModifiedAccountsBy api.pls.getBlockByHash (fun h => hexBytes h.bytes)
    (fun h => hexBytes h.bytes) startHash endHash

end PrivateDebugAPI

/-- `getModifiedAccounts` answers exactly when the start block is below the end block, the
tries at both roots open and every leaf the difference iterator yields has a preimage; it then
answers with the preimage addresses of those leaves, in the iterator's order. -/
theorem getModifiedAccounts_eq_ok_iff {β σ : Type} (api : PrivateDebugAPI β σ)
    (startBlock endBlock : β) (addrs : List Address) :
    api.getModifiedAccounts startBlock endBlock = .ok addrs ↔
      (api.pls.header startBlock).number < (api.pls.header endBlock).number ∧
      ∃ oldTrie newTrie, api.pls.newSecure (api.pls.header startBlock).root = .ok oldTrie ∧
        api.pls.newSecure (api.pls.header endBlock).root = .ok newTrie ∧
        (∀ e ∈ api.pls.newDifferenceIterator oldTrie newTrie, (newTrie.getKey e.1).isSome) ∧
        addrs = (api.pls.newDifferenceIterator oldTrie newTrie).filterMap
          fun e => (newTrie.getKey e.1).map Address.setBytes := by
  unfold PrivateDebugAPI.getModifiedAccounts
  by_cases hlt : (api.pls.header startBlock).number < (api.pls.header endBlock).number
  · rw [if_neg (UInt64.not_le.mpr hlt)]
    rcases hold : api.pls.newSecure (api.pls.header startBlock).root with err | oldTrie <;>
      rcases hnew : api.pls.newSecure (api.pls.header endBlock).root with err' | newTrie <;>
      simp [hold, hnew, dirtyLoop_eq_ok_iff, hlt]
  · rw [if_pos (UInt64.not_lt.mp hlt)]
    simp [hlt]

end PlasmaEvm
