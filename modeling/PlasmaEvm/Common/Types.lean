import Mathlib.Data.List.Lex
import Mathlib.Order.Basic

/-!
# Byte slices, hashes and addresses

The values of `common` that the debug and admin APIs read and return. A `Hash` is 32 bytes and
an `Address` 20; both are filled from a byte slice by `SetBytes`, which keeps the slice's last
bytes and pads it with zeros on the left. Byte slices are ordered bytewise, a proper prefix
first, which is the order in which the trie yields its keys.
-/

namespace PlasmaEvm

instance instDecidableEqExcept {ε α : Type} [DecidableEq ε] [DecidableEq α] :
    DecidableEq (Except ε α)
  | .error a, .error b => decidable_of_iff (a = b) ⟨congrArg _, Except.error.inj⟩
  | .ok a, .ok b => decidable_of_iff (a = b) ⟨congrArg _, Except.ok.inj⟩
  | .error _, .ok _ => isFalse Except.noConfusion
  | .ok _, .error _ => isFalse Except.noConfusion

/-- Bytes compare as unsigned numbers; with it `List UInt8` gets the bytewise order. -/
instance instLinearOrderUInt8 : LinearOrder UInt8 where
  lt := (· < ·)
  le := (· ≤ ·)
  le_refl := UInt8.le_refl
  le_trans _ _ _ := UInt8.le_trans
  le_antisymm _ _ h₁ h₂ := UInt8.eq_of_toBitVec_eq (BitVec.le_antisymm h₁ h₂)
  le_total := UInt8.le_total
  lt_iff_le_not_le _ _ :=
    ⟨fun h => ⟨Nat.le_of_lt h, Nat.not_le_of_gt h⟩, fun h => Nat.lt_of_not_le h.2⟩
  decidableLE := inferInstance
  decidableLT := inferInstance

/-- A Go `[]byte`, ordered bytewise with a proper prefix first. -/
abbrev Bytes := List UInt8

/-- `common.HashLength`. -/
def hashLength : Nat := 32

/-- `common.AddressLength`. -/
def addressLength : Nat := 20

/-- `SetBytes` on a zero value of `n` bytes: a longer slice is cropped from the left, a shorter
one lands in the last bytes. -/
def setBytes (n : Nat) (b : Bytes) : Bytes :=
  List.replicate (n - b.length) 0 ++ b.drop (b.length - n)

theorem length_setBytes (n : Nat) (b : Bytes) : (setBytes n b).length = n := by
  simp only [setBytes, List.length_append, List.length_replicate, List.length_drop]
  omega

/-- A slice of at most `n` bytes is left-padded with zeros. -/
theorem setBytes_of_length_le {n : Nat} {b : Bytes} (h : b.length ≤ n) :
    setBytes n b = List.replicate (n - b.length) 0 ++ b := by
  simp [setBytes, Nat.sub_eq_zero_of_le h]

theorem setBytes_of_length_eq {n : Nat} {b : Bytes} (h : b.length = n) : setBytes n b = b := by
  simp [setBytes_of_length_le h.le, h]

/-- `common.Hash`. -/
@[ext]
structure Hash where
  bytes : Bytes
  length_eq : bytes.length = hashLength
deriving DecidableEq

/-- `common.Address`. -/
@[ext]
structure Address where
  bytes : Bytes
  length_eq : bytes.length = addressLength
deriving DecidableEq

/-- `common.BytesToHash`. -/
def bytesToHash (b : Bytes) : Hash := ⟨setBytes hashLength b, length_setBytes _ _⟩

/-- `addr.SetBytes(b)` on `&common.Address{}`. -/
def Address.setBytes (b : Bytes) : Address :=
  ⟨PlasmaEvm.setBytes addressLength b, length_setBytes _ _⟩

/-- `common.Hash{}`, the zero hash. -/
def Hash.zero : Hash := ⟨List.replicate hashLength 0, List.length_replicate _ _⟩

theorem bytesToHash_bytes (b : Bytes) : (bytesToHash b).bytes = setBytes hashLength b :=
  rfl

/-- A 32-byte slice is its own hash. -/
theorem bytesToHash_of_length {b : Bytes} (h : b.length = hashLength) :
    (bytesToHash b).bytes = b :=
  setBytes_of_length_eq h

@[simp] theorem bytesToHash_hash (h : Hash) : bytesToHash h.bytes = h :=
  Hash.ext (bytesToHash_of_length h.length_eq)

/-- No byte slice is below the zeros of its own length. -/
theorem not_lt_replicate_zero : ∀ b : Bytes, ¬ b < List.replicate b.length 0
  | [], h => by cases h
  | _ :: b, h => by
    cases h with
    | cons h => exact not_lt_replicate_zero b h
    | rel h => exact Nat.not_lt_zero _ h

/-- The zero hash is the least 32-byte key. -/
theorem Hash.zero_le {k : Bytes} (hk : k.length = hashLength) : Hash.zero.bytes ≤ k := by
  have h := not_lt_replicate_zero k
  rw [hk] at h
  exact not_lt.mp h

end PlasmaEvm
