import PlasmaEvm.Common.Types
import Mathlib.Data.Nat.Digits

/-!
# `rlp.Split`

The storage trie holds each slot's value RLP-encoded, and `storageRangeAt` takes it apart with
`rlp.Split`: the first byte tells the value's kind and where its content starts (for a long
value, after the big-endian size bytes), and the content comes back with the bytes after it.
A well-formed string comes back whole (`split_encodeString_short`), which covers every storage
value of at most 32 bytes.

Past the strings a storage slot holds, the split is a round trip for every byte string below
2^64 bytes, with any bytes after it: reading the prefix back (`readPrefix_eq_ok`) shows that
only the canonical encoding is accepted, and the size bytes of a long string are its length in
base 256 with no leading zero (`sizeBytes_foldl`). The same holds of list headers, which
`storageRangeAt` reads alike since it ignores the kind. `rlp.Split` reads nothing past the value
it splits off (`split_append`).
-/

namespace PlasmaEvm.Rlp

/-- Modelled from the spec (package `rlp` is not among the sources): `rlp.Kind`. -/
inductive Kind
  | byte
  | string
  | list
deriving DecidableEq, Repr

/-- `io.ErrUnexpectedEOF`. -/
def errUnexpectedEOF : String := "unexpected EOF"

/-- `rlp.ErrCanonSize`. -/
def errCanonSize : String := "rlp: non-canonical size information"

/-- `rlp.ErrValueTooLarge`. -/
def errValueTooLarge : String := "rlp: value size exceeds available input length"

/-- Modelled from the spec (package `rlp` is not among the sources): `readSize`, the size held
big-endian in the first `slen` bytes of `b`; sizes below 56 and sizes with a leading zero byte
are not canonical. -/
def readSize (b : Bytes) (slen : Nat) : Except String Nat :=
  if b.length < slen then .error errUnexpectedEOF
  else
    let s := (b.take slen).foldl (fun s x => s * 256 + x.toNat) 0
    if s < 56 ∨ b.head? = some 0 then .error errCanonSize else .ok s

/-- Modelled from the spec (package `rlp` is not among the sources): the kind, tag size and
content size that the prefix byte `b` announces, `rest` being the bytes after it, as `readKind`
reads them. -/
def readPrefix (b : Nat) (rest : Bytes) : Except String (Kind × Nat × Nat) :=
  if b < 0x80 then .ok (.byte, 0, 1)
  else if b < 0xB8 then
    -- strings that should have been single bytes are rejected
    if b - 0x80 = 1 ∧ rest.head?.any (·.toNat < 128) then .error errCanonSize
    else .ok (.string, 1, b - 0x80)
  else if b < 0xC0 then
    match readSize rest (b - 0xB7) with
    | .error e => .error e
    | .ok cs => .ok (.string, b - 0xB7 + 1, cs)
  else if b < 0xF8 then .ok (.list, 1, b - 0xC0)
  else
    match readSize rest (b - 0xF7) with
    | .error e => .error e
    | .ok cs => .ok (.list, b - 0xF7 + 1, cs)

/-- Modelled from the spec (package `rlp` is not among the sources): `readKind`, the kind, tag
size and content size of the value at the head of `buf`, which must fit in `buf`. -/
def readKind (buf : Bytes) : Except String (Kind × Nat × Nat) :=
  match buf with
  | [] => .error errUnexpectedEOF
  | x :: rest =>
    match readPrefix x.toNat rest with
    | .error e => .error e
    | .ok (k, ts, cs) => if cs > buf.length - ts then .error errValueTooLarge else .ok (k, ts, cs)

/-- Modelled from the spec (package `rlp` is not among the sources): `rlp.Split`, the kind and
content of the first value of `b`, and the bytes after it. -/
def split (b : Bytes) : Except String (Kind × Bytes × Bytes) :=
  match readKind b with
  | .error e => .error e
  | .ok (k, ts, cs) => .ok (k, (b.drop ts).take cs, b.drop (ts + cs))

/-- Modelled from the spec: the RLP encoding of a byte string (the encoder of package `rlp` is
not among the sources). A single byte below `0x80` is its own encoding, a payload of fewer than
56 bytes follows the prefix `0x80 + len`, a longer one the prefix `0xB7 + len(size)` and its
size big-endian. -/
def encodeString (p : Bytes) : Bytes :=
  match p with
  | [x] => if x.toNat < 0x80 then [x] else [0x81, x]
  | _ =>
    if p.length < 56 then UInt8.ofNat (0x80 + p.length) :: p
    else
      let size := ((Nat.digits 256 p.length).map UInt8.ofNat).reverse
      UInt8.ofNat (0xB7 + size.length) :: (size ++ p)

/-! ## Splitting well-formed strings -/

theorem split_of_readKind {b : Bytes} {k : Kind} {ts cs : Nat}
    (h : readKind b = .ok (k, ts, cs)) :
    split b = .ok (k, (b.drop ts).take cs, b.drop (ts + cs)) := by
  simp [split, h]

theorem readKind_cons {x : UInt8} {rest : Bytes} {k : Kind} {ts cs : Nat}
    (h : readPrefix x.toNat rest = .ok (k, ts, cs)) (hfit : cs ≤ rest.length + 1 - ts) :
    readKind (x :: rest) = .ok (k, ts, cs) := by
  simp [readKind, h, Nat.not_lt.mpr hfit]

/-- The prefix `0x80 + n` of a short string of `n` bytes, `n ≠ 1`. -/
theorem readPrefix_string {n : Nat} {rest : Bytes} (h1 : n ≠ 1) (h : n < 56) :
    readPrefix (0x80 + n) rest = .ok (.string, 1, n) := by
  rw [readPrefix, if_neg (by omega), if_pos (by omega), if_neg (fun h' => h1 (by omega)),
    Nat.add_sub_cancel_left]

/-- A well-formed string of fewer than 56 bytes splits into its payload and nothing after it. -/
theorem split_encodeString_short {p : Bytes} (h : p.length < 56) :
    ∃ k, k ≠ .list ∧ split (encodeString p) = .ok (k, p, []) := by
  match p, h with
  | [], _ => exact ⟨.string, by decide, by decide⟩
  | [x], _ =>
    by_cases hx : x.toNat < 0x80
    · have hp : readPrefix x.toNat [] = .ok (.byte, 0, 1) := if_pos hx
      refine ⟨.byte, by decide, ?_⟩
      rw [encodeString, if_pos hx, split_of_readKind (readKind_cons hp le_rfl)]
      rfl
    · have hp : readPrefix (0x81 : UInt8).toNat [x] = .ok (.string, 1, 1) := by
        rw [show (0x81 : UInt8).toNat = 0x80 + 1 from rfl, readPrefix, if_neg (by omega),
          if_pos (by omega), if_neg fun h' => hx (by simpa using h'.2)]
      refine ⟨.string, by decide, ?_⟩
      rw [encodeString, if_neg hx, split_of_readKind (readKind_cons hp le_rfl)]
      rfl
  | a :: b :: rest, h =>
    have hb : (UInt8.ofNat (0x80 + (a :: b :: rest).length)).toNat =
        0x80 + (a :: b :: rest).length :=
      UInt8.toNat_ofNat_of_lt (by unfold UInt8.size; omega)
    have hp := hb ▸ @readPrefix_string _ (a :: b :: rest) (by simp) h
    refine ⟨.string, by decide, ?_⟩
    rw [encodeString, if_pos h, split_of_readKind (readKind_cons hp (by simp))]
    · simp only [List.drop_succ_cons, List.drop_zero, List.take_length, Nat.add_comm 1,
        List.drop_length]
    · simp

/-! ## Reading a split back -/

theorem split_eq_ok {b : Bytes} {k : Kind} {c r : Bytes} (h : split b = .ok (k, c, r)) :
    ∃ ts cs, readKind b = .ok (k, ts, cs) ∧ c = (b.drop ts).take cs ∧ r = b.drop (ts + cs) := by
  rcases hk : readKind b with e | ⟨k', ts, cs⟩
  · simp [split, hk] at h
  · simp only [split, hk, Except.ok.injEq, Prod.mk.injEq] at h
    obtain ⟨rfl, rfl, rfl⟩ := h
    exact ⟨ts, cs, rfl, rfl, rfl⟩

theorem readKind_eq_ok {b : Bytes} {k : Kind} {ts cs : Nat} (h : readKind b = .ok (k, ts, cs)) :
    ∃ x tl, b = x :: tl ∧ readPrefix x.toNat tl = .ok (k, ts, cs) ∧ cs ≤ tl.length + 1 - ts := by
  match b, h with
  | [], h => simp [readKind] at h
  | x :: tl, h =>
    rcases hp : readPrefix x.toNat tl with e | ⟨k', ts', cs'⟩
    · simp [readKind, hp] at h
    · simp only [readKind, hp] at h
      split_ifs at h with hfit
      cases h
      exact ⟨x, tl, rfl, hp, by simpa using hfit⟩

theorem readSize_eq_ok {b : Bytes} {slen s : Nat} (h : readSize b slen = .ok s) :
    slen ≤ b.length ∧ (b.take slen).foldl (fun s x => s * 256 + x.toNat) 0 = s ∧ 56 ≤ s ∧
      b.head? ≠ some 0 := by
  dsimp only [readSize] at h
  split_ifs at h with hlen hs
  cases h
  exact ⟨by omega, rfl, by omega, fun h0 => hs (.inr h0)⟩

theorem readSize_of_le {b : Bytes} {slen : Nat} (hlen : slen ≤ b.length)
    (h56 : 56 ≤ (b.take slen).foldl (fun s x => s * 256 + x.toNat) 0) (h0 : b.head? ≠ some 0) :
    readSize b slen = .ok ((b.take slen).foldl (fun s x => s * 256 + x.toNat) 0) := by
  rw [readSize, if_neg (by omega), if_neg (not_or.mpr ⟨by omega, h0⟩)]

/-- Everything a prefix byte can announce, with the checks it passed. -/
theorem readPrefix_eq_ok {x : Nat} {tl : Bytes} {k : Kind} {ts cs : Nat}
    (h : readPrefix x tl = .ok (k, ts, cs)) :
    (x < 0x80 ∧ k = .byte ∧ ts = 0 ∧ cs = 1) ∨
    (0x80 ≤ x ∧ x < 0xB8 ∧ k = .string ∧ ts = 1 ∧ cs = x - 0x80 ∧
      ¬(cs = 1 ∧ tl.head?.any (·.toNat < 128))) ∨
    (0xB8 ≤ x ∧ x < 0xC0 ∧ k = .string ∧ ts = x - 0xB7 + 1 ∧ readSize tl (x - 0xB7) = .ok cs) ∨
    (0xC0 ≤ x ∧ x < 0xF8 ∧ k = .list ∧ ts = 1 ∧ cs = x - 0xC0) ∨
    (0xF8 ≤ x ∧ k = .list ∧ ts = x - 0xF7 + 1 ∧ readSize tl (x - 0xF7) = .ok cs) := by
  unfold readPrefix at h
  split_ifs at h
  · cases h
    exact .inl ⟨by omega, rfl, rfl, rfl⟩
  · cases h
    exact .inr (.inl ⟨by omega, by omega, rfl, rfl, rfl, ‹_›⟩)
  · split at h
    · cases h
    · cases h
      exact .inr (.inr (.inl ⟨by omega, by omega, rfl, rfl, ‹_›⟩))
  · cases h
    exact .inr (.inr (.inr (.inl ⟨by omega, by omega, rfl, rfl, rfl⟩)))
  · split at h
    · cases h
    · cases h
      exact .inr (.inr (.inr (.inr ⟨by omega, rfl, rfl, ‹_›⟩)))

/-- The tag lies in the input: a long size is only read from bytes that are there. -/
theorem tagSize_le {x : Nat} {tl : Bytes} {k : Kind} {ts cs : Nat}
    (h : readPrefix x tl = .ok (k, ts, cs)) : ts ≤ tl.length + 1 := by
  rcases readPrefix_eq_ok h with ⟨-, -, rfl, -⟩ | ⟨-, -, -, rfl, -⟩ | ⟨-, -, -, rfl, hs⟩ |
    ⟨-, -, -, rfl, -⟩ | ⟨-, -, rfl, hs⟩
  all_goals first | omega | have := (readSize_eq_ok hs).1; omega

/-! ## Bytes after the value -/

theorem readSize_append {b : Bytes} {slen s : Nat} (t : Bytes) (h : readSize b slen = .ok s) :
    readSize (b ++ t) slen = .ok s := by
  obtain ⟨hlen, rfl, h56, h0⟩ := readSize_eq_ok h
  have hb : b ≠ [] := by rintro rfl; simp at h56
  rw [← List.take_append_of_le_length hlen] at h56 ⊢
  exact readSize_of_le (by simp; omega) h56 (by rwa [List.head?_append_of_ne_nil _ hb])

theorem readPrefix_append {x : Nat} {tl : Bytes} {k : Kind} {ts cs : Nat} (rest : Bytes)
    (h : readPrefix x tl = .ok (k, ts, cs)) (hfit : cs ≤ tl.length + 1 - ts) :
    readPrefix x (tl ++ rest) = .ok (k, ts, cs) := by
  unfold readPrefix at h ⊢
  split_ifs at h ⊢ <;> try with_reducible exact h
  · -- the single-byte guard reads the first content byte, which lies in `tl`
    rename_i hr hg
    cases h
    obtain ⟨y, ys, rfl⟩ := List.exists_cons_of_length_pos (by omega : 0 < tl.length)
    exact hg hr
  all_goals
    rcases hs : readSize tl _ with e | s <;> rw [hs] at h
    · cases h
    · rw [readSize_append rest hs]
      exact h

/-- `rlp.Split` reads nothing past the value it splits off: bytes appended to its input come
back appended to the rest. -/
theorem split_append {b : Bytes} {k : Kind} {c r : Bytes} (rest : Bytes)
    (h : split b = .ok (k, c, r)) : split (b ++ rest) = .ok (k, c, r ++ rest) := by
  obtain ⟨ts, cs, hk, rfl, rfl⟩ := split_eq_ok h
  obtain ⟨x, tl, rfl, hp, hfit⟩ := readKind_eq_ok hk
  have hts := tagSize_le hp
  rw [List.cons_append, split_of_readKind (readKind_cons (readPrefix_append rest hp hfit)
    (by simp; omega)), ← List.cons_append, List.drop_append_of_le_length (by simp; omega),
    List.drop_append_of_le_length (by simp; omega), List.take_append_of_le_length (by simp; omega)]

/-! ## The size bytes of a long string -/

/-- The big-endian fold of `readSize` is `Nat.ofDigits 256` of the bytes read low first. -/
theorem foldl_size (l : Bytes) (a : Nat) :
    l.foldl (fun s x => s * 256 + x.toNat) a =
      a * 256 ^ l.length + Nat.ofDigits 256 (l.reverse.map UInt8.toNat) := by
  induction l generalizing a with
  | nil => simp
  | cons x l ih =>
    rw [List.foldl_cons, ih, List.reverse_cons, List.map_append, Nat.ofDigits_append]
    simp only [List.map_cons, List.map_nil, Nat.ofDigits_singleton, List.length_map,
      List.length_reverse, List.length_cons, pow_succ]
    ring

/-- The size bytes `encodeString` writes for a payload of `n` bytes: `n` in base 256, most
significant byte first. -/
def sizeBytes (n : Nat) : Bytes := ((Nat.digits 256 n).map UInt8.ofNat).reverse

theorem ofNat_toNat (x : UInt8) : UInt8.ofNat x.toNat = x :=
  UInt8.toNat.inj (UInt8.toNat_ofNat_of_lt x.toNat_lt_size)

theorem map_toNat_sizeBytes (n : Nat) :
    (sizeBytes n).reverse.map UInt8.toNat = Nat.digits 256 n := by
  rw [sizeBytes, List.reverse_reverse, List.map_map]
  conv_rhs => rw [← List.map_id (Nat.digits 256 n)]
  exact List.map_congr_left fun d hd =>
    UInt8.toNat_ofNat_of_lt (Nat.digits_lt_base (by norm_num) hd)

theorem foldl_sizeBytes (n : Nat) :
    (sizeBytes n).foldl (fun s x => s * 256 + x.toNat) 0 = n := by
  rw [foldl_size, map_toNat_sizeBytes, Nat.ofDigits_digits, zero_mul, zero_add]

/-- Size bytes with no leading zero are the ones `encodeString` writes for the size they
hold. -/
theorem sizeBytes_foldl {sz : Bytes} (h0 : sz.head? ≠ some 0) :
    sizeBytes (sz.foldl (fun s x => s * 256 + x.toNat) 0) = sz := by
  have hdig : Nat.digits 256 (Nat.ofDigits 256 (sz.reverse.map UInt8.toNat)) =
      sz.reverse.map UInt8.toNat := by
    refine Nat.digits_ofDigits _ (by norm_num) _ (fun d hd => ?_) (fun hne => ?_)
    · obtain ⟨x, -, rfl⟩ := List.mem_map.mp hd
      exact x.toNat_lt_size
    · rcases sz with _ | ⟨y, ys⟩
      · exact absurd rfl hne
      rw [List.getLast_map, List.getLast_reverse]
      exact fun hy => h0 (congrArg some (UInt8.toNat.inj hy))
  rw [foldl_size, zero_mul, zero_add, sizeBytes, hdig, List.map_map]
  conv_rhs => rw [← List.reverse_reverse sz, ← List.map_id sz.reverse]
  exact congrArg List.reverse (List.map_congr_left fun x _ => ofNat_toNat x)

theorem length_sizeBytes (n : Nat) : (sizeBytes n).length = (Nat.digits 256 n).length := by
  simp [sizeBytes]

theorem one_le_length_sizeBytes {n : Nat} (h : n ≠ 0) : 1 ≤ (sizeBytes n).length := by
  rw [length_sizeBytes]
  exact List.length_pos.mpr (Nat.digits_ne_nil_iff_ne_zero.mpr h)

theorem length_sizeBytes_le {n : Nat} (h : n < 256 ^ 8) : (sizeBytes n).length ≤ 8 := by
  rcases Nat.eq_zero_or_pos n with rfl | hn
  · simp [sizeBytes]
  rw [length_sizeBytes, Nat.digits_len _ _ (by norm_num) hn.ne']
  exact Nat.log_lt_of_lt_pow hn.ne' h

theorem head_sizeBytes (n : Nat) : (sizeBytes n).head? ≠ some 0 := by
  rw [sizeBytes, List.head?_reverse, List.getLast?_map]
  rcases Nat.eq_zero_or_pos n with rfl | hn
  · simp
  rw [List.getLast?_eq_getLast _ (Nat.digits_ne_nil_iff_ne_zero.mpr hn.ne'), Option.map_some',
    Ne, Option.some.injEq]
  intro h
  apply Nat.getLast_digit_ne_zero 256 hn.ne'
  have := congrArg UInt8.toNat h
  rwa [UInt8.toNat_ofNat_of_lt (Nat.digits_lt_base (by norm_num) (List.getLast_mem _))] at this

theorem readSize_sizeBytes {n : Nat} (h : 56 ≤ n) (t : Bytes) :
    readSize (sizeBytes n ++ t) (sizeBytes n).length = .ok n := by
  have hne : sizeBytes n ≠ [] := List.ne_nil_of_length_pos (one_le_length_sizeBytes (by omega))
  have := @readSize_of_le (sizeBytes n ++ t) (sizeBytes n).length (by simp)
    (by rw [List.take_left, foldl_sizeBytes]; exact h)
    (by rw [List.head?_append_of_ne_nil _ hne]; exact head_sizeBytes n)
  rwa [List.take_left, foldl_sizeBytes] at this

/-- The prefix `0xB7 + L` of a long string whose size takes `L` bytes. -/
theorem readPrefix_long {L s : Nat} {rest : Bytes} (h1 : 1 ≤ L) (h8 : L ≤ 8)
    (hs : readSize rest L = .ok s) : readPrefix (0xB7 + L) rest = .ok (.string, L + 1, s) := by
  rw [readPrefix, if_neg (by omega), if_neg (by omega), if_pos (by omega), Nat.add_sub_cancel_left,
    hs]

/-- A long header read back: the prefix byte is `base` plus the number of size bytes, and these
are the canonical size bytes of the content size. -/
theorem cons_eq_of_readSize {base : Nat} {x : UInt8} {tl : Bytes} {cs : Nat}
    (hx : base < x.toNat) (hs : readSize tl (x.toNat - base) = .ok cs) :
    x :: tl = UInt8.ofNat (base + (sizeBytes cs).length) ::
      (sizeBytes cs ++ tl.drop (x.toNat - base)) := by
  obtain ⟨hL, hsz, -, h0⟩ := readSize_eq_ok hs
  have hsize : sizeBytes cs = tl.take (x.toNat - base) := by
    rw [← hsz, sizeBytes_foldl]
    rwa [List.head?_take, if_neg (by omega)]
  rw [hsize, List.length_take_of_le hL, show base + (x.toNat - base) = x.toNat by omega,
    ofNat_toNat, List.take_append_drop]

/-- A prefix announcing the size bytes of the content splits the content off. -/
theorem split_sizeBytes {k : Kind} {a : UInt8} {c rest : Bytes}
    (hp : readPrefix a.toNat (sizeBytes c.length ++ (c ++ rest)) =
      .ok (k, (sizeBytes c.length).length + 1, c.length)) :
    split (a :: (sizeBytes c.length ++ c) ++ rest) = .ok (k, c, rest) := by
  rw [List.cons_append, List.append_assoc, split_of_readKind (readKind_cons hp (by simp)),
    Nat.add_right_comm (sizeBytes c.length).length 1, List.drop_succ_cons, List.drop_succ_cons,
    List.drop_left, List.take_left, ← List.append_assoc, ← List.length_append, List.drop_left]

/-! ## The round trip -/

theorem encodeString_of_length_ne_one {p : Bytes} (h : p.length ≠ 1) :
    encodeString p = if p.length < 56 then UInt8.ofNat (0x80 + p.length) :: p
      else UInt8.ofNat (0xB7 + (sizeBytes p.length).length) :: (sizeBytes p.length ++ p) := by
  match p, h with
  | [], _ => rfl
  | [_], h => exact absurd rfl h
  | _ :: _ :: _, _ => rfl

theorem split_encodeString_long {p : Bytes} (rest : Bytes) (h56 : 56 ≤ p.length)
    (h8 : p.length < 256 ^ 8) : split (encodeString p ++ rest) = .ok (.string, p, rest) := by
  have hL1 := @one_le_length_sizeBytes p.length (by omega)
  have hb : (UInt8.ofNat (0xB7 + (sizeBytes p.length).length)).toNat =
      0xB7 + (sizeBytes p.length).length :=
    UInt8.toNat_ofNat_of_lt (by have := length_sizeBytes_le h8; unfold UInt8.size; omega)
  rw [encodeString_of_length_ne_one (by omega), if_neg (by omega)]
  refine split_sizeBytes ?_
  rw [hb]
  exact readPrefix_long hL1 (length_sizeBytes_le h8) (readSize_sizeBytes h56 (p ++ rest))

theorem split_encodeString {p : Bytes} (rest : Bytes) (h : p.length < 256 ^ 8) :
    ∃ k, k ≠ .list ∧ split (encodeString p ++ rest) = .ok (k, p, rest) := by
  by_cases h56 : p.length < 56
  · obtain ⟨k, hk, hs⟩ := split_encodeString_short h56
    exact ⟨k, hk, split_append rest hs⟩
  · exact ⟨.string, by decide, split_encodeString_long rest (by omega) h⟩

/-- Only the canonical encoding of a byte or string is split as one. -/
theorem eq_encodeString_of_split {b c r : Bytes} {k : Kind} (hk : k ≠ .list)
    (h : split b = .ok (k, c, r)) : b = encodeString c ++ r := by
  obtain ⟨ts, cs, hkind, rfl, rfl⟩ := split_eq_ok h
  obtain ⟨x, tl, rfl, hp, hfit⟩ := readKind_eq_ok hkind
  have hcases := readPrefix_eq_ok hp
  clear h hkind hp
  -- `cs = x - 0x80` is kept as an equation: substituting it unfolds the subtraction
  rcases hcases with ⟨hx, rfl, rfl, rfl⟩ | ⟨hx1, hx2, rfl, rfl, hcs, hg⟩ |
    ⟨hx1, hx2, rfl, rfl, hs⟩ | ⟨-, -, rfl, -⟩ | ⟨-, rfl, -⟩
  · -- a byte below 0x80 is its own encoding
    simp [encodeString, hx]
  · -- a short string: the prefix byte is 0x80 plus the content size
    simp only [List.drop_succ_cons, List.drop_zero, Nat.add_comm 1]
    by_cases hc1 : cs = 1
    · obtain ⟨y, ys, rfl⟩ := List.exists_cons_of_length_pos (by omega : 0 < tl.length)
      have hy : ¬ y.toNat < 0x80 := by simpa [hc1] using hg
      have hx : x = 0x81 := UInt8.toNat.inj (show x.toNat = 0x81 by omega)
      simp [hc1, hx, encodeString, hy]
    · have hlen : (tl.take cs).length = cs := List.length_take_of_le (by omega)
      rw [encodeString_of_length_ne_one (by omega), if_pos (by omega), hlen,
        show 0x80 + cs = x.toNat by omega, ofNat_toNat, List.cons_append, List.take_append_drop]
  · -- a long string: the size bytes are the canonical base-256 form of the content size
    obtain ⟨-, -, h56, -⟩ := readSize_eq_ok hs
    have hlen : ((tl.drop (x.toNat - 0xB7)).take cs).length = cs :=
      List.length_take_of_le (by simp; omega)
    rw [List.drop_succ_cons, Nat.add_right_comm, List.drop_succ_cons,
      encodeString_of_length_ne_one (by omega), if_neg (by omega), hlen, List.cons_append,
      List.append_assoc, ← List.drop_drop, List.take_append_drop]
    exact cons_eq_of_readSize (by omega) hs
  · exact absurd rfl hk
  · exact absurd rfl hk

/-- `rlp.Split` gives back the byte string `p`, as a byte or a string, with the bytes `r` after
it, exactly when its input is the encoding of `p` followed by `r`: every string shorter than
2^64 bytes comes back whole, and no other encoding of it is accepted. -/
theorem split_eq_string_iff {b p r : Bytes} (hp : p.length < 256 ^ 8) :
    (∃ k, k ≠ .list ∧ split b = .ok (k, p, r)) ↔ b = encodeString p ++ r :=
  ⟨fun ⟨_, hk, h⟩ => eq_encodeString_of_split hk h, fun h => h ▸ split_encodeString r hp⟩

theorem split_eq_string_iff_sample :
    ([0x80] : Bytes).length < 256 ^ 8 ∧
      ((∃ k, k ≠ .list ∧ split [0x81, 0x80, 0x01] = .ok (k, [0x80], [0x01])) ↔
        [0x81, 0x80, 0x01] = encodeString [0x80] ++ [0x01]) :=
  ⟨by decide, split_eq_string_iff (by decide)⟩

/-! ## Lists

`storageRangeAt` keeps the content whatever kind `rlp.Split` reports, so a stored list is read
too. Its header is the same round trip: only the canonical header is accepted. -/

/-- Modelled from the spec: the RLP header of a list whose items take `n` bytes. Below 56 bytes
it is the prefix `0xC0 + n`, else the prefix `0xF7 + len(size)` and the size big-endian. -/
def encodeListHeader (n : Nat) : Bytes :=
  if n < 56 then [UInt8.ofNat (0xC0 + n)]
  else UInt8.ofNat (0xF7 + (sizeBytes n).length) :: sizeBytes n

theorem split_encodeListHeader {c : Bytes} (rest : Bytes) (h : c.length < 256 ^ 8) :
    split (encodeListHeader c.length ++ c ++ rest) = .ok (.list, c, rest) := by
  unfold encodeListHeader
  split_ifs with h56
  · -- a short list: the prefix byte is 0xC0 plus the content size
    have hb : (UInt8.ofNat (0xC0 + c.length)).toNat = 0xC0 + c.length :=
      UInt8.toNat_ofNat_of_lt (by unfold UInt8.size; omega)
    have hp : readPrefix (UInt8.ofNat (0xC0 + c.length)).toNat (c ++ rest) =
        .ok (.list, 1, c.length) := by
      rw [hb, readPrefix, if_neg (by omega), if_neg (by omega), if_neg (by omega),
        if_pos (by omega), Nat.add_sub_cancel_left]
    rw [List.singleton_append, List.cons_append, split_of_readKind (readKind_cons hp (by simp))]
    simp [Nat.add_comm 1]
  · -- a long list: the size bytes follow the prefix
    have hL1 := @one_le_length_sizeBytes c.length (by omega)
    have hL8 := length_sizeBytes_le h
    have hb : (UInt8.ofNat (0xF7 + (sizeBytes c.length).length)).toNat =
        0xF7 + (sizeBytes c.length).length :=
      UInt8.toNat_ofNat_of_lt (by unfold UInt8.size; omega)
    refine split_sizeBytes ?_
    rw [hb, readPrefix, if_neg (by omega), if_neg (by omega), if_neg (by omega),
      if_neg (by omega), Nat.add_sub_cancel_left, readSize_sizeBytes (by omega)]

/-- Only the canonical header of a list is split as one. -/
theorem eq_encodeListHeader_of_split {b c r : Bytes} (h : split b = .ok (.list, c, r)) :
    b = encodeListHeader c.length ++ c ++ r := by
  obtain ⟨ts, cs, hkind, rfl, rfl⟩ := split_eq_ok h
  obtain ⟨x, tl, rfl, hp, hfit⟩ := readKind_eq_ok hkind
  have hcases := readPrefix_eq_ok hp
  clear h hkind hp
  rcases hcases with ⟨-, h, -⟩ | ⟨-, -, h, -⟩ | ⟨-, -, h, -⟩ | ⟨hx1, hx2, -, rfl, hcs⟩ |
    ⟨hx, -, rfl, hs⟩
  · cases h
  · cases h
  · cases h
  · -- a short list: the prefix byte is 0xC0 plus the content size
    simp only [List.drop_succ_cons, List.drop_zero, Nat.add_comm 1]
    have hlen : (tl.take cs).length = cs := List.length_take_of_le (by omega)
    rw [encodeListHeader, hlen, if_pos (by omega), show 0xC0 + cs = x.toNat by omega,
      ofNat_toNat, List.singleton_append, List.cons_append, List.take_append_drop]
  · -- a long list: the size bytes are the canonical base-256 form of the content size
    obtain ⟨-, -, h56, -⟩ := readSize_eq_ok hs
    have hlen : ((tl.drop (x.toNat - 0xF7)).take cs).length = cs :=
      List.length_take_of_le (by simp; omega)
    rw [List.drop_succ_cons, Nat.add_right_comm, List.drop_succ_cons, encodeListHeader, hlen,
      if_neg (by omega), List.cons_append, List.cons_append, List.append_assoc, ← List.drop_drop,
      List.take_append_drop]
    exact cons_eq_of_readSize (by omega) hs

/-- `rlp.Split` gives back the payload `c` of a list, with the bytes `r` after it, exactly when
its input is the header of `c` followed by `c` and `r`: every payload shorter than 2^64 bytes
comes back whole, and no other header for it is accepted. -/
theorem split_eq_list_iff {b c r : Bytes} (hc : c.length < 256 ^ 8) :
    split b = .ok (.list, c, r) ↔ b = encodeListHeader c.length ++ c ++ r :=
  ⟨eq_encodeListHeader_of_split, fun h => h ▸ split_encodeListHeader r hc⟩

theorem split_eq_list_iff_sample :
    ([0x01] : Bytes).length < 256 ^ 8 ∧
      (split [0xC1, 0x01, 0x02] = .ok (.list, [0x01], [0x02]) ↔
        [0xC1, 0x01, 0x02] = encodeListHeader ([0x01] : Bytes).length ++ [0x01] ++ [0x02]) :=
  ⟨by decide, split_eq_list_iff (by decide)⟩

end PlasmaEvm.Rlp
