import PlasmaEvm.Common.Types

/-!
# `admin_importChain`

`ImportChain` reads blocks from a file in batches of `cap(blocks) = 2500`: an inner loop decodes
blocks into the buffer until it is full or the stream ends, a batch whose blocks the chain
already has is skipped, any other is handed to `InsertChain`, and the buffer is emptied for the
next round. A decode error ends the import at once, naming the block's index; a failed insert
ends it naming the batch.

1. `fillBatch` is the inner loop; it consumes one decode result per block it buffers, so the
   outer loop `importBatches`, which only goes round again after buffering a block, ends.
2. `importSpec` says what the import does batch by batch, over `batches cap bs`, the slices
   `bs[cap·k .. min(cap·(k+1), n))` of the file.
3. `importBatches_blocks` and `importBatches_error`: on a file of blocks followed by `io.EOF`, and
   on one whose decoding fails at block `i`, the loop does what `importSpec` does on the batches
   of the file, or on the batches before the one holding block `i`.
4. What the import leaves in the chain, given what `InsertChain` does to it: every block of the
   file after a successful import, and after a decode error the blocks of the batches that went
   in before the import stopped (`importSpec_outcome`).
-/

namespace PlasmaEvm

/-- `types.Block` as `ImportChain` reads it: `b.Hash()` and `b.NumberU64()`. -/
structure Block where
  hash : Hash
  number : UInt64
deriving DecidableEq

/-- Modelled from the spec: `core.BlockChain` (package `core` is not among the sources), as
`ImportChain` uses it, over the chain's state `σ`. `insertChain` returns the state after the
insert and its error, if any. -/
structure BlockChain (σ : Type) where
  hasBlock : σ → Hash → UInt64 → Bool
  insertChain : σ → List Block → σ × Option String

/-- What one `stream.Decode(block)` gives. -/
inductive Decoded
  | block (b : Block)
  | eof
  | error (err : String)
deriving DecidableEq

/-- `stream.Decode`: the stream's next result, `io.EOF` on every call once it has ended. -/
def decode : List Decoded → Decoded × List Decoded
  | [] => (.eof, [])
  | d :: rest => (d, rest)

/-- `fmt.Errorf("block %d: failed to parse: %v", index, err)`. -/
def failedToParse (index : Nat) (err : String) : String :=
  "block " ++ toString index ++ ": failed to parse: " ++ err

/-- `fmt.Errorf("batch %d: failed to insert: %v", batch, err)`. -/
def failedToInsert (batch : Nat) (err : String) : String :=
  "batch " ++ toString batch ++ ": failed to insert: " ++ err

section Loop

variable {σ : Type} (chain : BlockChain σ)

/-- `hasAllBlocks`. -/
def hasAllBlocks (s : σ) : List Block → Bool
  | [] => true
  | b :: bs => if !chain.hasBlock s b.hash b.number then false else hasAllBlocks s bs

/-- A batch is skipped exactly when the chain has every one of its blocks. -/
theorem hasAllBlocks_eq_true_iff (s : σ) (bs : List Block) :
    hasAllBlocks chain s bs = true ↔ ∀ b ∈ bs, chain.hasBlock s b.hash b.number = true := by
  induction bs with
  | nil => simp [hasAllBlocks]
  | cons b bs ih => cases h : chain.hasBlock s b.hash b.number <;> simp [hasAllBlocks, h, ih]

/-- The inner loop `for len(blocks) < cap(blocks)`, `room` being `cap(blocks) - len(blocks)`:
the stream left, the buffer and the index of the next block. -/
def fillBatch : Nat → List Decoded → List Block → Nat →
    Except String (List Decoded × List Block × Nat)
  | 0, stream, blocks, index => .ok (stream, blocks, index)
  | room + 1, stream, blocks, index =>
    match decode stream with
    | (.eof, stream) => .ok (stream, blocks, index)
    | (.error err, _) => .error (failedToParse index err)
    | (.block b, stream) => fillBatch room stream (blocks ++ [b]) (index + 1)

/-- A decoded block goes into the buffer. -/
@[simp] theorem fillBatch_block (room : Nat) (b : Block) (ds : List Decoded) (acc : List Block)
    (index : Nat) :
    fillBatch (room + 1) (.block b :: ds) acc index =
      fillBatch room ds (acc ++ [b]) (index + 1) := rfl

/-- Each buffered block took one decode result off the stream. -/
theorem fillBatch_length {room : Nat} {stream rest : List Decoded} {acc blocks : List Block}
    {index index' : Nat} (h : fillBatch room stream acc index = .ok (rest, blocks, index')) :
    rest.length + blocks.length ≤ stream.length + acc.length := by
  induction room generalizing stream acc index with
  | zero => cases h; rfl
  | succ room ih =>
    match stream with
    | [] => cases h; simp
    | .eof :: ds => cases h; simp
    | .error err :: ds => cases h
    | .block b :: ds =>
      have := ih h
      simp only [List.length_append, List.length_singleton, List.length_cons,
        List.length_nil] at this ⊢
      omega

set_option linter.unusedVariables false in
/-- The outer loop `for batch := 0; ; batch++` of `ImportChain`, entered with an empty buffer;
`h` and `hb` are read by the termination proof. -/
def importBatches (cap batch : Nat) (stream : List Decoded) (index : Nat) (s : σ) :
    Except String Bool × σ :=
  match h : fillBatch cap stream [] index with
  | .error err => (.error err, s)
  | .ok (rest, blocks, index') =>
    if hb : blocks.length = 0 then (.ok true, s)
    else if hasAllBlocks chain s blocks then importBatches cap (batch + 1) rest index' s
    else
      match chain.insertChain s blocks with
      | (s', some err) => (.error (failedToInsert batch err), s')
      | (s', none) => importBatches cap (batch + 1) rest index' s'
termination_by stream.length
decreasing_by
  all_goals
    have := fillBatch_length h
    simp only [List.length_nil] at this
    omega

/-! ## One round of the outer loop -/

/-- What the import does with a buffered batch, `next` being how it goes on from a chain state:
skip the batch if the chain has all its blocks, hand it to `InsertChain` otherwise, and stop at
a failed insert. -/
def importStep (batch : Nat) (blocks : List Block) (s : σ)
    (next : σ → Except String Bool × σ) : Except String Bool × σ :=
  if hasAllBlocks chain s blocks then next s
  else
    match chain.insertChain s blocks with
    | (s', some err) => (.error (failedToInsert batch err), s')
    | (s', none) => next s'

section Round

variable {cap batch index index' : Nat} {stream rest : List Decoded} {s : σ}

/-- One round of the outer loop: fill the buffer, stop at a decode error or an empty buffer, and
go through `importStep` otherwise. -/
theorem importBatches_eq :
    importBatches chain cap batch stream index s =
      match fillBatch cap stream [] index with
      | .error err => (.error err, s)
      | .ok (rest, blocks, index') =>
        if blocks = [] then (.ok true, s)
        else importStep chain batch blocks s (importBatches chain cap (batch + 1) rest index') := by
  rw [importBatches]
  split
  · next heq => rw [heq]
  · next heq =>
    rw [heq]
    simp only [List.length_eq_zero, importStep]
    split <;> rfl

theorem importBatches_of_error {err : String} (h : fillBatch cap stream [] index = .error err) :
    importBatches chain cap batch stream index s = (.error err, s) := by
  rw [importBatches_eq, h]

theorem importBatches_of_eof (h : fillBatch cap stream [] index = .ok (rest, [], index')) :
    importBatches chain cap batch stream index s = (.ok true, s) := by
  rw [importBatches_eq, h]
  rfl

theorem importBatches_of_batch {blocks : List Block} (hne : blocks ≠ [])
    (h : fillBatch cap stream [] index = .ok (rest, blocks, index')) :
    importBatches chain cap batch stream index s =
      importStep chain batch blocks s (importBatches chain cap (batch + 1) rest index') := by
  rw [importBatches_eq, h]
  exact if_neg hne

end Round

/-! ## Filling the buffer from a file of blocks -/

section Fill

variable {bs : List Block} {acc : List Block} {index : Nat}

/-- With at least `room` blocks ahead, the buffer takes `room` of them. -/
theorem fillBatch_full (tail : List Decoded) :
    ∀ {room : Nat} {bs acc : List Block} {index : Nat}, room ≤ bs.length →
      fillBatch room (bs.map .block ++ tail) acc index =
        .ok ((bs.drop room).map .block ++ tail, acc ++ bs.take room, index + room)
  | 0, _, _, _, _ => by simp [fillBatch]
  | room + 1, b :: bs, acc, index, h => by
    rw [List.map_cons, List.cons_append, fillBatch_block, fillBatch_full tail (by simpa using h)]
    simp [Nat.add_assoc, Nat.add_comm 1 room]

/-- With fewer than `room` blocks before `io.EOF`, the buffer takes all of them and the `io.EOF`
ends the inner loop. -/
theorem fillBatch_eof {eofs : List Decoded} (heofs : ∀ d ∈ eofs, d = .eof) :
    ∀ {room : Nat} {bs acc : List Block} {index : Nat}, bs.length < room →
      fillBatch room (bs.map .block ++ eofs) acc index =
        .ok (eofs.tail, acc ++ bs, index + bs.length)
  | room + 1, [], acc, index, _ => by
    match eofs, heofs with
    | [], _ => simp [fillBatch, decode]
    | d :: es, heofs => simp [fillBatch, decode, heofs d (List.mem_cons_self d es)]
  | room + 1, b :: bs, acc, index, h => by
    rw [List.map_cons, List.cons_append, fillBatch_block, fillBatch_eof heofs (by simpa using h)]
    simp [Nat.add_right_comm index 1, Nat.add_assoc]

/-- A decode error before the buffer is full names the index of the failing block. -/
theorem fillBatch_error {err : String} {rest : List Decoded} :
    ∀ {room : Nat} {bs acc : List Block} {index : Nat}, bs.length < room →
      fillBatch room (bs.map .block ++ .error err :: rest) acc index =
        .error (failedToParse (index + bs.length) err)
  | room + 1, [], acc, index, _ => rfl
  | room + 1, b :: bs, acc, index, h => by
    rw [List.map_cons, List.cons_append, fillBatch_block, fillBatch_error (by simpa using h)]
    simp [Nat.add_right_comm index 1, Nat.add_assoc]

end Fill

end Loop

/-! ## Batches -/

/-- The batches `bs[cap·k .. min(cap·(k+1), n))` of a file of `n` blocks, in file order. -/
def batches (cap : Nat) (bs : List Block) : List (List Block) :=
  (List.range ((bs.length + cap - 1) / cap)).map fun k => (bs.drop (cap * k)).take cap

section Batches

variable {cap : Nat} (hcap : 0 < cap)

@[simp] theorem batches_nil (cap : Nat) : batches cap [] = [] := by
  rcases Nat.eq_zero_or_pos cap with rfl | h
  · rfl
  · simp [batches, Nat.div_eq_of_lt (Nat.sub_lt h Nat.zero_lt_one)]

include hcap

/-- A file that is not empty starts with a batch of its first `cap` blocks. -/
theorem batches_cons {bs : List Block} (hbs : bs ≠ []) :
    batches cap bs = bs.take cap :: batches cap (bs.drop cap) := by
  have hn : 0 < bs.length := List.length_pos.mpr hbs
  have hcount : (bs.length + cap - 1) / cap = ((bs.drop cap).length + cap - 1) / cap + 1 := by
    rw [List.length_drop]
    rcases Nat.lt_or_ge bs.length cap with hlt | hge
    · have h1 : (bs.length + cap - 1) / cap = 1 := Nat.div_eq_of_lt_le (by omega) (by omega)
      rw [h1, Nat.sub_eq_zero_of_le hlt.le, Nat.zero_add, Nat.div_eq_of_lt (by omega)]
    · rw [← Nat.add_div_right _ hcap]
      congr 1
      omega
  rw [batches, hcount, List.range_succ_eq_map, List.map_cons, List.map_map, batches]
  simp only [Nat.mul_zero, List.drop_zero, Function.comp_def, Nat.succ_eq_add_one, Nat.mul_succ,
    List.drop_drop, Nat.add_comm cap]

/-- Induction over a file one batch at a time. -/
theorem batch_induction {P : List Block → Prop} (nil : P [])
    (cons : ∀ bs, bs ≠ [] → P (bs.drop cap) → P bs) (bs : List Block) : P bs := by
  obtain ⟨n, hn⟩ : ∃ n, bs.length = n := ⟨_, rfl⟩
  induction n using Nat.strong_induction_on generalizing bs with
  | _ n ih =>
    by_cases hbs : bs = []
    · exact hbs ▸ nil
    · have hpos := List.length_pos.mpr hbs
      exact cons bs hbs (ih _ (by rw [← hn, List.length_drop]; omega) _ rfl)

/-- Every block of the file lies in one batch, in order. -/
theorem flatten_batches (bs : List Block) : (batches cap bs).flatten = bs := by
  induction bs using batch_induction hcap with
  | nil => simp
  | cons bs hbs ih => rw [batches_cons hcap hbs, List.flatten_cons, ih, List.take_append_drop]

/-- No batch is empty or longer than `cap`. -/
theorem mem_batches (bs : List Block) :
    ∀ c ∈ batches cap bs, c ≠ [] ∧ c.length ≤ cap := by
  induction bs using batch_induction hcap with
  | nil => simp
  | cons bs hbs ih =>
    rw [batches_cons hcap hbs]
    rintro c (_ | ⟨_, hc⟩)
    · have hpos := List.length_pos.mpr hbs
      exact ⟨List.ne_nil_of_length_pos (by rw [List.length_take]; omega),
        List.length_take_le _ _⟩
    · exact ih c hc

/-- The first `j` batches hold the first `cap·j` blocks of the file. -/
theorem flatten_take_batches (bs : List Block) :
    ∀ j, ((batches cap bs).take j).flatten = bs.take (cap * j) := by
  induction bs using batch_induction hcap with
  | nil => simp
  | cons bs hbs ih =>
    rintro (_ | j)
    · simp
    · rw [batches_cons hcap hbs, List.take_succ_cons, List.flatten_cons, ih, Nat.mul_succ,
        Nat.add_comm, List.take_add]

/-- The full batches of a file: all of them but a last one shorter than `cap`. -/
theorem batches_take_full {bs : List Block} (hge : cap ≤ bs.length) :
    batches cap (bs.take (cap * (bs.length / cap))) =
      bs.take cap :: batches cap ((bs.drop cap).take (cap * ((bs.drop cap).length / cap))) := by
  have htake : (bs.take cap).length = cap := List.length_take_of_le hge
  rw [Nat.div_eq_sub_div hcap hge, ← List.length_drop, Nat.mul_succ, Nat.add_comm, List.take_add,
    batches_cons hcap (List.ne_nil_of_length_pos (by rw [List.length_append, htake]; omega)),
    List.take_left' htake, List.drop_left' htake]

end Batches

/-! ## The import, batch by batch -/

section Spec

variable {σ : Type} (chain : BlockChain σ)

/-- `ImportChain` batch by batch: each batch in file order goes through `importStep`, and
`last` is the outcome once every batch is through. -/
def importSpec (last : Except String Bool) :
    Nat → List (List Block) → σ → Except String Bool × σ
  | _, [], s => (last, s)
  | batch, blocks :: rest, s => importStep chain batch blocks s (importSpec last (batch + 1) rest)

variable {cap : Nat} (hcap : 0 < cap)

include hcap

/-- On a file of blocks followed by `io.EOF`, the loop imports the file's batches. -/
theorem importBatches_blocks (bs : List Block) {eofs : List Decoded}
    (heofs : ∀ d ∈ eofs, d = .eof) (batch index : Nat) (s : σ) :
    importBatches chain cap batch (bs.map .block ++ eofs) index s =
      importSpec chain (.ok true) batch (batches cap bs) s := by
  induction bs using batch_induction hcap generalizing eofs batch index s with
  | nil =>
    have hfill : fillBatch cap (([] : List Block).map .block ++ eofs) [] index =
        .ok (eofs.tail, [], index) := by
      simpa using @fillBatch_eof eofs heofs cap [] [] index hcap
    rw [importBatches_of_eof chain hfill, batches_nil]
    rfl
  | cons bs hbs ih =>
    have hpos := List.length_pos.mpr hbs
    obtain ⟨eofs', index', heofs', hfill⟩ : ∃ eofs' index', (∀ d ∈ eofs', d = .eof) ∧
        fillBatch cap (bs.map .block ++ eofs) [] index =
          .ok ((bs.drop cap).map .block ++ eofs', bs.take cap, index') := by
      rcases Nat.lt_or_ge bs.length cap with hlt | hge
      · refine ⟨eofs.tail, index + bs.length,
          fun d hd => heofs d (List.mem_of_mem_tail hd), ?_⟩
        rw [fillBatch_eof heofs hlt, List.drop_eq_nil_of_le hlt.le, List.take_of_length_le hlt.le]
        rfl
      · exact ⟨eofs, index + cap, heofs, fillBatch_full eofs hge⟩
    rw [importBatches_of_batch chain
      (List.ne_nil_of_length_pos (by rw [List.length_take]; omega)) hfill,
      batches_cons hcap hbs, importSpec]
    congr 1
    funext s'
    exact ih heofs' _ _ s'

/-- When decoding fails at block `index + bs.length`, the loop imports the full batches before
the one holding it, and then reports the block. -/
theorem importBatches_error (bs : List Block) (err : String) (rest : List Decoded)
    (batch index : Nat) (s : σ) :
    importBatches chain cap batch (bs.map .block ++ .error err :: rest) index s =
      importSpec chain (.error (failedToParse (index + bs.length) err)) batch
        (batches cap (bs.take (cap * (bs.length / cap)))) s := by
  induction bs using batch_induction hcap generalizing batch index s with
  | nil =>
    rw [importBatches_of_error chain (@fillBatch_error err rest cap [] [] index hcap)]
    simp [importSpec]
  | cons bs hbs ih =>
    rcases Nat.lt_or_ge bs.length cap with hlt | hge
    · rw [importBatches_of_error chain (fillBatch_error hlt), Nat.div_eq_of_lt hlt, Nat.mul_zero,
        List.take_zero, batches_nil]
      rfl
    · have hlen : index + cap + (bs.drop cap).length = index + bs.length := by
        rw [List.length_drop]
        omega
      rw [importBatches_of_batch chain
        (List.ne_nil_of_length_pos (by rw [List.nil_append, List.length_take]; omega))
        (fillBatch_full (.error err :: rest) hge), batches_take_full hcap hge, importSpec]
      congr 1
      funext s'
      rw [ih, hlen]

end Spec

/-! ## `ImportChain` -/

/-- What `ImportChain` does to open its file: `os.Open`, `gzip.NewReader` for a name ending in
".gz", and the `rlp.Stream` over the reader, as the results of its `Decode` calls. -/
structure ImportInput (ρ : Type) where
  openFile : String → Except String ρ
  gzipReader : ρ → Except String ρ
  newStream : ρ → List Decoded

/-- The stream `ImportChain` decodes from `file`, or the error of opening it. -/
def ImportInput.stream {ρ : Type} (input : ImportInput ρ) (file : String) :
    Except String (List Decoded) :=
  match input.openFile file with
  | .error err => .error err
  | .ok reader =>
    match (if file.endsWith ".gz" then input.gzipReader reader else .ok reader) with
    | .error err => .error err
    | .ok reader => .ok (input.newStream reader)

/-- `ImportChain`, with the buffer `make([]*types.Block, 0, 2500)`. -/
def importChain {ρ σ : Type} (input : ImportInput ρ) (chain : BlockChain σ) (file : String)
    (s : σ) : Except String Bool × σ :=
  match input.stream file with
  | .error err => (.error err, s)
  | .ok stream => importBatches chain 2500 0 stream 0 s

theorem importChain_of_stream {ρ σ : Type} {input : ImportInput ρ} (chain : BlockChain σ)
    {file : String} {stream : List Decoded} (h : input.stream file = .ok stream) (s : σ) :
    importChain input chain file s = importBatches chain 2500 0 stream 0 s := by
  simp [importChain, h]

/-! ## Sample files -/

/-- A chain that holds the hashes of the blocks inserted into it and never fails an insert. -/
def sampleChain : BlockChain (List Hash) where
  hasBlock s h _ := decide (h ∈ s)
  insertChain s blocks := (s ++ blocks.map Block.hash, none)

/-- The block of `sampleInput`'s file. -/
def sampleBlock : Block := ⟨bytesToHash [1], 1⟩

/-- A file holding `sampleBlock`. -/
def sampleInput : ImportInput Unit where
  openFile _ := .ok ()
  gzipReader := .ok
  newStream _ := [.block sampleBlock, .eof]

theorem sampleInput_stream :
    sampleInput.stream "chain.rlp" = .ok ([sampleBlock].map .block ++ List.replicate 1 .eof) := by
  simp [ImportInput.stream, sampleInput]

/-- The message of a value that does not decode as a block. -/
def sampleParseError : String := "rlp: expected input list for types.extblock"

/-- One full batch of blocks. -/
def sampleBlocks : List Block := List.replicate 2500 sampleBlock

/-- A file whose value after a full batch of blocks is not a block. -/
def sampleBadInput : ImportInput Unit where
  openFile _ := .ok ()
  gzipReader := .ok
  newStream _ := sampleBlocks.map .block ++ [.error sampleParseError]

theorem sampleBadInput_stream :
    sampleBadInput.stream "chain.rlp" =
      .ok (sampleBlocks.map .block ++ [.error sampleParseError]) := by
  simp [ImportInput.stream, sampleBadInput]

/-- On a file of blocks followed by `io.EOF`, `ImportChain` ends having imported the file's
batches of 2500 in order, each skipped exactly when the chain has every one of its blocks; the
batches split the file with none empty or longer than 2500; and when decoding fails at block
`i`, the import ends with the error naming `i` after the batches before the one holding `i`. -/
theorem importChain_batches {ρ σ : Type} (input : ImportInput ρ) (chain : BlockChain σ)
    (file : String) (s : σ) (bs : List Block) :
    (∀ k : Nat, input.stream file = .ok (bs.map .block ++ List.replicate k .eof) →
      importChain input chain file s = importSpec chain (.ok true) 0 (batches 2500 bs) s) ∧
    (batches 2500 bs).flatten = bs ∧
    (∀ c ∈ batches 2500 bs, c ≠ [] ∧ c.length ≤ 2500) ∧
    (∀ s' c, hasAllBlocks chain s' c = true ↔
      ∀ b ∈ c, chain.hasBlock s' b.hash b.number = true) ∧
    ∀ (err : String) (rest : List Decoded),
      input.stream file = .ok (bs.map .block ++ .error err :: rest) →
      importChain input chain file s =
        importSpec chain (.error (failedToParse bs.length err)) 0
          (batches 2500 (bs.take (2500 * (bs.length / 2500)))) s := by
  have hcap : 0 < 2500 := by decide
  refine ⟨fun k hs => ?_, flatten_batches hcap bs, mem_batches hcap bs,
    hasAllBlocks_eq_true_iff chain, fun err rest hs => ?_⟩
  · rw [importChain_of_stream chain hs]
    exact importBatches_blocks chain hcap bs (fun d hd => List.eq_of_mem_replicate hd) 0 0 s
  · rw [importChain_of_stream chain hs]
    simpa using importBatches_error chain hcap bs err rest 0 0 s

theorem importChain_batches_sample :
    sampleInput.stream "chain.rlp" = .ok ([sampleBlock].map .block ++ List.replicate 1 .eof) ∧
    importChain sampleInput sampleChain "chain.rlp" [] =
      importSpec sampleChain (.ok true) 0 (batches 2500 [sampleBlock]) [] ∧
    sampleBadInput.stream "chain.rlp" =
      .ok (sampleBlocks.map .block ++ .error sampleParseError :: []) ∧
    importChain sampleBadInput sampleChain "chain.rlp" [] =
      importSpec sampleChain (.error (failedToParse sampleBlocks.length sampleParseError)) 0
        (batches 2500 (sampleBlocks.take (2500 * (sampleBlocks.length / 2500)))) [] :=
  have h := importChain_batches sampleInput sampleChain "chain.rlp" [] [sampleBlock]
  have h' := importChain_batches sampleBadInput sampleChain "chain.rlp" [] sampleBlocks
  ⟨sampleInput_stream, h.1 1 sampleInput_stream, sampleBadInput_stream,
    h'.2.2.2.2 sampleParseError [] sampleBadInput_stream⟩

/-! ## What an import leaves in the chain -/

section Effect

variable {σ : Type} (chain : BlockChain σ)

/-- The chain state `s'` holds every block that `s` holds. -/
def BlockChain.Extends (s s' : σ) : Prop :=
  ∀ h n, chain.hasBlock s h n = true → chain.hasBlock s' h n = true

/-- A successful `InsertChain` keeps the blocks the chain had and adds those it was handed. -/
def BlockChain.InsertsBlocks : Prop :=
  ∀ s blocks s', chain.insertChain s blocks = (s', none) →
    chain.Extends s s' ∧ ∀ b ∈ blocks, chain.hasBlock s' b.hash b.number = true

/-- `InsertChain` takes no block out of the chain, whether it succeeds or fails. -/
def BlockChain.KeepsBlocks : Prop :=
  ∀ s blocks, chain.Extends s (chain.insertChain s blocks).1

theorem BlockChain.Extends.refl (s : σ) : chain.Extends s s := fun _ _ => id

theorem BlockChain.Extends.trans {chain : BlockChain σ} {s₁ s₂ s₃ : σ}
    (h₁ : chain.Extends s₁ s₂) (h₂ : chain.Extends s₂ s₃) : chain.Extends s₁ s₃ :=
  fun h n hb => h₂ h n (h₁ h n hb)

/-- An import that goes through every batch and ends with `true` extends the chain by the
blocks of every batch. -/
theorem importSpec_ok (hins : chain.InsertsBlocks) :
    ∀ {batch : Nat} {cs : List (List Block)} {s s' : σ},
      importSpec chain (.ok true) batch cs s = (.ok true, s') →
        chain.Extends s s' ∧ ∀ c ∈ cs, ∀ b ∈ c, chain.hasBlock s' b.hash b.number = true
  | _, [], s, s', h => by
    cases h
    exact ⟨fun _ _ => id, by simp⟩
  | batch, c :: cs, s, s', h => by
    rw [importSpec, importStep] at h
    split at h
    · next hall =>
      obtain ⟨hext, hcs⟩ := importSpec_ok hins h
      refine ⟨hext, List.forall_mem_cons.mpr ⟨fun b hb => ?_, hcs⟩⟩
      exact hext _ _ ((hasAllBlocks_eq_true_iff chain s c).mp hall b hb)
    · split at h
      · cases h
      · next s₁ hinsert =>
        obtain ⟨hext₁, hc⟩ := hins s c s₁ hinsert
        obtain ⟨hext, hcs⟩ := importSpec_ok hins h
        exact ⟨hext₁.trans hext,
          List.forall_mem_cons.mpr ⟨fun b hb => hext _ _ (hc b hb), hcs⟩⟩

/-- Batches whose blocks the chain already holds are all skipped. -/
theorem importSpec_of_hasBlocks (last : Except String Bool) (s : σ) :
    ∀ {batch : Nat} {cs : List (List Block)},
      (∀ c ∈ cs, ∀ b ∈ c, chain.hasBlock s b.hash b.number = true) →
        importSpec chain last batch cs s = (last, s)
  | _, [], _ => rfl
  | batch, c :: cs, hall => by
    rw [List.forall_mem_cons] at hall
    rw [importSpec, importStep, if_pos ((hasAllBlocks_eq_true_iff chain s c).mpr hall.1),
      importSpec_of_hasBlocks last s hall.2]

variable {ρ : Type} {input : ImportInput ρ} {file : String} {bs : List Block} {k : Nat}

/-- When `ImportChain` reads a file of blocks and returns `true`, the chain holds every block of
the file and every block it held before. -/
theorem importChain_ok_extends (hins : chain.InsertsBlocks)
    (hs : input.stream file = .ok (bs.map .block ++ List.replicate k .eof)) {s s' : σ}
    (h : importChain input chain file s = (.ok true, s')) :
    chain.Extends s s' ∧ ∀ b ∈ bs, chain.hasBlock s' b.hash b.number = true := by
  rw [importChain_of_stream chain hs, importBatches_blocks chain (by decide) bs
    (fun d hd => List.eq_of_mem_replicate hd)] at h
  obtain ⟨hext, hall⟩ := importSpec_ok chain hins h
  refine ⟨hext, fun b hb => ?_⟩
  rw [← flatten_batches (show 0 < 2500 by decide) bs, List.mem_flatten] at hb
  obtain ⟨c, hc, hbc⟩ := hb
  exact hall c hc b hbc

theorem sampleChain_insertsBlocks : sampleChain.InsertsBlocks := by
  rintro s blocks s' ⟨⟩
  exact ⟨fun h _ hb => by simp_all [sampleChain],
    fun b hb => by simpa [sampleChain] using .inr ⟨b, hb, rfl⟩⟩

theorem importChain_ok_extends_sample :
    sampleChain.InsertsBlocks ∧
    sampleInput.stream "chain.rlp" = .ok ([sampleBlock].map .block ++ List.replicate 1 .eof) ∧
    importChain sampleInput sampleChain "chain.rlp" [] = (.ok true, [sampleBlock.hash]) ∧
    sampleChain.Extends [] [sampleBlock.hash] ∧
    ∀ b ∈ [sampleBlock], sampleChain.hasBlock [sampleBlock.hash] b.hash b.number = true :=
  have h : importChain sampleInput sampleChain "chain.rlp" [] = (.ok true, [sampleBlock.hash]) := by
    rw [importChain_of_stream sampleChain sampleInput_stream,
      importBatches_blocks sampleChain (by decide) _ (fun d hd => List.eq_of_mem_replicate hd)]
    decide
  ⟨sampleChain_insertsBlocks, sampleInput_stream, h,
    importChain_ok_extends sampleChain sampleChain_insertsBlocks sampleInput_stream h⟩

/-- Importing a file whose blocks the chain already holds hands no batch to `InsertChain`: it
returns `true` with the chain as it was. -/
theorem importChain_of_hasBlocks
    (hs : input.stream file = .ok (bs.map .block ++ List.replicate k .eof)) (s : σ)
    (hall : ∀ b ∈ bs, chain.hasBlock s b.hash b.number = true) :
    importChain input chain file s = (.ok true, s) := by
  rw [importChain_of_stream chain hs, importBatches_blocks chain (by decide) bs
    (fun d hd => List.eq_of_mem_replicate hd)]
  refine importSpec_of_hasBlocks chain _ s fun c hc b hb => hall b ?_
  rw [← flatten_batches (show 0 < 2500 by decide) bs]
  exact List.mem_flatten.mpr ⟨c, hc, hb⟩

theorem importChain_of_hasBlocks_sample :
    sampleInput.stream "chain.rlp" = .ok ([sampleBlock].map .block ++ List.replicate 1 .eof) ∧
    (∀ b ∈ [sampleBlock], sampleChain.hasBlock [sampleBlock.hash] b.hash b.number = true) ∧
    importChain sampleInput sampleChain "chain.rlp" [sampleBlock.hash] =
      (.ok true, [sampleBlock.hash]) :=
  have hall :
      ∀ b ∈ [sampleBlock], sampleChain.hasBlock [sampleBlock.hash] b.hash b.number = true := by
    decide
  ⟨sampleInput_stream, hall, importChain_of_hasBlocks sampleChain sampleInput_stream _ hall⟩

theorem sampleChain_keepsBlocks : sampleChain.KeepsBlocks := fun s blocks h _ hb => by
  simp_all [sampleChain]

/-! ## What a failed import leaves -/

/-- How an import from `s` over the batches `cs`, the first numbered `batch`, may end at `s'`
with `r`: with `last` once every batch went in, or with the failed insert of batch `batch + j`
once the `j` batches before it went in; the chain keeps its blocks either way. -/
def ImportOutcome (last : Except String Bool) (batch : Nat) (cs : List (List Block)) (s s' : σ)
    (r : Except String Bool) : Prop :=
  chain.Extends s s' ∧
    ((r = last ∧ ∀ b ∈ cs.flatten, chain.hasBlock s' b.hash b.number = true) ∨
     ∃ j < cs.length, ∃ err, r = .error (failedToInsert (batch + j) err) ∧
       ∀ b ∈ (cs.take j).flatten, chain.hasBlock s' b.hash b.number = true)

/-- A batch that went in before the rest of the import. -/
theorem ImportOutcome.cons {last : Except String Bool} {batch : Nat} {c : List Block}
    {cs : List (List Block)} {s s₁ s' : σ} {r : Except String Bool} (hext₁ : chain.Extends s s₁)
    (hc : ∀ b ∈ c, chain.hasBlock s₁ b.hash b.number = true)
    (h : ImportOutcome chain last (batch + 1) cs s₁ s' r) :
    ImportOutcome chain last batch (c :: cs) s s' r := by
  obtain ⟨hext, hout⟩ := h
  have hc' : ∀ b ∈ c, chain.hasBlock s' b.hash b.number = true := fun b hb => hext _ _ (hc b hb)
  refine ⟨hext₁.trans hext, ?_⟩
  rcases hout with ⟨rfl, hall⟩ | ⟨j, hj, err, rfl, hall⟩
  · rw [List.flatten_cons]
    exact .inl ⟨rfl, List.forall_mem_append.mpr ⟨hc', hall⟩⟩
  · refine .inr ⟨j + 1, Nat.succ_lt_succ hj, err, by rw [Nat.add_right_comm, Nat.add_assoc], ?_⟩
    rw [List.take_succ_cons, List.flatten_cons]
    exact List.forall_mem_append.mpr ⟨hc', hall⟩

/-- How a batch-by-batch import ends, given what `InsertChain` does to the chain. -/
theorem importSpec_outcome (hins : chain.InsertsBlocks) (hkeep : chain.KeepsBlocks)
    (last : Except String Bool) :
    ∀ {batch : Nat} {cs : List (List Block)} {s s' : σ} {r : Except String Bool},
      importSpec chain last batch cs s = (r, s') → ImportOutcome chain last batch cs s s' r
  | _, [], s, s', r, h => by
    cases h
    exact ⟨.refl chain s, .inl ⟨rfl, by simp⟩⟩
  | batch, c :: cs, s, s', r, h => by
    rw [importSpec, importStep] at h
    split at h
    · next hall =>
      exact .cons chain (.refl chain s) ((hasAllBlocks_eq_true_iff chain s c).mp hall)
        (importSpec_outcome hins hkeep last h)
    · split at h
      · next s₁ err hi =>
        cases h
        have hk := hkeep s c
        rw [hi] at hk
        exact ⟨hk, .inr ⟨0, by simp, err, rfl, by simp⟩⟩
      · next s₁ hi =>
        obtain ⟨hext₁, hc⟩ := hins s c s₁ hi
        exact .cons chain hext₁ hc (importSpec_outcome hins hkeep last h)

/-- When decoding fails at block `i` of the file, `ImportChain` ends either with that parse
error, the chain then holding every block of the full batches before block `i`, or with the
failed insert of an earlier batch `j`, the chain then holding the `2500·j` blocks before it. -/
theorem importChain_parse_error (hins : chain.InsertsBlocks) (hkeep : chain.KeepsBlocks)
    {err : String} {rest : List Decoded}
    (hs : input.stream file = .ok (bs.map .block ++ .error err :: rest)) {s s' : σ}
    {r : Except String Bool} (h : importChain input chain file s = (r, s')) :
    chain.Extends s s' ∧
      ((r = .error (failedToParse bs.length err) ∧
        ∀ b ∈ bs.take (2500 * (bs.length / 2500)), chain.hasBlock s' b.hash b.number = true) ∨
       ∃ j < bs.length / 2500, ∃ e, r = .error (failedToInsert j e) ∧
         ∀ b ∈ bs.take (2500 * j), chain.hasBlock s' b.hash b.number = true) := by
  have hcap : 0 < 2500 := by decide
  rw [importChain_of_stream chain hs, importBatches_error chain hcap, Nat.zero_add] at h
  obtain ⟨hext, hout⟩ := importSpec_outcome chain hins hkeep _ h
  refine ⟨hext, ?_⟩
  rcases hout with ⟨rfl, hall⟩ | ⟨j, hj, e, rfl, hall⟩
  · rw [flatten_batches hcap] at hall
    exact .inl ⟨rfl, hall⟩
  · -- the batches before block `i` are its `i / 2500` full ones
    have hlen : (bs.take (2500 * (bs.length / 2500))).length = 2500 * (bs.length / 2500) :=
      List.length_take_of_le (Nat.mul_div_le _ _)
    simp only [batches, List.length_map, List.length_range, hlen] at hj
    rw [flatten_take_batches hcap, List.take_take, min_eq_left (by omega)] at hall
    exact .inr ⟨j, by omega, e, by rw [Nat.zero_add], hall⟩

/-- The full batch before the failing value goes in, then the import reports the value. -/
theorem importChain_sampleBadInput :
    importChain sampleBadInput sampleChain "chain.rlp" [] =
      (.error (failedToParse sampleBlocks.length sampleParseError),
        sampleBlocks.map Block.hash) := by
  have hlen : sampleBlocks.length = 2500 := List.length_replicate _ _
  have hfull : sampleBlocks.take (2500 * (sampleBlocks.length / 2500)) = sampleBlocks :=
    List.take_of_length_le (by rw [hlen])
  have hb : batches 2500 sampleBlocks = [sampleBlocks] := by
    rw [batches_cons (by decide) (List.ne_nil_of_length_pos (by rw [hlen]; decide)),
      List.take_of_length_le (by rw [hlen]), List.drop_eq_nil_of_le (by rw [hlen]), batches_nil]
  -- the chain holds none of the batch, so the batch is handed to `InsertChain`
  have hall : hasAllBlocks sampleChain [] sampleBlocks = false := by
    rw [Bool.eq_false_iff, Ne, hasAllBlocks_eq_true_iff]
    exact fun h => absurd (h sampleBlock (List.mem_replicate.mpr ⟨by decide, rfl⟩)) (by decide)
  rw [importChain_of_stream sampleChain sampleBadInput_stream,
    importBatches_error sampleChain (by decide), hfull, hb, Nat.zero_add, importSpec, importStep,
    if_neg (by rw [hall]; decide)]
  rfl

theorem importChain_parse_error_sample :
    sampleChain.InsertsBlocks ∧ sampleChain.KeepsBlocks ∧
    sampleBadInput.stream "chain.rlp" =
      .ok (sampleBlocks.map .block ++ .error sampleParseError :: []) ∧
    importChain sampleBadInput sampleChain "chain.rlp" [] =
      (.error (failedToParse sampleBlocks.length sampleParseError),
        sampleBlocks.map Block.hash) ∧
    sampleChain.Extends [] (sampleBlocks.map Block.hash) ∧
      ((.error (failedToParse sampleBlocks.length sampleParseError) =
          (.error (failedToParse sampleBlocks.length sampleParseError) : Except String Bool) ∧
        ∀ b ∈ sampleBlocks.take (2500 * (sampleBlocks.length / 2500)),
          sampleChain.hasBlock (sampleBlocks.map Block.hash) b.hash b.number = true) ∨
       ∃ j < sampleBlocks.length / 2500, ∃ e,
         (.error (failedToParse sampleBlocks.length sampleParseError) : Except String Bool) =
           .error (failedToInsert j e) ∧
         ∀ b ∈ sampleBlocks.take (2500 * j),
           sampleChain.hasBlock (sampleBlocks.map Block.hash) b.hash b.number = true) :=
  ⟨sampleChain_insertsBlocks, sampleChain_keepsBlocks, sampleBadInput_stream,
    importChain_sampleBadInput,
    importChain_parse_error sampleChain sampleChain_insertsBlocks sampleChain_keepsBlocks
      sampleBadInput_stream importChain_sampleBadInput⟩

end Effect

end PlasmaEvm
