import PlasmaEvm.Common.Types

/-!
# `admin_exportChain`

`ExportChain` writes the chain, or the blocks `first` to `last`, into a new file. It rejects a
`last` without a `first`, lets `last` default to the head of the chain, and refuses a path where
a file already exists: the path comes from the caller, so allowing an overwrite could be used
against any file the node can write.

The call never changes the file system when the path exists, never answers `false`, and answers
`true` exactly when it created the file and exported into it the requested blocks without
error.
-/

namespace PlasmaEvm

/-- What `ExportChain` reads and changes, over file-system states `φ` (packages `os`, `gzip`
and `core` are not among the sources): whether `os.Stat` succeeds on a path, `os.OpenFile`
creating or truncating a file, the chain's `Export` (`exportAll`) and `ExportN` writing into the
file, through a gzip writer when the flag is set, and the number of `CurrentHeader()`. -/
structure ExportOutput (φ : Type) where
  stat : φ → String → Bool
  openFile : φ → String → Except String φ
  exportAll : φ → String → Bool → φ × Option String
  exportN : φ → String → Bool → UInt64 → UInt64 → φ × Option String
  currentHeaderNumber : UInt64

/-- `ExportChain`. -/
def exportChain {φ : Type} (out : ExportOutput φ) (fs : φ) (file : String)
    (first last : Option UInt64) : Except String Bool × φ :=
  if first.isNone && last.isSome then (.error "last cannot be specified without first", fs)
  else
    let last := if first.isSome && last.isNone then some out.currentHeaderNumber else last
    if out.stat fs file then
      -- the file already exists; allowing overwrite could be a DoS vector
      (.error "location would overwrite an existing file", fs)
    else
      match out.openFile fs file with
      | .error err => (.error err, fs)
      | .ok fs =>
        let gz := file.endsWith ".gz"
        match first with
        | some first =>
          -- `last` is set here
          match out.exportN fs file gz first (last.getD 0) with
          | (fs, some err) => (.error err, fs)
          | (fs, none) => (.ok true, fs)
        | none =>
          match out.exportAll fs file gz with
          | (fs, some err) => (.error err, fs)
          | (fs, none) => (.ok true, fs)

/-- The end of `ExportChain`: an export into the created file answers `true` when it has no
error. -/
theorem export_result_eq_ok_iff {φ : Type} {r : φ × Option String} {b : Bool} {fs' : φ} :
    (match r with
      | (fs, some err) => ((.error err : Except String Bool), fs)
      | (fs, none) => (.ok true, fs)) = (.ok b, fs') ↔ b = true ∧ r = (fs', none) := by
  rcases r with ⟨fs, _ | err⟩ <;> simp [eq_comm]

/-- A file system that records the paths created in it, with exports that never fail. -/
def sampleOutput : ExportOutput (List String) where
  stat fs file := decide (file ∈ fs)
  openFile fs file := .ok (file :: fs)
  exportAll fs _ _ := (fs, none)
  exportN fs _ _ _ _ := (fs, none)
  currentHeaderNumber := 0

end PlasmaEvm
