/-
**The inventory and the disk.**

`crates/discover` walks a working tree and hands every later stage an *inventory*: one entry per
regular file, with the stat fields the walk has already read.  The stages that need a file's bytes
go through `read_stable_file`, which reads through one handle and accepts the bytes only if `fstat`
says the same before and after.

The file system enters as a `Disk`: what `metadata` answers for a path, and what happens on each
attempt to open, stat, read and stat again.  A racing editor is a disk whose attempts differ.
-/

import Mathlib.Data.List.Basic

set_option autoImplicit false

namespace Greppy

/-- One file of the inventory.  The walk leaves a stat field empty when it could not read it. -/
structure InventoryEntry where
  relPath : String
  absPath : String
  size : Option UInt64
  mtimeNs : Option Int64
  ctimeNs : Option Int64
  fileId : Option UInt64
  deriving DecidableEq

/-- Metadata used to prove that bytes came from one stable file version. -/
structure StableFileMetadata where
  size : UInt64
  mtimeNs : Option Int64
  ctimeNs : Option Int64
  fileId : Option UInt64
  deriving DecidableEq

abbrev Bytes : Type := List UInt8

/-- What one attempt to read a file through a single handle sees. -/
structure ReadAttempt where
  before : StableFileMetadata
  isFile : Bool
  bytes : Bytes
  after : StableFileMetadata

/-- The file system: `std::fs::metadata`, and the attempts of `read_stable_file` in order. -/
structure Disk where
  metadata : String → Except String StableFileMetadata
  attempt : String → ℕ → Except String ReadAttempt

/-- `bytes.len() as u64`. -/
def lenU64 (bytes : Bytes) : UInt64 := UInt64.ofNat bytes.length

/-- The attempts of `read_stable_file` still left, the next being number `i`. -/
def readAttempts (disk : Disk) (path : String) :
    ℕ → ℕ → Except String (Bytes × StableFileMetadata)
  | 0, _ => .error s!"{path} changed while it was being read"
  | left + 1, i => do
      let a ← disk.attempt path i
      if !a.isFile then .error s!"{path} is not a regular file"
      else if a.before = a.after ∧ a.after.size = lenU64 a.bytes then .ok (a.bytes, a.after)
      else readAttempts disk path left (i + 1)

/-- `read_stable_file`: at most three attempts. -/
def readStableFile (disk : Disk) (path : String) : Except String (Bytes × StableFileMetadata) :=
  readAttempts disk path 3 0

/-- What is returned was read in one attempt that saw the same stat before and after. -/
theorem readStableFile_size {disk : Disk} {path : String} {bytes : Bytes}
    {md : StableFileMetadata} (h : readStableFile disk path = .ok (bytes, md)) :
    md.size = lenU64 bytes := by
  have key : ∀ left i, readAttempts disk path left i = .ok (bytes, md) → md.size = lenU64 bytes := by
    intro left
    induction left with
    | zero =>
      intro i h
      cases h
    | succ left ih =>
      intro i h
      simp only [readAttempts, bind, Except.bind] at h
      cases ha : disk.attempt path i with
      | error e => simp [ha] at h
      | ok a =>
        simp only [ha] at h
        split at h
        · cases h
        · split at h
          · rename_i hstable
            cases h
            exact hstable.2
          · exact ih (i + 1) h
  exact key 3 0 h

end Greppy
