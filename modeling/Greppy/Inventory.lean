/-
**The inventory of a working tree.**

`walk_with_policy_and_overrides` (`crates/discover/src/lib.rs`) makes the inventory that every later stage
starts from.  The `ignore` crate walks the tree and hands out what no ignore file excludes; the loop here
drops what is no regular file, what lies in a directory that is never indexed, and what the policy skips
by its name or its size, and sorts the rest by the path that is shown.

The rules about directories are tried on the segments of the shown path.  The file's own name is such a
segment, and so is each piece of a name that shows a backslash, since the path is rewritten to forward
slashes.  A name that is no UTF-8 shows with U+FFFD, and its file is tested under the empty name.
-/

import Greppy.CacheManifest
import Greppy.Fingerprint

set_option autoImplicit false

namespace Greppy

/-! ### The skip policy -/

def alwaysSkipDirs : List String := [".git", "target", ".vendor", ".greppy"]

def generatedDirs : List String :=
  [".hg", ".svn", ".worktrees",
    ".idea", ".vs", ".vscode", ".eclipse", ".claude",
    ".cache", ".eggs", ".mypy_cache", ".nox", ".pytest_cache", ".ruff_cache", ".tox", ".venv",
    "__pycache__", "htmlcov", "site-packages", "venv",
    ".npm", ".nyc_output", ".pnpm-store", ".yarn", "bower_components", "coverage", "node_modules",
    ".next", ".nuxt", ".svelte-kit", ".angular", ".turbo", ".parcel-cache", ".docusaurus", ".expo",
    "dist", "obj", "Pods", ".terraform", ".serverless", "bazel-bin", "bazel-out", "bazel-testlogs",
    "build",
    ".cargo", ".stack-work", ".dart_tool", "zig-cache", "zig-out", ".metals", ".bloop", ".bsp",
    ".ccls-cache", ".clangd", "elm-stuff", "_opam", ".cpcache", ".shadow-cljs",
    ".vercel", ".netlify",
    ".qdrant_code_embeddings", "vendor", "vendored"]

def ignoredSuffixes : List String :=
  [".tmp", "~", ".swp", ".bak", ".orig",
    ".pyc", ".pyo", ".o", ".a", ".so", ".dll", ".dylib", ".class", ".wasm", ".node", ".exe",
    ".rlib", ".elc", ".beam",
    ".png", ".jpg", ".jpeg", ".gif", ".ico", ".bmp", ".tiff", ".webp", ".svg",
    ".woff", ".woff2", ".ttf", ".eot", ".otf",
    ".bin", ".dat", ".db", ".sqlite", ".sqlite3", ".parquet", ".avro", ".pb",
    ".zip", ".tar", ".gz", ".bz2", ".xz", ".rar", ".7z", ".jar", ".war", ".ear",
    ".min.js", ".min.css", ".map",
    ".pem", ".crt", ".key", ".cer", ".p12"]

def generatedPatterns : List String :=
  [".d.ts", ".bundle.", ".chunk.", ".generated.", ".pb.go", "_pb2.py", ".pb2.py", "_grpc.pb.go"]

def defaultMaxFileSize : UInt64 := 2 * 1024 * 1024

/-- The skip heuristics that run in addition to the ignore files. -/
structure SkipPolicy where
  skipGeneratedDirs : Bool
  skipIgnoredSuffixes : Bool
  skipGeneratedPatterns : Bool
  maxFileSize : Option UInt64
  deriving DecidableEq

namespace SkipPolicy

/-- `SkipPolicy::default`. -/
def default : SkipPolicy := ⟨true, true, true, some defaultMaxFileSize⟩

/-- `SkipPolicy::walk_default`. -/
def walkDefault : SkipPolicy := ⟨true, false, false, none⟩

/-- `SkipPolicy::unrestricted`. -/
def unrestricted : SkipPolicy := ⟨false, false, false, none⟩

end SkipPolicy

def isGeneratedDir (name : List Char) : Bool := decide (name ∈ generatedDirs.map String.toList)

def isIgnoredFile (name : List Char) : Bool :=
  let lower := name.map Char.toLower
  ignoredSuffixes.any fun suf => suf.toList.isSuffixOf lower

def matchesGeneratedPattern (name : List Char) : Bool :=
  generatedPatterns.any fun p => decide (p.toList <:+: name)

/-- `SkipPolicy::should_skip_dir_component`. -/
def SkipPolicy.shouldSkipDirComponent (policy : SkipPolicy) (rel : List Char) : Bool :=
  if !policy.skipGeneratedDirs then false else (splitOnChar '/' rel).any isGeneratedDir

/-- `SkipPolicy::should_skip_file`. -/
def SkipPolicy.shouldSkipFile (policy : SkipPolicy) (name : List Char) (size : Option UInt64) : Bool :=
  if policy.skipIgnoredSuffixes && isIgnoredFile name then true
  else if policy.skipGeneratedPatterns && matchesGeneratedPattern name then true
  else
    match policy.maxFileSize, size with
    | some cap, some sz => decide (cap < sz)
    | _, _ => false

def hasSkippedDirComponent (rel : List Char) : Bool :=
  (splitOnChar '/' rel).any fun seg => decide (seg ∈ alwaysSkipDirs.map String.toList)

/-- The loop of `is_store_rel_path`: a segment `store` with 16 hexadecimal digits behind it. -/
def storeSegments : List (List Char) → Bool
  | [] => false
  | s :: segs => (decide (s = "store".toList) && segs.head?.any (isHexId 16)) || storeSegments segs

def isStoreRelPath (rel : List Char) : Bool := storeSegments (splitOnChar '/' rel)

/-! ### What the walker hands out -/

/-- The byte `/`. -/
def slash : UInt8 := 0x2F

/-- The name of an entry of a directory. -/
abbrev FileName : Type :=
  {name : Bytes // name ≠ [] ∧ slash ∉ name ∧ name ≠ [0x2E] ∧ name ≠ [0x2E, 0x2E]}

inductive FileType
  | file
  | dir
  | symlink
  | other
  deriving DecidableEq

/-- What `symlink_metadata` answers; `modified` is in nanoseconds since the epoch. -/
structure Metadata where
  fileType : FileType
  len : UInt64
  modified : Option ℤ
  ctime : Int64
  ctimeNsec : Int64
  ino : UInt64

/-- An entry the walker hands out: the names that lead to it from the root, the type the walker knows, and
what a stat of it answers, if it answers. -/
structure DirEntry where
  below : List FileName
  fileType : Option FileType
  lstat : Option Metadata

def readable (items : List (Except String DirEntry)) : List DirEntry := items.filterMap Except.toOption

/-- What a walk hands out: every entry once, and the files below the root. -/
structure Walk where
  items : List (Except String DirEntry)
  distinct : ((readable items).map DirEntry.below).Nodup
  rooted : ∀ d ∈ readable items, d.fileType = some .file → d.below ≠ []

def Walk.entries (w : Walk) : List DirEntry := readable w.items

/-- The part of the `ignore` crate that is used: whether it accepts a glob, the overrides it builds, and
the walk with or without the ignore files above the root. -/
structure IgnoreCrate (Override : Type) where
  add : String → Except String Unit
  build : List String → Except String Override
  walk : Bool → Option Override → Walk

/-! ### The inventory -/

/-- An `InventoryEntry` as the walk makes it, its path being one of bytes. -/
structure WalkEntry where
  relPath : String
  absPath : List Bytes
  size : Option UInt64
  mtimeNs : Option Int64
  ctimeNs : Option Int64
  fileId : Option UInt64
  deriving DecidableEq

/-- `mtime_ns` of `metadata_fields`: what does not fit into 64 bits is cut to the nearest that does. -/
def saturatedNs (t : ℤ) : Int64 :=
  if 0 ≤ t then (if t < 2 ^ 63 then Int64.ofInt t else Int64.maxValue)
  else if -t < 2 ^ 63 then -Int64.ofInt (-t) else Int64.minValue

def checkedI64 (n : ℤ) : Option Int64 :=
  if -2 ^ 63 ≤ n ∧ n < 2 ^ 63 then some (Int64.ofInt n) else none

def unixIdentityFields (m : Metadata) : Option Int64 × Option UInt64 :=
  ((checkedI64 (m.ctime.toInt * 1000000000)).bind fun v => checkedI64 (v.toInt + m.ctimeNsec.toInt),
    some m.ino)

def metadataFields (m : Metadata) : Option UInt64 × Option Int64 × Option Int64 × Option UInt64 :=
  (some m.len, m.modified.map saturatedNs, unixIdentityFields m)

/-- The path below the root, as it is shown: `to_string_lossy`, and `/` for every `\`. -/
def relString (below : List FileName) : List Char :=
  (Utf8.lossy ([slash].intercalate (below.map Subtype.val))).map fun c => if c = '\\' then '/' else c

/-- `Path::file_name`. -/
def DirEntry.name (d : DirEntry) : Bytes := (d.below.getLast?.map Subtype.val).getD []

/-- The name that is tested: the empty one for a name that is no UTF-8. -/
def DirEntry.testedName (d : DirEntry) : List Char := (Utf8.decode d.name).getD []

def DirEntry.size (d : DirEntry) : Option UInt64 := d.lstat.map Metadata.len

/-- The entry of the inventory for a file. -/
def DirEntry.toEntry (root : List Bytes) (d : DirEntry) : WalkEntry :=
  let (size, mtimeNs, ctimeNs, fileId) := (d.lstat.map metadataFields).getD (none, none, none, none)
  { relPath := String.ofList (relString d.below)
    absPath := root ++ d.below.map Subtype.val
    size
    mtimeNs
    ctimeNs
    fileId }

def visit (root : List Bytes) (policy : SkipPolicy) (d : DirEntry) : Option WalkEntry :=
  match d.fileType with
  | none => none
  | some ftype =>
    if ftype = .symlink then none
    else if ftype ≠ .file then none
    else
      -- the walker's paths begin with the root, so `strip_prefix` leaves what lies below it
      let rel := relString d.below
      if hasSkippedDirComponent rel then none
      else if policy.shouldSkipDirComponent rel then none
      else if isStoreRelPath rel then none
      else if d.lstat.any fun m => decide (m.fileType = .symlink) then none
      else if policy.shouldSkipFile d.testedName d.size then none
      else some (d.toEntry root)

def inventory (root : List Bytes) (policy : SkipPolicy) (items : List (Except String DirEntry)) :
    List WalkEntry :=
  ((readable items).filterMap (visit root policy)).insertionSort fun a b => a.relPath ≤ b.relPath

/-- `WalkOverrides::is_empty`. -/
def WalkOverrides.isEmpty (o : WalkOverrides) : Bool := o.includes.isEmpty && o.excludes.isEmpty

section

variable {Override : Type} (ignore : IgnoreCrate Override)

/-- A loop of `build_ignore_overrides`; `kind` is the word in its message. -/
def addGlobs (kind : String) (pattern : String → String) : List String → Except String (List String)
  | [] => .ok []
  | glob :: globs =>
    match ignore.add (pattern glob) with
    | .error e => .error s!"invalid {kind} override `{glob}`: {e}"
    | .ok () => (addGlobs kind pattern globs).map (pattern glob :: ·)

def buildIgnoreOverrides (o : WalkOverrides) : Except String Override := do
  let includes ← addGlobs ignore "include" id o.includes
  let excludes ← addGlobs ignore "exclude" (fun g => "!" ++ g) o.excludes
  match ignore.build (includes ++ excludes) with
  | .error e => .error s!"invalid walk overrides: {e}"
  | .ok ov => .ok ov

def walkerOverrides (o : WalkOverrides) : Except String (Option Override) :=
  if !o.isEmpty then (buildIgnoreOverrides ignore o).map some else .ok none

/-- `walk_with_policy_and_overrides`; `gitExists` says whether the root has an entry `.git`. -/
def walkWithPolicyAndOverrides (gitExists : Bool) (root : List Bytes) (policy : SkipPolicy)
    (overrides : WalkOverrides) : Except String (List WalkEntry) := do
  let ov ← walkerOverrides ignore overrides
  return inventory root policy (ignore.walk (!gitExists) ov).items

end

/-! ### What the rules say -/

/-- The rule about directories, on the names that lead to a file: a directory that is never indexed, a
generated one where the policy says so, or a store. -/
inductive SkippedDir (policy : SkipPolicy) (names : List (List Char)) : Prop
  | always {name : List Char} (hmem : name ∈ names) (h : name ∈ alwaysSkipDirs.map String.toList)
  | generated {name : List Char} (hpolicy : policy.skipGeneratedDirs = true) (hmem : name ∈ names)
      (h : name ∈ generatedDirs.map String.toList)
  | store {id : List Char} (hmem : ["store".toList, id] <:+: names) (h : isHexId 16 id = true)

/-- A name as it is shown.  The rules name directories in ASCII, and only those bytes show as such a name
(`Utf8.lossy_inj_of_clean`). -/
def FileName.shown (name : FileName) : List Char := Utf8.lossy name.val

/-- The directories below the root that a file lies in. -/
def DirEntry.parents (d : DirEntry) : List FileName := d.below.dropLast

/-- A regular file that is no symbolic link. -/
def DirEntry.IsFile (d : DirEntry) : Prop :=
  d.fileType = some .file ∧ ∀ m ∈ d.lstat, m.fileType ≠ .symlink

/-- **What the rules keep**: a regular file that lies in no skipped directory and that the policy does not
skip by its name or its size. -/
structure KeptFile (policy : SkipPolicy) (d : DirEntry) : Prop where
  file : d.IsFile
  parents : ¬ SkippedDir policy (d.parents.map FileName.shown)
  name : policy.shouldSkipFile (Utf8.lossy d.name) d.size = false

/-- **An exact inventory**: the entries of the files that are kept, sorted by paths that are distinct. -/
structure IsInventory (root : List Bytes) (policy : SkipPolicy) (w : Walk) (entries : List WalkEntry) :
    Prop where
  mem_iff : ∀ e, e ∈ entries ↔ ∃ d ∈ w.entries, KeptFile policy d ∧ d.toEntry root = e
  sorted : entries.Pairwise fun a b => a.relPath < b.relPath

/-! ### Shown paths -/

/-- The segments of a shown path: the pieces of the names between their backslashes. -/
def segments (below : List FileName) : List (List Char) :=
  below.flatMap fun name => splitOnChar '\\' name.shown

theorem slash_notMem_shown (name : FileName) : '/' ∉ name.shown := by
  intro hmem
  exact name.property.2.1 (Utf8.mem_of_mem_lossy (by decide) hmem)

theorem lossy_intercalate (names : List Bytes) :
    Utf8.lossy ([slash].intercalate names) = ['/'].intercalate (names.map Utf8.lossy) := by
  induction names with
  | nil => rfl
  | cons name names ih =>
    cases names with
    | nil => simp
    | cons next rest =>
      have hslash : Char.ofNat slash.toNat = '/' := by decide
      rw [List.intercalate_cons_cons, List.append_assoc, List.singleton_append,
        Utf8.lossy_append_ascii (by decide), ih, hslash]
      simp only [List.map_cons, List.intercalate_cons_cons, List.append_assoc, List.singleton_append]

theorem map_intercalate {α β : Type} (f : α → β) (x : α) (ls : List (List α)) :
    ([x].intercalate ls).map f = [f x].intercalate (ls.map fun l => l.map f) := by
  induction ls with
  | nil => rfl
  | cons l ls ih =>
    cases ls with
    | nil => simp
    | cons next rest =>
      rw [List.intercalate_cons_cons, List.map_append, List.map_append, ih]
      simp only [List.map_cons, List.intercalate_cons_cons]
      rfl

variable {below : List FileName} {d : DirEntry} {policy : SkipPolicy}

/-- **The segments of a shown path.** -/
theorem splitOnChar_relString (h : below ≠ []) :
    splitOnChar '/' (relString below) = segments below := by
  have hmap : relString below =
      ['/'].intercalate (below.map fun name => name.shown.map fun c => if c = '\\' then '/' else c) := by
    have hkeep : (if '/' = '\\' then '/' else '/') = '/' := rfl
    rw [relString, lossy_intercalate, map_intercalate, hkeep, List.map_map, List.map_map]
    rfl
  rw [hmap, splitOnChar_intercalate '/' (by simpa using h), segments, List.flatMap_map]
  exact List.flatMap_congr fun name _ => splitOnChar_replace (slash_notMem_shown name)

theorem relString_eq_iff {below' : List FileName} (h : below ≠ []) (h' : below' ≠ []) :
    relString below = relString below' ↔ segments below = segments below' := by
  rw [← splitOnChar_relString h, ← splitOnChar_relString h']
  constructor
  · intro heq
    rw [heq]
  · exact splitOnChar_inj

/-- A backslash in a name shows like a directory. -/
example : relString [⟨Utf8.encode "a\\b".toList, by decide⟩] =
    relString [⟨Utf8.encode "a".toList, by decide⟩, ⟨Utf8.encode "b".toList, by decide⟩] := by
  decide

/-! ### The tests on a shown path -/

theorem storeSegments_iff (names : List (List Char)) :
    storeSegments names = true ↔ ∃ id, ["store".toList, id] <:+: names ∧ isHexId 16 id = true := by
  induction names with
  | nil => simp [storeSegments]
  | cons s names ih =>
    rw [storeSegments, Bool.or_eq_true, Bool.and_eq_true, decide_eq_true_iff, ih]
    constructor
    · rintro (⟨rfl, hhead⟩ | ⟨id, hmem, hid⟩)
      · cases names with
        | nil => cases hhead
        | cons id rest => exact ⟨id, ⟨[], rest, rfl⟩, hhead⟩
      · exact ⟨id, List.infix_cons hmem, hid⟩
    · rintro ⟨id, hmem, hid⟩
      rcases List.infix_cons_iff.1 hmem with hfront | hlater
      · -- the pair stands at the front
        obtain ⟨rfl, hid'⟩ := List.cons_prefix_cons.1 hfront
        obtain ⟨rest, rfl⟩ := hid'
        exact Or.inl ⟨rfl, hid⟩
      · exact Or.inr ⟨id, hlater, hid⟩

/-- **The three tests on a shown path are the rule about directories, on its segments.** -/
theorem skippedDir_iff (policy : SkipPolicy) (rel : List Char) :
    SkippedDir policy (splitOnChar '/' rel) ↔
      hasSkippedDirComponent rel = true ∨ policy.shouldSkipDirComponent rel = true ∨
        isStoreRelPath rel = true := by
  have hgenerated : policy.shouldSkipDirComponent rel = true ↔
      policy.skipGeneratedDirs = true ∧
        ∃ name ∈ splitOnChar '/' rel, name ∈ generatedDirs.map String.toList := by
    rw [SkipPolicy.shouldSkipDirComponent]
    cases policy.skipGeneratedDirs with
    | false => simp
    | true => simp [isGeneratedDir]
  rw [hasSkippedDirComponent, hgenerated, isStoreRelPath, storeSegments_iff, List.any_eq_true]
  constructor
  · intro h
    cases h with
    | always hmem h => exact Or.inl ⟨_, hmem, decide_eq_true h⟩
    | generated hpolicy hmem h => exact Or.inr (Or.inl ⟨hpolicy, _, hmem, h⟩)
    | store hmem h => exact Or.inr (Or.inr ⟨_, hmem, h⟩)
  · rintro (⟨name, hmem, h⟩ | ⟨hpolicy, name, hmem, h⟩ | ⟨id, hmem, h⟩)
    · exact SkippedDir.always hmem (of_decide_eq_true h)
    · exact SkippedDir.generated hpolicy hmem h
    · exact SkippedDir.store hmem h

structure Visited (policy : SkipPolicy) (d : DirEntry) : Prop where
  file : d.IsFile
  segments : ¬ SkippedDir policy (segments d.below)
  name : policy.shouldSkipFile d.testedName d.size = false

theorem lstat_any_symlink (d : DirEntry) :
    (d.lstat.any fun m => decide (m.fileType = .symlink)) = true ↔
      ¬ ∀ m ∈ d.lstat, m.fileType ≠ .symlink := by
  cases d.lstat with
  | none => simp
  | some m => simp

/-- **The loop keeps a file exactly when no test stops it.** -/
theorem visit_eq_some_iff (root : List Bytes) (policy : SkipPolicy)
    (hd : d.fileType = some .file → d.below ≠ []) (e : WalkEntry) :
    visit root policy d = some e ↔ Visited policy d ∧ d.toEntry root = e := by
  constructor
  · intro h
    unfold visit at h
    split at h
    · cases h
    · rename_i ftype htype
      dsimp only at h
      split_ifs at h with hlink hfile hskipped hgenerated hstore hstat hname
      · cases h
        have hft : ftype = .file := by simpa using hfile
        subst hft
        have hstat' : ∀ m ∈ d.lstat, m.fileType ≠ .symlink := by
          by_contra hcon
          exact hstat ((lstat_any_symlink d).2 hcon)
        refine ⟨⟨⟨htype, hstat'⟩, ?_, by simpa using hname⟩, rfl⟩
        rw [← splitOnChar_relString (hd htype), skippedDir_iff]
        simp [hskipped, hgenerated, hstore]
  · rintro ⟨⟨⟨htype, hstat⟩, hsegs, hname⟩, rfl⟩
    rw [← splitOnChar_relString (hd htype), skippedDir_iff, not_or, not_or] at hsegs
    have hstat' : ¬ (d.lstat.any fun m => decide (m.fileType = .symlink)) = true := by
      intro hany
      exact (lstat_any_symlink d).1 hany hstat
    unfold visit
    rw [htype]
    simp only [hsegs.1, hsegs.2.1, hsegs.2.2, hstat', hname]
    rfl

/-! ### When the inventory is exact -/

/-- **The names of a walk are plain**: no piece of the name of a file that is kept is taken for a directory
of the rules, the policy does not skip by its shown name a file that it tests under the empty one, and no
two files that are kept show the same names. -/
structure PlainNames (policy : SkipPolicy) (w : Walk) : Prop where
  pieces : ∀ d ∈ w.entries, KeptFile policy d → ¬ SkippedDir policy (segments d.below)
  unreadable : ∀ d ∈ w.entries, d.IsFile → ¬ SkippedDir policy (segments d.below) →
    Utf8.decode d.name = none → policy.shouldSkipFile [] d.size = false →
      policy.shouldSkipFile (Utf8.lossy d.name) d.size = false
  apart : ∀ d ∈ w.entries, ∀ d' ∈ w.entries, KeptFile policy d → KeptFile policy d' →
    segments d.below = segments d'.below → d = d'

theorem not_backslash_of_ruled {name : List Char}
    (h : name ∈ alwaysSkipDirs.map String.toList ∨ name ∈ generatedDirs.map String.toList) :
    '\\' ∉ name := by
  have halways : ∀ n ∈ alwaysSkipDirs.map String.toList, '\\' ∉ n := by decide
  have hgenerated : ∀ n ∈ generatedDirs.map String.toList, '\\' ∉ n := by decide
  rcases h with h | h
  · exact halways name h
  · exact hgenerated name h

theorem not_backslash_of_isHexId {id : List Char} (h : isHexId 16 id = true) : '\\' ∉ id := by
  rw [isHexId, Bool.and_eq_true, List.all_eq_true] at h
  intro hmem
  have hdigit := h.2 _ hmem
  exact absurd hdigit (by decide)

theorem splitOnChar_shown {name : FileName} (h : '\\' ∉ name.shown) :
    splitOnChar '\\' name.shown = [name.shown] := splitOnChar_of_notMem h

theorem mem_segments {name : List Char} (hmem : name ∈ below.map FileName.shown) (h : '\\' ∉ name) :
    name ∈ segments below := by
  obtain ⟨n, hn, rfl⟩ := List.mem_map.1 hmem
  rw [segments, List.mem_flatMap]
  refine ⟨n, hn, ?_⟩
  rw [splitOnChar_shown h]
  exact List.mem_singleton_self _

theorem SkippedDir.segments (h : SkippedDir policy (below.map FileName.shown)) :
    SkippedDir policy (Greppy.segments below) := by
  cases h with
  | always hmem h => exact always (mem_segments hmem (not_backslash_of_ruled (Or.inl h))) h
  | generated hpolicy hmem h =>
    exact generated hpolicy (mem_segments hmem (not_backslash_of_ruled (Or.inr h))) h
  | @store id hmem h =>
    obtain ⟨before, behind, hsplit⟩ := hmem
    rw [List.append_assoc, eq_comm, List.map_eq_append_iff] at hsplit
    obtain ⟨front, tail, rfl, -, htail⟩ := hsplit
    obtain ⟨storeName, tail', rfl, hstore, htail'⟩ := List.map_eq_cons_iff.1 htail
    obtain ⟨idName, back, rfl, hid, -⟩ := List.map_eq_cons_iff.1 htail'
    have hstoreParts : splitOnChar '\\' storeName.shown = ["store".toList] := by
      rw [hstore]
      decide
    have hidParts : splitOnChar '\\' idName.shown = [id] := by
      rw [hid]
      exact splitOnChar_of_notMem (not_backslash_of_isHexId h)
    refine store ⟨Greppy.segments front, Greppy.segments back, ?_⟩ h
    simp only [Greppy.segments, List.flatMap_append, List.flatMap_cons, hstoreParts, hidParts]
    simp

theorem SkippedDir.of_parents (h : SkippedDir policy (d.parents.map FileName.shown)) :
    SkippedDir policy (Greppy.segments d.below) := by
  have hsub : d.parents.map FileName.shown <+: d.below.map FileName.shown :=
    (List.dropLast_prefix d.below).map FileName.shown
  apply SkippedDir.segments
  cases h with
  | always hmem h => exact always (hsub.subset hmem) h
  | generated hpolicy hmem h => exact generated hpolicy (hsub.subset hmem) h
  | store hmem h => exact store (hmem.trans hsub.isInfix) h

theorem shouldSkipFile_of_nil {size : Option UInt64} (h : policy.shouldSkipFile [] size = true)
    (name : List Char) : policy.shouldSkipFile name size = true := by
  have hsuffix : isIgnoredFile [] = false := by decide
  have hpattern : matchesGeneratedPattern [] = false := by decide
  unfold SkipPolicy.shouldSkipFile at h ⊢
  rw [hsuffix, hpattern, Bool.and_false, Bool.and_false, if_neg Bool.false_ne_true,
    if_neg Bool.false_ne_true] at h
  rw [h, ite_self, ite_self]

/-- Where the policy does not skip a file by its shown name, the test does not either. -/
theorem testedName_of_shown (h : policy.shouldSkipFile (Utf8.lossy d.name) d.size = false) :
    policy.shouldSkipFile d.testedName d.size = false := by
  rw [DirEntry.testedName]
  cases hdec : Utf8.decode d.name with
  | none =>
    rw [Option.getD_none, ← Bool.not_eq_true]
    intro hnil
    rw [shouldSkipFile_of_nil hnil] at h
    cases h
  | some text =>
    rw [Utf8.decode_eq_some_iff.1 hdec, Utf8.lossy_encode] at h
    exact h

/-- **With plain names the loop keeps what the rules keep**, and only then. -/
theorem visited_iff_kept_iff {w : Walk} :
    (∀ d ∈ w.entries, Visited policy d ↔ KeptFile policy d) ↔
      (∀ d ∈ w.entries, KeptFile policy d → ¬ SkippedDir policy (segments d.below)) ∧
        ∀ d ∈ w.entries, d.IsFile → ¬ SkippedDir policy (segments d.below) →
          Utf8.decode d.name = none → policy.shouldSkipFile [] d.size = false →
            policy.shouldSkipFile (Utf8.lossy d.name) d.size = false := by
  constructor
  · intro h
    refine ⟨fun d hd hkept => ((h d hd).2 hkept).segments, ?_⟩
    intro d hd hfile hsegs hdec hsize
    refine ((h d hd).1 ⟨hfile, hsegs, ?_⟩).name
    rw [DirEntry.testedName, hdec]
    exact hsize
  · rintro ⟨hpieces, hunreadable⟩ d hd
    constructor
    · rintro ⟨hfile, hsegs, hname⟩
      refine ⟨hfile, fun hparents => hsegs hparents.of_parents, ?_⟩
      rw [DirEntry.testedName] at hname
      cases hdec : Utf8.decode d.name with
      | none =>
        rw [hdec] at hname
        exact hunreadable d hd hfile hsegs hdec hname
      | some text =>
        rw [hdec] at hname
        rw [Utf8.decode_eq_some_iff.1 hdec, Utf8.lossy_encode]
        exact hname
    · intro hkept
      exact ⟨hkept.file, hpieces d hd hkept, testedName_of_shown hkept.name⟩

/-! ### The inventory of a walk -/

theorem toEntry_relPath (root : List Bytes) (d : DirEntry) :
    (d.toEntry root).relPath = String.ofList (relString d.below) := rfl

theorem toEntry_inj {root : List Bytes} {w : Walk} {d' : DirEntry} (hd : d ∈ w.entries)
    (hd' : d' ∈ w.entries) (h : d.toEntry root = d'.toEntry root) : d = d' := by
  have hpath : root ++ d.below.map Subtype.val = root ++ d'.below.map Subtype.val :=
    congrArg WalkEntry.absPath h
  have hbelow : d.below = d'.below :=
    List.map_injective_iff.2 Subtype.val_injective (List.append_cancel_left hpath)
  exact List.inj_on_of_nodup_map w.distinct hd hd' hbelow

theorem mem_inventory_iff (root : List Bytes) (policy : SkipPolicy) (w : Walk) (e : WalkEntry) :
    e ∈ inventory root policy w.items ↔ ∃ d ∈ w.entries, Visited policy d ∧ d.toEntry root = e := by
  rw [inventory, List.mem_insertionSort, List.mem_filterMap]
  constructor
  · rintro ⟨d, hd, hvisit⟩
    exact ⟨d, hd, (visit_eq_some_iff root policy (w.rooted d hd) e).1 hvisit⟩
  · rintro ⟨d, hd, hkept⟩
    exact ⟨d, hd, (visit_eq_some_iff root policy (w.rooted d hd) e).2 hkept⟩

/-- **The inventory of a walk is exact precisely when the names are plain.** -/
theorem isInventory_inventory_iff (root : List Bytes) (policy : SkipPolicy) (w : Walk) :
    IsInventory root policy w (inventory root policy w.items) ↔ PlainNames policy w := by
  have hle : (inventory root policy w.items).Pairwise fun a b => a.relPath ≤ b.relPath := by
    have : Std.Total fun a b : WalkEntry => a.relPath ≤ b.relPath :=
      ⟨fun a b => le_total a.relPath b.relPath⟩
    have : IsTrans WalkEntry fun a b => a.relPath ≤ b.relPath := ⟨fun _ _ _ hab hbc => hab.trans hbc⟩
    exact List.pairwise_insertionSort _ _
  constructor
  · rintro ⟨hmem, hsorted⟩
    have hsame : ∀ d ∈ w.entries, Visited policy d ↔ KeptFile policy d := by
      intro d hd
      have hentry := (mem_inventory_iff root policy w (d.toEntry root)).symm.trans
        (hmem (d.toEntry root))
      constructor
      · intro hvisited
        obtain ⟨d', hd', hkept, heq⟩ := hentry.1 ⟨d, hd, hvisited, rfl⟩
        rwa [toEntry_inj hd' hd heq] at hkept
      · intro hkept
        obtain ⟨d', hd', hvisited, heq⟩ := hentry.2 ⟨d, hd, hkept, rfl⟩
        rwa [toEntry_inj hd' hd heq] at hvisited
    obtain ⟨hpieces, hunreadable⟩ := visited_iff_kept_iff.1 hsame
    refine ⟨hpieces, hunreadable, ?_⟩
    intro d hd d' hd' hkept hkept' hsegs
    have hrooted := w.rooted d hd hkept.file.1
    have hrooted' := w.rooted d' hd' hkept'.file.1
    have hrel : (d.toEntry root).relPath = (d'.toEntry root).relPath := by
      rw [toEntry_relPath, toEntry_relPath, (relString_eq_iff hrooted hrooted').2 hsegs]
    have hin := (hmem _).2 ⟨d, hd, hkept, rfl⟩
    have hin' := (hmem _).2 ⟨d', hd', hkept', rfl⟩
    have hnodup : ((inventory root policy w.items).map WalkEntry.relPath).Nodup := by
      rw [List.Nodup, List.pairwise_map]
      exact hsorted.imp fun hlt => ne_of_lt hlt
    exact toEntry_inj hd hd' (List.inj_on_of_nodup_map hnodup hin hin' hrel)
  · rintro ⟨hpieces, hunreadable, hapart⟩
    have hsame := visited_iff_kept_iff.2 ⟨hpieces, hunreadable⟩
    have hmem (e : WalkEntry) : e ∈ inventory root policy w.items ↔
        ∃ d ∈ w.entries, KeptFile policy d ∧ d.toEntry root = e := by
      rw [mem_inventory_iff]
      constructor
      · rintro ⟨d, hd, hvisited, heq⟩
        exact ⟨d, hd, (hsame d hd).1 hvisited, heq⟩
      · rintro ⟨d, hd, hkept, heq⟩
        exact ⟨d, hd, (hsame d hd).2 hkept, heq⟩
    -- two entries come from different files, and those show different paths
    have hentries : w.entries.Pairwise fun d d' => d.below ≠ d'.below := List.pairwise_map.1 w.distinct
    have hne : (inventory root policy w.items).Pairwise fun a b => a.relPath ≠ b.relPath := by
      refine ((List.perm_insertionSort _ _).pairwise_iff fun hab => hab.symm).2 ?_
      rw [List.pairwise_filterMap]
      refine hentries.imp_of_mem ?_
      intro d d' hd hd' hbelow e hvisit e' hvisit' hrel
      obtain ⟨hvisited, rfl⟩ := (visit_eq_some_iff root policy (w.rooted d hd) e).1 hvisit
      obtain ⟨hvisited', rfl⟩ := (visit_eq_some_iff root policy (w.rooted d' hd') e').1 hvisit'
      have hrooted := w.rooted d hd hvisited.file.1
      have hrooted' := w.rooted d' hd' hvisited'.file.1
      have hsegs := (relString_eq_iff hrooted hrooted').1 (String.ofList_injective hrel)
      have heq := hapart d hd d' hd' ((hsame d hd).1 hvisited) ((hsame d' hd').1 hvisited') hsegs
      exact hbelow (congrArg DirEntry.below heq)
    exact ⟨hmem, (hle.and hne).imp fun h => lt_of_le_of_ne h.1 h.2⟩

section

variable {Override : Type} (ignore : IgnoreCrate Override)

/-- **The walk returns an exact inventory precisely when the names are plain**, whatever overrides the
`ignore` crate accepts and whatever it then hands out. -/
theorem walk_isInventory_iff (gitExists : Bool) (root : List Bytes) (policy : SkipPolicy)
    (overrides : WalkOverrides) :
    (∀ ov, walkerOverrides ignore overrides = .ok ov →
      ∃ entries, walkWithPolicyAndOverrides ignore gitExists root policy overrides = .ok entries ∧
        IsInventory root policy (ignore.walk (!gitExists) ov) entries) ↔
      ∀ ov, walkerOverrides ignore overrides = .ok ov →
        PlainNames policy (ignore.walk (!gitExists) ov) := by
  have hrun : ∀ ov, walkerOverrides ignore overrides = .ok ov →
      walkWithPolicyAndOverrides ignore gitExists root policy overrides =
        .ok (inventory root policy (ignore.walk (!gitExists) ov).items) := by
    intro ov hov
    rw [walkWithPolicyAndOverrides, hov]
    rfl
  constructor
  · intro h ov hov
    obtain ⟨entries, hentries, hexact⟩ := h ov hov
    rw [hrun ov hov] at hentries
    cases hentries
    exact (isInventory_inventory_iff root policy _).1 hexact
  · intro h ov hov
    exact ⟨_, hrun ov hov, (isInventory_inventory_iff root policy _).2 (h ov hov)⟩

end

/-- A tree with one file, named like the build directory of a Rust project. -/
def targetFile : DirEntry :=
  { below := [⟨Utf8.encode "target".toList, by decide +kernel⟩]
    fileType := some .file
    lstat := none }

/-- The `ignore` crate on that tree. -/
def ignoreTargetFile : IgnoreCrate Unit :=
  { add := fun _ => .ok ()
    build := fun _ => .ok ()
    walk := fun _ _ =>
      { items := [.ok targetFile]
        distinct := List.nodup_singleton _
        rooted := by
          intro d hd _
          cases List.mem_singleton.1 hd
          exact List.cons_ne_nil _ _ } }

/-- **A regular file is dropped because of its own name**: the file `target` in the root is missing. -/
theorem walk_drops_target_file :
    ¬ ∃ entries, walkWithPolicyAndOverrides ignoreTargetFile false [] .walkDefault ⟨[], []⟩ = .ok entries ∧
      IsInventory [] .walkDefault (ignoreTargetFile.walk true none) entries := by
  have hrun : walkWithPolicyAndOverrides ignoreTargetFile false [] .walkDefault ⟨[], []⟩ = .ok [] := by
    decide +kernel
  rintro ⟨entries, hentries, hexact⟩
  rw [hrun] at hentries
  cases hentries
  have hkept : KeptFile .walkDefault targetFile := by
    refine ⟨⟨rfl, fun m hm => by cases hm⟩, ?_, by decide +kernel⟩
    intro hskipped
    cases hskipped with
    | always hmem _ => cases hmem
    | generated _ hmem _ => cases hmem
    | store hmem _ => cases List.infix_nil.1 hmem
  have hmissing := (hexact.mem_iff _).2 ⟨targetFile, List.mem_singleton_self _, hkept, rfl⟩
  cases hmissing

/-! ### Names that are plain -/

end Greppy
