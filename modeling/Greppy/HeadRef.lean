/-
**Reading HEAD off the disk.**

`read_head_oid` (`crates/core/src/git_fingerprint.rs`) spares the fingerprint of a workspace a run of
`git rev-parse HEAD`: it reads `HEAD`, looks for the ref it names in a loose file of the worktree's and of
the common git directory, and then in the packed refs of both.  Whatever it returns is taken for the id
git would have printed.

Git reads each ref in one place.  A ref belongs to the worktree or to the common directory; its loose file
there, if there is one, holds an id or the name of another ref and is followed, and only a ref without a
loose file is looked up in the packed refs of the common directory.  The function here takes the first id
in its own order instead: a loose file that is symbolic or holds no id is passed over.
-/

import Greppy.CacheManifest

set_option autoImplicit false

namespace Greppy

open Text

/-! ### The git directories -/

/-- What is found under a name in a git directory. -/
inductive GitFile
  | missing
  | directory
  | file (bytes : Bytes)

/-- `std::fs::read_to_string`. -/
def GitFile.readToString : GitFile → Option (List Char)
  | .file bytes => Utf8.decode bytes
  | _ => none

/-- The git directory of the worktree, and the common one where it is another. -/
structure GitDirs where
  worktree : Bytes → GitFile
  common : Option (Bytes → GitFile)

inductive Side
  | worktree
  | common
  deriving DecidableEq

namespace GitDirs

/-- The file under a name in one of the directories. -/
def at_ (d : GitDirs) : Side → Bytes → GitFile
  | .worktree => d.worktree
  | .common => d.common.getD d.worktree

def searchDirs (d : GitDirs) : List Side :=
  if d.common.isSome then [.worktree, .common] else [.worktree]

/-- The directory of the refs that the worktrees share. -/
def shared (d : GitDirs) : Side := if d.common.isSome then .common else .worktree

end GitDirs

def ascii (s : String) : Bytes := Utf8.encode s.toList

/-! ### `read_head_oid` -/

def looksLikeOid (s : List Char) : Bool := isHexId 40 s || isHexId 64 s

/-- What `HEAD` says: an id, or the name of a ref. -/
inductive HeadForm
  | detached (oid : List Char)
  | symbolic (target : List Char)

/-- The part of `read_head_oid` about `HEAD`. -/
def headForm (d : GitDirs) : Option HeadForm :=
  match (d.worktree (ascii "HEAD")).readToString with
  | none => none
  | some headRaw =>
    let head := trimWhitespace headRaw
    if looksLikeOid head then some (.detached head)
    else ("ref:".toList.isPrefixOf? head).map fun rest => .symbolic (trimWhitespace rest)

/-- The body of the loop over the loose files. -/
def looseOid (d : GitDirs) (target : List Char) (s : Side) : Option (List Char) :=
  match (d.at_ s (Utf8.encode target)).readToString with
  | none => none
  | some contents =>
    let oid := trimWhitespace contents
    if looksLikeOid oid then some oid else none

/-- The body of the loop over the lines of packed refs. -/
def packedLineOid (target line : List Char) : Option (List Char) :=
  let line := line.dropWhile isWhitespace
  if line.head? = some '#' ∨ line.head? = some '^' then none
  else
    match splitOnce ' ' line with
    | none => none
    | some (oid, refname) =>
      if trimWhitespace refname = target ∧ looksLikeOid (trimWhitespace oid) = true then
        some (trimWhitespace oid)
      else none

/-- The body of the loop over the packed refs. -/
def packedOid (d : GitDirs) (target : List Char) (s : Side) : Option (List Char) :=
  match (d.at_ s (ascii "packed-refs")).readToString with
  | none => none
  | some packed => (lines packed).findSome? (packedLineOid target)

def readHeadOid (d : GitDirs) : Option (List Char) :=
  match headForm d with
  | none => none
  | some (.detached oid) => some oid
  | some (.symbolic target) =>
    match d.searchDirs.findSome? (looseOid d target) with
    | some oid => some oid
    | none => d.searchDirs.findSome? (packedOid d target)

/-! ### How git reads refs -/

/-- The ids of a repository are of one kind. -/
inductive ObjectFormat
  | sha1
  | sha256

def ObjectFormat.hexSize : ObjectFormat → ℕ
  | .sha1 => 40
  | .sha256 => 64

def isGitSpace (b : UInt8) : Bool := b = 0x20 || b = 0x09 || b = 0x0A || b = 0x0D

/-- An id at the front of a text, in lower case, and what follows it. -/
def gitOid (format : ObjectFormat) (buf : Bytes) : Option (List Char × Bytes) :=
  let digits := (buf.take format.hexSize).map fun b => Char.ofNat b.toNat
  if digits.length = format.hexSize ∧ digits.all isHexDigit = true then
    some (digits.map Char.toLower, buf.drop format.hexSize)
  else none

/-- What git reads in a loose file: an id, the name of another ref, or neither. -/
inductive LooseRef
  | direct (oid : List Char)
  | symbolic (name : Bytes)
  | broken
  deriving DecidableEq

/-- A loose file: blanks at its end do not count, the text ends at a zero byte, and an id is followed by
the end or by a blank. -/
def gitLoose (format : ObjectFormat) (bytes : Bytes) : LooseRef :=
  let buf := ((bytes.reverse.dropWhile isGitSpace).reverse).takeWhile (· ≠ 0)
  match (ascii "ref:").isPrefixOf? buf with
  | some rest => .symbolic (rest.dropWhile isGitSpace)
  | none =>
    match gitOid format buf with
    | some (oid, rest) => if rest.head?.all isGitSpace then .direct oid else .broken
    | none => .broken

/-- A line of the packed refs: nothing for a peeled id, otherwise an id and the name of its ref. -/
def gitPackedLine (format : ObjectFormat) (line : Bytes) : Option (Option (List Char × Bytes)) :=
  match line with
  | 0x5E :: rest => (gitOid format rest).map fun _ => none
  | _ =>
    match gitOid format line with
    | some (oid, blank :: name) => if isGitSpace blank then some (some (oid, name)) else none
    | _ => none

/-- The packed refs: lines that all end in a newline, a header first, where there is one.  Git refuses a
file with another line. -/
def gitPacked (format : ObjectFormat) (bytes name : Bytes) : Option (List Char) :=
  let parts := bytes.splitOn 0x0A
  let records := match parts.dropLast with
    | (0x23 :: _) :: rest => rest
    | rest => rest
  if parts.getLast? = some [] then
    match records.mapM (gitPackedLine format) with
    | none => none
    | some entries => (entries.findSome? fun e => e.bind fun p => if p.2 = name then some p.1 else none)
  else none

/-- `git check-ref-format --allow-onelevel`. -/
def validRefname (name : Bytes) : Bool :=
  let bad (b : UInt8) : Bool :=
    b.toNat < 0x20 || b = 0x7F || (ascii " ~^:?*[\\").contains b
  decide (name ≠ [] ∧ name ≠ ascii "@") && !name.any bad && !(ascii ".").isSuffixOf name &&
    decide (¬ ascii ".." <:+: name) && decide (¬ ascii "@\x7b" <:+: name) &&
    (name.splitOn 0x2F).all fun part =>
      decide (part ≠ []) && !(ascii ".").isPrefixOf part && !(ascii ".lock").isSuffixOf part

def isCurrentWorktreeRef (name : Bytes) : Bool :=
  (name.all fun b => (0x41 ≤ b.toNat && b.toNat ≤ 0x5A) || b = 0x2D || b = 0x5F) ||
    (ascii "refs/worktree/").isPrefixOf name || (ascii "refs/bisect/").isPrefixOf name ||
    (ascii "refs/rewritten/").isPrefixOf name

def refFile (d : GitDirs) (name : Bytes) : Side × Bytes :=
  if isCurrentWorktreeRef name then (.worktree, name)
  else
    match (ascii "main-worktree/").isPrefixOf? name with
    | some bare => if isCurrentWorktreeRef bare then (d.shared, bare) else (d.shared, name)
    | none => (d.shared, name)

/-- A file that says something about a ref. -/
inductive Place
  | loose (s : Side) (path : Bytes)
  | packed (s : Side) (name : Bytes)
  deriving DecidableEq

/-- Resolving a ref through as many files as `depth` allows: the files on the way, and the id. -/
def gitResolve (format : ObjectFormat) (d : GitDirs) : ℕ → Bytes → Option (List Place × List Char)
  | 0, _ => none
  | depth + 1, name =>
    if !validRefname name then none
    else
      let (s, path) := refFile d name
      match d.at_ s path with
      | .file bytes =>
        -- a loose file shadows the packed ref of its name, whatever it holds
        match gitLoose format bytes with
        | .direct oid => some ([.loose s path], oid)
        | .symbolic next => (gitResolve format d depth next).map fun r => (.loose s path :: r.1, r.2)
        | .broken => none
      | _ =>
        match d.at_ d.shared (ascii "packed-refs") with
        | .file packed => (gitPacked format packed name).map fun oid => ([.packed d.shared name], oid)
        | _ => none

/-- The files on the way from `HEAD` to its id; a chain has five files at most. -/
def gitHeadRoute (format : ObjectFormat) (d : GitDirs) : Option (List Place × List Char) :=
  gitResolve format d 5 (ascii "HEAD")

/-- **The id that git resolves `HEAD` to.** -/
def gitHead (format : ObjectFormat) (d : GitDirs) : Option (List Char) :=
  (gitHeadRoute format d).map Prod.snd

/-! ### The files that are read -/

def headPlace : Place := .loose .worktree (ascii "HEAD")

/-- `readHeadOid` with the files it takes its answer from. -/
def readHeadRoute (d : GitDirs) : Option (List Place × List Char) :=
  match headForm d with
  | none => none
  | some (.detached oid) => some ([headPlace], oid)
  | some (.symbolic target) =>
    match d.searchDirs.findSome? fun s =>
        (looseOid d target s).map fun oid => ([headPlace, .loose s (Utf8.encode target)], oid) with
    | some r => some r
    | none => d.searchDirs.findSome? fun s =>
      (packedOid d target s).map fun oid => ([headPlace, .packed s (Utf8.encode target)], oid)

/-- An id is found in a directory, and in none that is searched before it. -/
structure FirstFound (d : GitDirs) (found : Side → Option (List Char)) (s : Side) (oid : List Char) :
    Prop where
  mem : s ∈ d.searchDirs
  here : found s = some oid
  first : s = .common → found .worktree = none

theorem findSome_searchDirs (d : GitDirs) (found : Side → Option (List Char)) (place : Side → List Place)
    (r : List Place × List Char) :
    (d.searchDirs.findSome? fun s => (found s).map fun oid => (place s, oid)) = some r ↔
      ∃ s oid, FirstFound d found s oid ∧ r = (place s, oid) := by
  constructor
  · intro h
    cases hworktree : found .worktree with
    | some oid =>
      have hhit : (d.searchDirs.findSome? fun s => (found s).map fun oid => (place s, oid)) =
          some (place .worktree, oid) := by
        cases hc : d.common.isSome <;> simp [GitDirs.searchDirs, hc, hworktree]
      rw [hhit] at h
      refine ⟨.worktree, oid, ⟨?_, hworktree, fun hs => by cases hs⟩, (Option.some.inj h).symm⟩
      cases hc : d.common.isSome <;> simp [GitDirs.searchDirs, hc]
    | none =>
      obtain ⟨s, hs, hfound⟩ := List.exists_of_findSome?_eq_some h
      obtain ⟨oid, hoid, rfl⟩ := Option.map_eq_some_iff.1 hfound
      exact ⟨s, oid, ⟨hs, hoid, fun _ => hworktree⟩, rfl⟩
  · rintro ⟨s, oid, ⟨hmem, hhere, hfirst⟩, rfl⟩
    cases s with
    | worktree => cases hc : d.common.isSome <;> simp [GitDirs.searchDirs, hc, hhere]
    | common =>
      have hworktree := hfirst rfl
      cases hc : d.common.isSome with
      | false => simp [GitDirs.searchDirs, hc] at hmem
      | true => simp [GitDirs.searchDirs, hc, hhere, hworktree]

theorem findSome_searchDirs_none (d : GitDirs) (found : Side → Option (List Char))
    (place : Side → List Place) :
    (d.searchDirs.findSome? fun s => (found s).map fun oid => (place s, oid)) = none ↔
      ∀ s ∈ d.searchDirs, found s = none := by
  rw [List.findSome?_eq_none_iff]
  simp only [Option.map_eq_none_iff]

/-- **The files do not change what is returned.** -/
theorem readHeadRoute_oid (d : GitDirs) : (readHeadRoute d).map Prod.snd = readHeadOid d := by
  have hsearch (found : Side → Option (List Char)) (place : Side → List Place) :
      (d.searchDirs.findSome? fun s => (found s).map fun oid => (place s, oid)).map Prod.snd =
        d.searchDirs.findSome? found := by
    rw [List.map_findSome?]
    congr 1
    funext s
    cases hs : found s <;> simp [hs]
  unfold readHeadRoute readHeadOid
  cases headForm d with
  | none => rfl
  | some form =>
    cases form with
    | detached oid => rfl
    | symbolic target =>
      have hloose := hsearch (looseOid d target) fun s => [headPlace, .loose s (Utf8.encode target)]
      have hpacked := hsearch (packedOid d target) fun s => [headPlace, .packed s (Utf8.encode target)]
      dsimp only
      rw [← hloose]
      cases d.searchDirs.findSome? fun s =>
          (looseOid d target s).map fun oid => ([headPlace, .loose s (Utf8.encode target)], oid) with
      | none => exact hpacked
      | some r => rfl

/-! ### Where git reads -/

variable {format : ObjectFormat} {d : GitDirs}

theorem refFile_head (d : GitDirs) : refFile d (ascii "HEAD") = (.worktree, ascii "HEAD") := by
  have hown : isCurrentWorktreeRef (ascii "HEAD") = true := by decide
  rw [refFile, if_pos hown]

theorem gitResolve_file {name path bytes : Bytes} {s : Side} (depth : ℕ) (hvalid : validRefname name = true)
    (hplace : refFile d name = (s, path)) (hfile : d.at_ s path = .file bytes) :
    gitResolve format d (depth + 1) name =
      match gitLoose format bytes with
      | .direct oid => some ([.loose s path], oid)
      | .symbolic next => (gitResolve format d depth next).map fun r => (.loose s path :: r.1, r.2)
      | .broken => none := by
  rw [gitResolve, hvalid, hplace]
  simp only [Bool.not_true, Bool.false_eq_true, if_false, hfile]

theorem gitResolve_packed {name : Bytes} (depth : ℕ) (hvalid : validRefname name = true)
    (hfile : ∀ bytes, d.at_ (refFile d name).1 (refFile d name).2 ≠ .file bytes) :
    gitResolve format d (depth + 1) name =
      match d.at_ d.shared (ascii "packed-refs") with
      | .file packed => (gitPacked format packed name).map fun oid => ([.packed d.shared name], oid)
      | _ => none := by
  rw [gitResolve, hvalid]
  -- the branch for a loose file is excluded by `hfile`
  simp only [Bool.not_true, Bool.false_eq_true, if_false]

theorem gitHeadRoute_file {bytes : Bytes} (hfile : d.worktree (ascii "HEAD") = .file bytes) :
    gitHeadRoute format d =
      match gitLoose format bytes with
      | .direct oid => some ([headPlace], oid)
      | .symbolic next => (gitResolve format d 4 next).map fun r => (headPlace :: r.1, r.2)
      | .broken => none :=
  gitResolve_file 4 (by decide) (refFile_head d) hfile

theorem exists_file_of_headForm {form : HeadForm} (h : headForm d = some form) :
    ∃ bytes, d.worktree (ascii "HEAD") = .file bytes := by
  unfold headForm at h
  cases hstate : d.worktree (ascii "HEAD") with
  | missing =>
    rw [hstate] at h
    cases h
  | directory =>
    rw [hstate] at h
    cases h
  | file bytes => exact ⟨bytes, rfl⟩

/-! ### When the function reads what git reads -/

variable (format d) in
/-- **The contents for which the function reads what git reads**: `HEAD` holds an id as git reads it; or
it names a ref for which no id is found at all; or the first loose file with an id is the ref's own and
git reads that id in it; or no loose file has an id, the ref's own does not exist, and the first id among
the packed refs is the one git reads in those of the common directory. -/
inductive ReadsAsGit : Prop
  | noHead (h : headForm d = none)
  | detached {oid : List Char} {bytes : Bytes} (h : headForm d = some (.detached oid))
      (hhead : d.worktree (ascii "HEAD") = .file bytes) (hgit : gitLoose format bytes = .direct oid)
  | nothing {target : List Char} (h : headForm d = some (.symbolic target))
      (hloose : ∀ s ∈ d.searchDirs, looseOid d target s = none)
      (hpacked : ∀ s ∈ d.searchDirs, packedOid d target s = none)
  | loose {target oid : List Char} {s : Side} {headBytes name bytes : Bytes}
      (h : headForm d = some (.symbolic target)) (hfirst : FirstFound d (looseOid d target) s oid)
      (hhead : d.worktree (ascii "HEAD") = .file headBytes)
      (hname : gitLoose format headBytes = .symbolic name) (hvalid : validRefname name = true)
      (hplace : refFile d name = (s, Utf8.encode target))
      (hfile : d.at_ s (Utf8.encode target) = .file bytes) (hgit : gitLoose format bytes = .direct oid)
  | packed {target oid : List Char} {headBytes bytes : Bytes}
      (h : headForm d = some (.symbolic target))
      (hloose : ∀ s ∈ d.searchDirs, looseOid d target s = none)
      (hfirst : FirstFound d (packedOid d target) d.shared oid)
      (hhead : d.worktree (ascii "HEAD") = .file headBytes)
      (hname : gitLoose format headBytes = .symbolic (Utf8.encode target))
      (hvalid : validRefname (Utf8.encode target) = true)
      (hown : ∀ own, d.at_ (refFile d (Utf8.encode target)).1 (refFile d (Utf8.encode target)).2 ≠ .file own)
      (hfile : d.at_ d.shared (ascii "packed-refs") = .file bytes)
      (hgit : gitPacked format bytes (Utf8.encode target) = some oid)

variable {depth : ℕ} {r : List Place × List Char} {path : Bytes}

/-- **What one step of the resolution reads**: a loose file with an id, a symbolic one, or the packed refs. -/
theorem gitResolve_cases {name : Bytes} (h : gitResolve format d depth name = some r) :
    validRefname name = true ∧
      ((∃ s path bytes oid, refFile d name = (s, path) ∧ d.at_ s path = .file bytes ∧
          gitLoose format bytes = .direct oid ∧ r = ([.loose s path], oid)) ∨
        (∃ s path bytes next depth' r', refFile d name = (s, path) ∧ d.at_ s path = .file bytes ∧
          gitLoose format bytes = .symbolic next ∧ gitResolve format d depth' next = some r' ∧
            r = (.loose s path :: r'.1, r'.2)) ∨
        ∃ bytes oid, (∀ own, d.at_ (refFile d name).1 (refFile d name).2 ≠ .file own) ∧
          d.at_ d.shared (ascii "packed-refs") = .file bytes ∧ gitPacked format bytes name = some oid ∧
            r = ([.packed d.shared name], oid)) := by
  cases depth with
  | zero => cases h
  | succ depth =>
    cases hvalid : validRefname name with
    | false =>
      rw [gitResolve, hvalid] at h
      cases h
    | true =>
      refine ⟨rfl, ?_⟩
      by_cases hown : ∃ own, d.at_ (refFile d name).1 (refFile d name).2 = .file own
      · obtain ⟨bytes, hfile⟩ := hown
        rw [gitResolve_file depth hvalid rfl hfile] at h
        cases hread : gitLoose format bytes with
        | direct oid =>
          rw [hread] at h
          exact Or.inl ⟨_, _, bytes, oid, rfl, hfile, hread, (Option.some.inj h).symm⟩
        | symbolic next =>
          rw [hread] at h
          obtain ⟨r', hr', heq⟩ := Option.map_eq_some_iff.1 h
          exact Or.inr (Or.inl ⟨_, _, bytes, next, depth, r', rfl, hfile, hread, hr', heq.symm⟩)
        | broken =>
          rw [hread] at h
          cases h
      · have hnone := not_exists.1 hown
        rw [gitResolve_packed depth hvalid hnone] at h
        cases hpacked : d.at_ d.shared (ascii "packed-refs") with
        | missing =>
          rw [hpacked] at h
          cases h
        | directory =>
          rw [hpacked] at h
          cases h
        | file bytes =>
          rw [hpacked] at h
          obtain ⟨oid, hoid, heq⟩ := Option.map_eq_some_iff.1 h
          exact Or.inr (Or.inr ⟨bytes, oid, hnone, rfl, hoid, heq.symm⟩)

theorem gitResolve_ne_nil {name : Bytes} (h : gitResolve format d depth name = some r) :
    r.1 ≠ [] := by
  obtain ⟨-, ⟨_, _, _, _, _, _, _, rfl⟩ | ⟨_, _, _, _, _, _, _, _, _, _, rfl⟩ | ⟨_, _, _, _, _, rfl⟩⟩ :=
    gitResolve_cases h
  · exact List.cons_ne_nil _ _
  · exact List.cons_ne_nil _ _
  · exact List.cons_ne_nil _ _

theorem gitResolve_loose {name : Bytes} {s : Side} {oid : List Char}
    (h : gitResolve format d depth name = some ([.loose s path], oid)) :
    validRefname name = true ∧ refFile d name = (s, path) ∧
      ∃ bytes, d.at_ s path = .file bytes ∧ gitLoose format bytes = .direct oid := by
  obtain ⟨hvalid, hstep⟩ := gitResolve_cases h
  refine ⟨hvalid, ?_⟩
  obtain ⟨s', path', bytes, oid', hplace, hfile, hread, heq⟩ |
    ⟨s', path', bytes, next, depth', r', -, -, -, hr', heq⟩ | ⟨bytes, oid', -, -, -, heq⟩ := hstep
  · cases heq
    exact ⟨hplace, bytes, hfile, hread⟩
  · exact absurd (List.cons.inj (congrArg Prod.fst heq)).2.symm (gitResolve_ne_nil hr')
  · cases heq

theorem gitResolve_packed_only {name : Bytes} {s : Side} {oid : List Char}
    (h : gitResolve format d depth name = some ([.packed s path], oid)) :
    validRefname name = true ∧ s = d.shared ∧ path = name ∧
      (∀ own, d.at_ (refFile d name).1 (refFile d name).2 ≠ .file own) ∧
      ∃ bytes, d.at_ d.shared (ascii "packed-refs") = .file bytes ∧
        gitPacked format bytes name = some oid := by
  obtain ⟨hvalid, hstep⟩ := gitResolve_cases h
  refine ⟨hvalid, ?_⟩
  obtain ⟨s', path', bytes, oid', hplace, hfile, hread, heq⟩ |
    ⟨s', path', bytes, next, depth', r', -, -, -, hr', heq⟩ |
    ⟨bytes, oid', hown, hfile, hread, heq⟩ := hstep
  · cases heq
  · cases heq
  · cases heq
    exact ⟨rfl, rfl, hown, bytes, hfile, hread⟩

/-- The route of a symbolic `HEAD` goes on from the ref it names. -/
theorem gitHeadRoute_cons {bytes : Bytes} {places : List Place} {oid : List Char}
    (hhead : d.worktree (ascii "HEAD") = .file bytes) (hplaces : places ≠ [])
    (h : gitHeadRoute format d = some (headPlace :: places, oid)) :
    ∃ name, gitLoose format bytes = .symbolic name ∧ gitResolve format d 4 name = some (places, oid) := by
  rw [gitHeadRoute_file hhead] at h
  cases hread : gitLoose format bytes with
  | direct oid' =>
    rw [hread] at h
    cases h
    exact absurd rfl hplaces
  | symbolic name =>
    rw [hread] at h
    obtain ⟨r, hr, heq⟩ := Option.map_eq_some_iff.1 h
    obtain ⟨places', oid'⟩ := r
    cases heq
    exact ⟨name, rfl, hr⟩
  | broken =>
    rw [hread] at h
    cases h

/-! ### The route of the function, case by case -/

theorem readHeadRoute_detached {oid : List Char} (h : headForm d = some (.detached oid)) :
    readHeadRoute d = some ([headPlace], oid) := by
  rw [readHeadRoute, h]

theorem readHeadRoute_loose {target oid : List Char} {s : Side} (h : headForm d = some (.symbolic target))
    (hfirst : FirstFound d (looseOid d target) s oid) :
    readHeadRoute d = some ([headPlace, .loose s (Utf8.encode target)], oid) := by
  have hsearch := (findSome_searchDirs d (looseOid d target)
    (fun s => [headPlace, .loose s (Utf8.encode target)]) _).2 ⟨s, oid, hfirst, rfl⟩
  rw [readHeadRoute, h]
  simp only [hsearch]

theorem readHeadRoute_packed {target oid : List Char} {s : Side} (h : headForm d = some (.symbolic target))
    (hloose : ∀ s ∈ d.searchDirs, looseOid d target s = none)
    (hfirst : FirstFound d (packedOid d target) s oid) :
    readHeadRoute d = some ([headPlace, .packed s (Utf8.encode target)], oid) := by
  have hnone := (findSome_searchDirs_none d (looseOid d target)
    fun s => [headPlace, .loose s (Utf8.encode target)]).2 hloose
  have hsearch := (findSome_searchDirs d (packedOid d target)
    (fun s => [headPlace, .packed s (Utf8.encode target)]) _).2 ⟨s, oid, hfirst, rfl⟩
  rw [readHeadRoute, h]
  simp only [hnone, hsearch]

theorem readHeadRoute_nothing {target : List Char} (h : headForm d = some (.symbolic target))
    (hloose : ∀ s ∈ d.searchDirs, looseOid d target s = none)
    (hpacked : ∀ s ∈ d.searchDirs, packedOid d target s = none) : readHeadRoute d = none := by
  have hnone := (findSome_searchDirs_none d (looseOid d target)
    fun s => [headPlace, .loose s (Utf8.encode target)]).2 hloose
  have hnone' := (findSome_searchDirs_none d (packedOid d target)
    fun s => [headPlace, .packed s (Utf8.encode target)]).2 hpacked
  rw [readHeadRoute, h]
  simp only [hnone, hnone']

theorem firstFound_or_none (d : GitDirs) (found : Side → Option (List Char)) :
    (∃ s oid, FirstFound d found s oid) ∨ ∀ s ∈ d.searchDirs, found s = none := by
  cases hsearch : d.searchDirs.findSome? fun s => (found s).map fun oid => (([] : List Place), oid) with
  | none => exact Or.inr ((findSome_searchDirs_none d found fun _ => []).1 hsearch)
  | some r =>
    obtain ⟨s, oid, hfirst, -⟩ := (findSome_searchDirs d found (fun _ => []) r).1 hsearch
    exact Or.inl ⟨s, oid, hfirst⟩

/-- For those contents the function reads what git reads, or nothing. -/
theorem readHeadRoute_of_readsAsGit (h : ReadsAsGit format d) :
    readHeadRoute d = none ∨ readHeadRoute d = gitHeadRoute format d := by
  cases h with
  | noHead h =>
    left
    rw [readHeadRoute, h]
  | detached h hhead hgit =>
    right
    rw [readHeadRoute_detached h, gitHeadRoute_file hhead, hgit]
  | nothing h hloose hpacked => exact Or.inl (readHeadRoute_nothing h hloose hpacked)
  | loose h hfirst hhead hname hvalid hplace hfile hgit =>
    right
    rw [readHeadRoute_loose h hfirst, gitHeadRoute_file hhead, hname]
    simp only [gitResolve_file 3 hvalid hplace hfile, hgit, Option.map_some]
  | packed h hloose hfirst hhead hname hvalid hown hfile hgit =>
    right
    rw [readHeadRoute_packed h hloose hfirst, gitHeadRoute_file hhead, hname]
    simp only [gitResolve_packed 3 hvalid hown, hfile, hgit, Option.map_some]

/-- Where the function reads what git reads, or nothing, the contents are of those. -/
theorem readsAsGit_of_readHeadRoute
    (h : readHeadRoute d = none ∨ readHeadRoute d = gitHeadRoute format d) : ReadsAsGit format d := by
  cases hform : headForm d with
  | none => exact .noHead hform
  | some form =>
    obtain ⟨headBytes, hhead⟩ := exists_file_of_headForm hform
    cases form with
    | detached oid =>
      rw [readHeadRoute_detached hform] at h
      obtain h | h := h
      · cases h
      · obtain ⟨-, -, bytes, hfile, hread⟩ := gitResolve_loose h.symm
        exact .detached hform hfile hread
    | symbolic target =>
      obtain ⟨s, oid, hfirst⟩ | hloose := firstFound_or_none d (looseOid d target)
      · -- a loose file
        rw [readHeadRoute_loose hform hfirst] at h
        obtain h | h := h
        · cases h
        · obtain ⟨name, hname, hrest⟩ := gitHeadRoute_cons hhead (List.cons_ne_nil _ _) h.symm
          obtain ⟨hvalid, hplace, bytes, hfile, hread⟩ := gitResolve_loose hrest
          exact .loose hform hfirst hhead hname hvalid hplace hfile hread
      · obtain ⟨s, oid, hfirst⟩ | hpacked := firstFound_or_none d (packedOid d target)
        · -- the packed refs
          rw [readHeadRoute_packed hform hloose hfirst] at h
          obtain h | h := h
          · cases h
          · obtain ⟨name, hname, hrest⟩ := gitHeadRoute_cons hhead (List.cons_ne_nil _ _) h.symm
            obtain ⟨hvalid, rfl, rfl, hown, bytes, hfile, hread⟩ := gitResolve_packed_only hrest
            exact .packed hform hloose hfirst hhead hname hvalid hown hfile hread
        · exact .nothing hform hloose hpacked

/-- **The function reads what git reads exactly for those contents, and then it returns the id that git
resolves `HEAD` to, or nothing.** -/
theorem readHeadOid_spec (format : ObjectFormat) (d : GitDirs) :
    ((readHeadRoute d = none ∨ readHeadRoute d = gitHeadRoute format d) ↔ ReadsAsGit format d) ∧
      (ReadsAsGit format d → readHeadOid d = none ∨ readHeadOid d = gitHead format d) := by
  refine ⟨⟨readsAsGit_of_readHeadRoute, readHeadRoute_of_readsAsGit⟩, fun h => ?_⟩
  rw [← readHeadRoute_oid, gitHead]
  obtain hroute | hroute := readHeadRoute_of_readsAsGit h
  · left
    rw [hroute]
    rfl
  · right
    rw [hroute]

def filesOf (files : List (String × String)) (name : Bytes) : GitFile :=
  match files.find? fun f => decide (ascii f.1 = name) with
  | some f => .file (ascii f.2)
  | none => .missing

/-- A branch that is an alias of another, with an entry among the packed refs from the time before. -/
def aliasedBranch : GitDirs :=
  { worktree := filesOf
      [("HEAD", "ref: refs/heads/main\n"),
        ("refs/heads/main", "ref: refs/heads/next\n"),
        ("refs/heads/next", "1111111111111111111111111111111111111111\n"),
        ("packed-refs", "# pack-refs with: peeled fully-peeled sorted \n" ++
          "2222222222222222222222222222222222222222 refs/heads/main\n")]
    common := none }

/-- **A symbolic ref is bypassed in favour of a stale packed one.** -/
theorem readHeadOid_bypasses_symref :
    ¬ (readHeadOid aliasedBranch = none ∨ readHeadOid aliasedBranch = gitHead .sha1 aliasedBranch) := by
  decide +kernel

/-- Git follows the alias. -/
example : gitHead .sha1 aliasedBranch = some "1111111111111111111111111111111111111111".toList := by
  decide

end Greppy
