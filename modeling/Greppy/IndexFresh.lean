/-
**No stale definition survives an index run.**

A sequence of index runs works on a tree that changes between them.  What is stored under a path was
written by some run, for what that run saw there; a later run that finds the file unchanged relies on
its stat or on its hash.  So after a run, what is stored under a path is what the file's content at
that run gives, as far as that content can be extracted.

A stat that matches in full is taken for the same content, and so is an equal hash.  That file
systems and hashes bear this out is an assumption on the sequence of trees, `World`.

Nothing is said here about a file that was indexed once and whose present content cannot be
extracted.
-/

import Greppy.IndexConverge

set_option autoImplicit false

namespace Greppy

/-! ### Sequences of runs -/

structure IndexStep where
  run : Run
  rootPath : String
  entries : List InventoryEntry

/-- The store after a run: one that fails has entered its project and no more. -/
def stepIndex (env : Env) (project : String) (s : Store) (step : IndexStep) : Store :=
  match indexRun env step.run project step.rootPath step.entries s with
  | .ok s' => s'
  | .error _ => entered step.run project step.rootPath s

/-- A run of the sequence saw the file on that disk. -/
def Sighted (steps : List IndexStep) (disk : Disk) (e : InventoryEntry) : Prop :=
  ∃ step ∈ steps, step.run.disk = disk ∧ e ∈ step.entries

theorem Sighted.append {steps : List IndexStep} {disk : Disk} {e : InventoryEntry}
    (h : Sighted steps disk e) (rest : List IndexStep) : Sighted (steps ++ rest) disk e := by
  obtain ⟨step, hstep, hdisk, he⟩ := h
  exact ⟨step, List.mem_append_left _ hstep, hdisk, he⟩

/-- What the trees of a sequence of runs and the hash are assumed to be like. -/
structure World (env : Env) (steps : List IndexStep) : Prop where
  /-- The walk lists a path once. -/
  distinct : ∀ step ∈ steps, (step.entries.map InventoryEntry.relPath).Nodup
  /-- The tree stands still during a run. -/
  walked : ∀ disk e, Sighted steps disk e → Describes disk e
  still : ∀ disk e, Sighted steps disk e → ∀ bytes md,
    readStableFile disk e.absPath = .ok (bytes, md) → disk.metadata e.absPath = .ok md
  /-- The language of a file goes by its path in the tree. -/
  language : ∀ disk e disk' e', Sighted steps disk e → Sighted steps disk' e' →
    e.relPath = e'.relPath → env.languageForPath e.absPath = env.languageForPath e'.absPath
  /-- A full stat identity at a path stands for one content. -/
  stat : ∀ disk e disk' e', Sighted steps disk e → Sighted steps disk' e' →
    e.relPath = e'.relPath → ∀ bytes bytes' md, readStableFile disk e.absPath = .ok (bytes, md) →
      readStableFile disk' e'.absPath = .ok (bytes', md) → Timed md → Identified md →
        bytes = bytes'
  /-- The hash tells the contents seen at a path apart. -/
  hash : ∀ disk e disk' e', Sighted steps disk e → Sighted steps disk' e' →
    e.relPath = e'.relPath → ∀ bytes bytes' md md', readStableFile disk e.absPath = .ok (bytes, md) →
      readStableFile disk' e'.absPath = .ok (bytes', md') →
        env.sha256Hex bytes = env.sha256Hex bytes' → bytes = bytes'

/-! ### What the content of a file gives -/

section Content

variable (env : Env) (disk : Disk) (e : InventoryEntry)

/-- The content of the file is extracted: it is of a supported language and within the cap, can be
read and parsed, and what the parser finds is valid. -/
structure Extracts (bytes : Bytes) (md : StableFileMetadata) (ext : Extraction) : Prop where
  supported : (env.languageForPath e.absPath).supported = true
  read : readStableFile disk e.absPath = .ok (bytes, md)
  within : ¬ env.maxSize < md.size
  parsed : env.parserExtract (env.languageForPath e.absPath) bytes e.relPath = .ok ext
  valid : env.providerValid (env.languageForPath e.absPath) e.relPath ext = true

/-- The content of the file gets a row with its hash: that of a file of an unsupported language does
without being extracted. -/
structure Recorded (bytes : Bytes) (md : StableFileMetadata) : Prop where
  read : readStableFile disk e.absPath = .ok (bytes, md)
  within : ¬ env.maxSize < md.size
  extracts : (env.languageForPath e.absPath).supported = true → ∃ ext, Extracts env disk e bytes md ext

end Content

/-! ### The origin of what is stored -/

/-- The stat columns under a path are those of a stat. -/
structure StatRow (rows : FileRows) (f : FileState) (md : StableFileMetadata) : Prop where
  size : f.size = md.size.toInt64
  mtimeNs : f.mtimeNs = md.mtimeNs.getD 0
  identity : rows.identity = some ⟨md.ctimeNs, md.fileId⟩

theorem toInt64_inj {a b : UInt64} (h : a.toInt64 = b.toInt64) : a = b := by
  simpa using congrArg Int64.toUInt64 h

theorem StatRow.eq_of_matches {rows : FileRows} {f : FileState} {md cur : StableFileMetadata}
    {p : PersistedStat} (h : StatRow rows f md) (hstate : rows.state = some f)
    (hp : rows.persisted = some p) (hmatch : statIdentityMatches p cur = true) :
    md = cur ∧ Timed cur ∧ Identified cur := by
  rw [FileRows.persisted, hstate, h.identity, Option.map_some, Option.some.injEq] at hp
  subst hp
  simp only [statIdentityMatches, Option.bind_some, Bool.and_eq_true, decide_eq_true_eq,
    bothKnownEq_iff, h.size, h.mtimeNs] at hmatch
  obtain ⟨⟨⟨⟨hne, hsize⟩, hmtime⟩, c, hc, hc'⟩, i, hi, hi'⟩ := hmatch
  have hmt : md.mtimeNs = cur.mtimeNs := by
    cases hm : md.mtimeNs with
    | none => simp [hm] at hne
    | some t =>
      rw [hm] at hmtime
      exact hmtime
  refine ⟨?_, ⟨md.mtimeNs.getD 0, hmtime.symm, hne⟩, ?_, ?_⟩
  · cases md
    cases cur
    simp only [StableFileMetadata.mk.injEq]
    exact ⟨toInt64_inj hsize, hmt, hc.trans hc'.symm, hi.trans hi'.symm⟩
  · rw [hc']
    rfl
  · rw [hi']
    rfl

section Origin

variable (env : Env) (project : String)

/-- The sight of a file that its row, its raw edges and its nodes were written for. -/
inductive Origin (past : List IndexStep) (r : String) (v : FileView) (f : FileState) : Prop where
  | extracted (disk : Disk) (e : InventoryEntry) (bytes : Bytes) (md : StableFileMetadata)
      (ext : Extraction) (sighted : Sighted past disk e) (rel : e.relPath = r)
      (extracts : Extracts env disk e bytes md ext) (sha : f.sha256 = env.sha256Hex bytes)
      (stat : StatRow v.rows f md) (raws : ∀ x ∈ v.raws, x ∈ ext.edges.map (newRawEdgeFor project r))
      (nodes : ∀ w ∈ v.nodes, w ∈ fileNodes project r ext.nodes)
  | hashed (disk : Disk) (e : InventoryEntry) (bytes : Bytes) (md : StableFileMetadata)
      (sighted : Sighted past disk e) (rel : e.relPath = r)
      (unsupported : ¬ (env.languageForPath e.absPath).supported = true)
      (read : readStableFile disk e.absPath = .ok (bytes, md)) (sha : f.sha256 = env.sha256Hex bytes)
      (stat : StatRow v.rows f md) (raws : v.raws = []) (nodes : v.nodes = ∅)
  | sized (md : StableFileMetadata) (large : env.maxSize < md.size) (stat : StatRow v.rows f md)
      (raws : v.raws = []) (nodes : v.nodes = ∅)

/-- What is stored under a path has an origin, and there is nothing but with a row. -/
structure Backed (past : List IndexStep) (r : String) (v : FileView) : Prop where
  indexed : v.rows.state = none → v.raws = [] ∧ v.nodes = ∅
  origin : ∀ f, v.rows.state = some f → Origin env project past r v f

variable {env project}

variable {past : List IndexStep} {r : String} {v w : FileView}

theorem Origin.append {f : FileState} (h : Origin env project past r v f) (rest : List IndexStep) :
    Origin env project (past ++ rest) r v f := by
  cases h with
  | extracted disk e bytes md ext sighted rel extracts sha stat raws nodes =>
    exact .extracted disk e bytes md ext (sighted.append rest) rel extracts sha stat raws nodes
  | hashed disk e bytes md sighted rel unsupported read sha stat raws nodes =>
    exact .hashed disk e bytes md (sighted.append rest) rel unsupported read sha stat raws nodes
  | sized md large stat raws nodes => exact .sized md large stat raws nodes

/-- A view with the same hash and stat, and no more raw edges and nodes. -/
structure Shrinks (v w : FileView) : Prop where
  state : v.rows.state.map (fun f => (f.sha256, f.size, f.mtimeNs)) =
    w.rows.state.map fun f => (f.sha256, f.size, f.mtimeNs)
  identity : v.rows.identity = w.rows.identity
  raws : ∀ x ∈ v.raws, x ∈ w.raws
  nodes : ∀ x ∈ v.nodes, x ∈ w.nodes

theorem Shrinks.of_below (h : FileView.Below v w) : Shrinks v w :=
  ⟨by rw [h.1], by rw [h.1], by rw [h.2.1]; exact fun _ h => h, h.2.2⟩

theorem Shrinks.stamped (v : FileView) (generation : ℕ) : Shrinks (v.stamped generation) v := by
  refine ⟨?_, rfl, fun _ h => h, fun _ h => h⟩
  unfold FileView.stamped FileRows.stamped
  rw [Option.map_map]
  rfl

theorem Shrinks.empty (h : Shrinks v w) (hw : w.raws = [] ∧ w.nodes = ∅) :
    v.raws = [] ∧ v.nodes = ∅ := by
  constructor
  · refine List.eq_nil_iff_forall_not_mem.2 fun x hx => ?_
    have hx' := h.raws x hx
    rw [hw.1] at hx'
    cases hx'
  · refine Set.eq_empty_of_forall_notMem fun x hx => ?_
    have hx' := h.nodes x hx
    rw [hw.2] at hx'
    exact hx'

theorem Shrinks.state_none (h : Shrinks v w) (hv : v.rows.state = none) : w.rows.state = none := by
  have hstate := h.state
  rw [hv, Option.map_none] at hstate
  exact Option.map_eq_none_iff.1 hstate.symm

theorem Shrinks.state_some (h : Shrinks v w) {f : FileState} (hf : v.rows.state = some f) :
    ∃ g, w.rows.state = some g ∧ g.sha256 = f.sha256 ∧
      g.size = f.size ∧ g.mtimeNs = f.mtimeNs := by
  have hstate := h.state
  rw [hf, Option.map_some] at hstate
  obtain ⟨g, hg, heq⟩ := Option.map_eq_some_iff.1 hstate.symm
  simp only [Prod.mk.injEq] at heq
  exact ⟨g, hg, heq⟩

theorem Backed.shrinks (h : Shrinks v w) (hw : Backed env project past r w) :
    Backed env project past r v := by
  constructor
  · exact fun hnone => h.empty (hw.indexed (h.state_none hnone))
  · intro f hf
    obtain ⟨g, hg, hsha, hsize, hmtime⟩ := h.state_some hf
    have hstat : ∀ md, StatRow w.rows g md → StatRow v.rows f md := by
      intro md hmd
      exact ⟨hsize.symm.trans hmd.size, hmtime.symm.trans hmd.mtimeNs, h.identity.trans hmd.identity⟩
    cases hw.origin g hg with
    | extracted disk e bytes md ext sighted rel extracts sha stat raws nodes =>
      exact .extracted disk e bytes md ext sighted rel extracts (hsha.symm.trans sha)
        (hstat md stat) (fun x hx => raws x (h.raws x hx)) fun x hx => nodes x (h.nodes x hx)
    | hashed disk e bytes md sighted rel unsupported read sha stat raws nodes =>
      obtain ⟨hraws, hnodes⟩ := h.empty ⟨raws, nodes⟩
      exact .hashed disk e bytes md sighted rel unsupported read (hsha.symm.trans sha)
        (hstat md stat) hraws hnodes
    | sized md large stat raws nodes =>
      obtain ⟨hraws, hnodes⟩ := h.empty ⟨raws, nodes⟩
      exact .sized md large (hstat md stat) hraws hnodes

theorem Backed.append (h : Backed env project past r v) (rest : List IndexStep) :
    Backed env project (past ++ rest) r v :=
  ⟨h.indexed, fun f hf => (h.origin f hf).append rest⟩

theorem backed_cleared (past : List IndexStep) (r : String) :
    Backed env project past r FileView.cleared :=
  ⟨fun _ => ⟨rfl, rfl⟩, fun _ hf => by cases hf⟩

end Origin

/-! ### What processing a file leaves -/

section Processing

variable (env : Env) (run : Run) (project : String)

/-- The three ways a processed file can go. -/
inductive Went (e : InventoryEntry) (v w : FileView) : Prop where
  | extracted (bytes : Bytes) (md : StableFileMetadata) (ext : Extraction)
      (extracts : Extracts env run.disk e bytes md ext)
      (state : w.rows.state = some (hashRow env run project e bytes md))
      (identity : w.rows.identity = some ⟨md.ctimeNs, md.fileId⟩)
      (raws : w.raws = ext.edges.map (newRawEdgeFor project e.relPath))
      (nodes : w.nodes = {n | n ∈ fileNodes project e.relPath ext.nodes})
  | unsupported (lang : ¬ (env.languageForPath e.absPath).supported = true) (raws : w.raws = [])
      (nodes : w.nodes = ∅)
      (rows : (∃ bytes md, readStableFile run.disk e.absPath = .ok (bytes, md) ∧
          ¬ env.maxSize < md.size ∧ w.rows.state = some (hashRow env run project e bytes md) ∧
          w.rows.identity = some ⟨md.ctimeNs, md.fileId⟩) ∨
        (∃ md, run.disk.metadata e.absPath = .ok md ∧ env.maxSize < md.size ∧
          w.rows.state = some (stateRow env run project e.relPath e.absPath oversizeSentinelSha
            md.size md) ∧ w.rows.identity = some ⟨md.ctimeNs, md.fileId⟩) ∨
        (w.rows.state = v.rows.state ∧ w.rows.identity = v.rows.identity ∧
          ∀ bytes md, readStableFile run.disk e.absPath ≠ .ok (bytes, md)))
  | givenUp (lang : (env.languageForPath e.absPath).supported = true)
      (fails : ∀ bytes md ext, ¬ Extracts env run.disk e bytes md ext)
      (state : w.rows.state = v.rows.state) (identity : w.rows.identity = v.rows.identity)
      (kept : (w.raws = [] ∧ w.nodes = ∅) ∨ (w.raws = v.raws ∧ w.nodes = v.nodes ∧
        ∀ md, run.disk.metadata e.absPath = .ok md → ¬ env.maxSize < md.size))

variable {run}

theorem went_changedView {e : InventoryEntry} (hstill : ∀ bytes md,
      readStableFile run.disk e.absPath = .ok (bytes, md) → run.disk.metadata e.absPath = .ok md)
    (v : FileView) : Went env run project e v (changedView env run project e v) := by
  unfold changedView extractView toExtract triageView triageRows triage
  by_cases hsup : (env.languageForPath e.absPath).supported = true
  · simp only [hsup, if_true]
    have hextract : (∀ md, run.disk.metadata e.absPath = .ok md → ¬ env.maxSize < md.size) →
        Went env run project e v (outcomeView env run project
          (extractOne env run.disk e (env.languageForPath e.absPath)) v) := by
      intro hcap
      unfold extractOne
      cases hread : readStableFile run.disk e.absPath with
      | error err =>
        refine .givenUp hsup ?_ rfl rfl (Or.inr ⟨rfl, rfl, hcap⟩)
        intro bytes md ext hex
        cases hread.symm.trans hex.read
      | ok p =>
        obtain ⟨bytes, md⟩ := p
        simp only
        cases hparse : env.parserExtract (env.languageForPath e.absPath) bytes e.relPath with
        | error err =>
          refine .givenUp hsup ?_ rfl rfl (Or.inr ⟨rfl, rfl, hcap⟩)
          intro bytes' md' ext hex
          cases hread.symm.trans hex.read
          cases hparse.symm.trans hex.parsed
        | ok ext =>
          simp only
          by_cases hvalid : env.providerValid (env.languageForPath e.absPath) e.relPath ext = true
          · simp only [if_pos hvalid]
            exact .extracted bytes md ext
              ⟨hsup, hread, hcap md (hstill bytes md hread), hparse, hvalid⟩ rfl rfl rfl rfl
          · simp only [if_neg hvalid]
            refine .givenUp hsup ?_ rfl rfl (Or.inr ⟨rfl, rfl, hcap⟩)
            intro bytes' md' ext' hex
            cases hread.symm.trans hex.read
            cases hparse.symm.trans hex.parsed
            exact hvalid hex.valid
    cases hmd : run.disk.metadata e.absPath with
    | error err =>
      exact hextract fun md h => by cases hmd.symm.trans h
    | ok md =>
      simp only
      by_cases hsize : env.maxSize < md.size
      · simp only [if_pos hsize]
        refine .givenUp hsup ?_ rfl rfl (Or.inl ⟨rfl, rfl⟩)
        intro bytes md' ext hex
        cases hmd.symm.trans (hstill bytes md' hex.read)
        exact hex.within hsize
      · simp only [if_neg hsize]
        exact hextract fun md' h => by
          cases hmd.symm.trans h
          exact hsize
  · simp only [hsup]
    refine .unsupported hsup rfl rfl ?_
    simp only [FileView.dropped, FileRows.skipped, unsupportedRows]
    cases hmd : run.disk.metadata e.absPath with
    | error err =>
      refine Or.inr (Or.inr ⟨rfl, rfl, ?_⟩)
      intro bytes md hread
      cases hmd.symm.trans (hstill bytes md hread)
    | ok md =>
      simp only
      by_cases hsize : env.maxSize < md.size
      · simp only [if_pos hsize]
        exact Or.inr (Or.inl ⟨md, rfl, hsize, rfl, rfl⟩)
      · simp only [if_neg hsize]
        cases hread : readStableFile run.disk e.absPath with
        | error err =>
          refine Or.inr (Or.inr ⟨rfl, rfl, ?_⟩)
          intro bytes md' h
          cases h
        | ok p =>
          obtain ⟨bytes, md'⟩ := p
          cases hmd.symm.trans (hstill bytes md' hread)
          exact Or.inl ⟨bytes, md, rfl, hsize, rfl, rfl⟩

/-- Where nothing is stored yet, a full run does to a file what an incremental one does. -/
theorem fullView_eq_changedView (e : InventoryEntry) {v : FileView} (hraws : v.raws = [])
    (hnodes : v.nodes = ∅) :
    fullView env run project e v = changedView env run project e v := by
  unfold fullView changedView extractView toExtract triageView triageRows
  cases triage env run.disk e <;> simp [FileView.dropped, hraws, hnodes]

variable {env}

theorem statRow_hashRow {e : InventoryEntry} {bytes : Bytes} {md : StableFileMetadata}
    (hread : readStableFile run.disk e.absPath = .ok (bytes, md)) {rows : FileRows}
    (hid : rows.identity = some ⟨md.ctimeNs, md.fileId⟩) :
    StatRow rows (hashRow env run project e bytes md) md := by
  refine ⟨?_, rfl, hid⟩
  rw [readStableFile_size hread]
  rfl

theorem backed_changedView {past : List IndexStep} {e : InventoryEntry}
    (hsighted : Sighted past run.disk e) (hstill : ∀ bytes md,
      readStableFile run.disk e.absPath = .ok (bytes, md) → run.disk.metadata e.absPath = .ok md)
    {v : FileView} (hv : Backed env project past e.relPath v) :
    Backed env project past e.relPath (changedView env run project e v) := by
  have hwent := went_changedView env project hstill v
  generalize changedView env run project e v = w at hwent ⊢
  cases hwent with
  | extracted bytes md ext extracts state identity raws nodes =>
    refine ⟨fun h => (by rw [state] at h; cases h), ?_⟩
    intro f hf
    cases state.symm.trans hf
    refine .extracted run.disk e bytes md ext hsighted rfl extracts rfl
      (statRow_hashRow project extracts.read identity) ?_ ?_
    · intro x hx
      rwa [raws] at hx
    · intro x hx
      rwa [nodes] at hx
  | unsupported lang raws nodes rows =>
    refine ⟨fun _ => ⟨raws, nodes⟩, ?_⟩
    intro f hf
    rcases rows with ⟨bytes, md, hread, _, hstate, hid⟩ | ⟨md, _, hsize, hstate, hid⟩ |
      ⟨hstate, hid, _⟩
    · cases hstate.symm.trans hf
      exact .hashed run.disk e bytes md hsighted rfl lang hread rfl
        (statRow_hashRow project hread hid) raws nodes
    · cases hstate.symm.trans hf
      exact .sized md hsize ⟨rfl, rfl, hid⟩ raws nodes
    · have hshrinks : Shrinks w v := by
        refine ⟨by rw [hstate], hid, ?_, ?_⟩
        · intro x hx
          rw [raws] at hx
          cases hx
        · intro x hx
          rw [nodes] at hx
          exact hx.elim
      exact (hv.shrinks hshrinks).origin f hf
  | givenUp lang fails state identity kept =>
    refine hv.shrinks ⟨by rw [state], identity, ?_, ?_⟩
    · intro x hx
      rcases kept with ⟨hraws, _⟩ | ⟨hraws, _⟩
      · rw [hraws] at hx
        cases hx
      · rwa [hraws] at hx
    · intro x hx
      rcases kept with ⟨_, hnodes⟩ | ⟨_, hnodes, _⟩
      · rw [hnodes] at hx
        exact hx.elim
      · rwa [hnodes] at hx

end Processing

/-! ### What is stored agrees with the present content -/

section FreshAt

variable (env : Env) (project : String)

/-- What is stored under the path of a file of the inventory agrees with its content. -/
structure FreshAt (disk : Disk) (e : InventoryEntry) (v : FileView) : Prop where
  /-- Raw edges and definitions come with a row, from a file of a supported language that is within
  the cap. -/
  indexed : v.rows.state = none → v.raws = [] ∧ v.nodes = ∅
  supported : ¬ (env.languageForPath e.absPath).supported = true → v.raws = [] ∧ v.nodes = ∅
  within : ∀ md, disk.metadata e.absPath = .ok md → env.maxSize < md.size →
    v.raws = [] ∧ v.nodes = ∅
  /-- They are among those of its extraction. -/
  extraction : ∀ bytes md ext, Extracts env disk e bytes md ext →
    (∀ x ∈ v.raws, x ∈ ext.edges.map (newRawEdgeFor project e.relPath)) ∧
      ∀ w ∈ v.nodes, w ∈ fileNodes project e.relPath ext.nodes
  /-- The row has its hash. -/
  hash : ∀ bytes md, Recorded env disk e bytes md → ∀ f, v.rows.state = some f →
    f.sha256 = env.sha256Hex bytes

variable {env project}

variable {disk : Disk} {e : InventoryEntry} {v : FileView} {past : List IndexStep}

theorem FreshAt.shrinks {w : FileView} (h : Shrinks v w) (hw : FreshAt env project disk e w) :
    FreshAt env project disk e v := by
  refine ⟨fun hnone => h.empty (hw.indexed (h.state_none hnone)),
    fun hlang => h.empty (hw.supported hlang),
    fun md hmd hsize => h.empty (hw.within md hmd hsize), ?_, ?_⟩
  · intro bytes md ext hex
    obtain ⟨hraws, hnodes⟩ := hw.extraction bytes md ext hex
    exact ⟨fun x hx => hraws x (h.raws x hx), fun x hx => hnodes x (h.nodes x hx)⟩
  · intro bytes md hrec f hf
    obtain ⟨g, hg, hsha, _⟩ := h.state_some hf
    rw [← hsha]
    exact hw.hash bytes md hrec g hg

theorem freshAt_changedView {run : Run}
    (hstill : ∀ bytes md,
      readStableFile run.disk e.absPath = .ok (bytes, md) → run.disk.metadata e.absPath = .ok md)
    (hv : Backed env project past e.relPath v) :
    FreshAt env project run.disk e (changedView env run project e v) := by
  have hwent := went_changedView env project hstill v
  generalize changedView env run project e v = w at hwent ⊢
  cases hwent with
  | extracted bytes md ext extracts state identity raws nodes =>
    refine ⟨fun h => (by rw [state] at h; cases h), fun h => absurd extracts.supported h, ?_, ?_, ?_⟩
    · intro md' hmd' hsize
      cases (hstill bytes md extracts.read).symm.trans hmd'
      exact absurd hsize extracts.within
    · intro bytes' md' ext' hex
      cases extracts.read.symm.trans hex.read
      cases extracts.parsed.symm.trans hex.parsed
      rw [raws, nodes]
      exact ⟨fun x hx => hx, fun x hx => hx⟩
    · intro bytes' md' hrec f hf
      cases extracts.read.symm.trans hrec.read
      cases state.symm.trans hf
      rfl
  | unsupported lang raws nodes rows =>
    refine ⟨fun _ => ⟨raws, nodes⟩, fun _ => ⟨raws, nodes⟩, fun _ _ _ => ⟨raws, nodes⟩,
      fun _ _ _ hex => absurd hex.supported lang, ?_⟩
    intro bytes md hrec f hf
    rcases rows with ⟨bytes', md', hread, _, hstate, _⟩ | ⟨md', hmd, hsize, _, _⟩ | ⟨_, _, hnone⟩
    · cases hread.symm.trans hrec.read
      cases hstate.symm.trans hf
      rfl
    · cases hmd.symm.trans (hstill bytes md hrec.read)
      exact absurd hsize hrec.within
    · exact absurd hrec.read (hnone bytes md)
  | givenUp lang fails state identity kept =>
    have hempty : v.raws = [] ∧ v.nodes = ∅ → w.raws = [] ∧ w.nodes = ∅ := by
      rintro ⟨hraws, hnodes⟩
      rcases kept with h | ⟨hraws', hnodes', _⟩
      · exact h
      · exact ⟨hraws'.trans hraws, hnodes'.trans hnodes⟩
    refine ⟨fun h => hempty (hv.indexed (state.symm.trans h)), fun h => absurd lang h, ?_,
      fun bytes md ext hex => absurd hex (fails bytes md ext), ?_⟩
    · intro md hmd hsize
      rcases kept with h | ⟨_, _, hcap⟩
      · exact h
      · exact absurd hsize (hcap md hmd)
    · intro bytes md hrec
      obtain ⟨ext, hex⟩ := hrec.extracts lang
      exact absurd hex (fails bytes md ext)

theorem FileRows.state_of_persisted {rows : FileRows} {p : PersistedStat}
    (h : rows.persisted = some p) : ∃ f, rows.state = some f ∧ p.sha256 = f.sha256 := by
  unfold FileRows.persisted at h
  obtain ⟨f, hf, rfl⟩ := Option.map_eq_some_iff.1 h
  exact ⟨f, hf, rfl⟩

theorem freshAt_of_skip {skip : IndexSkip} (hv : Backed env project past e.relPath v)
    (hskip : v.rows.activeSkip = some skip) : FreshAt env project disk e v := by
  have hnone : v.rows.state = none := by
    unfold FileRows.activeSkip at hskip
    split at hskip
    · cases hskip
    · rename_i h
      exact Option.not_isSome_iff_eq_none.1 h
  have hempty := hv.indexed hnone
  refine ⟨fun _ => hempty, fun _ => hempty, fun _ _ _ => hempty, ?_, ?_⟩
  · intro _ _ _ _
    rw [hempty.1, hempty.2]
    exact ⟨fun x hx => (by cases hx), fun x hx => hx.elim⟩
  · intro _ _ _ f hf
    cases hnone.symm.trans hf

section Vouched

variable {past : List IndexStep} {step : IndexStep} {e : InventoryEntry} {v : FileView} {f : FileState}
  {p : PersistedStat} {md : StableFileMetadata}

theorem sameContent_of_vouched (hworld : World env (past ++ [step])) (he : e ∈ step.entries)
    (hmd : step.run.disk.metadata e.absPath = .ok md) (hf : v.rows.state = some f)
    (hp : v.rows.persisted = some p) (hpsha : p.sha256 = f.sha256)
    (hvouch : RowVouches step.run.disk env.sha256Hex env.maxSize e md p) {disk₀ : Disk}
    {e₀ : InventoryEntry} {bytes₀ bytes : Bytes} {md₀ md' : StableFileMetadata}
    (hsight : Sighted past disk₀ e₀) (hrel : e₀.relPath = e.relPath)
    (hread₀ : readStableFile disk₀ e₀.absPath = .ok (bytes₀, md₀)) (hstat : StatRow v.rows f md₀)
    (hsha : f.sha256 = env.sha256Hex bytes₀)
    (hread : readStableFile step.run.disk e.absPath = .ok (bytes, md')) : bytes₀ = bytes := by
  have hnow : Sighted (past ++ [step]) step.run.disk e :=
    ⟨step, List.mem_append_right _ (List.mem_singleton.2 rfl), rfl, he⟩
  cases hmd.symm.trans (hworld.still _ e hnow bytes md' hread)
  rcases hvouch with hmatch | ⟨_, bytes', md'', hread', hsha'⟩
  · obtain ⟨rfl, htimed, hident⟩ := hstat.eq_of_matches hf hp hmatch
    exact hworld.stat _ e₀ _ e (hsight.append [step]) hnow hrel _ _ _ hread₀ hread htimed hident
  · cases hread.symm.trans hread'
    exact hworld.hash _ e₀ _ e (hsight.append [step]) hnow hrel _ _ _ _ hread₀ hread
      (hsha.symm.trans (hpsha.symm.trans hsha'))

theorem within_of_vouched (hf : v.rows.state = some f) (hp : v.rows.persisted = some p)
    (hvouch : RowVouches step.run.disk env.sha256Hex env.maxSize e md p) {md₀ : StableFileMetadata}
    (hstat : StatRow v.rows f md₀) (hcap : ¬ env.maxSize < md₀.size) : ¬ env.maxSize < md.size := by
  rcases hvouch with hmatch | ⟨hcap', _⟩
  · obtain ⟨rfl, _⟩ := hstat.eq_of_matches hf hp hmatch
    exact hcap
  · exact hcap'

end Vouched

/-- **An unchanged verdict is right about what is stored.** -/
theorem freshAt_unchanged {past : List IndexStep} {step : IndexStep}
    (hworld : World env (past ++ [step])) {e : InventoryEntry} (he : e ∈ step.entries)
    {v : FileView} (hv : Backed env project past e.relPath v)
    (hverdict : entryDiff step.run.disk env.sha256Hex env.maxSize v.rows.persisted
      v.rows.activeSkip e = .ok .unchanged) :
    FreshAt env project step.run.disk e v := by
  have hnow : Sighted (past ++ [step]) step.run.disk e :=
    ⟨step, List.mem_append_right _ (List.mem_singleton.2 rfl), rfl, he⟩
  cases hmd : step.run.disk.metadata e.absPath with
  | error err =>
    obtain ⟨x, hcur⟩ := (hworld.walked _ e hnow).currentStat_error hmd
    simp [entryDiff, hcur, bind, Except.bind] at hverdict
  | ok md =>
    rw [entryDiff_eq_unchanged_iff ((hworld.walked _ e hnow).currentStat_ok hmd)] at hverdict
    rcases hverdict with ⟨skip, hskip, _⟩ | ⟨p, hp, hvouch⟩
    · exact freshAt_of_skip hv hskip
    · obtain ⟨f, hf, hpsha⟩ := FileRows.state_of_persisted hp
      have hindexed : v.rows.state = none → v.raws = [] ∧ v.nodes = ∅ := hv.indexed
      cases hv.origin f hf with
      | extracted disk₀ e₀ bytes₀ md₀ ext₀ sighted rel extracts sha stat raws nodes =>
        have hlang := hworld.language _ e₀ _ e (sighted.append [step]) hnow rel
        refine ⟨hindexed, ?_, ?_, ?_, ?_⟩
        · intro hunsup
          rw [← hlang] at hunsup
          exact absurd extracts.supported hunsup
        · intro md' hmd' hsize
          cases hmd.symm.trans hmd'
          exact absurd hsize (within_of_vouched hf hp hvouch stat extracts.within)
        · intro bytes md' ext hex
          have hbytes := sameContent_of_vouched hworld he hmd hf hp hpsha hvouch sighted rel
            extracts.read stat sha hex.read
          subst hbytes
          have hparsed := extracts.parsed
          rw [hlang, rel, hex.parsed] at hparsed
          cases hparsed
          exact ⟨raws, nodes⟩
        · intro bytes md' hrec g hg
          cases hf.symm.trans hg
          rw [sha, sameContent_of_vouched hworld he hmd hf hp hpsha hvouch sighted rel extracts.read stat
            sha hrec.read]
      | hashed disk₀ e₀ bytes₀ md₀ sighted rel unsupported read sha stat raws nodes =>
        refine ⟨hindexed, fun _ => ⟨raws, nodes⟩, fun _ _ _ => ⟨raws, nodes⟩, ?_, ?_⟩
        · intro _ _ _ hex
          have hlang := hworld.language _ e₀ _ e (sighted.append [step]) hnow rel
          rw [hlang] at unsupported
          exact absurd hex.supported unsupported
        · intro bytes md' hrec g hg
          cases hf.symm.trans hg
          rw [sha, sameContent_of_vouched hworld he hmd hf hp hpsha hvouch sighted rel read stat sha
            hrec.read]
      | sized md₀ large stat raws nodes =>
        refine ⟨hindexed, fun _ => ⟨raws, nodes⟩, fun _ _ _ => ⟨raws, nodes⟩, ?_, ?_⟩
        · intro _ _ _ _
          rw [raws, nodes]
          exact ⟨fun x hx => (by cases hx), fun x hx => hx.elim⟩
        · intro bytes md' hrec g hg
          cases hf.symm.trans hg
          rcases hvouch with hmatch | ⟨_, bytes', md'', hread', hsha'⟩
          · obtain ⟨rfl, _⟩ := stat.eq_of_matches hf hp hmatch
            cases hmd.symm.trans (hworld.still _ e hnow bytes md' hrec.read)
            exact absurd large hrec.within
          · cases hrec.read.symm.trans hread'
            exact hpsha.symm.trans hsha'

end FreshAt

/-! ### One run -/

section Step

variable {env : Env} {project : String}

theorem state_none_of_full {s : Store} (hlegacy : s.legacySidecar = false)
    (h : isIncremental s project = false) (r : String) :
    (viewAt project s r).rows.state = none := by
  unfold isIncremental at h
  rw [hlegacy, Bool.not_false, Bool.or_true, Bool.and_true, Bool.not_eq_false',
    List.isEmpty_iff] at h
  cases hf : (viewAt project s r).rows.state with
  | none => rfl
  | some f =>
    obtain ⟨hmem, hkey⟩ := KeyedTable.find?_eq_some_iff.1 hf
    have hlist : f ∈ s.files.listFileStates project :=
      FileTables.mem_listFileStates.2 ⟨hmem, congrArg Prod.fst hkey⟩
    rw [h] at hlist
    cases hlist

/-- What one successful run leaves: everything has an origin, the files of the inventory are fresh,
and there is nothing under other paths. -/
theorem indexRun_backed_fresh {past : List IndexStep} {step : IndexStep}
    (hworld : World env (past ++ [step])) {s s' : Store} (hlegacy : s.legacySidecar = false)
    (hs : ∀ r, Backed env project past r (viewAt project s r))
    (hrun : indexRun env step.run project step.rootPath step.entries s = .ok s') :
    (∀ r, Backed env project (past ++ [step]) r (viewAt project s' r)) ∧
      (∀ e ∈ step.entries, FreshAt env project step.run.disk e (viewAt project s' e.relPath)) ∧
      ∀ r, r ∉ step.entries.map InventoryEntry.relPath →
        (viewAt project s' r).rows.state = none ∧ (viewAt project s' r).raws = [] ∧
          (viewAt project s' r).nodes = ∅ := by
  have hstep : step ∈ past ++ [step] := List.mem_append_right _ (List.mem_singleton.2 rfl)
  have hsight : ∀ e ∈ step.entries, Sighted (past ++ [step]) step.run.disk e :=
    fun e he => ⟨step, hstep, rfl, he⟩
  have hstill := fun e he => hworld.still step.run.disk e (hsight e he)
  have hbacked : ∀ r, Backed env project (past ++ [step]) r (viewAt project s r) :=
    fun r => (hs r).append [step]
  -- what happens to a file of the inventory, and what to a path outside it
  have hassemble : (∀ e ∈ step.entries,
        Backed env project (past ++ [step]) e.relPath (viewAt project s' e.relPath) ∧
          FreshAt env project step.run.disk e (viewAt project s' e.relPath)) →
      (∀ r, r ∉ step.entries.map InventoryEntry.relPath →
        Backed env project (past ++ [step]) r (viewAt project s' r) ∧
          (viewAt project s' r).rows.state = none) →
      (∀ r, Backed env project (past ++ [step]) r (viewAt project s' r)) ∧
        (∀ e ∈ step.entries, FreshAt env project step.run.disk e (viewAt project s' e.relPath)) ∧
        ∀ r, r ∉ step.entries.map InventoryEntry.relPath →
          (viewAt project s' r).rows.state = none ∧ (viewAt project s' r).raws = [] ∧
            (viewAt project s' r).nodes = ∅ := by
    intro hin hout
    refine ⟨fun r => ?_, fun e he => (hin e he).2, fun r hr => ?_⟩
    · by_cases hr : r ∈ step.entries.map InventoryEntry.relPath
      · obtain ⟨e, he, rfl⟩ := List.mem_map.1 hr
        exact (hin e he).1
      · exact (hout r hr).1
    · obtain ⟨hb, hnone⟩ := hout r hr
      exact ⟨hnone, hb.indexed hnone⟩
  have hspec := indexRun_spec env step.run project (hworld.distinct step hstep) hrun
  by_cases hinc : isIncremental s project = true
  · rw [if_pos hinc] at hspec
    obtain ⟨changed, hspec⟩ := hspec
    refine hassemble ?_ ?_
    · intro e he
      obtain ⟨d, hd, hview⟩ := hspec.files e he
      have hshrinks := Shrinks.of_below hview
      by_cases hne : d = .unchanged
      · rw [if_pos hne] at hshrinks
        have hverdict := hd
        rw [fileVerdict_eq_rows, hne] at hverdict
        have hfresh := freshAt_unchanged hworld he (hs e.relPath) hverdict
        exact ⟨((hbacked e.relPath).shrinks (Shrinks.stamped _ _)).shrinks hshrinks,
          (hfresh.shrinks (Shrinks.stamped _ _)).shrinks hshrinks⟩
      · rw [if_neg hne] at hshrinks
        have hb := backed_changedView project (hsight e he) (hstill e he) (hbacked e.relPath)
        have hfresh := freshAt_changedView (hstill e he) (hbacked e.relPath)
        exact ⟨(hb.shrinks (Shrinks.stamped _ _)).shrinks hshrinks,
          (hfresh.shrinks (Shrinks.stamped _ _)).shrinks hshrinks⟩
    · intro r hr
      have hview := hspec.others r hr
      by_cases hg : r ∈ gonePaths s.files project step.entries
      · rw [if_pos hg] at hview
        exact ⟨(backed_cleared _ r).shrinks (Shrinks.of_below hview), by rw [hview.1]; rfl⟩
      · rw [if_neg hg] at hview
        refine ⟨(hbacked r).shrinks (Shrinks.of_below hview), ?_⟩
        rw [hview.1]
        rw [mem_gonePaths, not_and_not_right, ← not_imp_not, not_or,
          Option.not_isSome_iff_eq_none, Option.not_isSome_iff_eq_none] at hg
        exact (hg hr).1
  · rw [if_neg hinc] at hspec
    have hnone := state_none_of_full hlegacy (eq_false_of_ne_true hinc)
    refine hassemble ?_ ?_
    · intro e he
      obtain ⟨hraws, hnodes⟩ := (hs e.relPath).indexed (hnone e.relPath)
      have hshrinks := Shrinks.of_below (hspec.files e he)
      rw [fullView_eq_changedView env project e hraws hnodes] at hshrinks
      have hb := backed_changedView project (hsight e he) (hstill e he) (hbacked e.relPath)
      exact ⟨hb.shrinks hshrinks,
        (freshAt_changedView (hstill e he) (hbacked e.relPath)).shrinks hshrinks⟩
    · intro r hr
      have hview := hspec.others r hr
      exact ⟨(hbacked r).shrinks (Shrinks.of_below hview), by rw [hview.1]; exact hnone r⟩

end Step

/-! ### Sequences of runs -/

section Steps

variable (env : Env) (project : String)

theorem World.of_append {env : Env} {past rest : List IndexStep} (h : World env (past ++ rest)) :
    World env past where
  distinct step hstep := h.distinct step (List.mem_append_left _ hstep)
  walked disk e he := h.walked disk e (he.append rest)
  still disk e he := h.still disk e (he.append rest)
  language disk e disk' e' he he' := h.language disk e disk' e' (he.append rest) (he'.append rest)
  stat disk e disk' e' he he' := h.stat disk e disk' e' (he.append rest) (he'.append rest)
  hash disk e disk' e' he he' := h.hash disk e disk' e' (he.append rest) (he'.append rest)

/-- **Everything stored after a sequence of runs has an origin.** -/
theorem backed_run {past : List IndexStep} (hworld : World env past) :
    (past.foldl (stepIndex env project) Store.empty).legacySidecar = false ∧
      ∀ r, Backed env project past r
        (viewAt project (past.foldl (stepIndex env project) Store.empty) r) := by
  induction past using List.reverseRecOn with
  | nil =>
    refine ⟨rfl, fun r => ?_⟩
    refine ⟨fun _ => ⟨rfl, ?_⟩, fun f hf => by cases hf⟩
    refine Set.eq_empty_of_forall_notMem ?_
    rintro w ⟨_, _, _, n, hn, _⟩
    cases hn
  | append_singleton past step ih =>
    obtain ⟨hlegacy, hs⟩ := ih hworld.of_append
    rw [List.foldl_append, List.foldl_cons, List.foldl_nil]
    generalize past.foldl (stepIndex env project) Store.empty = s at hlegacy hs ⊢
    have hdistinct := hworld.distinct step (List.mem_append_right _ (List.mem_singleton.2 rfl))
    unfold stepIndex
    cases hrun : indexRun env step.run project step.rootPath step.entries s with
    | error err => exact ⟨hlegacy, fun r => (hs r).append [step]⟩
    | ok s' =>
      exact ⟨(legacySidecar_indexRun env step.run project hdistinct hrun).trans hlegacy,
        (indexRun_backed_fresh hworld hlegacy hs hrun).1⟩

/-- A file that raw edges and definitions may come from: it is of a supported language, within the
cap, and has a row. -/
structure Indexed (disk : Disk) (s : Store) (e : InventoryEntry) : Prop where
  supported : (env.languageForPath e.absPath).supported = true
  within : ∀ md, disk.metadata e.absPath = .ok md → ¬ env.maxSize < md.size
  row : (s.files.fileState.find? (project, e.relPath)).isSome

/-- What is stored for a project agrees with the tree. -/
structure Fresh (disk : Disk) (entries : List InventoryEntry) (s : Store) : Prop where
  node : ∀ n ∈ s.graph.nodes.rows, n.project = project → n.label ∉ nonDefLabels →
    ∃ e ∈ entries, e.relPath = n.filePath ∧ Indexed env project disk s e ∧
      ∀ bytes md ext, Extracts env disk e bytes md ext →
        n.toNewNode ∈ fileNodes project e.relPath ext.nodes
  rawEdge : ∀ x ∈ s.rawEdges, x.project = project →
    ∃ e ∈ entries, e.relPath = x.filePath ∧ Indexed env project disk s e ∧
      ∀ bytes md ext, Extracts env disk e bytes md ext →
        x ∈ ext.edges.map (newRawEdgeFor project e.relPath)
  fileState : ∀ f ∈ s.files.fileState.rows, f.project = project →
    ∃ e ∈ entries, e.relPath = f.relPath ∧
      ∀ bytes md, Recorded env disk e bytes md → f.sha256 = env.sha256Hex bytes

variable {env project}

theorem FreshAt.indexed_of {disk : Disk} {s : Store} {e : InventoryEntry}
    (h : FreshAt env project disk e (viewAt project s e.relPath))
    (hne : ¬ ((viewAt project s e.relPath).raws = [] ∧ (viewAt project s e.relPath).nodes = ∅)) :
    Indexed env project disk s e where
  supported := not_not.1 fun hunsup => hne (h.supported hunsup)
  within md hmd hsize := hne (h.within md hmd hsize)
  row := Option.isSome_iff_ne_none.2 fun hnone => hne (h.indexed hnone)

variable (env project)

/-- **After every successful run, what is stored is fresh**, whatever runs there were before and
whatever happened to the tree in between. -/
theorem index_fresh (past : List IndexStep) (step : IndexStep) (s' : Store)
    (hworld : World env (past ++ [step]))
    (hrun : indexRun env step.run project step.rootPath step.entries
      (past.foldl (stepIndex env project) Store.empty) = .ok s') :
    Fresh env project step.run.disk step.entries s' := by
  obtain ⟨hlegacy, hs⟩ := backed_run env project hworld.of_append
  obtain ⟨_, hfresh, hout⟩ := indexRun_backed_fresh hworld hlegacy hs hrun
  -- what is stored under a path is stored for a file of the inventory
  have hentry : ∀ r, ((viewAt project s' r).rows.state = none ∧ (viewAt project s' r).raws = [] ∧
      (viewAt project s' r).nodes = ∅ → False) → ∃ e ∈ step.entries, e.relPath = r := by
    intro r hne
    by_contra hno
    exact hne (hout r fun hr => hno (List.mem_map.1 hr))
  refine ⟨?_, ?_, ?_⟩
  · intro n hn hproj hlabel
    have hmem : n.toNewNode ∈ (viewAt project s' n.filePath).nodes :=
      ⟨hproj, rfl, hlabel, n, hn, rfl⟩
    obtain ⟨e, he, hrel⟩ := hentry n.filePath fun h => by
      rw [h.2.2] at hmem
      exact hmem
    rw [← hrel] at hmem
    have hat := hfresh e he
    refine ⟨e, he, hrel, hat.indexed_of fun h => ?_, fun bytes md ext hex =>
      (hat.extraction bytes md ext hex).2 _ hmem⟩
    rw [h.2] at hmem
    exact hmem
  · intro x hx hproj
    have hmem : x ∈ (viewAt project s' x.filePath).raws := Store.mem_rawEdgesOf.2 ⟨hx, hproj, rfl⟩
    obtain ⟨e, he, hrel⟩ := hentry x.filePath fun h => by
      rw [h.2.1] at hmem
      cases hmem
    rw [← hrel] at hmem
    have hat := hfresh e he
    refine ⟨e, he, hrel, hat.indexed_of fun h => ?_, fun bytes md ext hex =>
      (hat.extraction bytes md ext hex).1 _ hmem⟩
    rw [h.1] at hmem
    cases hmem
  · intro f hf hproj
    have hstate : (viewAt project s' f.relPath).rows.state = some f := by
      refine KeyedTable.find?_eq_some_iff.2 ⟨hf, ?_⟩
      exact Prod.ext hproj rfl
    obtain ⟨e, he, hrel⟩ := hentry f.relPath fun h => by
      rw [h.1] at hstate
      cases hstate
    rw [← hrel] at hstate
    exact ⟨e, he, hrel, fun bytes md hrec => (hfresh e he).hash bytes md hrec f hstate⟩

end Steps

/-! ### An edited file, and a text file -/

/-- A tree with one source file and one text file; the source is edited between the runs. -/
def editedTree (content : UInt8) : List (String × Bytes) :=
  [("/repos/p/a.rs", [content]), ("/repos/p/notes.txt", [99])]

def editStep (content : UInt8) (time : Int64) : IndexStep where
  run := ⟨diskOf (editedTree content) time, time.toInt.toNat, "t"⟩
  rootPath := "/repos/p"
  entries := [entryAt "a.rs", entryAt "notes.txt"]

/-- What two runs leave: whether the second was incremental, and the rows. -/
theorem rows_after_edit :
    ((indexRun rustOnly (editStep 97 5).run "p" "/repos/p" (editStep 97 5).entries
        Store.empty).bind fun s =>
      (indexRun rustOnly (editStep 98 6).run "p" "/repos/p" (editStep 98 6).entries s).map fun s' =>
        (isIncremental s "p", s'.files.fileState.rows.map FileState.key)) =
      .ok (true, [("p", "notes.txt"), ("p", "a.rs")]) := by
  decide

theorem runs_of_edit :
    ∃ s s', indexRun rustOnly (editStep 97 5).run "p" "/repos/p" (editStep 97 5).entries
        Store.empty = .ok s ∧
      indexRun rustOnly (editStep 98 6).run "p" "/repos/p" (editStep 98 6).entries s = .ok s' ∧
      isIncremental s "p" = true ∧
      s'.files.fileState.rows.map FileState.key = [("p", "notes.txt"), ("p", "a.rs")] := by
  have h := rows_after_edit
  cases h₁ : indexRun rustOnly (editStep 97 5).run "p" "/repos/p" (editStep 97 5).entries
      Store.empty with
  | error err =>
    rw [h₁] at h
    cases h
  | ok s =>
    rw [h₁] at h
    obtain ⟨s', h₂, h⟩ := Except.map_eq_ok_iff.1 h
    simp only [Except.ok.injEq, Prod.mk.injEq] at h
    exact ⟨s, s', rfl, h₂, h.1, h.2⟩

structure Seen (disk : Disk) (e : InventoryEntry) (bytes : Bytes) (time : Int64) : Prop where
  entry : e = entryAt e.relPath
  read : readStableFile disk e.absPath = .ok (bytes, ⟨1, some time, some time, some 1⟩)
  metadata : disk.metadata e.absPath = .ok ⟨1, some time, some time, some 1⟩

theorem seen_edit {disk : Disk} {e : InventoryEntry}
    (h : Sighted [editStep 97 5, editStep 98 6] disk e) :
    ∃ bytes time, Seen disk e bytes time ∧
      (e.relPath, bytes, time) ∈ [("a.rs", [97], (5 : Int64)), ("notes.txt", [99], 5),
        ("a.rs", [98], 6), ("notes.txt", [99], 6)] := by
  obtain ⟨step, hstep, rfl, he⟩ := h
  simp only [List.mem_cons, List.not_mem_nil, or_false] at hstep
  rcases hstep with rfl | rfl
  all_goals
    simp only [editStep, List.mem_cons, List.not_mem_nil, or_false] at he
    rcases he with rfl | rfl
  · exact ⟨[97], 5, ⟨rfl, by rfl, by rfl⟩, by decide⟩
  · exact ⟨[99], 5, ⟨rfl, by rfl, by rfl⟩, by decide⟩
  · exact ⟨[98], 6, ⟨rfl, by rfl, by rfl⟩, by decide⟩
  · exact ⟨[99], 6, ⟨rfl, by rfl, by rfl⟩, by decide⟩

theorem world_edit : World rustOnly [editStep 97 5, editStep 98 6] := by
  refine ⟨?_, ?_, ?_, ?_, ?_, ?_⟩
  · decide
  · intro disk e h
    obtain ⟨_, _, hseen, _⟩ := seen_edit h
    rw [hseen.entry]
    exact describes_entryAt disk _
  · intro disk e h bytes md hread
    obtain ⟨_, _, hseen, _⟩ := seen_edit h
    cases hseen.read.symm.trans hread
    exact hseen.metadata
  · intro disk e disk' e' h h' hrel
    obtain ⟨_, _, hseen, _⟩ := seen_edit h
    obtain ⟨_, _, hseen', _⟩ := seen_edit h'
    rw [hseen.entry, hseen'.entry, hrel]
  · intro disk e disk' e' h h' hrel bytes bytes' md hread hread' _ _
    obtain ⟨b, t, hseen, hmem⟩ := seen_edit h
    obtain ⟨b', t', hseen', hmem'⟩ := seen_edit h'
    rw [hseen.read] at hread
    rw [hseen'.read] at hread'
    cases hread
    simp only [Except.ok.injEq, Prod.mk.injEq, StableFileMetadata.mk.injEq, Option.some.injEq] at hread'
    obtain ⟨rfl, _, rfl, _⟩ := hread'
    rw [hrel] at hmem
    simp only [List.mem_cons, Prod.mk.injEq, List.not_mem_nil, or_false] at hmem hmem'
    rcases hmem with ⟨h₁, rfl, rfl⟩ | ⟨h₁, rfl, rfl⟩ | ⟨h₁, rfl, rfl⟩ | ⟨h₁, rfl, rfl⟩ <;>
      simp_all
  · intro disk e disk' e' h h' hrel bytes bytes' md md' hread hread' hsha
    obtain ⟨b, t, hseen, hmem⟩ := seen_edit h
    obtain ⟨b', t', hseen', hmem'⟩ := seen_edit h'
    cases hseen.read.symm.trans hread
    cases hseen'.read.symm.trans hread'
    have hcontent : ∀ c ∈ [([97] : Bytes), [98], [99]], ∀ c' ∈ [([97] : Bytes), [98], [99]],
        rustOnly.sha256Hex c = rustOnly.sha256Hex c' → c = c' := by decide
    refine hcontent _ ?_ _ ?_ hsha
    · simp only [List.mem_cons, Prod.mk.injEq, List.not_mem_nil, or_false] at hmem
      rcases hmem with ⟨_, rfl, _⟩ | ⟨_, rfl, _⟩ | ⟨_, rfl, _⟩ | ⟨_, rfl, _⟩
      all_goals decide
    · simp only [List.mem_cons, Prod.mk.injEq, List.not_mem_nil, or_false] at hmem'
      rcases hmem' with ⟨_, rfl, _⟩ | ⟨_, rfl, _⟩ | ⟨_, rfl, _⟩ | ⟨_, rfl, _⟩
      all_goals decide

/-- What is stored after the second run is fresh. -/
theorem index_fresh_edit :
    ∃ s', indexRun rustOnly (editStep 98 6).run "p" "/repos/p" (editStep 98 6).entries
        ([editStep 97 5].foldl (stepIndex rustOnly "p") Store.empty) = .ok s' ∧
      Fresh rustOnly "p" (editStep 98 6).run.disk (editStep 98 6).entries s' := by
  obtain ⟨s, s', h₁, h₂, _⟩ := runs_of_edit
  have hfold : [editStep 97 5].foldl (stepIndex rustOnly "p") Store.empty = s := by
    rw [List.foldl_cons, List.foldl_nil]
    unfold stepIndex
    rw [show (editStep 97 5).rootPath = "/repos/p" from rfl, h₁]
  have hrun : indexRun rustOnly (editStep 98 6).run "p" (editStep 98 6).rootPath
      (editStep 98 6).entries ([editStep 97 5].foldl (stepIndex rustOnly "p") Store.empty) =
        .ok s' := by
    rw [hfold]
    exact h₂
  exact ⟨s', hrun, index_fresh rustOnly "p" [editStep 97 5] (editStep 98 6) s' world_edit hrun⟩

/-- The text file is never extracted, and has a `file_state` row all the same. -/
theorem unsupported_file_has_row :
    ∃ s s', indexRun rustOnly (editStep 97 5).run "p" "/repos/p" (editStep 97 5).entries
        Store.empty = .ok s ∧
      isIncremental s "p" = true ∧
      indexRun rustOnly (editStep 98 6).run "p" "/repos/p" (editStep 98 6).entries s = .ok s' ∧
      ∃ f ∈ s'.files.fileState.rows, f.project = "p" ∧
        ¬ ∃ e ∈ (editStep 98 6).entries, e.relPath = f.relPath ∧
          ∃ bytes md ext, Extracts rustOnly (editStep 98 6).run.disk e bytes md ext := by
  obtain ⟨s, s', h₁, h₂, hinc, hrows⟩ := runs_of_edit
  obtain ⟨f, hf, hkey⟩ : ∃ f ∈ s'.files.fileState.rows, f.key = ("p", "notes.txt") := by
    refine List.mem_map.1 ?_
    rw [hrows]
    decide
  refine ⟨s, s', h₁, hinc, h₂, f, hf, congrArg Prod.fst hkey, ?_⟩
  rintro ⟨e, he, hrel, bytes, md, ext, hex⟩
  have hnotes : e.relPath = "notes.txt" := hrel.trans (congrArg Prod.snd hkey)
  simp only [editStep, List.mem_cons, List.not_mem_nil, or_false] at he
  rcases he with rfl | rfl
  · simp [entryAt] at hnotes
  · exact absurd hex.supported (by decide)

end Greppy
