/-
**What several sources reach.**

Each of several sources reports the nodes that it reaches, with the number of hops.  A loop over the reports
keeps an entry for each node: the least number of hops, what was reported with it, and the set of the sources.
The entries do not depend on the order of the reports, but for what is reported of a node with the same number
of hops.

Main definitions:

* `SourceMerge.Report`, `SourceMerge.Entry` — what a source reports, and what is kept of it;
* `SourceMerge.add`, `SourceMerge.collect` — the step, and the loop;
* `SourceMerge.Merges` — an entry says what the reports about its node say.
-/

import Greppy.KeyedTable
import Mathlib.Data.Finset.Insert
import Mathlib.Data.Finset.Lattice.Basic

set_option autoImplicit false

namespace SourceMerge

variable {ν κ σ : Type}

structure Report (ν σ : Type) where
  source : σ
  hops : ℕ
  node : ν

structure Entry (ν σ : Type) where
  hops : ℕ
  node : ν
  sources : Finset σ

def Report.entry (r : Report ν σ) : Entry ν σ := ⟨r.hops, r.node, {r.source}⟩

/-- An entry has the least number of hops that is reported of its node, what was reported with it, and the
sources of the reports about its node. -/
structure Merges (key : ν → κ) (reports : List (Report ν σ)) (e : Entry ν σ) : Prop where
  attained : ∃ r ∈ reports, r.node = e.node ∧ r.hops = e.hops
  least : ∀ r ∈ reports, key r.node = key e.node → e.hops ≤ r.hops
  sources : ∀ s, s ∈ e.sources ↔ ∃ r ∈ reports, key r.node = key e.node ∧ r.source = s

variable {key : ν → κ}

theorem Merges.append_of_ne {reports : List (Report ν σ)} {e : Entry ν σ} (h : Merges key reports e)
    {r : Report ν σ} (hne : key e.node ≠ key r.node) : Merges key (reports ++ [r]) e where
  attained := by
    obtain ⟨a, ha, hnode, hhops⟩ := h.attained
    exact ⟨a, List.mem_append_left _ ha, hnode, hhops⟩
  least := by
    intro a ha hkey
    rcases List.mem_append.1 ha with ha | ha
    · exact h.least a ha hkey
    · exact absurd (List.mem_singleton.1 ha ▸ hkey.symm) hne
  sources := by
    intro s
    rw [h.sources]
    refine ⟨fun ⟨a, ha, hkey, hs⟩ => ⟨a, List.mem_append_left _ ha, hkey, hs⟩, fun ⟨a, ha, hkey, hs⟩ => ?_⟩
    rcases List.mem_append.1 ha with ha | ha
    · exact ⟨a, ha, hkey, hs⟩
    · exact absurd (List.mem_singleton.1 ha ▸ hkey.symm) hne

theorem Merges.entry {reports : List (Report ν σ)} {r : Report ν σ}
    (h : ∀ a ∈ reports, key a.node ≠ key r.node) : Merges key (reports ++ [r]) r.entry where
  attained := ⟨r, List.mem_append_right _ List.mem_cons_self, rfl, rfl⟩
  least := by
    intro a ha hsame
    rcases List.mem_append.1 ha with ha | ha
    · exact absurd hsame (h a ha)
    · rw [List.mem_singleton.1 ha]
      exact le_rfl
  sources := by
    intro s
    rw [Report.entry, Finset.mem_singleton]
    constructor
    · rintro rfl
      exact ⟨r, List.mem_append_right _ List.mem_cons_self, rfl, rfl⟩
    · rintro ⟨a, ha, hsame, hs⟩
      rcases List.mem_append.1 ha with ha | ha
      · exact absurd hsame (h a ha)
      · rw [← hs, List.mem_singleton.1 ha]

variable [DecidableEq σ]

/-- The hops and the node are replaced if the new ones are nearer; the sources are put together. -/
def merge (old new : Entry ν σ) : Entry ν σ :=
  if new.hops < old.hops then ⟨new.hops, new.node, old.sources ∪ new.sources⟩
  else ⟨old.hops, old.node, old.sources ∪ new.sources⟩

theorem key_merge (old new : Entry ν σ) (h : key old.node = key new.node) :
    key (merge old new).node = key new.node := by
  rw [merge]
  split
  · rfl
  · exact h

theorem hops_merge (old new : Entry ν σ) : (merge old new).hops = min old.hops new.hops := by
  rw [merge]
  split
  · rename_i hlt
    exact (min_eq_right hlt.le).symm
  · rename_i hle
    exact (min_eq_left (not_lt.1 hle)).symm

theorem sources_merge (old new : Entry ν σ) : (merge old new).sources = old.sources ∪ new.sources := by
  rw [merge]
  split <;> rfl

theorem Merges.merge {reports : List (Report ν σ)} {e : Entry ν σ} (h : Merges key reports e)
    {r : Report ν σ} (hkey : key e.node = key r.node) : Merges key (reports ++ [r]) (merge e r.entry) where
  attained := by
    rw [SourceMerge.merge]
    split
    · exact ⟨r, List.mem_append_right _ List.mem_cons_self, rfl, rfl⟩
    · obtain ⟨a, ha, hnode, hhops⟩ := h.attained
      exact ⟨a, List.mem_append_left _ ha, hnode, hhops⟩
  least := by
    intro a ha hsame
    rw [key_merge e r.entry hkey] at hsame
    rw [hops_merge]
    rcases List.mem_append.1 ha with ha | ha
    · exact (min_le_left _ _).trans (h.least a ha (hsame.trans hkey.symm))
    · rw [List.mem_singleton.1 ha]
      exact min_le_right _ _
  sources := by
    intro s
    rw [sources_merge, Finset.mem_union, h.sources, key_merge e r.entry hkey]
    constructor
    · rintro (⟨a, ha, hsame, hs⟩ | hs)
      · exact ⟨a, List.mem_append_left _ ha, hsame.trans hkey, hs⟩
      · exact ⟨r, List.mem_append_right _ List.mem_cons_self, rfl, (Finset.mem_singleton.1 hs).symm⟩
    · rintro ⟨a, ha, hsame, hs⟩
      rcases List.mem_append.1 ha with ha | ha
      · exact .inl ⟨a, ha, hsame.trans hkey.symm, hs⟩
      · rw [List.mem_singleton.1 ha] at hs
        exact .inr (Finset.mem_singleton.2 hs.symm)

variable [DecidableEq κ]

/-- A report is added to the entry of its node. -/
def add (t : KeyedTable (Entry ν σ) fun e => key e.node) (r : Report ν σ) :
    KeyedTable (Entry ν σ) fun e => key e.node :=
  t.upsertWith merge key_merge r.entry

variable (key) in
def collect (reports : List (Report ν σ)) : KeyedTable (Entry ν σ) fun e => key e.node :=
  reports.foldl add KeyedTable.empty

theorem collect_append_singleton (reports : List (Report ν σ)) (r : Report ν σ) :
    collect key (reports ++ [r]) = add (collect key reports) r := by
  rw [collect, List.foldl_append]
  rfl

variable (key) in
theorem exists_mem_collect {reports : List (Report ν σ)} {r : Report ν σ} (h : r ∈ reports) :
    ∃ e ∈ (collect key reports).rows, key e.node = key r.node := by
  induction reports using List.reverseRecOn with
  | nil => cases h
  | append_singleton reports last ih =>
    rw [collect_append_singleton]
    by_cases hkey : key r.node = key last.node
    · refine ⟨_, KeyedTable.mem_upsertWith.2 (.inl rfl), ?_⟩
      rw [hkey]
      exact KeyedTable.key_merged key_merge (collect key reports) last.entry
    · rcases List.mem_append.1 h with h | h
      · obtain ⟨e, he, hekey⟩ := ih h
        exact ⟨e, KeyedTable.mem_upsertWith.2 (.inr ⟨he, fun heq => hkey (hekey.symm.trans heq)⟩), hekey⟩
      · exact absurd (congrArg (fun r : Report ν σ => key r.node) (List.mem_singleton.1 h)) hkey

/-- **The loop keeps the least number of hops and all sources.**  The induction is on the reports from the
last on; the last one is merged into the entry of its node, and leaves the others as they are. -/
theorem merges_of_mem_collect {reports : List (Report ν σ)} {e : Entry ν σ}
    (h : e ∈ (collect key reports).rows) : Merges key reports e := by
  induction reports using List.reverseRecOn generalizing e with
  | nil => cases h
  | append_singleton reports r ih =>
    rw [collect_append_singleton] at h
    rcases KeyedTable.mem_upsertWith.1 h with rfl | ⟨hold, hne⟩
    · rw [KeyedTable.merged]
      cases hfind : (collect key reports).find? (key r.entry.node) with
      | none =>
        refine Merges.entry fun a ha hsame => ?_
        obtain ⟨old, hold, hkey⟩ := exists_mem_collect key ha
        exact KeyedTable.find?_eq_none_iff.1 hfind old hold (hkey.trans hsame)
      | some old =>
        obtain ⟨hold, hkey⟩ := KeyedTable.find?_eq_some_iff.1 hfind
        exact (ih hold).merge hkey
    · exact (ih hold).append_of_ne hne

theorem exists_report {reports : List (Report ν σ)} {e : Entry ν σ} (h : e ∈ (collect key reports).rows) :
    ∃ r ∈ reports, r.node = e.node := by
  obtain ⟨r, hr, hnode, -⟩ := (merges_of_mem_collect h).attained
  exact ⟨r, hr, hnode⟩

end SourceMerge
