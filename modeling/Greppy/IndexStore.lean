/-
**The store as the indexer sees it: the graph, the per-file tables and the raw edges.**

The indexer keeps, beside the resolved graph, the *raw* edges every file's extraction produced: names
still to be looked up.  An incremental run re-extracts the changed files only and resolves again from
what is kept here.  Rows are owned by a file, appended in extraction order and replaced file by file
(`crates/store/src/raw_edge.rs`).  The full source text the store can hold is not part of the model.
-/

import Greppy.FileTables
import Greppy.GraphStore

set_option autoImplicit false

namespace Greppy

/-- A row of `raw_edges`; the rows are in the order of their ids. -/
structure RawEdge where
  project : String
  filePath : String
  sourceQname : String
  targetQname : String
  edgeType : String
  properties : Json
  deriving DecidableEq

structure Store where
  graph : Graph
  files : FileTables
  rawEdges : List RawEdge
  /-- Whether the table `indexer_raw_edges` of an older indexer is there. -/
  legacySidecar : Bool

namespace Store

def empty : Store := ⟨Graph.empty, FileTables.empty, [], false⟩

/-- `insert_raw_edges`: a plain append. -/
def insertRawEdges (edges : List RawEdge) (s : Store) : Store :=
  { s with rawEdges := s.rawEdges ++ edges }

def deleteRawEdgesForFile (project filePath : String) (s : Store) : Store :=
  { s with
    rawEdges := s.rawEdges.filter fun r => decide (¬ (r.project = project ∧ r.filePath = filePath)) }

def countRawEdges (s : Store) (project : String) : ℕ :=
  (s.rawEdges.filter fun r => decide (r.project = project)).length

/-- `list_raw_edges`: by file, then in insertion order. -/
def listRawEdges (s : Store) (project : String) : List RawEdge :=
  (s.rawEdges.filter fun r => decide (r.project = project)).insertionSort
    fun a b => a.filePath ≤ b.filePath

/-- The raw edges a file owns, in insertion order. -/
def rawEdgesOf (s : Store) (project filePath : String) : List RawEdge :=
  s.rawEdges.filter fun r => decide (r.project = project ∧ r.filePath = filePath)

theorem mem_rawEdgesOf {s : Store} {project filePath : String} {r : RawEdge} :
    r ∈ s.rawEdgesOf project filePath ↔
      r ∈ s.rawEdges ∧ r.project = project ∧ r.filePath = filePath := by
  rw [rawEdgesOf, List.mem_filter, decide_eq_true_eq]

theorem rawEdgesOf_delete (s : Store) (project filePath : String) (r : String) :
    (s.deleteRawEdgesForFile project filePath).rawEdgesOf project r =
      if filePath = r then [] else s.rawEdgesOf project r := by
  unfold rawEdgesOf deleteRawEdgesForFile
  rw [List.filter_filter]
  by_cases h : filePath = r
  · rw [if_pos h, List.filter_eq_nil_iff]
    intro e _ hboth
    obtain ⟨hr, hnot⟩ := Bool.and_eq_true_iff.1 hboth
    have he := of_decide_eq_true hr
    exact of_decide_eq_true hnot ⟨he.1, he.2.trans h.symm⟩
  · rw [if_neg h]
    refine List.filter_congr fun e _ => ?_
    by_cases he : e.project = project ∧ e.filePath = r
    · have hne : ¬ (e.project = project ∧ e.filePath = filePath) :=
        fun hh => h (hh.2.symm.trans he.2)
      rw [decide_eq_true he, decide_eq_true hne]
      rfl
    · rw [decide_eq_false he, Bool.false_and]

theorem rawEdgesOf_insert {edges : List RawEdge} {project filePath : String}
    (h : ∀ e ∈ edges, e.project = project ∧ e.filePath = filePath) (s : Store) (r : String) :
    (s.insertRawEdges edges).rawEdgesOf project r =
      s.rawEdgesOf project r ++ if filePath = r then edges else [] := by
  unfold rawEdgesOf insertRawEdges
  rw [List.filter_append]
  congr 1
  by_cases hr : filePath = r
  · rw [if_pos hr, List.filter_eq_self]
    intro e he
    exact decide_eq_true ⟨(h e he).1, (h e he).2.trans hr⟩
  · rw [if_neg hr, List.filter_eq_nil_iff]
    intro e he hd
    exact hr ((h e he).2.symm.trans (of_decide_eq_true hd).2)

end Store

end Greppy
