/-
**Resolution goes file by file.**

The source of a raw edge lives in the file that owns the edge, and the imports that break ties for a
reference are those of the file its source lives in.  So how the edges of a file resolve depends on
the definitions of the project and on the raw edges of that file, and on nothing else: resolving a
selection of raw edges gives a selection of what resolving all of them gives.
-/

import Greppy.EdgeEnds

set_option autoImplicit false

namespace Greppy

namespace GraphIndex

variable {ι : Type} [DecidableEq ι]

/-- The source of the edge, if it is a loaded node, lives in the file that owns the edge. -/
def Homed (index : GraphIndex ι) (edge : ExtractedEdge) : Prop :=
  ∀ n ∈ index.nodes, n.qualifiedName = edge.sourceQualifiedName → n.filePath = edge.filePath

/-- What an import edge is recorded as: the importing file and the target. -/
def importRow (index : GraphIndex ι) (consider : ExtractedEdge → String → Bool)
    (edge : ExtractedEdge) : Option (String × ι) :=
  if edge.edgeType = "IMPORTS" then
    match index.resolveImport edge with
    | some (src, target) =>
      if consider edge src.filePath then some (src.filePath, target) else none
    | none => none
  else none

def importEdge (index : GraphIndex ι) (consider : ExtractedEdge → String → Bool)
    (persist : ExtractedEdge → Bool) (edge : ExtractedEdge) : Option (ι × ι × ExtractedEdge) :=
  if edge.edgeType = "IMPORTS" then
    match index.resolveImport edge with
    | some (src, target) =>
      if consider edge src.filePath = true ∧ persist edge = true then
        some (src.id, target, edge)
      else none
    | none => none
  else none

def referenceEdge (index : GraphIndex ι) (edge : ExtractedEdge) : Option (ι × ι × ExtractedEdge) :=
  if edge.edgeType = "IMPORTS" then none
  else (index.resolveReference edge).map fun p => (p.1, p.2, edge)

/-- The import pass, edge by edge: an import resolves in the same way whatever was recorded. -/
theorem importPass_eq (consider : ExtractedEdge → String → Bool) (persist : ExtractedEdge → Bool)
    (edges : List ExtractedEdge) (index : GraphIndex ι) :
    importPass consider persist edges index =
      ({ index with
          importsByFile := index.importsByFile ++ edges.filterMap (index.importRow consider) },
        edges.filterMap (index.importEdge consider persist)) := by
  induction edges generalizing index with
  | nil => simp [importPass]
  | cons edge edges ih =>
    unfold importPass
    by_cases htype : edge.edgeType = "IMPORTS"
    · rw [if_pos htype]
      cases hres : index.resolveImport edge with
      | none =>
        rw [List.filterMap_cons_none (by simp [importRow, htype, hres]),
          List.filterMap_cons_none (by simp [importEdge, htype, hres])]
        exact ih index
      | some p =>
        obtain ⟨src, target⟩ := p
        simp only
        by_cases hc : consider edge src.filePath = true
        · have hrow : index.importRow consider edge = some (src.filePath, target) := by
            simp [importRow, htype, hres, hc]
          rw [if_pos hc, ih, List.filterMap_cons_some hrow]
          have hrows : (index.recordImport src.filePath target).importRow consider =
              index.importRow consider := rfl
          have hedges : (index.recordImport src.filePath target).importEdge consider persist =
              index.importEdge consider persist := rfl
          rw [hrows, hedges]
          by_cases hp : persist edge = true
          · have hedge : index.importEdge consider persist edge = some (src.id, target, edge) := by
              simp [importEdge, htype, hres, hc, hp]
            rw [List.filterMap_cons_some hedge]
            simp [recordImport, hp]
          · have hedge : index.importEdge consider persist edge = none := by
              simp [importEdge, htype, hres, hp]
            rw [List.filterMap_cons_none hedge]
            simp [recordImport, hp]
        · rw [if_neg hc, List.filterMap_cons_none (by simp [importRow, htype, hres, hc]),
            List.filterMap_cons_none (by simp [importEdge, htype, hres, hc])]
          exact ih index
    · rw [if_neg htype, List.filterMap_cons_none (by simp [importRow, htype]),
        List.filterMap_cons_none (by simp [importEdge, htype])]
      exact ih index

/-! ### A reference looks at one file's imports -/

section Congr

variable {index index' : GraphIndex ι}

theorem resolveUniqueStatusWithImports_congr (hnodes : index'.nodes = index.nodes)
    {src : IndexRow ι} (hnodup : index.ids.Nodup) (hsrc : src ∈ index.nodes)
    (himports : index'.importsOf src.filePath = index.importsOf src.filePath)
    (labels : List String) (name : String) :
    index'.resolveUniqueStatusWithImports labels name src.id =
      index.resolveUniqueStatusWithImports labels name src.id := by
  have hfile : ∀ ix : GraphIndex ι, ix.nodes = index.nodes → ix.fileOf src.id = some src.filePath := by
    intro ix hix
    unfold fileOf
    rw [hix]
    have hfind : (index.nodes.find? fun n => decide (n.id = src.id)) = some src := by
      cases h : index.nodes.find? fun n => decide (n.id = src.id) with
      | none => exact absurd (decide_eq_true rfl) (List.find?_eq_none.1 h src hsrc)
      | some n =>
        have hid : n.id = src.id := by simpa using List.find?_some h
        rw [List.inj_on_of_nodup_map hnodup (List.mem_of_find?_eq_some h) hsrc hid]
    rw [hfind]
    rfl
  unfold resolveUniqueStatusWithImports
  rw [hfile index' hnodes, hfile index rfl]
  simp only [himports]
  unfold defsNamed
  rw [hnodes]

/-- A reference looks at the nodes and at the imports of its source's file. -/
theorem resolveReference_congr (hnodes : index'.nodes = index.nodes) (hnodup : index.ids.Nodup)
    {edge : ExtractedEdge} (himports : ∀ src, index.byQname edge.sourceQualifiedName = some src →
      index'.importsOf src.filePath = index.importsOf src.filePath) :
    index'.resolveReference edge = index.resolveReference edge := by
  have hby : ∀ q, index'.byQname q = index.byQname q := by
    intro q
    unfold byQname
    rw [hnodes]
  unfold resolveReference
  rw [hby]
  cases hsrc : index.byQname edge.sourceQualifiedName with
  | none => rfl
  | some src =>
    have hstatus := resolveUniqueStatusWithImports_congr hnodes hnodup (mem_of_byQname hsrc).1
      (himports src hsrc)
    have hunique : ∀ labels name, index'.resolveUniqueWithImports labels name src.id =
        index.resolveUniqueWithImports labels name src.id := by
      intro labels name
      unfold resolveUniqueWithImports
      rw [hstatus]
    have hrecv : ∀ file owner name, index'.resolveReceiverMethod file owner name =
        index.resolveReceiverMethod file owner name := by
      intro file owner name
      unfold resolveReceiverMethod
      rw [hby, hnodes]
    have hcall : index'.resolveCallTarget edge = index.resolveCallTarget edge := by
      unfold resolveCallTarget
      simp only [hby, hsrc]
      cases nonemptyProp edge "callee_name" with
      | none => rfl
      | some name => simp only [hrecv, hstatus, hunique]
    have hdirect : ∀ nameProp labels, index'.resolveDirectOrName edge nameProp labels =
        index.resolveDirectOrName edge nameProp labels := by
      intro nameProp labels
      unfold resolveDirectOrName
      simp only [hby, hsrc]
      cases nonemptyProp edge nameProp with
      | none => rfl
      | some name => simp only [hunique]
    have htarget : index'.referenceTarget edge src.id = index.referenceTarget edge src.id := by
      unfold referenceTarget
      simp only [hcall, hdirect, hunique, hby]
    simp only [htarget]

end Congr

/-! ### Selections -/

section Selections

variable {index : GraphIndex ι}

def withImports (index : GraphIndex ι) (consider : ExtractedEdge → String → Bool)
    (edges : List ExtractedEdge) : GraphIndex ι :=
  { index with
    importsByFile := index.importsByFile ++ edges.filterMap (index.importRow consider) }

theorem resolveSelected_eq (consider : ExtractedEdge → String → Bool)
    (candidate : ExtractedEdge → Bool) (edges : List ExtractedEdge) :
    index.resolveSelected consider candidate edges =
      edges.filterMap (index.importEdge consider candidate) ++
        (edges.filter candidate).filterMap (index.withImports consider edges).referenceEdge := by
  unfold resolveSelected
  rw [importPass_eq]
  simp only
  congr 1
  unfold referencePass
  rw [List.filterMap_filter]
  refine List.filterMap_congr fun edge _ => ?_
  unfold referenceEdge withImports
  by_cases htype : edge.edgeType = "IMPORTS"
  · simp [htype]
  · by_cases hc : candidate edge = true
    · simp [htype, hc]
    · simp [htype, hc]

theorem importsOf_withImports (consider : ExtractedEdge → String → Bool)
    (edges : List ExtractedEdge) (file : String) :
    (index.withImports consider edges).importsOf file = index.importsOf file ++
      edges.filterMap fun edge => (index.importRow consider edge).bind fun p =>
        if p.1 = file then some p.2 else none := by
  unfold importsOf withImports
  rw [List.filter_append, List.map_append]
  congr 1
  induction edges with
  | nil => rfl
  | cons edge edges ih =>
    cases h : index.importRow consider edge with
    | none =>
      rw [List.filterMap_cons_none h, ih, List.filterMap_cons_none (by rw [h]; rfl)]
    | some p =>
      rw [List.filterMap_cons_some h]
      by_cases hp : p.1 = file
      · rw [List.filter_cons_of_pos (by simpa using hp), List.map_cons, ih,
          List.filterMap_cons_some (by rw [h, Option.bind_some, if_pos hp])]
      · rw [List.filter_cons_of_neg (by simpa using hp), ih,
          List.filterMap_cons_none (by rw [h, Option.bind_some, if_neg hp])]

variable {p : ι × ι × ExtractedEdge} {edges : List ExtractedEdge}

variable {consider : ExtractedEdge → String → Bool} {edge : ExtractedEdge}

theorem edge_of_importEdge {persist : ExtractedEdge → Bool}
    (h : index.importEdge consider persist edge = some p) : p.2.2 = edge := by
  unfold importEdge at h
  split at h
  · split at h
    · split at h
      · cases h
        rfl
      · cases h
    · cases h
  · cases h

theorem edge_of_referenceEdge (h : index.referenceEdge edge = some p) : p.2.2 = edge := by
  unfold referenceEdge at h
  split at h
  · cases h
  · obtain ⟨q, _, rfl⟩ := Option.map_eq_some_iff.1 h
    rfl

/-- A resolved edge is one of those given, and starts at the node that its source names. -/
theorem source_of_mem_resolveEdges (h : p ∈ index.resolveEdges edges) : p.2.2 ∈ edges ∧
      ∃ src, index.byQname p.2.2.sourceQualifiedName = some src ∧ src.id = p.1 := by
  unfold resolveEdges at h
  rw [resolveSelected_eq] at h
  rcases List.mem_append.1 h with h | h
  · obtain ⟨edge, hmem, hedge⟩ := List.mem_filterMap.1 h
    have hsame := edge_of_importEdge hedge
    subst hsame
    refine ⟨hmem, ?_⟩
    unfold importEdge at hedge
    split at hedge
    · split at hedge
      · rename_i src target hres
        split at hedge
        · have hsrc := (resolveImport_eq_some_iff.1 hres).1
          exact ⟨src, hsrc, congrArg Prod.fst (Option.some.inj hedge)⟩
        · cases hedge
      · cases hedge
    · cases hedge
  · obtain ⟨edge, hmem, hedge⟩ := List.mem_filterMap.1 h
    have hsame := edge_of_referenceEdge hedge
    subst hsame
    refine ⟨List.mem_of_mem_filter hmem, ?_⟩
    unfold referenceEdge at hedge
    split at hedge
    · cases hedge
    · obtain ⟨q, hq, hp⟩ := Option.map_eq_some_iff.1 hedge
      obtain ⟨src, hsrc, hid, _⟩ := resolveReference_eq_some_iff.1 hq
      exact ⟨src, hsrc, hid.symm.trans (congrArg Prod.fst hp)⟩

omit [DecidableEq ι] in
private theorem filter_filterMap_edge {g : ExtractedEdge → Option (ι × ι × ExtractedEdge)}
    (hg : ∀ edge p, g edge = some p → p.2.2 = edge) (keep : ExtractedEdge → Bool)
    (edges : List ExtractedEdge) :
    (edges.filterMap g).filter (fun p => keep p.2.2) = (edges.filter keep).filterMap g := by
  rw [List.filter_filterMap, List.filterMap_filter]
  refine List.filterMap_congr fun edge _ => ?_
  cases h : g edge with
  | none => simp
  | some p =>
    rw [← hg edge p h]
    by_cases hk : keep p.2.2 = true
    · simp [Option.filter, hg edge p h]
    · simp [Option.filter, hk]

/-- **Resolving the candidates is resolving everything and keeping the candidates**, when every
candidate import is considered and every import of a file that owns a candidate reference. -/
theorem resolveSelected_eq_filter {candidate : ExtractedEdge → Bool} (hnodup : index.ids.Nodup)
    (hhome : ∀ edge ∈ edges, index.Homed edge)
    (hown : ∀ edge file, candidate edge = true → consider edge file = true)
    (hfile : ∀ edge ∈ edges, edge.edgeType ≠ "IMPORTS" → candidate edge = true →
      ∀ other, consider other edge.filePath = true) :
    index.resolveSelected consider candidate edges =
      (index.resolveEdges edges).filter fun p => candidate p.2.2 := by
  unfold resolveEdges
  rw [resolveSelected_eq, resolveSelected_eq, List.filter_append,
    filter_filterMap_edge fun edge p => edge_of_importEdge,
    filter_filterMap_edge fun edge p => edge_of_referenceEdge]
  congr 1
  · -- a candidate import is considered, and others are not kept
    rw [List.filterMap_filter]
    refine List.filterMap_congr fun edge _ => ?_
    unfold importEdge
    by_cases hc : candidate edge = true
    · simp only [hc, hown edge _ hc, and_self, if_true]
    · rw [if_neg hc]
      split
      · split
        · rw [if_neg fun h => hc h.2]
        · rfl
      · rfl
  · simp only [List.filter_true]
    refine List.filterMap_congr fun edge hedge => ?_
    obtain ⟨hmem, hc⟩ := List.mem_filter.1 hedge
    unfold referenceEdge
    by_cases htype : edge.edgeType = "IMPORTS"
    · rw [if_pos htype, if_pos htype]
    · rw [if_neg htype, if_neg htype]
      congr 1
      have hnodes : (index.withImports consider edges).nodes =
          (index.withImports (fun _ _ => true) edges).nodes := rfl
      refine resolveReference_congr hnodes hnodup ?_
      intro src hsrc
      -- the imports of the file are all considered
      have hsrcFile : src.filePath = edge.filePath :=
        hhome edge hmem src (mem_of_byQname hsrc).1 (mem_of_byQname hsrc).2
      rw [importsOf_withImports, importsOf_withImports]
      congr 1
      refine List.filterMap_congr fun other _ => ?_
      unfold importRow
      split
      · split
        · rename_i s t _
          by_cases hs : s.filePath = src.filePath
          · rw [hs, hsrcFile, hfile edge hmem htype hc other]
          · by_cases hcons : consider other s.filePath = true
            · simp [hcons, hs]
            · simp [hcons, hs]
        · rfl
      · rfl

/-- **Resolving the edges of a file is resolving everything and keeping what the file owns.** -/
theorem filter_resolveEdges (hnodup : index.ids.Nodup) (hhome : ∀ edge ∈ edges, index.Homed edge)
    (file : String) :
    (index.resolveEdges edges).filter (fun p => decide (p.2.2.filePath = file)) =
      index.resolveEdges (edges.filter fun edge => decide (edge.filePath = file)) := by
  unfold resolveEdges
  rw [resolveSelected_eq, resolveSelected_eq, List.filter_append,
    filter_filterMap_edge (fun edge p => edge_of_importEdge)
      fun edge => decide (edge.filePath = file),
    filter_filterMap_edge (fun edge p => edge_of_referenceEdge)
      fun edge => decide (edge.filePath = file)]
  congr 1
  simp only [List.filter_true]
  refine List.filterMap_congr fun edge hedge => ?_
  obtain ⟨hmem, hf⟩ := List.mem_filter.1 hedge
  have hfile : edge.filePath = file := of_decide_eq_true hf
  unfold referenceEdge
  split
  · rfl
  · congr 1
    have hnodes : (index.withImports (fun _ _ => true) edges).nodes =
        (index.withImports (fun _ _ => true)
          (edges.filter fun edge => decide (edge.filePath = file))).nodes := rfl
    refine resolveReference_congr hnodes hnodup ?_
    intro src hsrc
    have hsrcFile : src.filePath = file :=
      (hhome edge hmem src (mem_of_byQname hsrc).1 (mem_of_byQname hsrc).2).trans hfile
    rw [importsOf_withImports, importsOf_withImports, List.filterMap_filter]
    congr 1
    refine List.filterMap_congr fun other hother => ?_
    by_cases ho : other.filePath = file
    · simp [ho]
    · -- the imports of other files are not looked at
      simp only [ho, decide_false, Bool.false_eq_true, if_false]
      unfold importRow
      split
      · split
        · rename_i s t hres
          obtain ⟨hs, _⟩ := resolveImport_eq_some_iff.1 hres
          have hsFile := hhome other hother s (mem_of_byQname hs).1 (mem_of_byQname hs).2
          have hne : ¬ s.filePath = src.filePath := by
            rw [hsFile, hsrcFile]
            exact ho
          simp [hne]
        · rfl
      · rfl

end Selections

end GraphIndex

end Greppy
