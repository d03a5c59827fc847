/-
**Raw edges: what survives the round trip through the store.**

The parser's edges are kept as raw edges, so that a later run can resolve them again without parsing
the files again.  `new_raw_edge_for` folds the line of an edge into its properties and
`extracted_edge_from_raw` reads it back (`crates/indexer/src/lib.rs`).  The edge that comes back is
not the edge that went in, since its properties have gained a `line`.  Nothing that resolution looks
at has changed, however, and folding the line in a second time changes nothing either; so whatever is
resolved from the stored edges is what would have been resolved from the extracted ones.
-/

import Greppy.EdgeResolve

set_option autoImplicit false

namespace Greppy

/-- An edge as it comes back from the store; a raw edge is filed under the edge's own file. -/
def reloaded (project : String) (e : ExtractedEdge) : ExtractedEdge :=
  extractedEdgeFromRaw (newRawEdgeFor project e.filePath e)

/-! ### Edges that resolution cannot tell apart -/

/-- Edges of one type, one file and the same ends, whose properties differ in `line` at most. -/
structure Alike (e e' : ExtractedEdge) : Prop where
  edgeType : e'.edgeType = e.edgeType
  source : e'.sourceQualifiedName = e.sourceQualifiedName
  target : e'.targetQualifiedName = e.targetQualifiedName
  filePath : e'.filePath = e.filePath
  property : ∀ key, key ≠ "line" → e'.properties.get key = e.properties.get key

namespace Alike

variable {e e' : ExtractedEdge}

theorem getStr (h : Alike e e') {key : String} (hkey : key ≠ "line") :
    e'.properties.getStr key = e.properties.getStr key := by
  rw [Json.getStr, Json.getStr, h.property key hkey]

theorem nonemptyProp (h : Alike e e') {key : String} (hkey : key ≠ "line") :
    nonemptyProp e' key = nonemptyProp e key := by
  rw [Greppy.nonemptyProp, Greppy.nonemptyProp, h.getStr hkey]

theorem edgeReferencesName (h : Alike e e') (names : List String) :
    edgeReferencesName e' names = edgeReferencesName e names := by
  rw [Greppy.edgeReferencesName, Greppy.edgeReferencesName, h.edgeType]
  by_cases hcalls : e.edgeType = "CALLS"
  · simp [hcalls, h.getStr (show "callee_name" ≠ "line" by decide)]
  by_cases htype : e.edgeType = "TYPE_REF"
  · simp [htype, h.getStr (show "type_name" ≠ "line" by decide)]
  by_cases huses : e.edgeType = "USES"
  · simp [huses, h.getStr (show "ref_name" ≠ "line" by decide)]
  by_cases himports : e.edgeType = "IMPORTS"
  · simp [himports, h.getStr (show "imported_name" ≠ "line" by decide)]
  · simp [hcalls, htype, huses, himports]

theorem isCandidate (h : Alike e e') (changedFiles names : List String) :
    isCandidate changedFiles names e' = isCandidate changedFiles names e := by
  rw [Greppy.isCandidate, Greppy.isCandidate, h.filePath, h.edgeReferencesName]

section Resolution

variable {ι : Type} [DecidableEq ι]

omit [DecidableEq ι] in
theorem importTarget (h : Alike e e') (index : GraphIndex ι) :
    index.importTarget e' = index.importTarget e := by
  rw [GraphIndex.importTarget, GraphIndex.importTarget, h.nonemptyProp (by decide),
    h.getStr (show "path" ≠ "line" by decide)]

theorem resolveCallTarget (h : Alike e e') (index : GraphIndex ι) :
    index.resolveCallTarget e' = index.resolveCallTarget e := by
  rw [GraphIndex.resolveCallTarget, GraphIndex.resolveCallTarget, h.source, h.target, h.filePath,
    h.nonemptyProp (show "callee_name" ≠ "line" by decide),
    h.getStr (show "callee_form" ≠ "line" by decide),
    h.getStr (show "receiver_owner" ≠ "line" by decide)]

theorem referenceTarget (h : Alike e e') (index : GraphIndex ι) (src : ι) :
    index.referenceTarget e' src = index.referenceTarget e src := by
  simp only [GraphIndex.referenceTarget, GraphIndex.resolveDirectOrName, h.edgeType, h.source,
    h.target, h.resolveCallTarget index, h.nonemptyProp (show "type_name" ≠ "line" by decide),
    h.nonemptyProp (show "ref_name" ≠ "line" by decide)]

theorem resolveImport (h : Alike e e') (index : GraphIndex ι) :
    index.resolveImport e' = index.resolveImport e := by
  rw [GraphIndex.resolveImport, GraphIndex.resolveImport, h.source, h.importTarget]

theorem resolveReference (h : Alike e e') (index : GraphIndex ι) :
    index.resolveReference e' = index.resolveReference e := by
  simp only [GraphIndex.resolveReference, h.source, h.edgeType, h.referenceTarget index]

theorem resolveFileImport (h : Alike e e') (index : GraphIndex ι) :
    index.resolveFileImport e' = index.resolveFileImport e := by
  rw [GraphIndex.resolveFileImport, GraphIndex.resolveFileImport, h.edgeType, h.source,
    h.nonemptyProp (show "imported_name" ≠ "line" by decide), h.importTarget]

end Resolution

end Alike

/-! ### The passes over edges that are alike -/

/-- A resolved edge, with its extracted edge replaced. -/
def mapEdge {ι : Type} (f : ExtractedEdge → ExtractedEdge) (p : ι × ι × ExtractedEdge) :
    ι × ι × ExtractedEdge :=
  (p.1, p.2.1, f p.2.2)

namespace GraphIndex

variable {ι : Type} [DecidableEq ι] {f : ExtractedEdge → ExtractedEdge}

variable {consider considerImport : ExtractedEdge → String → Bool}
  {persist candidate : ExtractedEdge → Bool} {edges : List ExtractedEdge} {index : GraphIndex ι}
  {p : ι × ι × ExtractedEdge}

theorem importPass_map (hf : ∀ e, Alike e (f e))
    (hconsider : ∀ e file, consider (f e) file = consider e file)
    (hpersist : ∀ e, persist (f e) = persist e) (edges : List ExtractedEdge) (index : GraphIndex ι) :
    importPass consider persist (edges.map f) index =
      ((importPass consider persist edges index).1,
        (importPass consider persist edges index).2.map (mapEdge f)) := by
  induction edges generalizing index with
  | nil => rfl
  | cons e edges ih =>
    rw [List.map_cons, importPass, importPass, (hf e).edgeType, (hf e).resolveImport]
    by_cases himports : e.edgeType = "IMPORTS"
    · rw [if_pos himports, if_pos himports]
      cases index.resolveImport e with
      | none => exact ih index
      | some p =>
        obtain ⟨src, target⟩ := p
        simp only [hconsider, hpersist]
        by_cases hcon : consider e src.filePath = true
        · rw [if_pos hcon, if_pos hcon, ih]
          by_cases hper : persist e = true
          · simp [hper, mapEdge]
          · simp [hper]
        · rw [if_neg hcon, if_neg hcon, ih]
    · rw [if_neg himports, if_neg himports, ih]

theorem referencePass_map (hf : ∀ e, Alike e (f e)) {consider : ExtractedEdge → Bool}
    (hconsider : ∀ e, consider (f e) = consider e) (index : GraphIndex ι)
    (edges : List ExtractedEdge) :
    index.referencePass consider (edges.map f) =
      (index.referencePass consider edges).map (mapEdge f) := by
  induction edges with
  | nil => rfl
  | cons e edges ih =>
    unfold referencePass at ih ⊢
    rw [List.map_cons, List.filterMap_cons, List.filterMap_cons, (hf e).edgeType, hconsider e,
      (hf e).resolveReference, ih]
    by_cases hcon : e.edgeType ≠ "IMPORTS" ∧ consider e = true
    · rw [if_pos hcon, if_pos hcon]
      cases index.resolveReference e with
      | none => rfl
      | some p => rfl
    · rw [if_neg hcon, if_neg hcon]

/-- **Edges that are alike are resolved to the same ends, each in its place.** -/
theorem resolveSelected_map (hf : ∀ e, Alike e (f e))
    (hconsider : ∀ e file, considerImport (f e) file = considerImport e file)
    (hcandidate : ∀ e, candidate (f e) = candidate e) (index : GraphIndex ι)
    (edges : List ExtractedEdge) :
    index.resolveSelected considerImport candidate (edges.map f) =
      (index.resolveSelected considerImport candidate edges).map (mapEdge f) := by
  simp only [resolveSelected]
  rw [importPass_map hf hconsider hcandidate, List.map_append, referencePass_map hf hcandidate]

theorem edge_mem_of_mem_importPass (h : p ∈ (importPass consider persist edges index).2) :
    p.2.2 ∈ edges := by
  induction edges generalizing index with
  | nil => cases h
  | cons e edges ih =>
    unfold importPass at h
    split at h
    · split at h
      · rename_i src target _
        split at h
        · simp only at h
          split at h
          · rcases List.mem_cons.1 h with rfl | h
            · exact List.mem_cons_self
            · exact List.mem_cons_of_mem _ (ih h)
          · exact List.mem_cons_of_mem _ (ih h)
        · exact List.mem_cons_of_mem _ (ih h)
      · exact List.mem_cons_of_mem _ (ih h)
    · exact List.mem_cons_of_mem _ (ih h)

theorem edge_mem_of_mem_resolveSelected
    (h : p ∈ index.resolveSelected considerImport candidate edges) : p.2.2 ∈ edges := by
  simp only [resolveSelected, List.mem_append] at h
  rcases h with h | h
  · exact edge_mem_of_mem_importPass h
  · simp only [referencePass, List.mem_filterMap] at h
    obtain ⟨e, hmem, he⟩ := h
    split at he
    · obtain ⟨q, _, rfl⟩ := Option.map_eq_some_iff.1 he
      exact hmem
    · cases he

end GraphIndex

/-! ### The line among the properties -/

/-- What the types of an extracted edge promise: its line is a `u32`, and an object among its
properties is an ordered map. -/
structure ExtractedEdge.Typed (e : ExtractedEdge) : Prop where
  line : e.line < 2 ^ 32
  properties : e.properties.Ordered

/-- The line that the properties of an edge hold, if they hold one. -/
def lineProperty (properties : Json) : Option ℕ := (properties.get "line").bind Json.asU64

/-- An edge without a line has among its properties none that a `u32` cannot hold. -/
def LineFits (e : ExtractedEdge) : Prop :=
  e.line = 0 → ∀ n, lineProperty e.properties = some n → n < 2 ^ 32

variable {project : String} {e : ExtractedEdge}

theorem lineProperty_eq_some {properties : Json} {n : ℕ} (h : lineProperty properties = some n) :
    properties.get "line" = some (.int n) := by
  unfold lineProperty at h
  cases hget : properties.get "line" with
  | none =>
    rw [hget] at h
    cases h
  | some v =>
    rw [hget] at h
    cases v with
    | int m =>
      simp only [Option.bind_some, Json.asU64] at h
      split at h
      · rename_i hrange
        cases h
        rw [Int.toNat_of_nonneg hrange.1]
      · cases h
    | null => cases h
    | bool b => cases h
    | float text => cases h
    | str s => cases h
    | arr items => cases h
    | obj fields => cases h

theorem lineProperty_insert (fields : List (String × Json)) {n : ℕ} (hn : n < 2 ^ 32) :
    lineProperty ((Json.obj fields).insert "line" (.int n)) = some n := by
  have hget : ((Json.obj fields).insert "line" (.int n)).get "line" = some (.int n) :=
    Json.lookup_insertField_self "line" (.int n) fields
  have hrange : (0 : ℤ) ≤ n ∧ (n : ℤ) < 2 ^ 64 := by omega
  rw [lineProperty, hget, Option.bind_some, Json.asU64, if_pos hrange, Int.toNat_natCast]

theorem line_reloaded (project : String) (e : ExtractedEdge) :
    (reloaded project e).line = (lineProperty (withLine e)).getD 0 % 2 ^ 32 := rfl

theorem line_reloaded_of_obj {fields : List (String × Json)} (hline : e.line < 2 ^ 32)
    (hpos : 0 < e.line) (hobj : e.properties = .obj fields) :
    (reloaded project e).line = e.line := by
  have hwith : withLine e = (Json.obj fields).insert "line" (.int e.line) := by
    rw [withLine, if_pos hpos, hobj]
  rw [line_reloaded, hwith, lineProperty_insert fields hline, Option.getD_some,
    Nat.mod_eq_of_lt hline]

/-- Where no line is folded in, the line is the one among the properties. -/
theorem line_reloaded_of_unfolded (h : withLine e = e.properties) :
    (reloaded project e).line = (lineProperty e.properties).getD 0 % 2 ^ 32 := by
  rw [line_reloaded, h]

theorem lineProperty_of_not_obj {properties : Json} (h : ∀ fields, properties ≠ .obj fields) :
    lineProperty properties = none := by
  cases properties with
  | obj fields => exact absurd rfl (h fields)
  | null => rfl
  | bool b => rfl
  | int n => rfl
  | float text => rfl
  | str s => rfl
  | arr items => rfl

theorem insert_of_not_obj {properties : Json} (h : ∀ fields, properties ≠ .obj fields)
    (key : String) (value : Json) : properties.insert key value = properties := by
  cases properties with
  | obj fields => exact absurd rfl (h fields)
  | null => rfl
  | bool b => rfl
  | int n => rfl
  | float text => rfl
  | str s => rfl
  | arr items => rfl

theorem alike_reloaded (project : String) (e : ExtractedEdge) : Alike e (reloaded project e) where
  edgeType := rfl
  source := rfl
  target := rfl
  filePath := rfl
  property key hkey := by
    change (withLine e).get key = e.properties.get key
    unfold withLine
    split
    · exact Json.get_insert_of_ne hkey _ _
    · rfl

/-- **Folding the line in a second time changes nothing.** -/
theorem withLine_reloaded (ht : e.Typed) (hfits : LineFits e) :
    withLine (reloaded project e) = withLine e := by
  have hprops : (reloaded project e).properties = withLine e := rfl
  by_cases hobj : ∀ fields, e.properties ≠ .obj fields
  · -- nothing to fold a line into
    have hwith : withLine e = e.properties := by
      unfold withLine
      split
      · exact insert_of_not_obj hobj _ _
      · rfl
    have hline : (reloaded project e).line = 0 := by
      rw [line_reloaded_of_unfolded hwith, lineProperty_of_not_obj hobj]
      rfl
    rw [withLine, hline, if_neg (lt_irrefl 0), hprops]
  · obtain ⟨fields, hfields⟩ : ∃ fields, e.properties = .obj fields := by
      by_contra hnone
      exact hobj fun fields h => hnone ⟨fields, h⟩
    by_cases hpos : 0 < e.line
    · have hline : (reloaded project e).line = e.line :=
        line_reloaded_of_obj ht.line hpos hfields
      rw [withLine, hline, if_pos hpos, hprops, withLine, if_pos hpos, Json.insert_idem]
    · -- no line of its own: what is read back is what the properties say already
      have hwith : withLine e = e.properties := by rw [withLine, if_neg hpos]
      rw [withLine, line_reloaded_of_unfolded hwith, hprops, hwith]
      cases hprop : lineProperty e.properties with
      | none => rfl
      | some n =>
        have hlt : n < 2 ^ 32 := hfits (by omega) n hprop
        rw [Option.getD_some, Nat.mod_eq_of_lt hlt,
          Json.insert_of_get ht.properties (lineProperty_eq_some hprop), ite_self]

theorem newEdge_reloaded (ht : e.Typed) (hfits : LineFits e) (owner : String) (src target : ℕ) :
    newEdge owner src target (reloaded project e) = newEdge owner src target e := by
  rw [newEdge, newEdge, withLine_reloaded ht hfits]
  rfl

/-! ### The round trip -/

/-- What an edge has kept when it comes back from the store. -/
structure RoundTrip (project : String) (e : ExtractedEdge) : Prop where
  /-- Its type, its ends, its file and every property but the line are the same. -/
  alike : Alike e (reloaded project e)
  /-- Its properties are those it had, with a positive line folded in. -/
  properties : (reloaded project e).properties = withLine e
  /-- Its line is the same, if it could be folded in and if there was none to be taken for it. -/
  line : (0 < e.line ∧ ∃ fields, e.properties = .obj fields) ∨
    (e.line = 0 ∧ lineProperty e.properties = none) → (reloaded project e).line = e.line
  /-- It resolves to what it resolved to, against every index. -/
  resolves : ∀ (ι : Type) [DecidableEq ι] (index : GraphIndex ι),
    index.resolveImport (reloaded project e) = index.resolveImport e ∧
    index.resolveReference (reloaded project e) = index.resolveReference e ∧
    index.resolveFileImport (reloaded project e) = index.resolveFileImport e
  /-- The row of the graph edge is the same, properties included. -/
  newEdge : LineFits e → ∀ owner src target,
    newEdge owner src target (reloaded project e) = newEdge owner src target e

theorem roundTrip_of_typed (ht : e.Typed) : RoundTrip project e where
  alike := alike_reloaded project e
  properties := rfl
  line h := by
    rcases h with ⟨hpos, fields, hobj⟩ | ⟨hzero, hnone⟩
    · exact line_reloaded_of_obj ht.line hpos hobj
    · have hwith : withLine e = e.properties := by
        rw [withLine, if_neg (by omega)]
      rw [line_reloaded_of_unfolded hwith, hnone, hzero]
      rfl
  resolves ι _ index :=
    ⟨(alike_reloaded project e).resolveImport index,
      (alike_reloaded project e).resolveReference index,
      (alike_reloaded project e).resolveFileImport index⟩
  newEdge hfits owner src target := newEdge_reloaded ht hfits owner src target

section Rows

variable {edges : List ExtractedEdge} (h : ∀ e ∈ edges, e.Typed ∧ LineFits e)

include h in
theorem newEdges_map_mapEdge {resolved : List (ℕ × ℕ × ExtractedEdge)}
    (hmem : ∀ p ∈ resolved, p.2.2 ∈ edges) :
    newEdges project (resolved.map (mapEdge (reloaded project))) = newEdges project resolved := by
  unfold newEdges
  rw [List.map_map]
  apply List.map_congr_left
  intro p hp
  obtain ⟨ht, hfits⟩ := h _ (hmem p hp)
  exact newEdge_reloaded ht hfits project p.1 p.2.1

include h in
theorem resolveAndPersistEdges_reloaded (g : Graph) :
    resolveAndPersistEdges project (edges.map (reloaded project)) g =
      resolveAndPersistEdges project edges g := by
  unfold resolveAndPersistEdges GraphIndex.resolveEdges
  rw [GraphIndex.resolveSelected_map (alike_reloaded project) (fun _ _ => rfl) (fun _ => rfl),
    newEdges_map_mapEdge h fun p hp => GraphIndex.edge_mem_of_mem_resolveSelected hp]

theorem candidateOwnerFiles_reloaded {candidate : ExtractedEdge → Bool}
    (hcandidate : ∀ e, candidate (reloaded project e) = candidate e) (edges : List ExtractedEdge) :
    candidateOwnerFiles candidate (edges.map (reloaded project)) =
      candidateOwnerFiles candidate edges := by
  unfold candidateOwnerFiles
  rw [List.filter_map, List.map_map]
  have hpred : ((fun e : ExtractedEdge => decide (e.edgeType ≠ "IMPORTS") && candidate e) ∘
      reloaded project) = fun e => decide (e.edgeType ≠ "IMPORTS") && candidate e := by
    funext e
    rw [Function.comp_apply, hcandidate, (alike_reloaded project e).edgeType]
  rw [hpred]
  rfl

theorem resolveCandidates_reloaded (g : Graph) (changedFiles : List String)
    (edges : List ExtractedEdge) :
    resolveCandidates g project changedFiles (edges.map (reloaded project)) =
      (resolveCandidates g project changedFiles edges).map (mapEdge (reloaded project)) := by
  have hcandidate := fun names e => (alike_reloaded project e).isCandidate changedFiles names
  simp only [resolveCandidates]
  rw [candidateOwnerFiles_reloaded (hcandidate _)]
  apply GraphIndex.resolveSelected_map (alike_reloaded project)
  · intro e file
    rw [hcandidate]
  · exact hcandidate _

include h in
theorem resolveEdgesIncremental_reloaded (changedFiles : List String) (defFpBefore : Finset String)
    (g : Graph) :
    resolveEdgesIncremental project changedFiles defFpBefore (edges.map (reloaded project)) g =
      resolveEdgesIncremental project changedFiles defFpBefore edges g := by
  have hmem : ∀ p ∈ resolveCandidates g project changedFiles edges, p.2.2 ∈ edges :=
    fun p hp => GraphIndex.edge_mem_of_mem_resolveSelected hp
  unfold resolveEdgesIncremental
  rw [resolveAndPersistEdges_reloaded h, resolveCandidates_reloaded, newEdges_map_mapEdge h hmem]

include h in
theorem resolveFileImports_reloaded (g : Graph) :
    resolveFileImports project (edges.map (reloaded project)) g =
      resolveFileImports project edges g := by
  simp only [resolveFileImports]
  have hrows : (edges.map (reloaded project)).filterMap (fun edge =>
        ((GraphIndex.load g project).resolveFileImport edge).map fun p => (p.1, p.2, edge)) =
      (edges.filterMap fun edge => ((GraphIndex.load g project).resolveFileImport edge).map
        fun p => (p.1, p.2, edge)).map (mapEdge (reloaded project)) := by
    rw [List.filterMap_map, List.map_filterMap]
    apply List.filterMap_congr
    intro e _
    rw [Function.comp_apply, (alike_reloaded project e).resolveFileImport, Option.map_map]
    rfl
  rw [hrows, newEdges_map_mapEdge h]
  intro p hp
  obtain ⟨e, hmem, he⟩ := List.mem_filterMap.1 hp
  obtain ⟨q, _, rfl⟩ := Option.map_eq_some_iff.1 he
  exact hmem

end Rows

/-- **Raw edges resolve as the extracted edges do.**  An edge that comes back from the store differs
from the one that went in only in that a positive line stands among its properties; it resolves to
the same target, against every index, and to the same row.  So the three entry points write the same
graph from the stored edges as from the extracted ones. -/
theorem rawEdge_round_trip (project : String) (edges : List ExtractedEdge)
    (ht : ∀ e ∈ edges, e.Typed) :
    (∀ e ∈ edges, RoundTrip project e) ∧
    ((∀ e ∈ edges, LineFits e) → ∀ g : Graph,
      resolveAndPersistEdges project (edges.map (reloaded project)) g =
          resolveAndPersistEdges project edges g ∧
        (∀ changedFiles defFpBefore,
          resolveEdgesIncremental project changedFiles defFpBefore (edges.map (reloaded project)) g =
            resolveEdgesIncremental project changedFiles defFpBefore edges g) ∧
        resolveFileImports project (edges.map (reloaded project)) g =
          resolveFileImports project edges g) := by
  constructor
  · intro e he
    exact roundTrip_of_typed (ht e he)
  · intro hfits g
    have h : ∀ e ∈ edges, e.Typed ∧ LineFits e := fun e he => ⟨ht e he, hfits e he⟩
    exact ⟨resolveAndPersistEdges_reloaded h g,
      fun changedFiles defFpBefore => resolveEdgesIncremental_reloaded h changedFiles defFpBefore g,
      resolveFileImports_reloaded h g⟩

def callOnLineThree : ExtractedEdge where
  edgeType := "CALLS"
  sourceQualifiedName := "src/lib.rs::run"
  targetQualifiedName := "src/lib.rs::helper"
  filePath := "src/lib.rs"
  line := 3
  properties := .obj [("callee_name", .str "helper")]

theorem rawEdge_round_trip_callOnLineThree :
    RoundTrip "p" callOnLineThree ∧ (reloaded "p" callOnLineThree).line = 3 ∧
      ∀ g, resolveAndPersistEdges "p" [reloaded "p" callOnLineThree] g =
        resolveAndPersistEdges "p" [callOnLineThree] g := by
  have ht : ∀ e ∈ [callOnLineThree], e.Typed := by
    intro e he
    rw [List.mem_singleton] at he
    subst he
    exact ⟨by decide, by simp [callOnLineThree, Json.Ordered]⟩
  have hfits : ∀ e ∈ [callOnLineThree], LineFits e := by
    intro e he hzero
    rw [List.mem_singleton] at he
    subst he
    cases hzero
  obtain ⟨hround, hwrites⟩ := rawEdge_round_trip "p" [callOnLineThree] ht
  exact ⟨hround _ (List.mem_singleton.2 rfl), by decide +kernel, fun g => (hwrites hfits g).1⟩

/-- **The properties that come back are not the ones that went in**: the line has joined them. -/
theorem reloaded_gains_line :
    callOnLineThree.properties = .obj [("callee_name", .str "helper")] ∧
    (reloaded "p" callOnLineThree).properties =
      .obj [("callee_name", .str "helper"), ("line", .int 3)] ∧
    (reloaded "p" callOnLineThree).properties ≠ callOnLineThree.properties := by
  decide +kernel

end Greppy
