/-
**Resolution does not depend on node ids, nor on the structural spine.**

Node ids change whenever a file is indexed again, and the nodes of the structural spine come and go
after edges have been resolved.  Neither matters: what the in-memory resolver does with an id is
compare it, and what it looks for by name are definitions.  So resolving against the loaded nodes is
the same as resolving against the definitions alone, with any other ids, as long as no name that is
looked up is the name of a spine node.
-/

import Greppy.EdgeEnds
import Greppy.Structural

set_option autoImplicit false

namespace Greppy

variable {ι κ : Type}

def IndexRow.rename (f : ι → κ) (n : IndexRow ι) : IndexRow κ :=
  { id := f n.id, name := n.name, qualifiedName := n.qualifiedName, label := n.label
    filePath := n.filePath }

/-- A definition, as opposed to a node of the structural spine. -/
def IndexRow.isDef (n : IndexRow ι) : Bool := decide (n.label ∉ nonDefLabels)

/-- The outcome of a resolution under other ids. -/
def UniqueResolution.rename (f : ι → κ) : UniqueResolution ι → UniqueResolution κ
  | .unique id => .unique (f id)
  | .unresolved => .unresolved
  | .ambiguous => .ambiguous

theorem UniqueResolution.uniqueId_rename (f : ι → κ) (u : UniqueResolution ι) :
    (u.rename f).uniqueId = u.uniqueId.map f := by
  cases u <;> rfl

namespace GraphIndex

/-- The definitions of an index, under other ids. -/
def definitions (f : ι → κ) (index : GraphIndex ι) : GraphIndex κ where
  nodes := (index.nodes.filter IndexRow.isDef).map (IndexRow.rename f)
  importsByFile := index.importsByFile.map fun p => (p.1, f p.2)

/-- Ids are told apart by their new names, and imports are loaded nodes. -/
structure Renaming (f : ι → κ) (index : GraphIndex ι) : Prop where
  nodup : index.ids.Nodup
  inj : ∀ i ∈ index.ids, ∀ j ∈ index.ids, f i = f j → i = j
  imports : ∀ p ∈ index.importsByFile, p.2 ∈ index.ids

def Plain (index : GraphIndex ι) (qname : String) : Prop :=
  ∀ n ∈ index.nodes, n.qualifiedName = qname → n.isDef = true

/-- No name that the edge is resolved by is that of a spine node. -/
structure PlainEdge (index : GraphIndex ι) (edge : ExtractedEdge) : Prop where
  source : index.Plain edge.sourceQualifiedName
  target : index.Plain edge.targetQualifiedName
  receiver : ∀ owner name, index.Plain (edge.filePath ++ "::" ++ owner ++ "::" ++ name)

def DefLabels (labels : List String) : Prop := ∀ l ∈ labels, l ∉ nonDefLabels

theorem defLabels_callable : DefLabels callableLabels := by
  unfold DefLabels
  decide

theorem defLabels_constructable : DefLabels constructableLabels := by
  unfold DefLabels
  decide

theorem defLabels_type : DefLabels typeLabels := by
  unfold DefLabels
  decide

theorem defLabels_def : DefLabels defLabels := by
  unfold DefLabels
  decide

theorem defLabels_usage : DefLabels usageLabels := by
  unfold DefLabels
  decide

theorem defLabels_importable : DefLabels importableLabels := by
  unfold DefLabels
  decide

section Lookups

private theorem find?_congr_mem {α : Type} {p q : α → Bool} {l : List α}
    (h : ∀ a ∈ l, p a = q a) : l.find? p = l.find? q := by
  induction l with
  | nil => rfl
  | cons a l ih =>
    rw [List.find?_cons, List.find?_cons, h a List.mem_cons_self,
      ih fun b hb => h b (List.mem_cons_of_mem _ hb)]

variable {f : ι → κ} {index : GraphIndex ι}

theorem byQname_definitions {qname : String} (h : index.Plain qname) :
    (index.definitions f).byQname qname = (index.byQname qname).map (IndexRow.rename f) := by
  unfold byQname definitions
  rw [List.find?_map, List.find?_filter]
  congr 1
  refine find?_congr_mem fun n hn => ?_
  by_cases hq : n.qualifiedName = qname
  · simp [IndexRow.rename, hq, h n hn hq]
  · simp [IndexRow.rename, hq]

theorem defsNamed_definitions {labels : List String} (hl : DefLabels labels) (name : String) :
    (index.definitions f).defsNamed labels name =
      (index.defsNamed labels name).map (IndexRow.rename f) := by
  unfold defsNamed definitions
  rw [List.filter_map, List.filter_map, List.filter_filter, List.filter_filter, List.filter_filter]
  congr 1
  refine List.filter_congr fun n _ => ?_
  by_cases hlabel : n.label ∈ labels
  · have hdef : n.isDef = true := decide_eq_true (hl _ hlabel)
    simp [IndexRow.rename, hlabel, hdef]
    rfl
  · simp [IndexRow.rename, hlabel]

variable [DecidableEq ι] [DecidableEq κ]

theorem fileOf_definitions (hf : Renaming f index) {n : IndexRow ι} (hn : n ∈ index.nodes)
    (hdef : n.isDef = true) : (index.definitions f).fileOf (f n.id) = index.fileOf n.id := by
  unfold fileOf definitions
  rw [List.find?_map, List.find?_filter, Option.map_map]
  have hsame : IndexRow.filePath ∘ IndexRow.rename f = IndexRow.filePath := rfl
  rw [hsame]
  congr 1
  refine find?_congr_mem fun m hm => ?_
  by_cases hid : m.id = n.id
  · have hmn : m = n := List.inj_on_of_nodup_map hf.nodup hm hn hid
    simp [IndexRow.rename, hmn, hdef]
  · have hne : ¬ f m.id = f n.id :=
      fun heq => hid (hf.inj _ (id_mem_ids hm) _ (id_mem_ids hn) heq)
    simp [IndexRow.rename, hid, hne]

omit [DecidableEq ι] [DecidableEq κ] in
theorem importsOf_definitions (file : String) :
    (index.definitions f).importsOf file = (index.importsOf file).map f := by
  unfold importsOf definitions
  rw [List.filter_map, List.map_map, List.map_map]
  rfl

end Lookups

/-! ### Targets -/

section Targets

variable {f : ι → κ} {index : GraphIndex ι}

theorem resolveUnique_rename (candidates : List (IndexRow ι)) (file : String) :
    resolveUnique (candidates.map (IndexRow.rename f)) file =
      (resolveUnique candidates file).map f := by
  have hfile : ((candidates.map (IndexRow.rename f)).filter
      fun n => decide (n.filePath = file)).only =
      (candidates.filter fun n => decide (n.filePath = file)).only.map (IndexRow.rename f) := by
    rw [List.filter_map, List.only_map]
    rfl
  unfold resolveUnique
  rw [hfile, List.only_map, List.isEmpty_map]
  by_cases hempty : candidates.isEmpty = true
  · rw [if_pos hempty, if_pos hempty]
    rfl
  · rw [if_neg hempty, if_neg hempty]
    cases (candidates.filter fun n => decide (n.filePath = file)).only with
    | some n => rfl
    | none => cases candidates.only <;> rfl

theorem uniqueDefNamedWithPath_definitions {labels : List String} (hl : DefLabels labels)
    (name path : String) : (index.definitions f).uniqueDefNamedWithPath labels name path =
      (index.uniqueDefNamedWithPath labels name path).map f := by
  unfold uniqueDefNamedWithPath
  simp only [defsNamed_definitions hl, List.only_map]
  cases (index.defsNamed labels name).only with
  | some n => rfl
  | none =>
    simp only [Option.map_none]
    cases pathModuleSegment path name with
    | none => rfl
    | some module =>
      simp only [List.filter_map, List.only_map, Option.map_map]
      rfl

theorem importTarget_definitions (edge : ExtractedEdge) :
    (index.definitions f).importTarget edge = (index.importTarget edge).map f := by
  unfold importTarget
  cases nonemptyProp edge "imported_name" with
  | none => rfl
  | some name => exact uniqueDefNamedWithPath_definitions defLabels_importable name _

theorem resolveReceiverMethod_definitions {file : String}
    (hplain : ∀ owner name, index.Plain (file ++ "::" ++ owner ++ "::" ++ name))
    (owner name : String) : (index.definitions f).resolveReceiverMethod file owner name =
      (index.resolveReceiverMethod file owner name).map f := by
  unfold resolveReceiverMethod
  by_cases hempty : (owner.isEmpty || name.isEmpty) = true
  · rw [if_pos hempty, if_pos hempty]
    rfl
  · rw [if_neg hempty, if_neg hempty, byQname_definitions (hplain owner name)]
    cases index.byQname (file ++ "::" ++ owner ++ "::" ++ name) with
    | some target =>
      simp only [Option.map_some]
      by_cases hmethod : target.label = "Method"
      · rw [if_pos hmethod, if_pos (show (target.rename f).label = "Method" from hmethod)]
        rfl
      · rw [if_neg hmethod, if_neg (show ¬ (target.rename f).label = "Method" from hmethod)]
        rfl
    | none =>
      -- only methods are searched, and they are definitions
      simp only [Option.map_none, definitions, List.filter_map, List.filter_filter,
        List.only_map, Option.map_map]
      have hmethods : (index.nodes.filter fun a => ((fun n : IndexRow κ =>
          decide (n.label = "Method") && ("::".toList ++ owner.toList ++ "::".toList ++
            name.toList).isSuffixOf n.qualifiedName.toList) ∘ IndexRow.rename f) a &&
              a.isDef) =
          index.nodes.filter fun n => decide (n.label = "Method") && ("::".toList ++
            owner.toList ++ "::".toList ++ name.toList).isSuffixOf n.qualifiedName.toList := by
        refine List.filter_congr fun n _ => ?_
        by_cases hmethod : n.label = "Method"
        · have hdef : n.isDef = true := by
            unfold IndexRow.isDef
            rw [hmethod]
            decide
          rw [hdef, Bool.and_true]
          rfl
        · simp [IndexRow.rename, hmethod]
      rw [hmethods]
      rfl

variable [DecidableEq ι] [DecidableEq κ]

theorem statusAmong_rename (hf : Renaming f index) {candidates : List (IndexRow ι)}
    (hc : candidates ⊆ index.nodes) (file : String) {imports : List ι}
    (himports : imports ⊆ index.ids) :
    statusAmong (candidates.map (IndexRow.rename f)) file (imports.map f) =
      (statusAmong candidates file imports).rename f := by
  have himported : ((candidates.map (IndexRow.rename f)).filter
      fun n => decide (n.id ∈ imports.map f)).only =
      (candidates.filter fun n => decide (n.id ∈ imports)).only.map (IndexRow.rename f) := by
    rw [List.filter_map, List.only_map]
    congr 2
    refine List.filter_congr fun n hn => ?_
    have hiff : (n.rename f).id ∈ imports.map f ↔ n.id ∈ imports := by
      constructor
      · intro hmem
        obtain ⟨i, hi, heq⟩ := List.mem_map.1 hmem
        rwa [hf.inj _ (id_mem_ids (hc hn)) _ (himports hi) heq.symm]
      · exact fun hmem => List.mem_map_of_mem hmem
    simp only [Function.comp_apply, hiff]
  have hall : ∀ first : IndexRow ι, ((candidates.map (IndexRow.rename f)).all
      fun n => decide (n.filePath = (first.rename f).filePath)) =
      candidates.all fun n => decide (n.filePath = first.filePath) := by
    intro first
    rw [List.all_map]
    rfl
  unfold statusAmong
  rw [resolveUnique_rename, himported, List.head?_map]
  cases resolveUnique candidates file with
  | some id => rfl
  | none =>
    simp only [Option.map_none]
    cases candidates.head? with
    | none => rfl
    | some first =>
      simp only [Option.map_some]
      cases (candidates.filter fun n => decide (n.id ∈ imports)).only with
      | some n => rfl
      | none =>
        simp only [Option.map_none]
        rw [hall first]
        split <;> rfl

variable {labels : List String} {src : IndexRow ι} {edge : ExtractedEdge}

theorem resolveUniqueStatusWithImports_definitions (hf : Renaming f index) (hl : DefLabels labels)
    (name : String) (hsrc : src ∈ index.nodes) (hdef : src.isDef = true) :
    (index.definitions f).resolveUniqueStatusWithImports labels name (f src.id) =
      (index.resolveUniqueStatusWithImports labels name src.id).rename f := by
  have himports : ∀ file, index.importsOf file ⊆ index.ids := by
    intro file i hi
    obtain ⟨p, hp, rfl⟩ := List.mem_map.1 hi
    exact hf.imports p (List.mem_of_mem_filter hp)
  unfold resolveUniqueStatusWithImports
  rw [fileOf_definitions hf hsrc hdef, defsNamed_definitions hl]
  cases index.fileOf src.id with
  | none => rfl
  | some file =>
    simp only [importsOf_definitions]
    exact statusAmong_rename hf (index.defsNamed_subset labels name) file (himports file)

theorem resolveUniqueWithImports_definitions (hf : Renaming f index) (hl : DefLabels labels)
    (name : String) (hsrc : src ∈ index.nodes) (hdef : src.isDef = true) :
    (index.definitions f).resolveUniqueWithImports labels name (f src.id) =
      (index.resolveUniqueWithImports labels name src.id).map f := by
  unfold resolveUniqueWithImports
  rw [resolveUniqueStatusWithImports_definitions hf hl name hsrc hdef,
    UniqueResolution.uniqueId_rename]

theorem resolveCallTarget_definitions (hf : Renaming f index) (hplain : index.PlainEdge edge) :
    (index.definitions f).resolveCallTarget edge = (index.resolveCallTarget edge).map f := by
  unfold resolveCallTarget
  rw [byQname_definitions hplain.source, byQname_definitions hplain.target]
  cases hsrc : index.byQname edge.sourceQualifiedName with
  | none => rfl
  | some src =>
    obtain ⟨hmem, hq⟩ := mem_of_byQname hsrc
    have hdef := hplain.source src hmem hq
    simp only [Option.map_some]
    cases nonemptyProp edge "callee_name" with
    | none => rfl
    | some name =>
      simp only
      by_cases hrecv : edge.properties.getStr "callee_form" = some "receiver"
      · rw [if_pos hrecv, if_pos hrecv]
        cases edge.properties.getStr "receiver_owner" with
        | none => rfl
        | some owner => exact resolveReceiverMethod_definitions hplain.receiver owner name
      · rw [if_neg hrecv, if_neg hrecv]
        cases index.byQname edge.targetQualifiedName with
        | some tgt => rfl
        | none =>
          have hcall := resolveUniqueStatusWithImports_definitions hf defLabels_callable name
            hmem hdef
          have hcons := resolveUniqueWithImports_definitions hf defLabels_constructable name
            hmem hdef
          rw [Option.map_none, show (src.rename f).id = f src.id from rfl, hcall, hcons]
          cases index.resolveUniqueStatusWithImports callableLabels name src.id <;> rfl

theorem resolveDirectOrName_definitions (hf : Renaming f index) (hplain : index.PlainEdge edge)
    (hl : DefLabels labels) (nameProp : String) :
    (index.definitions f).resolveDirectOrName edge nameProp labels =
      (index.resolveDirectOrName edge nameProp labels).map f := by
  unfold resolveDirectOrName
  rw [byQname_definitions hplain.source, byQname_definitions hplain.target]
  cases index.byQname edge.targetQualifiedName with
  | some tgt => rfl
  | none =>
    simp only [Option.map_none]
    cases hsrc : index.byQname edge.sourceQualifiedName with
    | none => rfl
    | some src =>
      obtain ⟨hmem, hq⟩ := mem_of_byQname hsrc
      cases nonemptyProp edge nameProp with
      | none => rfl
      | some name =>
        exact resolveUniqueWithImports_definitions hf hl name hmem (hplain.source src hmem hq)

theorem refName_definitions (hf : Renaming f index) (hl : DefLabels labels)
    (hsrc : src ∈ index.nodes) (hdef : src.isDef = true) (name : Option String) :
    (match name with
      | some name => (index.definitions f).resolveUniqueWithImports labels name (f src.id)
      | none => none) =
    (match name with
      | some name => index.resolveUniqueWithImports labels name src.id
      | none => none).map f := by
  cases name with
  | none => rfl
  | some name => exact resolveUniqueWithImports_definitions hf hl name hsrc hdef

theorem referenceTarget_definitions (hf : Renaming f index) (hplain : index.PlainEdge edge)
    (hsrc : src ∈ index.nodes) (hdef : src.isDef = true) :
    (index.definitions f).referenceTarget edge (f src.id) =
      (index.referenceTarget edge src.id).map f := by
  unfold referenceTarget
  split
  · exact resolveCallTarget_definitions hf hplain
  · split
    · exact resolveDirectOrName_definitions hf hplain defLabels_type "type_name"
    · split
      · exact refName_definitions hf defLabels_def hsrc hdef _
      · split
        · exact refName_definitions hf defLabels_usage hsrc hdef _
        · rw [byQname_definitions hplain.target]
          cases index.byQname edge.targetQualifiedName <;> rfl

end Targets

/-! ### Resolved edges -/

section Passes

variable {f : ι → κ} {index : GraphIndex ι} [DecidableEq ι] [DecidableEq κ]

theorem resolveReference_definitions (hf : Renaming f index) {edge : ExtractedEdge}
    (hplain : index.PlainEdge edge) :
    (index.definitions f).resolveReference edge =
      (index.resolveReference edge).map fun p => (f p.1, f p.2) := by
  unfold resolveReference
  rw [byQname_definitions hplain.source]
  cases hsrc : index.byQname edge.sourceQualifiedName with
  | none => rfl
  | some src =>
    obtain ⟨hmem, hq⟩ := mem_of_byQname hsrc
    have htarget := referenceTarget_definitions hf hplain hmem (hplain.source src hmem hq)
    simp only [Option.map_some]
    rw [show (src.rename f).id = f src.id from rfl, htarget]
    cases ht : index.referenceTarget edge src.id with
    | none => rfl
    | some target =>
      have hiff : f target = f src.id ↔ target = src.id :=
        ⟨hf.inj _ (referenceTarget_mem ht) _ (id_mem_ids hmem), fun h => h ▸ rfl⟩
      simp only [Option.map_some, hiff]
      split <;> rfl

theorem resolveImport_definitions (hf : Renaming f index) {edge : ExtractedEdge}
    (hplain : index.Plain edge.sourceQualifiedName) :
    (index.definitions f).resolveImport edge =
      (index.resolveImport edge).map fun p => (p.1.rename f, f p.2) := by
  unfold resolveImport
  rw [byQname_definitions hplain, importTarget_definitions]
  cases hsrc : index.byQname edge.sourceQualifiedName with
  | none => rfl
  | some src =>
    cases ht : index.importTarget edge with
    | none => rfl
    | some target =>
      have hiff : f target = f src.id ↔ target = src.id :=
        ⟨hf.inj _ (importTarget_mem ht) _ (id_mem_ids (mem_of_byQname hsrc).1),
          fun h => h ▸ rfl⟩
      simp only [Option.map_some, show (src.rename f).id = f src.id from rfl, hiff]
      split <;> rfl

omit [DecidableEq ι] [DecidableEq κ] in
theorem Renaming.recordImport (hf : Renaming f index) (file : String) {id : ι}
    (hid : id ∈ index.ids) : Renaming f (index.recordImport file id) := by
  refine ⟨hf.nodup, hf.inj, ?_⟩
  intro p hp
  rcases List.mem_append.1 hp with hp | hp
  · exact hf.imports p hp
  · rw [List.mem_singleton.1 hp]
    exact hid

omit [DecidableEq κ] in
theorem Renaming.importPass {consider : ExtractedEdge → String → Bool}
    {persist : ExtractedEdge → Bool} {edges : List ExtractedEdge} (hf : Renaming f index) :
    Renaming f (importPass consider persist edges index).1 := by
  induction edges generalizing index with
  | nil => exact hf
  | cons edge edges ih =>
    unfold GraphIndex.importPass
    split
    · split
      · rename_i src target hres
        have htarget := importTarget_mem (resolveImport_eq_some_iff.1 hres).2.1
        split
        · exact ih (hf.recordImport src.filePath htarget)
        · exact ih hf
      · exact ih hf
    · exact ih hf

/-- The import pass over the definitions is the import pass, renamed. -/
theorem importPass_definitions (consider : ExtractedEdge → String → Bool)
    (persist : ExtractedEdge → Bool) {edges : List ExtractedEdge} (hf : Renaming f index)
    (hplain : ∀ edge ∈ edges, index.Plain edge.sourceQualifiedName) :
    importPass consider persist edges (index.definitions f) =
      ((importPass consider persist edges index).1.definitions f,
        (importPass consider persist edges index).2.map fun p => (f p.1, f p.2.1, p.2.2)) := by
  induction edges generalizing index with
  | nil => rfl
  | cons edge edges ih =>
    have hrest : ∀ edge ∈ edges, index.Plain edge.sourceQualifiedName :=
      fun e he => hplain e (List.mem_cons_of_mem _ he)
    unfold importPass
    rw [resolveImport_definitions hf (hplain edge List.mem_cons_self)]
    by_cases htype : edge.edgeType = "IMPORTS"
    · rw [if_pos htype, if_pos htype]
      cases hres : index.resolveImport edge with
      | none => exact ih hf hrest
      | some p =>
        obtain ⟨src, target⟩ := p
        have htarget := importTarget_mem (resolveImport_eq_some_iff.1 hres).2.1
        have hrecord : (index.definitions f).recordImport src.filePath (f target) =
            (index.recordImport src.filePath target).definitions f := by
          unfold recordImport definitions
          simp
        simp only [Option.map_some, show (src.rename f).filePath = src.filePath from rfl]
        by_cases hc : consider edge src.filePath = true
        · rw [if_pos hc, if_pos hc, hrecord,
            ih (hf.recordImport src.filePath htarget) hrest]
          by_cases hp : persist edge = true
          · simp only [if_pos hp, List.map_cons]
            rfl
          · simp only [if_neg hp]
        · rw [if_neg hc, if_neg hc]
          exact ih hf hrest
    · rw [if_neg htype, if_neg htype]
      exact ih hf hrest

/-- **Resolving against the definitions is resolving, renamed.** -/
theorem resolveSelected_definitions {considerImport : ExtractedEdge → String → Bool}
    {candidate : ExtractedEdge → Bool} {edges : List ExtractedEdge} (hf : Renaming f index)
    (hplain : ∀ edge ∈ edges, index.PlainEdge edge) :
    (index.definitions f).resolveSelected considerImport candidate edges =
      (index.resolveSelected considerImport candidate edges).map
        fun p => (f p.1, f p.2.1, p.2.2) := by
  have hpass := importPass_definitions considerImport candidate hf
    fun edge he => (hplain edge he).source
  have hf' : Renaming f (importPass considerImport candidate edges index).1 := hf.importPass
  have hnodes := nodes_importPass considerImport candidate edges index
  unfold resolveSelected
  rw [hpass]
  simp only [List.map_append]
  congr 1
  unfold referencePass
  rw [List.map_filterMap]
  refine List.filterMap_congr fun edge he => ?_
  have hplain' : (importPass considerImport candidate edges index).1.PlainEdge edge := by
    have h := hplain edge he
    have hsame : ∀ q, index.Plain q → (importPass considerImport candidate edges index).1.Plain q := by
      intro q hq n hn
      rw [hnodes] at hn
      exact hq n hn
    exact ⟨hsame _ h.source, hsame _ h.target, fun owner name => hsame _ (h.receiver owner name)⟩
  rw [resolveReference_definitions hf' hplain']
  by_cases hc : edge.edgeType ≠ "IMPORTS" ∧ candidate edge = true
  · rw [if_pos hc, if_pos hc, Option.map_map, Option.map_map]
    rfl
  · rw [if_neg hc, if_neg hc]
    rfl

end Passes

end GraphIndex

end Greppy
