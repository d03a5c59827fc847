/-
**The indexer's in-memory resolver, and how it relates to the reference resolver.**

Resolving edges one query at a time was too slow, so `crates/indexer` loads the nodes of a project
once into a `GraphIndex` and resolves against that.  Its resolution follows `crates/resolver`, with
three differences, all deliberate:

* an edge whose target name is itself a node goes there directly;
* several candidates that all lie in *one* file are the twins some extractors emit for one source
  symbol, and the first of them by qualified name is taken;
* a call whose callable candidates are ambiguous is left unresolved; only a call without any callable
  candidate falls back to a constructable type.

The index is generic in the type of node ids: what it does with an id is compare it.
-/

import Greppy.Resolver

set_option autoImplicit false

namespace Greppy

/-! ### Extracted edges -/

/-- An edge as the parser extracts it: the ends are names still to be looked up. -/
structure ExtractedEdge where
  edgeType : String
  sourceQualifiedName : String
  targetQualifiedName : String
  filePath : String
  line : ℕ
  properties : Json
  deriving DecidableEq

/-- A string property that is there and not empty. -/
def nonemptyProp (edge : ExtractedEdge) (prop : String) : Option String :=
  match edge.properties.getStr prop with
  | some name => if name.isEmpty then none else some name
  | none => none

/-! ### The index -/

/-- A node reduced to what resolution consults. -/
structure IndexRow (ι : Type) where
  id : ι
  name : String
  qualifiedName : String
  label : String
  filePath : String

/-- The nodes of a project ordered by qualified name, and each file's resolved imports. -/
structure GraphIndex (ι : Type) where
  nodes : List (IndexRow ι)
  importsByFile : List (String × ι)

inductive UniqueResolution (ι : Type) where
  | unique (id : ι)
  | unresolved
  | ambiguous
  deriving DecidableEq

/-- `UniqueResolution::unique_id`. -/
def UniqueResolution.uniqueId {ι : Type} : UniqueResolution ι → Option ι
  | .unique id => some id
  | _ => none

/-- `USAGE_LABELS`: what a `USAGE` edge may resolve to. -/
def usageLabels : List String :=
  ["Function", "Method", "Class", "Interface", "Type", "Enum", "Struct", "Trait", "TypeAlias",
   "Variable", "Field"]

/-- The columns `GraphIndex::load` selects. -/
def Node.toIndexRow (n : Node) : IndexRow ℕ :=
  { id := n.id, name := n.name, qualifiedName := n.qualifiedName, label := n.label
    filePath := n.filePath }

namespace GraphIndex

/-- `GraphIndex::load`. -/
def load (g : Graph) (project : String) : GraphIndex ℕ where
  nodes := (g.projectRows project).map Node.toIndexRow
  importsByFile := []

variable {ι : Type} [DecidableEq ι]

def byQname (index : GraphIndex ι) (qname : String) : Option (IndexRow ι) :=
  index.nodes.find? fun n => decide (n.qualifiedName = qname)

def recordImport (index : GraphIndex ι) (file : String) (targetId : ι) : GraphIndex ι :=
  { index with importsByFile := index.importsByFile ++ [(file, targetId)] }

def importsOf (index : GraphIndex ι) (file : String) : List ι :=
  (index.importsByFile.filter fun p => decide (p.1 = file)).map Prod.snd

def defsNamed (index : GraphIndex ι) (labels : List String) (name : String) : List (IndexRow ι) :=
  (index.nodes.filter fun n => decide (n.name = name)).filter fun n => decide (n.label ∈ labels)

def fileOf (index : GraphIndex ι) (id : ι) : Option String :=
  (index.nodes.find? fun n => decide (n.id = id)).map IndexRow.filePath

/-- `resolve_unique`: same-file preference, then project-wide uniqueness. -/
def resolveUnique (candidates : List (IndexRow ι)) (referrerFile : String) : Option ι :=
  if candidates.isEmpty then none
  else
    match (candidates.filter fun n => decide (n.filePath = referrerFile)).only with
    | some n => some n.id
    | none => candidates.only.map IndexRow.id

/-- The body of `resolve_unique_status_with_imports`, once the candidates, the referrer's file and
what it imports are known. -/
def statusAmong (candidates : List (IndexRow ι)) (referrerFile : String) (imports : List ι) :
    UniqueResolution ι :=
  match resolveUnique candidates referrerFile with
  | some id => .unique id
  | none =>
    match candidates.head? with
    | none => .unresolved
    | some first =>
      match (candidates.filter fun n => decide (n.id ∈ imports)).only with
      | some n => .unique n.id
      | none =>
        if candidates.all fun n => decide (n.filePath = first.filePath) then .unique first.id
        else .ambiguous

def resolveUniqueStatusWithImports (index : GraphIndex ι) (labels : List String) (name : String)
    (referrerId : ι) : UniqueResolution ι :=
  match index.fileOf referrerId with
  | none => .unresolved
  | some referrerFile =>
    statusAmong (index.defsNamed labels name) referrerFile (index.importsOf referrerFile)

def resolveUniqueWithImports (index : GraphIndex ι) (labels : List String) (name : String)
    (referrerId : ι) : Option ι :=
  (index.resolveUniqueStatusWithImports labels name referrerId).uniqueId

def resolveReceiverMethod (index : GraphIndex ι) (filePath owner name : String) : Option ι :=
  if owner.isEmpty || name.isEmpty then none
  else
    match index.byQname (filePath ++ "::" ++ owner ++ "::" ++ name) with
    | some target => if target.label = "Method" then some target.id else none
    | none =>
      let suffix := "::".toList ++ owner.toList ++ "::".toList ++ name.toList
      (index.nodes.filter fun n =>
        decide (n.label = "Method") && suffix.isSuffixOf n.qualifiedName.toList).only.map
          IndexRow.id

def resolveCallTarget (index : GraphIndex ι) (edge : ExtractedEdge) : Option ι :=
  match index.byQname edge.sourceQualifiedName, nonemptyProp edge "callee_name" with
  | some src, some name =>
    if edge.properties.getStr "callee_form" = some "receiver" then
      match edge.properties.getStr "receiver_owner" with
      | some owner => index.resolveReceiverMethod edge.filePath owner name
      | none => none
    else
      match index.byQname edge.targetQualifiedName with
      | some tgt => some tgt.id
      | none =>
        match index.resolveUniqueStatusWithImports callableLabels name src.id with
        | .unique id => some id
        | .unresolved => index.resolveUniqueWithImports constructableLabels name src.id
        | .ambiguous => none
  | _, _ => none

def resolveDirectOrName (index : GraphIndex ι) (edge : ExtractedEdge) (nameProp : String)
    (labels : List String) : Option ι :=
  match index.byQname edge.targetQualifiedName with
  | some tgt => some tgt.id
  | none =>
    match index.byQname edge.sourceQualifiedName, nonemptyProp edge nameProp with
    | some src, some name => index.resolveUniqueWithImports labels name src.id
    | _, _ => none

def uniqueDefNamedWithPath (index : GraphIndex ι) (labels : List String) (name path : String) :
    Option ι :=
  let candidates := index.defsNamed labels name
  match candidates.only with
  | some n => some n.id
  | none =>
    match pathModuleSegment path name with
    | none => none
    | some module =>
      (candidates.filter fun n => fileStemMatches n.filePath module).only.map IndexRow.id

end GraphIndex

/-! ### Index and store -/

/-- The project has at most `rowLimit` nodes of that name, so no query is cut short. -/
def WithinLimit (g : Graph) (project name : String) : Prop :=
  (g.nodes.rows.filter fun n => decide (n.project = project ∧ n.name = name)).length ≤ rowLimit

theorem filter_projectRows (g : Graph) (project : String) (p : Node → Bool) :
    (g.projectRows project).filter p =
      Graph.orderByQname ((g.nodes.rows.filter fun n => decide (n.project = project)).filter p) := by
  have hperm : ((g.projectRows project).filter p).Perm (Graph.orderByQname
      ((g.nodes.rows.filter fun n => decide (n.project = project)).filter p)) :=
    ((List.perm_insertionSort _ _).filter p).trans (List.perm_insertionSort _ _).symm
  refine hperm.eq_of_pairwise ?_ ((List.pairwise_insertionSort _ _).filter p)
    (List.pairwise_insertionSort _ _)
  intro a b ha hb hab hba
  have ha' := Graph.mem_projectRows.1 (List.mem_of_mem_filter ha)
  have hb' := Graph.mem_projectRows.1 (List.mem_of_mem_filter (hperm.mem_iff.2 hb))
  exact g.nodes.eq_of_key_eq ha'.1 hb'.1
    (Prod.ext (ha'.2.trans hb'.2.symm) (le_antisymm hab hba))

theorem sqlLimit_of_length_le {α : Type} {rows : List α} (h : rows.length ≤ rowLimit) :
    Graph.sqlLimit rowLimit rows = rows := by
  unfold Graph.sqlLimit
  rw [if_pos (by decide)]
  exact List.take_of_length_le (by simpa [rowLimit] using h)

/-- The index of a project's nodes with some imports recorded. -/
def GraphIndex.loadWith (g : Graph) (project : String) (imports : List (String × ℕ)) :
    GraphIndex ℕ :=
  { GraphIndex.load g project with importsByFile := imports }

section Agreement

variable {g : Graph} {project name : String} {imports : List (String × ℕ)}

/-- **Index and store give the same candidates**, in the same order. -/
theorem defsNamed_load (labels : List String) (h : WithinLimit g project name) :
    (GraphIndex.loadWith g project imports).defsNamed labels name =
      (defsNamed g project labels name).map Node.toIndexRow := by
  have hname : (g.nodes.rows.filter fun n => decide (n.project = project ∧ n.name = name)) =
      (g.nodes.rows.filter fun n => decide (n.project = project)).filter
        fun n => decide (n.name = name) := by
    rw [List.filter_filter]
    refine List.filter_congr fun n _ => ?_
    rw [Bool.decide_and, Bool.and_comm]
  have hlist : g.listNodesByName project name rowLimit =
      (g.projectRows project).filter fun n => decide (n.name = name) := by
    unfold Graph.listNodesByName
    rw [sqlLimit_of_length_le, hname, filter_projectRows]
    rw [Graph.orderByQname, List.length_insertionSort]
    exact h
  unfold defsNamed
  rw [hlist, GraphIndex.defsNamed, GraphIndex.loadWith, GraphIndex.load, List.filter_map,
    List.filter_map]
  rfl

private theorem find?_of_unique {α : Type} {l : List α} {p : α → Bool} {a : α} (ha : a ∈ l)
    (hp : p a = true) (hu : ∀ b ∈ l, p b = true → b = a) : l.find? p = some a := by
  cases h : l.find? p with
  | none => exact absurd hp (List.find?_eq_none.1 h a ha)
  | some b => rw [hu b (List.mem_of_find?_eq_some h) (List.find?_some h)]

theorem byQname_load (qname : String) :
    (GraphIndex.loadWith g project imports).byQname qname =
      (g.getNodeByQname project qname).map Node.toIndexRow := by
  rw [GraphIndex.byQname, GraphIndex.loadWith, GraphIndex.load, List.find?_map]
  congr 1
  cases hn : g.getNodeByQname project qname with
  | none =>
    refine List.find?_eq_none.2 fun n hn' => ?_
    obtain ⟨hmem, hproj⟩ := Graph.mem_projectRows.1 hn'
    intro hq
    exact KeyedTable.find?_eq_none_iff.1 hn n hmem (Prod.ext hproj (of_decide_eq_true hq))
  | some n =>
    obtain ⟨hmem, hkey⟩ := KeyedTable.find?_eq_some_iff.1 hn
    obtain ⟨hproj, hq⟩ := Prod.ext_iff.1 hkey
    refine find?_of_unique (Graph.mem_projectRows.2 ⟨hmem, hproj⟩) (decide_eq_true hq) ?_
    intro m hm hmq
    obtain ⟨hm, hmproj⟩ := Graph.mem_projectRows.1 hm
    exact g.nodes.eq_of_key_eq hm hmem
      (Prod.ext (hmproj.trans hproj.symm) ((of_decide_eq_true hmq).trans hq.symm))

theorem fileOf_load {n : Node} (hn : n ∈ g.nodes.rows) (hproj : n.project = project) :
    (GraphIndex.loadWith g project imports).fileOf n.id = some n.filePath := by
  rw [GraphIndex.fileOf, GraphIndex.loadWith, GraphIndex.load, List.find?_map,
    find?_of_unique (Graph.mem_projectRows.2 ⟨hn, hproj⟩) (decide_eq_true rfl)]
  · rfl
  · intro m hm hid
    exact g.node_eq_of_id_eq (Graph.mem_projectRows.1 hm).1 hn (of_decide_eq_true hid)

/-- The reference outcome, with several candidates in one file resolved to the first of them. -/
def withTwins (candidates : List Node) : CallResolution → UniqueResolution ℕ
  | .unique id => .unique id
  | .unresolved => .unresolved
  | .ambiguous _ =>
    match candidates.head? with
    | none => .ambiguous
    | some first =>
      if candidates.all fun n => decide (n.filePath = first.filePath) then .unique first.id
      else .ambiguous

theorem filter_map_toIndexRow (candidates : List Node) (p : IndexRow ℕ → Bool) :
    (candidates.map Node.toIndexRow).filter p =
      (candidates.filter fun n => p n.toIndexRow).map Node.toIndexRow :=
  List.filter_map

theorem resolveUnique_map (candidates : List Node) (referrer : Node) :
    GraphIndex.resolveUnique (candidates.map Node.toIndexRow) referrer.filePath =
      (resolveUnique candidates referrer).uniqueId := by
  have hfile : ((candidates.map Node.toIndexRow).filter
      fun n => decide (n.filePath = referrer.filePath)).only =
      (inFile candidates referrer).only.map Node.toIndexRow := by
    rw [filter_map_toIndexRow, List.only_map]
    rfl
  rw [resolveUnique_eq_staged, GraphIndex.resolveUnique, hfile, List.only_map, List.isEmpty_map]
  unfold stagedOutcome
  rw [firstOnly_cons, firstOnly_cons, firstOnly_nil, Option.or_none]
  by_cases hempty : candidates.isEmpty
  · rw [List.isEmpty_iff] at hempty
    subst hempty
    rfl
  · rw [if_neg hempty, if_neg hempty]
    cases (inFile candidates referrer).only with
    | some n => rfl
    | none => cases candidates.only <;> rfl

/-- The in-memory outcome is the reference outcome, with twins resolved at the end. -/
theorem statusAmong_map {referrer : Node} {ids : List ℕ} (candidates : List Node)
    (hids : ∀ id, id ∈ ids ↔ id ∈ importedTargetIds g project referrer.filePath) :
    GraphIndex.statusAmong (candidates.map Node.toIndexRow) referrer.filePath ids =
      withTwins candidates (resolveUniqueWithImports g project candidates referrer) := by
  have himp : ((candidates.map Node.toIndexRow).filter fun n => decide (n.id ∈ ids)).only =
      (importedBy g project candidates referrer).only.map Node.toIndexRow := by
    rw [filter_map_toIndexRow, List.only_map]
    congr 2
    exact List.filter_congr fun n _ => decide_eq_decide.2 (hids n.id)
  have hall : ∀ first : Node, ((candidates.map Node.toIndexRow).all
      fun n => decide (n.filePath = first.toIndexRow.filePath)) =
      candidates.all fun n => decide (n.filePath = first.filePath) := by
    intro first
    rw [List.all_map]
    rfl
  unfold GraphIndex.statusAmong
  rw [resolveUnique_map, resolveUnique_eq_staged, resolveUniqueWithImports_eq_staged, himp,
    List.head?_map]
  unfold stagedOutcome
  simp only [firstOnly_cons, firstOnly_nil, Option.or_none]
  cases (inFile candidates referrer).only with
  | some n => rfl
  | none =>
    cases honly : candidates.only with
    | some n =>
      simp only [Option.none_or, only_importedBy_or honly]
      rfl
    | none =>
      simp only [Option.none_or, Option.or_none]
      cases hhead : candidates.head? with
      | none =>
        rw [List.head?_eq_none_iff] at hhead
        subst hhead
        rfl
      | some first =>
        have hempty : candidates.isEmpty = false := by
          cases candidates with
          | nil => cases hhead
          | cons a l => rfl
        rw [hempty]
        cases (importedBy g project candidates referrer).only with
        | some n => rfl
        | none => simp only [Option.map_some, hall, withTwins, hhead]; rfl

theorem resolveUniqueStatus_eq_withTwins {referrer : Node} (labels : List String)
    (hlimit : WithinLimit g project name) (href : referrer ∈ g.nodes.rows)
    (hproj : referrer.project = project)
    (himports : ∀ id, id ∈ (GraphIndex.loadWith g project imports).importsOf referrer.filePath ↔
      id ∈ importedTargetIds g project referrer.filePath) :
    (GraphIndex.loadWith g project imports).resolveUniqueStatusWithImports labels name referrer.id =
      withTwins (defsNamed g project labels name)
        (resolveUniqueWithImports g project (defsNamed g project labels name) referrer) := by
  rw [GraphIndex.resolveUniqueStatusWithImports, fileOf_load href hproj, defsNamed_load labels hlimit]
  exact statusAmong_map _ himports

theorem uniqueDefNamedWithPath_load (labels : List String) (path : String)
    (hlimit : WithinLimit g project name) :
    (GraphIndex.loadWith g project imports).uniqueDefNamedWithPath labels name path =
      uniqueDefNamedWithPath g project labels name path := by
  simp only [GraphIndex.uniqueDefNamedWithPath, defsNamed_load labels hlimit,
    uniqueDefNamedWithPath, List.only_map]
  cases (defsNamed g project labels name).only with
  | some n => rfl
  | none =>
    cases pathModuleSegment path name with
    | none => rfl
    | some module =>
      simp only [Option.map_none, filter_map_toIndexRow, List.only_map, Option.map_map]
      rfl

/-- What the reference resolver answers for a name of given labels, with twins resolved. -/
def referenceStatus (g : Graph) (project : String) (labels : List String) (name : String)
    (referrer : Node) : UniqueResolution ℕ :=
  withTwins (defsNamed g project labels name)
    (resolveUniqueWithImports g project (defsNamed g project labels name) referrer)

/-- A callable, or a constructable type when there is no callable at all. -/
def referenceCallee (g : Graph) (project name : String) (caller : Node) : Option ℕ :=
  match referenceStatus g project callableLabels name caller with
  | .unique id => some id
  | .unresolved => (referenceStatus g project constructableLabels name caller).uniqueId
  | .ambiguous => none

/-- With nothing ambiguous on the way, twins do not matter and a call resolves as in the
reference. -/
theorem referenceCallee_eq_resolveCall {caller : Node}
    (hcall : ∀ ids, resolveUniqueWithImports g project
      (defsNamed g project callableLabels name) caller ≠ .ambiguous ids)
    (hcons : ∀ ids, resolveUniqueWithImports g project
      (defsNamed g project constructableLabels name) caller ≠ .ambiguous ids) :
    referenceCallee g project name caller = (resolveCall g project caller name).uniqueId := by
  unfold referenceCallee resolveCall referenceStatus
  cases h : resolveUniqueWithImports g project (defsNamed g project callableLabels name) caller with
  | unique id => rfl
  | ambiguous ids => exact absurd h (hcall ids)
  | unresolved =>
    cases h' : resolveUniqueWithImports g project
        (defsNamed g project constructableLabels name) caller with
    | unique id => rfl
    | unresolved => rfl
    | ambiguous ids => exact absurd h' (hcons ids)

/-- **The in-memory resolver follows the reference resolver.**  For a project whose nodes are loaded
and whose recorded imports are those of the store, `resolve_unique` and the resolution of imports
give what the reference gives; a reference is resolved as there, except that candidates in one file
resolve to the first; an edge with a direct target goes to it; and a call resolves to a callable, or
to a constructable type when there is no callable, which is what `resolve_call` answers when neither
is ambiguous. -/
theorem graphIndex_follows_resolver (g : Graph) (project name : String)
    (imports : List (String × ℕ)) (referrer : Node) (hlimit : WithinLimit g project name)
    (href : referrer ∈ g.nodes.rows) (hproj : referrer.project = project)
    (himports : ∀ id, id ∈ (GraphIndex.loadWith g project imports).importsOf referrer.filePath ↔
      id ∈ importedTargetIds g project referrer.filePath) :
    let index := GraphIndex.loadWith g project imports
    (∀ labels, GraphIndex.resolveUnique (index.defsNamed labels name) referrer.filePath =
      (resolveUnique (defsNamed g project labels name) referrer).uniqueId) ∧
    (∀ labels, index.resolveUniqueStatusWithImports labels name referrer.id =
      referenceStatus g project labels name referrer) ∧
    (∀ labels path, index.uniqueDefNamedWithPath labels name path =
      uniqueDefNamedWithPath g project labels name path) ∧
    (∀ edge : ExtractedEdge, edge.sourceQualifiedName = referrer.qualifiedName →
      (∀ nameProp labels, nonemptyProp edge nameProp = some name →
        index.resolveDirectOrName edge nameProp labels =
          ((g.getNodeByQname project edge.targetQualifiedName).map Node.id).or
            (referenceStatus g project labels name referrer).uniqueId) ∧
      (nonemptyProp edge "callee_name" = some name →
        edge.properties.getStr "callee_form" ≠ some "receiver" →
        index.resolveCallTarget edge =
          ((g.getNodeByQname project edge.targetQualifiedName).map Node.id).or
            (referenceCallee g project name referrer))) ∧
    ((∀ ids, resolveUniqueWithImports g project
        (defsNamed g project callableLabels name) referrer ≠ .ambiguous ids) →
      (∀ ids, resolveUniqueWithImports g project
        (defsNamed g project constructableLabels name) referrer ≠ .ambiguous ids) →
      referenceCallee g project name referrer = (resolveCall g project referrer name).uniqueId) := by
  intro index
  have hstatus : ∀ labels, index.resolveUniqueStatusWithImports labels name referrer.id =
      referenceStatus g project labels name referrer :=
    fun labels => resolveUniqueStatus_eq_withTwins labels hlimit href hproj himports
  have hsrc : index.byQname referrer.qualifiedName = some referrer.toIndexRow := by
    have hfind : g.getNodeByQname project referrer.qualifiedName = some referrer :=
      KeyedTable.find?_eq_some_iff.2 ⟨href, Prod.ext hproj rfl⟩
    rw [byQname_load, hfind]
    rfl
  refine ⟨?_, hstatus, ?_, ?_, referenceCallee_eq_resolveCall⟩
  · intro labels
    rw [defsNamed_load labels hlimit, resolveUnique_map]
  · intro labels path
    exact uniqueDefNamedWithPath_load labels path hlimit
  · intro edge hedge
    have htgt : index.byQname edge.targetQualifiedName =
        (g.getNodeByQname project edge.targetQualifiedName).map Node.toIndexRow :=
      byQname_load edge.targetQualifiedName
    refine ⟨?_, ?_⟩
    · intro nameProp labels hname
      unfold GraphIndex.resolveDirectOrName
      rw [hedge, hsrc, hname, htgt]
      cases g.getNodeByQname project edge.targetQualifiedName with
      | some t => rfl
      | none =>
        rw [← hstatus labels]
        rfl
    · intro hname hform
      unfold GraphIndex.resolveCallTarget
      rw [hedge, hsrc, hname, htgt]
      simp only [if_neg hform]
      cases g.getNodeByQname project edge.targetQualifiedName with
      | some t => rfl
      | none =>
        unfold referenceCallee GraphIndex.resolveUniqueWithImports
        have hid : referrer.toIndexRow.id = referrer.id := rfl
        rw [hid, hstatus callableLabels, hstatus constructableLabels]
        cases referenceStatus g project callableLabels name referrer <;> rfl

end Agreement

/-- A Ruby file whose method `run` is emitted as a function and as a method, and a caller in another
file. -/
def rubyTwins : Graph :=
  Graph.ofInserts ⟨"p", "2026-06-29T00:00:00Z", "/repos/p"⟩
    [⟨"p", "Function", "run", "job.rb::run", "job.rb", 1, 2, Json.emptyObj⟩,
     ⟨"p", "Method", "run", "job.rb::Job::run", "job.rb", 1, 2, Json.emptyObj⟩,
     ⟨"p", "Function", "main", "main.rb::main", "main.rb", 1, 2, Json.emptyObj⟩]
    []

/-- The caller in `main.rb`. -/
def rubyTwinsCaller : Node :=
  ⟨⟨"p", "Function", "main", "main.rb::main", "main.rb", 1, 2, Json.emptyObj⟩, 3⟩

theorem graphIndex_follows_resolver_rubyTwins :
    (WithinLimit rubyTwins "p" "run" ∧ rubyTwinsCaller ∈ rubyTwins.nodes.rows ∧
      rubyTwinsCaller.project = "p") ∧
    (GraphIndex.load rubyTwins "p").resolveUniqueStatusWithImports callableLabels "run" 3 =
      referenceStatus rubyTwins "p" callableLabels "run" rubyTwinsCaller :=
  have hlimit : WithinLimit rubyTwins "p" "run" := by unfold WithinLimit; decide
  have href : rubyTwinsCaller ∈ rubyTwins.nodes.rows := by decide
  ⟨⟨hlimit, href, rfl⟩, (graphIndex_follows_resolver rubyTwins "p" "run" [] rubyTwinsCaller hlimit
    href rfl fun _ => by simp [GraphIndex.importsOf, GraphIndex.loadWith, show
      importedTargetIds rubyTwins "p" rubyTwinsCaller.filePath = [] by decide]).2.1
        callableLabels⟩

/-- The twins are one answer in memory and an ambiguity in the reference. -/
theorem twins_ambiguous_in_reference :
    ¬ ((GraphIndex.load rubyTwins "p").resolveUniqueStatusWithImports callableLabels "run"
        rubyTwinsCaller.id = .ambiguous ↔
      ∃ ids, resolveUniqueWithImports rubyTwins "p"
        (defsNamed rubyTwins "p" callableLabels "run") rubyTwinsCaller = .ambiguous ids) := by
  intro h
  have hmem : (GraphIndex.load rubyTwins "p").resolveUniqueStatusWithImports callableLabels "run"
      rubyTwinsCaller.id = .unique 2 := by decide
  have hamb := h.2 ⟨[2, 1], by decide⟩
  rw [hmem] at hamb
  cases hamb

end Greppy
