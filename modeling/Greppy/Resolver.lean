/-
**The reference resolver: names to definitions, without guessing.**

`crates/resolver` maps a referenced name to a definition node of the project.  It has no types to go
by, so it only answers when the candidates leave no choice: a single candidate in the referrer's own
file, a single candidate project-wide, or a single candidate among the definitions the referrer's
file imports.  A stage with several candidates is not an answer, and does not end the search either:
the next stage is tried.
-/

import Greppy.GraphStore
import Greppy.RustStr
import Greppy.UniqueChoice

set_option autoImplicit false

namespace Greppy

/-! ### Labels -/

/-- `CALLABLE_LABELS`: what a `CALLS` edge may resolve to. -/
def callableLabels : List String := ["Function", "Method"]

/-- `CONSTRUCTABLE_LABELS`: what a `CALLS` edge falls back to. -/
def constructableLabels : List String := ["Class", "Struct", "Type", "Enum"]

def typeLabels : List String :=
  ["Class", "Interface", "Type", "Enum", "Struct", "Trait", "TypeAlias"]

def defLabels : List String :=
  ["Function", "Method", "Class", "Interface", "Type", "Enum", "Struct", "Trait", "TypeAlias"]

/-- `IMPORTABLE_LABELS`: an import names a top-level symbol, never a method. -/
def importableLabels : List String :=
  ["Function", "Class", "Interface", "Type", "Enum", "Struct", "Trait", "TypeAlias"]

/-! ### Import paths -/

/-- `path_module_segment`: the segment of a use-path right before the imported name, unless it is
one that names no file. -/
def pathModuleSegment (path name : String) : Option (List Char) :=
  let segs := ((splitColons path.toList).map trimWhitespace).filter fun s => decide (s ≠ [])
  match segs.reverse with
  | last :: module :: _ =>
    if last ≠ name.toList then none
    else if module = "crate".toList ∨ module = "self".toList ∨ module = "super".toList then none
    else some module
  | _ => none

/-- `file_stem_matches`: `src/b.rs` and `src/b/mod.rs` both belong to a module `b`. -/
def fileStemMatches (filePath : String) (module : List Char) : Bool :=
  match decide (fileName? filePath = some "mod.rs".toList), parentName? filePath with
  | true, some parent => decide (parent = module)
  | _, _ => decide (fileStem? filePath = some module)

example : pathModuleSegment "crate::b :: dup" "dup" = some ['b'] := by decide

example : fileStemMatches "src/b/mod.rs" ['b'] = true := by decide

/-! ### The resolvers -/

inductive CallResolution where
  | unique (id : ℕ)
  | unresolved
  | ambiguous (ids : List ℕ)
  deriving DecidableEq

/-- `CallResolution::unique_id`. -/
def CallResolution.uniqueId : CallResolution → Option ℕ
  | .unique id => some id
  | _ => none

/-- `NAME_LIMIT` and `IMPORT_LIMIT`. -/
def rowLimit : ℕ := 100000

/-- `defs_named`: the nodes of a name whose label is admitted. -/
def defsNamed (g : Graph) (project : String) (labels : List String) (name : String) : List Node :=
  (g.listNodesByName project name rowLimit).filter fun n => decide (n.label ∈ labels)

/-- `resolve_unique`: same-file preference, then project-wide uniqueness. -/
def resolveUnique (candidates : List Node) (referrer : Node) : CallResolution :=
  if candidates.isEmpty then .unresolved
  else
    match (candidates.filter fun n => decide (n.filePath = referrer.filePath)).only with
    | some n => .unique n.id
    | none =>
      match candidates.only with
      | some n => .unique n.id
      | none => .ambiguous (candidates.map Node.id)

/-- `imported_target_ids`: the targets of the `IMPORTS` edges of a file's module node. -/
def importedTargetIds (g : Graph) (project file : String) : List ℕ :=
  match g.getNodeByQname project (file ++ "::__file__") with
  | none => []
  | some module => (g.outgoingEdges module.id "IMPORTS" rowLimit).map Edge.targetId

/-- `resolve_unique_with_imports`: an ambiguous result is narrowed to the one imported candidate. -/
def resolveUniqueWithImports (g : Graph) (project : String) (candidates : List Node)
    (referrer : Node) : CallResolution :=
  match resolveUnique candidates referrer with
  | .ambiguous ids =>
    let imported := importedTargetIds g project referrer.filePath
    if imported.isEmpty then .ambiguous ids
    else
      match (candidates.filter fun n => decide (n.id ∈ imported)).only with
      | some n => .unique n.id
      | none => .ambiguous ids
  | base => base

/-- `resolve_call`: a callable, or failing that a constructable type. -/
def resolveCall (g : Graph) (project : String) (caller : Node) (calleeName : String) :
    CallResolution :=
  let callable := resolveUniqueWithImports g project
    (defsNamed g project callableLabels calleeName) caller
  match callable with
  | .unique id => .unique id
  | _ =>
    match resolveUniqueWithImports g project
        (defsNamed g project constructableLabels calleeName) caller, callable with
    | .unique id, _ => .unique id
    | .unresolved, .unresolved => .unresolved
    | .ambiguous ids, .unresolved => .ambiguous ids
    | _, _ => callable

def uniqueDefNamedWithPath (g : Graph) (project : String) (labels : List String)
    (name path : String) : Option ℕ :=
  let candidates := defsNamed g project labels name
  match candidates.only with
  | some n => some n.id
  | none =>
    match pathModuleSegment path name with
    | none => none
    | some module =>
      (candidates.filter fun n => fileStemMatches n.filePath module).only.map Node.id

/-! ### Stages -/

/-- The candidates in the referrer's own file. -/
def inFile (candidates : List Node) (referrer : Node) : List Node :=
  candidates.filter fun n => decide (n.filePath = referrer.filePath)

/-- The candidates the referrer's file imports. -/
def importedBy (g : Graph) (project : String) (candidates : List Node) (referrer : Node) :
    List Node :=
  candidates.filter fun n => decide (n.id ∈ importedTargetIds g project referrer.filePath)

/-- The outcome of trying stages of candidates in order. -/
def stagedOutcome (stages : List (List Node)) (candidates : List Node) : CallResolution :=
  match firstOnly stages with
  | some n => .unique n.id
  | none => if candidates.isEmpty then .unresolved else .ambiguous (candidates.map Node.id)

theorem resolveUnique_eq_staged (candidates : List Node) (referrer : Node) :
    resolveUnique candidates referrer =
      stagedOutcome [inFile candidates referrer, candidates] candidates := by
  unfold resolveUnique stagedOutcome
  rw [firstOnly_cons, firstOnly_cons, firstOnly_nil, Option.or_none]
  by_cases hempty : candidates.isEmpty
  · rw [List.isEmpty_iff] at hempty
    subst hempty
    rfl
  · rw [if_neg hempty, if_neg hempty]
    change (match (inFile candidates referrer).only with
      | some n => _
      | none => _) = _
    cases (inFile candidates referrer).only with
    | some n => rfl
    | none => cases candidates.only <;> rfl

variable {g : Graph} {candidates : List Node} {stages : List (List Node)}

/-- A single candidate is imported or not; it is the answer either way. -/
theorem only_importedBy_or {project : String} {referrer n : Node} (h : candidates.only = some n) :
    (importedBy g project candidates referrer).only.or (some n) = some n := by
  unfold importedBy
  rw [List.only_eq_some_iff.1 h]
  by_cases hn : n.id ∈ importedTargetIds g project referrer.filePath
  · simp [hn]
  · simp [hn]

theorem resolveUniqueWithImports_eq_staged (g : Graph) (project : String) (candidates : List Node)
    (referrer : Node) :
    resolveUniqueWithImports g project candidates referrer =
      stagedOutcome
        [inFile candidates referrer, importedBy g project candidates referrer, candidates]
        candidates := by
  unfold resolveUniqueWithImports
  rw [resolveUnique_eq_staged candidates referrer]
  unfold stagedOutcome
  simp only [firstOnly_cons, firstOnly_nil, Option.or_none]
  cases (inFile candidates referrer).only with
  | some n => rfl
  | none =>
    simp only [Option.none_or]
    cases hall : candidates.only with
    | some n => rw [only_importedBy_or hall]
    | none =>
      rw [Option.or_none]
      by_cases hempty : candidates.isEmpty
      · rw [List.isEmpty_iff] at hempty
        subst hempty
        rfl
      · simp only [if_neg hempty]
        by_cases hnone : (importedTargetIds g project referrer.filePath).isEmpty
        · have himp : importedBy g project candidates referrer = [] := by
            rw [List.isEmpty_iff] at hnone
            simp [importedBy, hnone]
          rw [if_pos hnone, himp]
          rfl
        · rw [if_neg hnone]
          change (match (importedBy g project candidates referrer).only with
            | some n => _
            | none => _) = _
          cases (importedBy g project candidates referrer).only <;> rfl

theorem stagedOutcome_eq_unique_iff {id : ℕ} :
    stagedOutcome stages candidates = .unique id ↔
      ∃ n, firstOnly stages = some n ∧ n.id = id := by
  unfold stagedOutcome
  cases h : firstOnly stages with
  | some n => simp
  | none =>
    by_cases hempty : candidates.isEmpty
    · simp [hempty]
    · simp [hempty]

theorem stages_subset (g : Graph) (project : String) (candidates : List Node) (referrer : Node) :
    ∀ stage ∈ [inFile candidates referrer, importedBy g project candidates referrer, candidates],
      stage ⊆ candidates := by
  intro stage hstage
  simp only [List.mem_cons, List.not_mem_nil, or_false] at hstage
  rcases hstage with rfl | rfl | rfl
  · exact List.filter_subset_self _
  · exact List.filter_subset_self _
  · exact List.Subset.refl _

theorem exists_mem_of_stagedOutcome {id : ℕ} (h : ∀ stage ∈ stages, stage ⊆ candidates)
    (hid : stagedOutcome stages candidates = .unique id) : ∃ n ∈ candidates, n.id = id := by
  obtain ⟨n, hn, rfl⟩ := stagedOutcome_eq_unique_iff.1 hid
  obtain ⟨stage, hstage, hmem⟩ := exists_mem_of_firstOnly hn
  exact ⟨n, h stage hstage hmem, rfl⟩

/-- The search is unresolved only when there is no candidate at all. -/
theorem stagedOutcome_eq_unresolved_iff (h : ∀ stage ∈ stages, stage ⊆ candidates) :
    stagedOutcome stages candidates = .unresolved ↔ candidates = [] := by
  unfold stagedOutcome
  cases hfirst : firstOnly stages with
  | some n =>
    obtain ⟨stage, hstage, hn⟩ := exists_mem_of_firstOnly hfirst
    have hmem := h stage hstage hn
    simp only [reduceCtorEq, false_iff]
    rintro rfl
    cases hmem
  | none => cases candidates <;> simp

/-! ### Order and membership -/

/-- Two outcomes that differ at most in the order of the ambiguous candidates. -/
def CallResolution.SameOutcome : CallResolution → CallResolution → Prop
  | .unique a, .unique b => a = b
  | .unresolved, .unresolved => True
  | .ambiguous as, .ambiguous bs => as.Perm bs
  | _, _ => False

theorem stagedOutcome_sameOutcome {stages' : List (List Node)} {candidates' : List Node}
    (hstages : List.Forall₂ List.Perm stages stages') (hc : candidates.Perm candidates') :
    (stagedOutcome stages candidates).SameOutcome (stagedOutcome stages' candidates') := by
  unfold stagedOutcome
  rw [← firstOnly_eq_of_perm hstages]
  cases firstOnly stages with
  | some n => rfl
  | none =>
    have hempty : candidates.isEmpty = candidates'.isEmpty := by
      rw [Bool.eq_iff_iff, List.isEmpty_iff, List.isEmpty_iff]
      exact ⟨fun h => (h ▸ hc).nil_eq.symm, fun h => (h ▸ hc).eq_nil⟩
    rw [← hempty]
    cases candidates.isEmpty with
    | true => exact trivial
    | false => exact hc.map Node.id

theorem mem_of_mem_defsNamed {project : String} {labels : List String} {name : String} {n : Node}
    (h : n ∈ defsNamed g project labels name) :
    n ∈ g.nodes.rows ∧ n.project = project ∧ n.name = name ∧ n.label ∈ labels := by
  obtain ⟨hn, hlabel⟩ := List.mem_filter.1 h
  have hrow := (List.perm_insertionSort _ _).mem_iff.1 (Graph.mem_sqlLimit hn)
  obtain ⟨hmem, hkey⟩ := List.mem_filter.1 hrow
  simp only [decide_eq_true_eq] at hlabel hkey
  exact ⟨hmem, hkey.1, hkey.2, hlabel⟩

/-- The order in which the nodes are stored does not show in the candidates. -/
theorem defsNamed_eq_of_perm {g' : Graph} (h : g'.nodes.rows.Perm g.nodes.rows) (project : String)
    (labels : List String) (name : String) :
    defsNamed g' project labels name = defsNamed g project labels name := by
  unfold defsNamed Graph.listNodesByName
  rw [Graph.orderByQname_eq_of_perm (h.filter _)]
  intro a ha b hb hab
  obtain ⟨ha, hpa⟩ := List.mem_filter.1 ha
  obtain ⟨hb, hpb⟩ := List.mem_filter.1 hb
  simp only [decide_eq_true_eq] at hpa hpb
  exact g'.nodes.eq_of_key_eq ha hb (Prod.ext (hpa.1.trans hpb.1.symm) hab)

/-- **Resolution never guesses.**  With the candidates of a name in any order, a unique answer is
the only candidate of the first stage that has exactly one: the referrer's file, what that file
imports, and (always last) the whole project.  The answer is a node of the project with that name
and an admitted label; no candidate at all is the only way to be unresolved; and neither the order
of the candidates nor that of the stored nodes matters, but for the order in which ambiguous
candidates are listed. -/
theorem resolution_never_guesses (g : Graph) (project name : String) (labels : List String)
    (referrer : Node) (candidates : List Node)
    (hc : candidates.Perm (defsNamed g project labels name)) :
    let byFile := resolveUnique candidates referrer
    let byImport := resolveUniqueWithImports g project candidates referrer
    (∀ id, byFile = .unique id ↔
      ∃ n, firstOnly [inFile candidates referrer, candidates] = some n ∧ n.id = id) ∧
    (∀ id, byImport = .unique id ↔
      ∃ n, firstOnly [inFile candidates referrer, importedBy g project candidates referrer,
        candidates] = some n ∧ n.id = id) ∧
    (∀ id, byFile = .unique id ∨ byImport = .unique id →
      ∃ n ∈ g.nodes.rows, n.id = id ∧ n.project = project ∧ n.name = name ∧ n.label ∈ labels) ∧
    (byFile = .unresolved ↔ candidates = []) ∧ (byImport = .unresolved ↔ candidates = []) ∧
    (∀ g' : Graph, g'.nodes.rows.Perm g.nodes.rows →
      byFile.SameOutcome (resolveUnique (defsNamed g' project labels name) referrer) ∧
      byImport.SameOutcome
        (resolveUniqueWithImports g project (defsNamed g' project labels name) referrer)) := by
  intro byFile byImport
  have hfile : byFile = stagedOutcome [inFile candidates referrer, candidates] candidates :=
    resolveUnique_eq_staged candidates referrer
  have himport : byImport = stagedOutcome [inFile candidates referrer,
      importedBy g project candidates referrer, candidates] candidates :=
    resolveUniqueWithImports_eq_staged g project candidates referrer
  have hsub := stages_subset g project candidates referrer
  have hsub' : ∀ stage ∈ [inFile candidates referrer, candidates], stage ⊆ candidates := by
    intro stage hstage
    refine hsub stage ?_
    simp only [List.mem_cons] at hstage ⊢
    tauto
  refine ⟨?_, ?_, ?_, ?_, ?_, ?_⟩
  · intro id
    rw [hfile, stagedOutcome_eq_unique_iff]
  · intro id
    rw [himport, stagedOutcome_eq_unique_iff]
  · intro id hid
    obtain ⟨n, hn, rfl⟩ : ∃ n ∈ candidates, n.id = id := by
      rcases hid with hid | hid
      · exact exists_mem_of_stagedOutcome hsub' (hfile ▸ hid)
      · exact exists_mem_of_stagedOutcome hsub (himport ▸ hid)
    obtain ⟨hrow, hnode⟩ := mem_of_mem_defsNamed (hc.mem_iff.1 hn)
    exact ⟨n, hrow, rfl, hnode⟩
  · rw [hfile, stagedOutcome_eq_unresolved_iff hsub']
  · rw [himport, stagedOutcome_eq_unresolved_iff hsub]
  · intro g' hg'
    rw [defsNamed_eq_of_perm hg', hfile, himport, resolveUnique_eq_staged,
      resolveUniqueWithImports_eq_staged]
    have hstage := List.Forall₂.cons hc List.Forall₂.nil
    refine ⟨stagedOutcome_sameOutcome (.cons (hc.filter _) hstage) hc, ?_⟩
    exact stagedOutcome_sameOutcome (.cons (hc.filter _) (.cons (hc.filter _) hstage)) hc

/-- A file `a.rs` with two functions `dup` that also imports the `dup` of `b.rs`. -/
def twoDups : Graph :=
  Graph.ofInserts ⟨"p", "2026-06-29T00:00:00Z", "/repos/p"⟩
    [⟨"p", "Module", "a", "a.rs::__file__", "a.rs", 1, 9, Json.emptyObj⟩,
     ⟨"p", "Method", "dup", "a.rs::A::dup", "a.rs", 1, 2, Json.emptyObj⟩,
     ⟨"p", "Method", "dup", "a.rs::B::dup", "a.rs", 3, 4, Json.emptyObj⟩,
     ⟨"p", "Function", "dup", "b.rs::dup", "b.rs", 1, 2, Json.emptyObj⟩,
     ⟨"p", "Function", "main", "a.rs::main", "a.rs", 5, 6, Json.emptyObj⟩]
    [⟨"p", 1, 4, "IMPORTS", Json.emptyObj⟩]

/-- The caller in `a.rs`. -/
def twoDupsCaller : Node :=
  ⟨⟨"p", "Function", "main", "a.rs::main", "a.rs", 5, 6, Json.emptyObj⟩, 5⟩

theorem resolution_never_guesses_twoDups :
    let candidates := defsNamed twoDups "p" callableLabels "dup"
    candidates.Perm (defsNamed twoDups "p" callableLabels "dup") ∧
      ((∃ n, firstOnly [inFile candidates twoDupsCaller,
        importedBy twoDups "p" candidates twoDupsCaller, candidates] = some n ∧ n.id = 4) ↔
      resolveUniqueWithImports twoDups "p" candidates twoDupsCaller = .unique 4) :=
  ⟨List.Perm.refl _,
    ((resolution_never_guesses twoDups "p" "dup" callableLabels twoDupsCaller _
      (List.Perm.refl _)).2.1 4).symm⟩

/-- The stage that comes first is the caller's own file, and it has two candidates; the resolver
answers from the next stage all the same. -/
theorem ambiguous_stage_falls_through :
    let candidates := defsNamed twoDups "p" callableLabels "dup"
    let preferred := [inFile candidates twoDupsCaller,
      importedBy twoDups "p" candidates twoDupsCaller, candidates].find? fun s => !s.isEmpty
    ¬ ((∃ id, resolveUniqueWithImports twoDups "p" candidates twoDupsCaller = .unique id) ↔
      ∃ n, preferred = some [n]) := by
  intro candidates preferred h
  have hpref : preferred.map List.length = some 2 := by decide
  obtain ⟨n, hn⟩ := h.1 ⟨4, by decide⟩
  rw [hn] at hpref
  cases hpref

end Greppy
