/-
**The imports of a Python file.**

The engine emits one edge for each name that an import statement binds.  Afterwards the edges are collapsed:
the module of an edge is looked up in a map from lines to modules, and of the edges with one module only
the first is kept.  The map has one entry for a line: the module of its last `from` statement, or without
one the first module of its first plain import.

So the edges are not collapsed by module but by line key, and a statement that names several modules, or
shares its line with another, loses edges.
-/

import Greppy.PythonCalls
import Greppy.RustStr

set_option autoImplicit false

/-! ### The first with each key -/

section Firsts

variable {α β κ : Type} [DecidableEq κ]

/-- What is kept when, of the elements with one key, only the first stays; an element without a key always
stays. -/
def retainFirst (key : α → Option κ) : List κ → List α → List α
  | _, [] => []
  | seen, a :: rest =>
    match key a with
    | none => a :: retainFirst key seen rest
    | some k => if k ∈ seen then retainFirst key seen rest else a :: retainFirst key (k :: seen) rest

theorem mem_of_mem_retainFirst {key : α → Option κ} {seen : List κ} {l : List α} {a : α}
    (h : a ∈ retainFirst key seen l) : a ∈ l := by
  induction l generalizing seen with
  | nil => cases h
  | cons b rest ih =>
    rw [retainFirst] at h
    split at h
    · rcases List.mem_cons.1 h with rfl | hrest
      · exact List.mem_cons_self
      · exact List.mem_cons_of_mem _ (ih hrest)
    · split_ifs at h
      · exact List.mem_cons_of_mem _ (ih h)
      · rcases List.mem_cons.1 h with rfl | hrest
        · exact List.mem_cons_self
        · exact List.mem_cons_of_mem _ (ih hrest)

theorem retainFirst_filter (key : α → Option κ) (seen : List κ) (l : List α) :
    (retainFirst key seen l).filter (fun a => (key a).isSome) =
      retainFirst key seen (l.filter fun a => (key a).isSome) := by
  induction l generalizing seen with
  | nil => rfl
  | cons a rest ih =>
    rw [retainFirst, List.filter_cons]
    cases hk : key a with
    | none =>
      simp only [List.filter_cons, hk, Option.isSome_none, Bool.false_eq_true, if_false]
      exact ih seen
    | some k =>
      simp only [Option.isSome_some, if_true, retainFirst, hk]
      split_ifs
      · exact ih seen
      · rw [List.filter_cons, hk, Option.isSome_some, if_pos rfl, ih]

theorem retainFirst_append_seen (key : α → Option κ) (seen : List κ) (k : κ) (hk : k ∈ seen) (l rest : List α)
    (hl : ∀ a ∈ l, key a = some k) : retainFirst key seen (l ++ rest) = retainFirst key seen rest := by
  induction l with
  | nil => rfl
  | cons a l ih =>
    rw [List.cons_append, retainFirst, hl a List.mem_cons_self]
    simp only [if_pos hk]
    exact ih fun b hb => hl b (List.mem_cons_of_mem _ hb)

/-- Groups with one key each keep the first element of those groups that are the first with their key. -/
theorem retainFirst_flatMap (key : α → Option κ) (groupKey : β → κ) (group : β → List α) (seen : List κ)
    (l : List β) (hkey : ∀ b ∈ l, ∀ a ∈ group b, key a = some (groupKey b)) (hne : ∀ b ∈ l, group b ≠ []) :
    retainFirst key seen (l.flatMap group) =
      (retainFirst (fun b => some (groupKey b)) seen l).flatMap fun b => (group b).take 1 := by
  induction l generalizing seen with
  | nil => rfl
  | cons b rest ih =>
    have ih' := fun seen => ih seen (fun b hb => hkey b (List.mem_cons_of_mem _ hb))
      fun b hb => hne b (List.mem_cons_of_mem _ hb)
    have hb := hkey b List.mem_cons_self
    rw [List.flatMap_cons, retainFirst]
    by_cases hseen : groupKey b ∈ seen
    · simp only [if_pos hseen]
      rw [retainFirst_append_seen key seen _ hseen _ _ hb]
      exact ih' seen
    · simp only [if_neg hseen]
      obtain ⟨a, others, hgroup⟩ := List.exists_cons_of_ne_nil (hne b List.mem_cons_self)
      rw [hgroup] at hb
      rw [hgroup, List.cons_append, retainFirst, hb a List.mem_cons_self]
      simp only [if_neg hseen, List.flatMap_cons, hgroup]
      rw [retainFirst_append_seen key _ (groupKey b) List.mem_cons_self others _ fun a ha =>
        hb a (List.mem_cons_of_mem _ ha), ih']
      rfl

theorem retainFirst_comp {ι : Type} [DecidableEq ι] (g : κ → ι) (hg : Function.Injective g) (key : α → κ)
    (seen : List κ) (l : List α) :
    retainFirst (fun a => some (g (key a))) (seen.map g) l = retainFirst (fun a => some (key a)) seen l := by
  induction l generalizing seen with
  | nil => rfl
  | cons a rest ih =>
    have hmem : g (key a) ∈ seen.map g ↔ key a ∈ seen := List.mem_map_of_injective hg
    rw [retainFirst, retainFirst]
    simp only [hmem]
    split_ifs
    · exact ih seen
    · exact congrArg (a :: ·) (ih (key a :: seen))

end Firsts

namespace Extract

open Greppy

/-! ### The shared pass -/

/-- An edge, with the properties of an import. -/
structure FileEdge where
  edge : ExtractedEdge
  item : Option ImportedItem
deriving DecidableEq

/-- `path.rsplit('.').next()`. -/
def lastPart (path : String) : String :=
  String.ofList ((splitOnChar '.' path.toList).getLast?.getD path.toList)

/-- `path.split('.').next()`. -/
def firstPart (path : String) : String :=
  String.ofList ((splitOnChar '.' path.toList).head?.getD path.toList)

def pyNameAndAlias (node : SyntaxNode) : String × Option String :=
  if node.kind = "aliased_import" then
    (((node.childByFieldName "name").map SyntaxNode.text).getD "",
      (node.childByFieldName "alias").map SyntaxNode.text)
  else (node.text, none)

/-- `py_push_dotted_or_aliased`. -/
def pyDottedOrAliased (child : SyntaxNode) : ImportedItem :=
  let (path, rename) := pyNameAndAlias child
  ⟨path, rename.getD (firstPart path), lastPart path, false⟩

/-- One name of a `from` statement. -/
def pyFromItem (module : String) (child : SyntaxNode) : ImportedItem :=
  let (orig, rename) := pyNameAndAlias child
  ⟨if module = "" then orig else module ++ "." ++ orig, rename.getD (lastPart orig), lastPart orig, false⟩

/-- `py_expand_imports`, each item with the module that it is imported from. -/
def pyExpandImports (node : SyntaxNode) : List (String × ImportedItem) :=
  if node.kind = "import_statement" then
    node.namedChildren.map fun child => ((pyNameAndAlias child).1, pyDottedOrAliased child)
  else if node.kind = "import_from_statement" then
    let module := ((node.childByFieldName "module_name").map SyntaxNode.text).getD ""
    if node.namedChildren.any fun child => child.kind == "wildcard_import" then
      [(module, ⟨module, "", "", true⟩)]
    else (node.namedChildren.filter fun child => some child ≠ node.childByFieldName "module_name").map
      fun child => (module, pyFromItem module child)
  else []

/-- `python_queries::IMPORTS`. -/
def pythonImports : Query where
  patterns := [
    pattern ["import_statement"] (some "import") [],
    pattern ["import_from_statement"] (some "from_import") []]
  stays p hp name := by
    simp only [List.mem_cons, List.not_mem_nil, or_false] at hp
    rcases hp with rfl | rfl <;> exact capturesOnly_nil

/-- `expand_import`, for Python. -/
def expandPythonImport (capture : String) (node : SyntaxNode) : List (String × ImportedItem) :=
  if capture = "import" ∨ capture = "from_import" then pyExpandImports node else []

def importEdge (filePath : String) (node : SyntaxNode) (item : ImportedItem) : FileEdge :=
  ⟨⟨"IMPORTS", fileQname filePath, qname filePath "Import" item.path, filePath, line node⟩, some item⟩

/-- `spec_imports` for Python, each edge with the module that it is for. -/
def specImports (filePath : String) (tree : SyntaxTree) : List (Option String × FileEdge) :=
  (tree.captures pythonImports.patterns).flatMap fun cap =>
    (expandPythonImport cap.1 cap.2).map fun m => (some m.1, importEdge filePath cap.2 m.2)

/-- The edges of `extract_python` in front of the collapse. -/
def pythonEdges (filePath : String) (tree : SyntaxTree) : List (Option String × FileEdge) :=
  (specCalls python pythonCalls filePath tree).map (fun e => (none, ⟨e.2, none⟩)) ++
    specImports filePath tree ++
    (pythonModuleScopeCalls filePath tree).map fun e => (none, ⟨e.2, none⟩)

/-! ### The collapse -/

def importedModule (child : SyntaxNode) : Option String :=
  if child.kind = "aliased_import" then (child.childByFieldName "name").map SyntaxNode.text
  else if child.kind = "dotted_name" ∨ child.kind = "identifier" then some child.text
  else none

/-- What `collect_python_import_modules` does at one node. -/
def recordImport (out : ℕ → Option String) (node : SyntaxNode) : ℕ → Option String :=
  if node.kind = "import_from_statement" then
    match node.childByFieldName "module_name" with
    | some m => Function.update out (line node) (some m.text)
    | none => out
  else if node.kind = "import_statement" then
    match node.namedChildren.findSome? importedModule with
    | some module => if (out (line node)).isSome then out else Function.update out (line node) (some module)
    | none => out
  else out

/-- `collect_python_import_modules`. -/
def lineModules (tree : SyntaxTree) : ℕ → Option String :=
  tree.namedNodes.foldl recordImport fun _ => none

/-- The module of an edge whose line is not in the map. -/
def pathModule (item : Option ImportedItem) : String :=
  let path := ((item.map ImportedItem.path).getD "").toList
  String.ofList ((beforeLast '.' path).getD path)

/-- What an edge is collapsed by; edges of other types are not. -/
def collapseKey (modules : ℕ → Option String) (e : FileEdge) : Option (String × String) :=
  if e.edge.edgeType = "IMPORTS" then
    some (e.edge.sourceQualifiedName, (modules e.edge.line).getD (pathModule e.item))
  else none

/-- `collapse_python_imports`, on edges that carry something along. -/
def collapsePythonImports {τ : Type} (tree : SyntaxTree) (edges : List (τ × FileEdge)) :
    List (τ × FileEdge) := retainFirst (fun e => collapseKey (lineModules tree) e.2) [] edges

/-! ### The modules that are named -/

def statementModules (node : SyntaxNode) : List String :=
  if node.kind = "import_statement" then node.namedChildren.filterMap importedModule
  else if node.kind = "import_from_statement" then
    ((node.childByFieldName "module_name").map SyntaxNode.text).toList
  else []

/-- A node that is an import statement. -/
def isImport (node : SyntaxNode) : Bool :=
  node.kind == "import_statement" || node.kind == "import_from_statement"

def importStatements (tree : SyntaxTree) : List SyntaxNode := tree.nodes.filter isImport

def namedModules (tree : SyntaxTree) : List String := (importStatements tree).flatMap statementModules

/-- The `IMPORTS` edges that are kept. -/
def keptImports (filePath : String) (tree : SyntaxTree) : List (Option String × FileEdge) :=
  (collapsePythonImports tree (pythonEdges filePath tree)).filter fun e => e.2.edge.edgeType == "IMPORTS"

/-- Every module that is named has one edge, no other module has any, and an edge for a module is one that
the shared pass emitted for it. -/
def OneEdgePerModule (filePath : String) (tree : SyntaxTree) : Prop :=
  (∀ m ∈ namedModules tree,
    ((keptImports filePath tree).filter fun e => e.1 == some m).length = 1) ∧
  ∀ e ∈ keptImports filePath tree, e ∈ specImports filePath tree ∧ ∃ m ∈ namedModules tree, e.1 = some m

/-- What the grammar says about the imports of a tree. -/
structure ImportTree (tree : SyntaxTree) : Prop where
  leaves : TokensAreLeaves tree
  named : ∀ n ∈ importStatements tree, n.isNamed = true
  plain : ∀ n ∈ importStatements tree, n.kind = "import_statement" → ∃ c ∈ n.namedChildren,
    (importedModule c).isSome
  module : ∀ n ∈ importStatements tree, n.kind = "import_from_statement" →
    (n.childByFieldName "module_name").isSome ∧ pyExpandImports n ≠ []

/-- The key of a line: the module of its last `from` statement, or without one the first module of its
first plain import. -/
def lineKey (statements : List SyntaxNode) (l : ℕ) : Option String :=
  let here := statements.filter fun s => line s == l
  (((here.filter fun s => s.kind == "import_from_statement").getLast?).bind fun s =>
    (s.childByFieldName "module_name").map SyntaxNode.text).or
  (((here.filter fun s => s.kind == "import_statement").head?).bind fun s =>
    s.namedChildren.findSome? importedModule)

/-- The statements that come first with the key of their line. -/
def opening (tree : SyntaxTree) : List SyntaxNode :=
  retainFirst (fun s => some ((lineKey (importStatements tree) (line s)).getD "")) [] (importStatements tree)

def firstModule (s : SyntaxNode) : Option String := ((pyExpandImports s).head?).map Prod.fst

/-- Every module that is named is listed first by one of the opening statements, and each of these lists a
module first. -/
def ModulesOpen (tree : SyntaxTree) : Prop :=
  (∀ m ∈ namedModules tree, ((opening tree).filter fun s => firstModule s == some m).length = 1) ∧
  ∀ s ∈ opening tree, ∃ m ∈ namedModules tree, firstModule s = some m

/-! ### The lines and the pass -/

variable {filePath : String} {tree : SyntaxTree}

theorem recordImport_of_not {out : ℕ → Option String} {node : SyntaxNode} (h : isImport node = false) :
    recordImport out node = out := by
  simp only [isImport, Bool.or_eq_false_iff, beq_eq_false_iff_ne] at h
  rw [recordImport, if_neg h.2, if_neg h.1]

theorem lineModules_eq (h : ImportTree tree) :
    lineModules tree = (importStatements tree).foldl recordImport fun _ => none := by
  have hnamed : tree.namedNodes.filter (fun n => n.isNamed && isImport n) = importStatements tree := by
    rw [SyntaxTree.namedNodes_filter (fun n hn => (Bool.and_eq_true_iff.1 hn).1) h.leaves, importStatements]
    refine List.filter_congr fun n hn => ?_
    cases himport : isImport n with
    | false => rw [Bool.and_false]
    | true => rw [h.named n (List.mem_filter.2 ⟨hn, himport⟩), Bool.and_true]
  have hskip (l : List SyntaxNode) (hl : ∀ n ∈ l, n ∈ tree.nodes) (out : ℕ → Option String) :
      l.foldl recordImport out = (l.filter fun n => n.isNamed && isImport n).foldl recordImport out := by
    induction l generalizing out with
    | nil => rfl
    | cons n rest ih =>
      have hrest := ih fun m hm => hl m (List.mem_cons_of_mem _ hm)
      rw [List.foldl_cons, List.filter_cons]
      cases himport : isImport n with
      | false =>
        rw [recordImport_of_not himport, Bool.and_false, if_neg Bool.false_ne_true]
        exact hrest out
      | true =>
        rw [h.named n (List.mem_filter.2 ⟨hl n List.mem_cons_self, himport⟩), Bool.and_true, if_pos rfl,
          List.foldl_cons]
        exact hrest _
  rw [lineModules, hskip _ fun n hn => SyntaxTree.mem_nodes_of_namedNodes hn, hnamed]

variable {l : List SyntaxNode} {s : SyntaxNode} {i : ℕ}

theorem lineKey_of_ne (h : line s ≠ i) :
    lineKey (l ++ [s]) i = lineKey l i := by simp [lineKey, h]

theorem lineKey_of_other (hfrom : s.kind ≠ "import_from_statement")
    (hplain : s.kind ≠ "import_statement") : lineKey (l ++ [s]) i = lineKey l i := by
  by_cases h : line s = i
  · simp [lineKey, h, hfrom, hplain]
  · exact lineKey_of_ne h

/-- The last `from` statement of a line decides. -/
theorem lineKey_of_from {m : SyntaxNode} (hkind : s.kind = "import_from_statement")
    (hm : s.childByFieldName "module_name" = some m) :
    lineKey (l ++ [s]) (line s) = some m.text := by
  simp [lineKey, hkind, hm]

theorem lineKey_of_plain {module : String} (hkind : s.kind = "import_statement")
    (hm : s.namedChildren.findSome? importedModule = some module)
    (hplain : ∀ n ∈ l, n.kind = "import_statement" → (n.namedChildren.findSome? importedModule).isSome) :
    lineKey (l ++ [s]) (line s) = (lineKey l (line s)).or (some module) := by
  have hfrom : s.kind ≠ "import_from_statement" := by rw [hkind]; decide
  have hhere : (l ++ [s]).filter (fun t => line t == line s) =
      l.filter (fun t => line t == line s) ++ [s] := by simp
  simp only [lineKey, hhere]
  generalize hl : l.filter (fun t => line t == line s) = here
  have hfroms : (here ++ [s]).filter (fun t => t.kind == "import_from_statement") =
      here.filter fun t => t.kind == "import_from_statement" := by simp [hfrom]
  have hplains : (here ++ [s]).filter (fun t => t.kind == "import_statement") =
      (here.filter fun t => t.kind == "import_statement") ++ [s] := by simp [hkind]
  rw [hfroms, hplains, Option.or_assoc]
  congr 1
  cases hp : here.filter fun t => t.kind == "import_statement" with
  | nil => exact hm
  | cons n rest =>
    -- an earlier plain import on the line has a module
    obtain ⟨hn, hnkind⟩ := List.mem_filter.1 (hp ▸ List.mem_cons_self : n ∈ here.filter _)
    have hnl : n ∈ l := List.mem_of_mem_filter (hl ▸ hn)
    obtain ⟨found, hfound⟩ := Option.isSome_iff_exists.1 (hplain n hnl (eq_of_beq hnkind))
    simp [hfound]

theorem foldl_recordImport (l : List SyntaxNode)
    (hplain : ∀ n ∈ l, n.kind = "import_statement" → (n.namedChildren.findSome? importedModule).isSome)
    (hfrom : ∀ n ∈ l, n.kind = "import_from_statement" → (n.childByFieldName "module_name").isSome) (i : ℕ) :
    l.foldl recordImport (fun _ => none) i = lineKey l i := by
  induction l using List.reverseRecOn with
  | nil => rfl
  | append_singleton l s ih =>
    have hplain' : ∀ n ∈ l, n.kind = "import_statement" →
        (n.namedChildren.findSome? importedModule).isSome := fun n hn => hplain n (List.mem_append_left _ hn)
    have ih' := ih hplain' fun n hn => hfrom n (List.mem_append_left _ hn)
    have hlast : s ∈ l ++ [s] := List.mem_append_right l (List.mem_singleton_self s)
    rw [List.foldl_append, List.foldl_cons, List.foldl_nil]
    by_cases hf : s.kind = "import_from_statement"
    · obtain ⟨m, hm⟩ := Option.isSome_iff_exists.1 (hfrom s hlast hf)
      rw [recordImport, if_pos hf, hm]
      by_cases hl : i = line s
      · rw [hl, lineKey_of_from hf hm]
        exact Function.update_self _ _ _
      · rw [lineKey_of_ne (Ne.symm hl), ← ih']
        exact Function.update_of_ne hl _ _
    · by_cases hp : s.kind = "import_statement"
      · obtain ⟨m, hm⟩ := Option.isSome_iff_exists.1 (hplain s hlast hp)
        rw [recordImport, if_neg hf, if_pos hp, hm]
        dsimp only
        by_cases hl : i = line s
        · subst hl
          rw [lineKey_of_plain hp hm hplain', ← ih']
          split_ifs with hsome
          · obtain ⟨found, hfound⟩ := Option.isSome_iff_exists.1 hsome
            rw [hfound, Option.some_or]
          · rw [Option.not_isSome_iff_eq_none.1 hsome, Option.none_or]
            exact Function.update_self _ _ _
        · rw [lineKey_of_ne (Ne.symm hl), ← ih']
          split_ifs
          · rfl
          · exact Function.update_of_ne hl _ _
      · rw [recordImport, if_neg hf, if_neg hp, lineKey_of_other hf hp, ih']

theorem lineKey_isSome (hs : s ∈ l) (himport : isImport s = true)
    (hplain : ∀ n ∈ l, n.kind = "import_statement" → (n.namedChildren.findSome? importedModule).isSome)
    (hfrom : ∀ n ∈ l, n.kind = "import_from_statement" → (n.childByFieldName "module_name").isSome) :
    (lineKey l (line s)).isSome := by
  have hhere : s ∈ l.filter fun t => line t == line s := List.mem_filter.2 ⟨hs, beq_self_eq_true _⟩
  rw [lineKey, Option.isSome_or, Bool.or_eq_true]
  simp only [isImport, Bool.or_eq_true, beq_iff_eq] at himport
  rcases himport with hp | hf
  · right
    have hmem : s ∈ (l.filter fun t => line t == line s).filter fun t => t.kind == "import_statement" :=
      List.mem_filter.2 ⟨hhere, by simp [hp]⟩
    obtain ⟨n, hn⟩ := Option.isSome_iff_exists.1 (List.isSome_head?.2 (List.ne_nil_of_mem hmem))
    obtain ⟨hnl, hkind⟩ := List.mem_filter.1 (List.mem_of_mem_head? hn)
    rw [hn, Option.bind_some]
    exact hplain n (List.mem_of_mem_filter hnl) (eq_of_beq hkind)
  · left
    have hmem : s ∈ (l.filter fun t => line t == line s).filter fun t => t.kind == "import_from_statement" :=
      List.mem_filter.2 ⟨hhere, by simp [hf]⟩
    obtain ⟨n, hn⟩ := Option.isSome_iff_exists.1 (List.getLast?_isSome.2 (List.ne_nil_of_mem hmem))
    obtain ⟨hnl, hkind⟩ := List.mem_filter.1 (List.mem_of_getLast? hn)
    rw [hn, Option.bind_some, Option.isSome_map]
    exact hfrom n (List.mem_of_mem_filter hnl) (eq_of_beq hkind)

theorem ImportTree.expand_ne_nil (h : ImportTree tree) (hs : s ∈ importStatements tree) :
    pyExpandImports s ≠ [] := by
  have himport := (List.mem_filter.1 hs).2
  simp only [isImport, Bool.or_eq_true, beq_iff_eq] at himport
  rcases himport with hp | hf
  · obtain ⟨c, hc, -⟩ := h.plain s hs hp
    rw [pyExpandImports, if_pos hp]
    exact fun hnil => List.ne_nil_of_mem hc (List.map_eq_nil_iff.1 hnil)
  · exact (h.module s hs hf).2

def statementEdges (filePath : String) (s : SyntaxNode) : List (Option String × FileEdge) :=
  (pyExpandImports s).map fun m => (some m.1, importEdge filePath s m.2)

theorem specImports_eq (h : ImportTree tree) :
    specImports filePath tree = (importStatements tree).flatMap (statementEdges filePath) := by
  have hat (n : SyntaxNode) (hn : n ∈ tree.nodes) :
      ((pythonImports.patterns.flatMap fun p => p n).flatten.flatMap fun cap =>
        (expandPythonImport cap.1 cap.2).map fun m => (some m.1, importEdge filePath cap.2 m.2)) =
      if isImport n then statementEdges filePath n else [] := by
    have hnamed (kind : String) (hkind : n.kind = kind) (himport : isImport n = true) : n.isNamed = true :=
      h.named n (List.mem_filter.2 ⟨hn, himport⟩)
    simp only [pythonImports, List.flatMap_cons, List.flatMap_nil, List.append_nil,
      pattern_of_kind (fun hkind : n.kind = "import_statement" => hnamed _ hkind (by simp [isImport, hkind])),
      pattern_of_kind (fun hkind : n.kind = "import_from_statement" =>
        hnamed _ hkind (by simp [isImport, hkind])), matchChildren_nil]
    by_cases hp : n.kind = "import_statement"
    · simp [hp, isImport, expandPythonImport, statementEdges]
    · by_cases hf : n.kind = "import_from_statement"
      · simp [hf, isImport, expandPythonImport, statementEdges]
      · simp [hp, hf, isImport]
  have hall (l : List SyntaxNode) (hl : ∀ n ∈ l, n ∈ tree.nodes) :
      ((l.flatMap fun n => pythonImports.patterns.flatMap fun p => p n).flatten.flatMap fun cap =>
        (expandPythonImport cap.1 cap.2).map fun m => (some m.1, importEdge filePath cap.2 m.2)) =
      (l.filter isImport).flatMap (statementEdges filePath) := by
    induction l with
    | nil => rfl
    | cons n rest ih =>
      rw [List.flatMap_cons, List.flatten_append, List.flatMap_append, hat n (hl n List.mem_cons_self),
        ih fun m hm => hl m (List.mem_cons_of_mem _ hm), List.filter_cons]
      split_ifs
      · rw [List.flatMap_cons]
      · rfl
  exact hall tree.nodes fun _ hn => hn

/-! ### What is kept -/

theorem specCalls_edgeType {spec : LangSpec} {query : Query} {e : SyntaxNode × ExtractedEdge}
    (he : e ∈ specCalls spec query filePath tree) : e.2.edgeType = "CALLS" := by
  obtain ⟨node, -, he⟩ := List.mem_filterMap.1 he
  split_ifs at he
  obtain ⟨caller, -, rfl⟩ := Option.map_eq_some_iff.1 he
  rfl

theorem pythonModuleScopeCalls_edgeType {e : SyntaxNode × ExtractedEdge}
    (he : e ∈ pythonModuleScopeCalls filePath tree) : e.2.edgeType = "CALLS" := by
  obtain ⟨node, -, he⟩ := List.mem_filterMap.1 he
  obtain ⟨callee, -, he⟩ := Option.bind_eq_some_iff.1 he
  split_ifs at he
  cases he
  rfl

theorem pythonEdges_filter :
    (pythonEdges filePath tree).filter (fun e => e.2.edge.edgeType == "IMPORTS") =
      specImports filePath tree := by
  have hcalls (l : List (SyntaxNode × ExtractedEdge)) (hl : ∀ e ∈ l, e.2.edgeType = "CALLS") :
      (l.map fun e => ((none : Option String), (⟨e.2, none⟩ : FileEdge))).filter
        (fun e => e.2.edge.edgeType == "IMPORTS") = [] := by
    refine List.filter_eq_nil_iff.2 fun e he himports => ?_
    obtain ⟨c, hc, rfl⟩ := List.mem_map.1 he
    have himports := eq_of_beq himports
    rw [hl c hc] at himports
    exact absurd himports (by decide)
  have himports : (specImports filePath tree).filter (fun e => e.2.edge.edgeType == "IMPORTS") =
      specImports filePath tree := by
    refine List.filter_eq_self.2 fun e he => ?_
    obtain ⟨cap, -, he⟩ := List.mem_flatMap.1 he
    obtain ⟨m, -, rfl⟩ := List.mem_map.1 he
    rfl
  rw [pythonEdges, List.filter_append, List.filter_append, himports,
    hcalls _ fun e he => specCalls_edgeType he, hcalls _ fun e he => pythonModuleScopeCalls_edgeType he,
    List.nil_append, List.append_nil]

/-- **The imports that are kept** are the first edges of the opening statements. -/
theorem collapse_keeps_openings (filePath : String) (h : ImportTree tree) :
    keptImports filePath tree = (opening tree).flatMap fun s => (statementEdges filePath s).take 1 := by
  have hplain (n : SyntaxNode) (hn : n ∈ importStatements tree) (hkind : n.kind = "import_statement") :
      (n.namedChildren.findSome? importedModule).isSome := by
    obtain ⟨c, hc, hsome⟩ := h.plain n hn hkind
    rw [List.findSome?_isSome_iff]
    exact ⟨c, hc, hsome⟩
  have hfrom (n : SyntaxNode) (hn : n ∈ importStatements tree) (hkind : n.kind = "import_from_statement") :=
    (h.module n hn hkind).1
  have hpred : (fun e : Option String × FileEdge => e.2.edge.edgeType == "IMPORTS") =
      fun e => (collapseKey (lineModules tree) e.2).isSome := by
    funext e
    unfold collapseKey
    split_ifs with himports <;> simp [himports]
  have hkeys : ∀ s ∈ importStatements tree, ∀ e ∈ statementEdges filePath s,
      collapseKey (lineModules tree) e.2 =
        some (fileQname filePath, (lineKey (importStatements tree) (line s)).getD "") := by
    intro s hs e he
    obtain ⟨m, -, rfl⟩ := List.mem_map.1 he
    obtain ⟨key, hkey⟩ := Option.isSome_iff_exists.1
      (lineKey_isSome hs (List.mem_filter.1 hs).2 hplain hfrom)
    rw [lineModules_eq h]
    simp [collapseKey, importEdge, foldl_recordImport _ hplain hfrom, hkey]
  have hne : ∀ s ∈ importStatements tree, statementEdges filePath s ≠ [] := fun s hs hnil =>
    h.expand_ne_nil hs (List.map_eq_nil_iff.1 hnil)
  rw [keptImports, collapsePythonImports, hpred, retainFirst_filter, ← hpred, pythonEdges_filter,
    specImports_eq h, retainFirst_flatMap _ _ _ _ _ hkeys hne, opening]
  congr 1
  have hinj : Function.Injective fun key : String => (fileQname filePath, key) := fun a b hab =>
    (Prod.mk.inj hab).2
  exact retainFirst_comp _ hinj _ [] _

theorem mem_of_mem_opening (hs : s ∈ opening tree) : s ∈ importStatements tree :=
  mem_of_mem_retainFirst hs

/-- An opening statement leaves one edge, for the module that it lists first. -/
theorem take_statementEdges (filePath : String) (h : ImportTree tree)
    (hs : s ∈ importStatements tree) :
    ∃ e, (statementEdges filePath s).take 1 = [(firstModule s, e)] := by
  obtain ⟨m, rest, hm⟩ := List.exists_cons_of_ne_nil (h.expand_ne_nil hs)
  exact ⟨importEdge filePath s m.2, by simp [statementEdges, firstModule, hm]⟩

/-- The edges for a module are as many as the opening statements that list it first. -/
theorem length_filter_kept (filePath : String) (h : ImportTree tree) (l : List SyntaxNode)
    (hl : ∀ s ∈ l, s ∈ importStatements tree) (m : String) : ((l.flatMap fun s => (statementEdges filePath s).take 1).filter
      fun e => e.1 == some m).length = (l.filter fun s => firstModule s == some m).length := by
  induction l with
  | nil => rfl
  | cons s rest ih =>
    obtain ⟨e, he⟩ := take_statementEdges filePath h (hl s List.mem_cons_self)
    rw [List.flatMap_cons, he, List.filter_append, List.length_append,
      ih fun t ht => hl t (List.mem_cons_of_mem _ ht), List.filter_cons, List.filter_cons, List.filter_nil]
    split_ifs with hfirst
    · rw [List.length_cons, List.length_nil, List.length_cons]
      omega
    · rw [List.length_nil, Nat.zero_add]

/-- **There is one edge for each module** exactly when every module that is named is listed first by one of
the opening statements. -/
theorem oneEdgePerModule_iff (filePath : String) {tree : SyntaxTree} (h : ImportTree tree) :
    OneEdgePerModule filePath tree ↔ ModulesOpen tree := by
  have hkept := collapse_keeps_openings filePath h
  have hshared : ∀ e ∈ keptImports filePath tree, e ∈ specImports filePath tree := by
    intro e he
    obtain ⟨hmem, himports⟩ := List.mem_filter.1 he
    rw [← pythonEdges_filter]
    exact List.mem_filter.2 ⟨mem_of_mem_retainFirst hmem, himports⟩
  constructor
  · rintro ⟨hone, htags⟩
    refine ⟨fun m hm => ?_, fun s hs => ?_⟩
    · rw [← length_filter_kept filePath h (opening tree) fun s hs => mem_of_mem_opening hs, ← hkept]
      exact hone m hm
    · obtain ⟨e, he⟩ := take_statementEdges filePath h (mem_of_mem_opening hs)
      refine (htags (firstModule s, e) ?_).2
      rw [hkept]
      exact List.mem_flatMap.2 ⟨s, hs, he ▸ List.mem_singleton_self _⟩
  · rintro ⟨hone, hfirst⟩
    refine ⟨fun m hm => ?_, fun e he => ⟨hshared e he, ?_⟩⟩
    · rw [hkept, length_filter_kept filePath h (opening tree) fun s hs => mem_of_mem_opening hs]
      exact hone m hm
    · rw [hkept] at he
      obtain ⟨s, hs, he⟩ := List.mem_flatMap.1 he
      obtain ⟨e', he'⟩ := take_statementEdges filePath h (mem_of_mem_opening hs)
      rw [he'] at he
      rw [List.mem_singleton.1 he]
      exact hfirst s hs

/-! ### Two modules in one statement -/

instance (filePath : String) (tree : SyntaxTree) : Decidable (OneEdgePerModule filePath tree) :=
  inferInstanceAs (Decidable (_ ∧ _))

instance (tree : SyntaxTree) : Decidable (ModulesOpen tree) := inferInstanceAs (Decidable (_ ∧ _))

def dottedName (name : String) : Grown := group "dotted_name" [("", word "identifier" name)]

/-- `import a , b`. -/
def importBoth : SyntaxTree := (group "module" [("", group "import_statement" [("", sign "import"),
  ("name", dottedName "a"), ("", sign ","), ("name", dottedName "b")])]).tree

/-- `from a import x , y`. -/
def importFrom : SyntaxTree := (group "module" [("", group "import_from_statement" [("", sign "from"),
  ("module_name", dottedName "a"), ("", sign "import"), ("name", dottedName "x"), ("", sign ","),
  ("name", dottedName "y")])]).tree

theorem importBoth_grammar : ImportTree importBoth where
  leaves := by decide
  named := by decide
  plain := by decide
  module := by decide

theorem importFrom_grammar : ImportTree importFrom where
  leaves := by decide
  named := by decide
  plain := by decide
  module := by decide

/-- The second module of a plain import loses its edge. -/
theorem importBoth_loses :
    ImportTree importBoth ∧ namedModules importBoth = ["a", "b"] ∧
      ((specImports "f.py" importBoth).map fun e => e.1) = [some "a", some "b"] ∧
      ((keptImports "f.py" importBoth).map fun e => e.1) = [some "a"] ∧
      ¬OneEdgePerModule "f.py" importBoth :=
  ⟨importBoth_grammar, by decide +kernel, by decide +kernel, by decide +kernel, by decide +kernel⟩

/-- The names of one `from` statement share an edge. -/
theorem oneEdgePerModule_importFrom :
    (specImports "f.py" importFrom).length = 2 ∧ ModulesOpen importFrom ∧
      (OneEdgePerModule "f.py" importFrom ↔ ModulesOpen importFrom) :=
  ⟨by decide +kernel, by decide +kernel, oneEdgePerModule_iff "f.py" importFrom_grammar⟩

end Extract
