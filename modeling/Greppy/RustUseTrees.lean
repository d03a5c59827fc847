/-
**The use trees of Rust.**

A `use` declaration names a tree: paths, renames and globs at its leaves, and brace groups that put a path in
front of everything in them.  The extractor expands it into one item for each leaf, by going down and joining
the texts of the paths.

A leaf denotes a path: the paths of the groups around it and then its own, where `self` alone stands for the
group.  For a leaf that binds a name the item has the path, the name, and the last segment of the path; a glob
binds no name, and both names of its item are empty.

The texts are joined as they are written.  So a renamed `self` is taken for a segment, and a `*` alone in a
group leaves an empty segment behind.
-/

import Greppy.Extraction
import Greppy.RustStr
import Mathlib.Data.List.Forall2

set_option autoImplicit false

namespace Extract

namespace Rust

open Greppy

/-! ### The expansion -/

/-- What comes before the first `::`. -/
def beforeColons : List Char → List Char
  | ':' :: ':' :: _ => []
  | c :: rest => c :: beforeColons rest
  | [] => []

/-- `rsplit("::").next()`. -/
def lastSegmentOf (s : List Char) : List Char := (beforeColons s.reverse).reverse

/-- A text without the `::`s that it begins with. -/
def dropColons : List Char → List Char
  | ':' :: ':' :: rest => dropColons rest
  | s => s

/-- `trim_end_matches("::")`. -/
def trimEndColons (s : List Char) : List Char := (dropColons s.reverse).reverse

/-- `trim_end_matches('*')`. -/
def trimEndStars (s : List Char) : List Char := (s.reverse.dropWhile (· = '*')).reverse

def importRepresentativeName (first : ImportedItem) : String :=
  if first.isGlob then
    String.ofList (trimWhitespace (lastSegmentOf (trimEndColons (trimEndStars first.path.toList))))
  else if first.originalName ≠ first.importedName ∧ first.originalName ≠ "" then first.originalName
  else first.importedName

def joinPath (pre seg : List Char) : List Char := if pre = [] then seg else pre ++ ':' :: ':' :: seg

def fieldText (field : String) (children : SyntaxForest) : Option (List Char) :=
  (children.find? fun f _ => f == some field).map fun tree => tree.data.text.toList

def isPathKind (kind : String) : Bool :=
  ["identifier", "scoped_identifier", "type_identifier", "crate", "super"].contains kind

mutual

/-- `expand_use_tree_into`, with what it adds to its output. -/
def expandUseTreeInto (pre : List Char) : SyntaxTree → List ImportedItem
  | .node data children =>
    if data.kind = "use_wildcard" then
      let base := trimWhitespace (trimEndColons (trimEndStars data.text.toList))
      [⟨String.ofList (joinPath pre base), "", "", true⟩]
    else if data.kind = "scoped_use_list" then
      match fieldText "path" children with
      | some path => expandList (joinPath pre path) children
      | none => expandList pre children
    else if data.kind = "use_list" then expandNamedChildren pre children
    else if data.kind = "use_as_clause" then
      match fieldText "path" children, fieldText "alias" children with
      | some orig, some renamed =>
        [⟨String.ofList (joinPath pre orig), String.ofList renamed, String.ofList (lastSegmentOf orig), false⟩]
      | _, _ => []
    else if data.kind = "self" then
      let name := String.ofList (lastSegmentOf pre)
      [⟨String.ofList pre, name, name, false⟩]
    else if isPathKind data.kind then
      let seg := data.text.toList
      let name := String.ofList (lastSegmentOf seg)
      [⟨String.ofList (joinPath pre seg), name, name, false⟩]
    else expandNamedChildren pre children

/-- The expansion of the child in the field `list`. -/
def expandList (pre : List Char) : SyntaxForest → List ImportedItem
  | .nil => []
  | .cons field tree rest =>
    if field = some "list" then expandUseTreeInto pre tree else expandList pre rest

def expandNamedChildren (pre : List Char) : SyntaxForest → List ImportedItem
  | .nil => []
  | .cons _ tree rest =>
    (if tree.data.isNamed then expandUseTreeInto pre tree else []) ++ expandNamedChildren pre rest

end

def expandUseTree (pre : List Char) (tree : SyntaxTree) : List ImportedItem := expandUseTreeInto pre tree

/-! ### Use trees -/

/-- A path: whether it begins with `::`, and its segments. -/
structure UsePath where
  isGlobal : Bool
  segments : List (List Char)
deriving DecidableEq

namespace UsePath

def empty : UsePath := ⟨false, []⟩

/-- How a path is written without blanks. -/
def text (p : UsePath) : List Char :=
  (if p.isGlobal then [':', ':'] else []) ++ [':', ':'].intercalate p.segments

def last (p : UsePath) : List Char := p.segments.getLast?.getD []

def append (p q : UsePath) : UsePath := ⟨p.isGlobal || q.isGlobal, p.segments ++ q.segments⟩

/-- The path `self`. -/
def isSelf (p : UsePath) : Bool := p == ⟨false, ["self".toList]⟩

end UsePath

/-- A use tree.  The path in front of a glob or a group may be empty. -/
inductive UseTree where
  | path (p : UsePath)
  | rename (p : UsePath) (name : List Char)
  | glob (p : UsePath)
  | group (p : UsePath) (trees : List UseTree)

/-! ### Reading use trees -/

mutual

/-- The path that a node writes, without blanks. -/
def readPath : SyntaxTree → Option UsePath
  | .node data children =>
    if data.kind = "scoped_identifier" then
      (readScope children).bind fun p =>
        (fieldText "name" children).bind fun name =>
          let q : UsePath := ⟨p.isGlobal, p.segments ++ [name]⟩
          if data.text.toList = q.text then some q else none
    else if (data.kind = "self" ∨ isPathKind data.kind = true) ∧
        (data.kind = "self" ↔ data.text.toList = "self".toList) then some ⟨false, [data.text.toList]⟩
    else none

/-- The path in the field `path`; a scoped identifier without one begins with `::`. -/
def readScope : SyntaxForest → Option UsePath
  | .nil => some ⟨true, []⟩
  | .cons field tree rest => if field = some "path" then readPath tree else readScope rest

end

def readPathField : SyntaxForest → Option UsePath
  | .nil => none
  | .cons field tree rest => if field = some "path" then readPath tree else readPathField rest

/-- The path of a glob: that of its named child. -/
def readGlob : SyntaxForest → Option UsePath
  | .nil => some .empty
  | .cons _ tree rest => if tree.data.isNamed then readPath tree else readGlob rest

def globText (p : UsePath) : List Char := if p.segments = [] then ['*'] else p.text ++ [':', ':', '*']

/-- A part of a comment: a token, or a mark or the text of documentation. -/
def isCommentPart : SyntaxTree → Bool
  | .node data .nil =>
    !data.isNamed ||
      ["outer_doc_comment_marker", "inner_doc_comment_marker", "doc_comment"].contains data.kind
  | .node _ (.cons _ _ _) => false

def areCommentParts : SyntaxForest → Bool
  | .nil => true
  | .cons _ tree rest => isCommentPart tree && areCommentParts rest

def isComment (tree : SyntaxTree) : Bool :=
  ["line_comment", "block_comment"].contains tree.data.kind && areCommentParts tree.forest

mutual

/-- The use tree that a node writes.  Its paths have no blanks and comments in them, and no `::` stands bare
in front of a group or a glob. -/
def readUseTree : SyntaxTree → Option UseTree
  | .node data children =>
    if data.kind = "use_wildcard" then
      (readGlob children).bind fun p => if data.text.toList = globText p then some (.glob p) else none
    else if data.kind = "scoped_use_list" then
      (readPathField children).bind fun p => (readList children).map (.group p)
    else if data.kind = "use_list" then (readTrees children).map (.group .empty)
    else if data.kind = "use_as_clause" then
      (readPathField children).bind fun p => (fieldText "alias" children).map (.rename p)
    else (readPath (.node data children)).map .path

/-- The trees in the field `list`. -/
def readList : SyntaxForest → Option (List UseTree)
  | .nil => none
  | .cons field tree rest =>
    if field = some "list" then
      match tree with
      | .node data children => if data.kind = "use_list" then readTrees children else none
    else readList rest

/-- The trees in a group, without the comments. -/
def readTrees : SyntaxForest → Option (List UseTree)
  | .nil => some []
  | .cons _ tree rest =>
    if tree.data.isNamed = false ∨ isComment tree = true then readTrees rest
    else (readUseTree tree).bind fun t => (readTrees rest).map (t :: ·)

end

/-! ### Leaves -/

inductive LeafKind where
  | name
  | rename (name : List Char)
  | glob
deriving DecidableEq

/-- A leaf of a use tree, with the path of the groups around it and its own. -/
structure UseLeaf where
  around : UsePath
  own : UsePath
  kind : LeafKind
deriving DecidableEq

namespace UseLeaf

/-- The path that a leaf denotes: `self` is the group, a glob its module. -/
def path (leaf : UseLeaf) : UsePath :=
  if leaf.kind ≠ .glob ∧ leaf.own.isSelf = true then leaf.around else leaf.around.append leaf.own

def item (leaf : UseLeaf) : ImportedItem :=
  match leaf.kind with
  | .name =>
    ⟨String.ofList leaf.path.text, String.ofList leaf.path.last, String.ofList leaf.path.last, false⟩
  | .rename name => ⟨String.ofList leaf.path.text, String.ofList name, String.ofList leaf.path.last, false⟩
  | .glob => ⟨String.ofList leaf.path.text, "", "", true⟩

/-- A `self` that is given another name. -/
def isRenamedSelf (leaf : UseLeaf) : Bool :=
  match leaf.kind with
  | .rename _ => leaf.own.isSelf
  | _ => false

/-- A `*` that stands alone in a group. -/
def isBareStar (leaf : UseLeaf) : Bool :=
  match leaf.kind with
  | .glob => leaf.own.segments.isEmpty && !leaf.around.segments.isEmpty
  | _ => false

end UseLeaf

mutual

/-- The leaves of a use tree in a group, in the order of the source. -/
def leavesIn (around : UsePath) : UseTree → List UseLeaf
  | .path p => [⟨around, p, .name⟩]
  | .rename p name => [⟨around, p, .rename name⟩]
  | .glob p => [⟨around, p, .glob⟩]
  | .group p trees => leavesOfAll (around.append p) trees

def leavesOfAll (around : UsePath) : List UseTree → List UseLeaf
  | [] => []
  | tree :: rest => leavesIn around tree ++ leavesOfAll around rest

end

def leaves (tree : UseTree) : List UseLeaf := leavesIn .empty tree

/-! ### What Rust accepts -/

def IsName (seg : List Char) : Prop := seg ≠ [] ∧ ∀ c ∈ seg, c ≠ ':' ∧ c ≠ '*' ∧ isWhitespace c = false

instance (seg : List Char) : Decidable (IsName seg) :=
  have : Decidable (∀ c ∈ seg, c ≠ ':' ∧ c ≠ '*' ∧ isWhitespace c = false) := List.decidableBAll _ seg
  inferInstanceAs (Decidable (_ ∧ _))

/-- A path of names, with something behind the `::` at its beginning. -/
structure UsePath.IsWellFormed (p : UsePath) : Prop where
  names : ∀ seg ∈ p.segments, IsName seg
  start : p.isGlobal = true → p.segments ≠ []

instance (p : UsePath) : Decidable p.IsWellFormed :=
  decidable_of_iff ((∀ seg ∈ p.segments, IsName seg) ∧ (p.isGlobal = true → p.segments ≠ []))
    ⟨fun h => ⟨h.1, h.2⟩, fun h => ⟨h.1, h.2⟩⟩

/-- A path that may stand in a group: only the first one of all begins with `::`. -/
def UsePath.Fits (around p : UsePath) : Prop :=
  p.IsWellFormed ∧ (p.isGlobal = true → around.segments = [])

instance (around p : UsePath) : Decidable (around.Fits p) := inferInstanceAs (Decidable (_ ∧ _))

/-- A path that may be the leaf of a group: `self` stands alone only where there is a path around it. -/
def UsePath.FitsLeaf (around p : UsePath) : Prop :=
  around.Fits p ∧ p.segments ≠ [] ∧ (p.isSelf = true → around.segments ≠ [])

instance (around p : UsePath) : Decidable (around.FitsLeaf p) := inferInstanceAs (Decidable (_ ∧ _))

mutual

def UseTree.IsAccepted (around : UsePath) : UseTree → Prop
  | .path p => around.FitsLeaf p
  | .rename p _ => around.FitsLeaf p
  | .glob p => around.Fits p
  | .group p trees => around.Fits p ∧ UseTree.AreAccepted (around.append p) trees

def UseTree.AreAccepted (around : UsePath) : List UseTree → Prop
  | [] => True
  | tree :: rest => tree.IsAccepted around ∧ UseTree.AreAccepted around rest

end

mutual

def UseTree.decideAccepted (around : UsePath) : (t : UseTree) → Decidable (t.IsAccepted around)
  | .path p => inferInstanceAs (Decidable (around.FitsLeaf p))
  | .rename p _ => inferInstanceAs (Decidable (around.FitsLeaf p))
  | .glob p => inferInstanceAs (Decidable (around.Fits p))
  | .group p trees =>
    have := UseTree.decideAllAccepted (around.append p) trees
    inferInstanceAs (Decidable (around.Fits p ∧ UseTree.AreAccepted (around.append p) trees))

def UseTree.decideAllAccepted (around : UsePath) :
    (ts : List UseTree) → Decidable (UseTree.AreAccepted around ts)
  | [] => inferInstanceAs (Decidable True)
  | tree :: rest =>
    have := UseTree.decideAccepted around tree
    have := UseTree.decideAllAccepted around rest
    inferInstanceAs (Decidable (tree.IsAccepted around ∧ UseTree.AreAccepted around rest))

end

instance (around : UsePath) (t : UseTree) : Decidable (t.IsAccepted around) := t.decideAccepted around

/-! ### Segments -/

variable {α : Type} {l : List (List α)} {s seg : List Char}

theorem intercalate_concat (sep : List α) (h : l ≠ []) (last : List α) :
    sep.intercalate (l ++ [last]) = sep.intercalate l ++ sep ++ last := by
  induction l with
  | nil => exact absurd rfl h
  | cons x l ih =>
    cases l with
    | nil => simp
    | cons y l =>
      have hrest := ih (List.cons_ne_nil _ _)
      rw [List.cons_append] at hrest
      rw [List.cons_append, List.cons_append, List.intercalate_cons_cons, hrest,
        List.intercalate_cons_cons]
      simp only [List.append_assoc]

theorem intercalate_append (sep : List α) {m : List (List α)} (hl : l ≠ []) (hm : m ≠ []) :
    sep.intercalate (l ++ m) = sep.intercalate l ++ sep ++ sep.intercalate m := by
  induction l with
  | nil => exact absurd rfl hl
  | cons x l ih =>
    cases l with
    | nil => rw [List.singleton_append, List.intercalate_cons_of_ne_nil hm, List.intercalate_singleton]
    | cons y l =>
      rw [List.cons_append, List.intercalate_cons_of_ne_nil (by simp), ih (List.cons_ne_nil _ _),
        List.intercalate_cons_cons]
      simp only [List.append_assoc]

theorem beforeColons_eq_self (h : ':' ∉ s) : beforeColons s = s := by
  induction s with
  | nil => rfl
  | cons c rest ih =>
    rw [List.mem_cons, not_or] at h
    rw [beforeColons, ih h.2]
    rintro more rfl
    exact absurd rfl h.1

theorem beforeColons_append (h : ':' ∉ s) (rest : List Char) :
    beforeColons (s ++ ':' :: ':' :: rest) = s := by
  induction s with
  | nil => rfl
  | cons c s ih =>
    rw [List.mem_cons, not_or] at h
    rw [List.cons_append, beforeColons, ih h.2]
    rintro more rfl
    exact absurd rfl h.1

theorem lastSegmentOf_eq_self (h : ':' ∉ seg) : lastSegmentOf seg = seg := by
  rw [lastSegmentOf, beforeColons_eq_self (by simpa using h), List.reverse_reverse]

theorem lastSegmentOf_append (h : ':' ∉ seg) (front : List Char) :
    lastSegmentOf (front ++ ':' :: ':' :: seg) = seg := by
  have hrev : (front ++ ':' :: ':' :: seg).reverse = seg.reverse ++ ':' :: ':' :: front.reverse := by simp
  rw [lastSegmentOf, hrev, beforeColons_append (by simpa using h), List.reverse_reverse]

theorem dropColons_of_ne {c : Char} (h : c ≠ ':') (rest : List Char) : dropColons (c :: rest) = c :: rest := by
  rw [dropColons]
  rintro more heq
  exact absurd (List.cons.inj heq).1 h

theorem IsName.colon_notMem (h : IsName seg) : ':' ∉ seg := fun hc => (h.2 _ hc).1 rfl

namespace UsePath

variable {p around : UsePath}

/-- The last segment is what stands behind the last `::`. -/
theorem lastSegmentOf_text (hnames : ∀ seg ∈ p.segments, IsName seg) (hne : p.segments ≠ []) :
    lastSegmentOf p.text = p.last := by
  obtain ⟨isGlobal, segments⟩ := p
  obtain ⟨front, seg, hsegments⟩ := List.eq_nil_or_concat segments |>.resolve_left hne
  rw [List.concat_eq_append] at hsegments
  subst hsegments
  have hseg := (hnames seg (by simp)).colon_notMem
  have hlast : (⟨isGlobal, front ++ [seg]⟩ : UsePath).last = seg := by simp [last]
  rw [hlast, text]
  dsimp only
  by_cases hfront : front = []
  · subst hfront
    rw [List.nil_append, List.intercalate_singleton]
    cases isGlobal with
    | true => exact lastSegmentOf_append hseg []
    | false => exact lastSegmentOf_eq_self hseg
  · rw [intercalate_concat _ hfront, ← List.append_assoc, ← List.append_assoc, List.append_assoc _ _ seg]
    exact lastSegmentOf_append hseg _

theorem text_ne_nil (hnames : ∀ seg ∈ p.segments, IsName seg) (hne : p.segments ≠ []) :
    p.text ≠ [] := by
  intro h
  have hlast := lastSegmentOf_text hnames hne
  rw [h] at hlast
  have hseg := List.getLast?_eq_some_getLast hne
  rw [last, hseg] at hlast
  exact (hnames _ (List.mem_of_getLast? hseg)).1 hlast.symm

theorem mem_text {c : Char} (h : c ∈ p.text) : c = ':' ∨ ∃ seg ∈ p.segments, c ∈ seg := by
  have hjoin : ∀ segments : List (List Char), c ∈ [':', ':'].intercalate segments →
      c = ':' ∨ ∃ seg ∈ segments, c ∈ seg := by
    intro segments
    induction segments with
    | nil => intro h; cases h
    | cons seg rest ih =>
      intro h
      by_cases hrest : rest = []
      · rw [hrest, List.intercalate_singleton] at h
        exact .inr ⟨seg, List.mem_cons_self, h⟩
      · rw [List.intercalate_cons_of_ne_nil hrest, List.mem_append, List.mem_append] at h
        rcases h with (h | h) | h
        · exact .inr ⟨seg, List.mem_cons_self, h⟩
        · exact .inl (by simpa using h)
        · exact (ih h).imp_right fun ⟨seg, hseg, hc⟩ => ⟨seg, List.mem_cons_of_mem _ hseg, hc⟩
  rw [text, List.mem_append] at h
  rcases h with h | h
  · split_ifs at h
    · exact .inl (by simpa using h)
    · cases h
  · exact hjoin p.segments h

theorem text_eq_concat (hnames : ∀ seg ∈ p.segments, IsName seg) (hne : p.segments ≠ []) :
    ∃ front c, p.text = front ++ [c] ∧ c ≠ ':' := by
  have hlast := lastSegmentOf_text hnames hne
  have hseg := List.getLast?_eq_some_getLast hne
  have hname := hnames _ (List.mem_of_getLast? hseg)
  rw [last, hseg, Option.getD_some] at hlast
  obtain ⟨front, c, htext⟩ := List.eq_nil_or_concat p.text |>.resolve_left (text_ne_nil hnames hne)
  rw [List.concat_eq_append] at htext
  refine ⟨front, c, htext, ?_⟩
  rintro rfl
  -- a colon at the end would leave a segment that is empty or has a colon in it
  rw [htext, lastSegmentOf, List.reverse_append, List.reverse_singleton, List.singleton_append] at hlast
  cases hfront : front.reverse with
  | nil =>
    rw [hfront] at hlast
    exact hname.colon_notMem (hlast ▸ by decide)
  | cons d rest =>
    rw [hfront] at hlast
    by_cases hd : d = ':'
    · subst hd
      exact hname.1 hlast.symm
    · refine hname.colon_notMem (hlast ▸ ?_)
      rw [beforeColons]
      · simp
      · rintro more - heq
        exact hd (List.cons.inj heq).1

theorem joinPath_text (haround : around.IsWellFormed) (hfits : around.Fits p)
    (hne : p.segments ≠ []) : joinPath around.text p.text = (around.append p).text := by
  by_cases hempty : around.segments = []
  · have hlocal : around.isGlobal = false := by
      cases hglobal : around.isGlobal with
      | false => rfl
      | true => exact absurd hempty (haround.start hglobal)
    have htext : around.text = [] := by rw [text, hlocal, hempty]; rfl
    rw [joinPath, if_pos htext, text, text, append, hlocal, hempty]
    rfl
  · have hlocal : p.isGlobal = false := by
      cases hglobal : p.isGlobal with
      | false => rfl
      | true => exact absurd (hfits.2 hglobal) hempty
    rw [joinPath, if_neg (text_ne_nil haround.names hempty), text, text, text, append]
    dsimp only
    rw [intercalate_append _ hempty hne, hlocal, Bool.or_false]
    simp

theorem append_empty (p : UsePath) : p.append empty = p := by simp [append, empty]

theorem IsWellFormed.append (haround : around.IsWellFormed) (hfits : around.Fits p) :
    (around.append p).IsWellFormed where
  names seg hseg := by
    rcases List.mem_append.1 hseg with h | h
    · exact haround.names seg h
    · exact hfits.1.names seg h
  start hglobal := by
    rcases Bool.or_eq_true_iff.1 hglobal with h | h
    · exact List.append_ne_nil_of_left_ne_nil (haround.start h) _
    · exact List.append_ne_nil_of_right_ne_nil _ (hfits.1.start h)

theorem IsWellFormed.eq_empty (hp : p.IsWellFormed) (h : p.segments = []) : p = empty := by
  obtain ⟨isGlobal, segments⟩ := p
  cases isGlobal with
  | true => exact absurd h (hp.start rfl)
  | false => exact congrArg (UsePath.mk false) h

theorem last_append (around : UsePath) (hne : p.segments ≠ []) :
    (around.append p).last = p.last := by
  rw [last, append]
  dsimp only
  rw [List.getLast?_append_of_ne_nil _ hne, last]

end UsePath

/-! ### What is read -/

mutual

theorem readPath_spec : ∀ {tree : SyntaxTree} {p : UsePath}, readPath tree = some p →
    tree.data.text.toList = p.text ∧ p.segments ≠ [] ∧ (p.isSelf = true ↔ tree.data.kind = "self")
  | .node data children, p => by
    intro h
    rw [readPath] at h
    split_ifs at h with hscoped hkind
    · obtain ⟨scope, hscope, h⟩ := Option.bind_eq_some_iff.1 h
      obtain ⟨name, -, h⟩ := Option.bind_eq_some_iff.1 h
      dsimp only at h
      split_ifs at h with htext
      cases h
      refine ⟨htext, by simp, ?_⟩
      have hnot : data.kind ≠ "self" := by rw [hscoped]; decide
      refine ⟨fun hself => ?_, fun hself => absurd hself hnot⟩
      -- the path in front has segments, or begins with `::`
      have hfront := readScope_spec hscope
      have heq := eq_of_beq hself
      rw [UsePath.mk.injEq] at heq
      rcases hfront with hglobal | hne
      · rw [heq.1] at hglobal
        cases hglobal
      · have hlen := congrArg List.length heq.2
        have hpos := List.length_pos_iff.2 hne
        rw [List.length_append, List.length_singleton, List.length_singleton] at hlen
        omega
    · cases h
      refine ⟨by simp [UsePath.text, SyntaxTree.data], by simp, ?_⟩
      change (_ == _) = true ↔ data.kind = "self"
      rw [hkind.2, beq_iff_eq, UsePath.mk.injEq]
      simp

theorem readScope_spec : ∀ {forest : SyntaxForest} {p : UsePath}, readScope forest = some p →
    p.isGlobal = true ∨ p.segments ≠ []
  | .nil, p => by
    intro h
    cases h
    exact .inl rfl
  | .cons field tree rest, p => by
    intro h
    rw [readScope] at h
    split_ifs at h
    · exact .inr (readPath_spec h).2.1
    · exact readScope_spec h

end

theorem readPathField_spec {forest : SyntaxForest} {p : UsePath} (h : readPathField forest = some p) :
    fieldText "path" forest = some p.text ∧ p.segments ≠ [] := by
  match forest with
  | .nil => cases h
  | .cons field tree rest =>
    rw [readPathField] at h
    rw [fieldText, SyntaxForest.find?]
    split_ifs at h with hfield
    · obtain ⟨htext, hne, -⟩ := readPath_spec h
      rw [hfield, beq_self_eq_true, if_pos rfl, Option.map_some, htext]
      exact ⟨rfl, hne⟩
    · rw [if_neg (by simpa using hfield)]
      exact readPathField_spec h

section Trim

variable {p : UsePath} (hp : p.IsWellFormed)
include hp

/-- A path with segments has no `::` at its end. -/
theorem trimEndColons_text (hne : p.segments ≠ []) : trimEndColons p.text = p.text := by
  obtain ⟨front, c, htext, hc⟩ := UsePath.text_eq_concat hp.names hne
  rw [trimEndColons, htext, List.reverse_append, List.reverse_singleton, List.singleton_append,
    dropColons_of_ne hc]
  simp

theorem trimEndColons_text_colons (hne : p.segments ≠ []) :
    trimEndColons (p.text ++ [':', ':']) = p.text := by
  obtain ⟨front, c, htext, hc⟩ := UsePath.text_eq_concat hp.names hne
  have hrev : (p.text ++ [':', ':']).reverse = ':' :: ':' :: c :: front.reverse := by simp [htext]
  rw [trimEndColons, hrev, dropColons, dropColons_of_ne hc, htext]
  simp

theorem trimEndStars_text : trimEndStars p.text = p.text := by
  rw [trimEndStars, List.dropWhile_eq_self_iff.2, List.reverse_reverse]
  intro hlen
  rw [decide_eq_true_iff]
  intro hstar
  have hmem : '*' ∈ p.text := List.mem_reverse.1 (hstar ▸ List.getElem_mem hlen)
  rcases UsePath.mem_text hmem with heq | ⟨seg, hseg, hc⟩
  · cases heq
  · exact ((hp.names seg hseg).2 _ hc).2.1 rfl

/-- What is in front of the `*` of a glob. -/
theorem trim_globText : trimWhitespace (trimEndColons (trimEndStars (globText p))) = p.text := by
  by_cases hne : p.segments = []
  · rw [hp.eq_empty hne]
    decide
  · have hstars : trimEndStars (globText p) = p.text ++ [':', ':'] := by
      rw [globText, if_neg hne, trimEndStars]
      simp
    rw [hstars, trimEndColons_text_colons hp hne]
    refine trimWhitespace_eq_self fun d hd => ?_
    rcases UsePath.mem_text hd with rfl | ⟨seg, hseg, hd⟩
    · decide
    · exact ((hp.names seg hseg).2 d hd).2.2

theorem trim_lastSegmentOf_text (hne : p.segments ≠ []) : trimWhitespace (lastSegmentOf p.text) = p.last := by
  have hseg := List.getLast?_eq_some_getLast hne
  rw [UsePath.lastSegmentOf_text hp.names hne, UsePath.last, hseg, Option.getD_some]
  exact trimWhitespace_eq_self fun d hd => ((hp.names _ (List.mem_of_getLast? hseg)).2 d hd).2.2

end Trim

theorem expandUseTreeInto_other {data : NodeData} {children : SyntaxForest}
    (h : data.kind ∈ ["line_comment", "block_comment", "outer_doc_comment_marker", "inner_doc_comment_marker",
      "doc_comment"]) (pre : List Char) :
    expandUseTreeInto pre (.node data children) = expandNamedChildren pre children := by
  simp only [List.mem_cons, List.not_mem_nil, or_false] at h
  rw [expandUseTreeInto]
  rcases h with h | h | h | h | h <;> simp [h, isPathKind]

theorem expandNamedChildren_comment (pre : List Char) :
    ∀ forest : SyntaxForest, areCommentParts forest = true → expandNamedChildren pre forest = []
  | .nil => fun _ => rfl
  | .cons _ (.node _ (.cons _ _ _)) _ => fun h => by cases h
  | .cons _ (.node data .nil) rest => by
    intro h
    obtain ⟨hpart, hrest⟩ := Bool.and_eq_true_iff.1 h
    rw [expandNamedChildren, expandNamedChildren_comment pre rest hrest, List.append_nil]
    by_cases hnamed : data.isNamed = true
    · rw [isCommentPart, hnamed, Bool.not_true, Bool.false_or] at hpart
      have hkind := List.contains_iff_mem.1 hpart
      have hother : expandUseTreeInto pre (.node data .nil) = [] := expandUseTreeInto_other
        (List.mem_cons_of_mem "line_comment" (List.mem_cons_of_mem "block_comment" hkind)) pre
      exact (if_pos hnamed).trans hother
    · exact if_neg hnamed

theorem expandUseTreeInto_comment {tree : SyntaxTree} (h : isComment tree = true) (pre : List Char) :
    expandUseTreeInto pre tree = [] := by
  obtain ⟨data, children⟩ := tree
  obtain ⟨hkind, hchildren⟩ := Bool.and_eq_true_iff.1 h
  have hkind := List.contains_iff_mem.1 hkind
  exact (expandUseTreeInto_other (List.mem_append_left _ hkind) pre).trans
    (expandNamedChildren_comment pre _ hchildren)

/-! ### One item for each leaf -/

/-- An item is that of a leaf, apart from a `*` alone and a `self` with another name; only with the latter the
representative name may be a wrong one. -/
structure IsItemOf (item : ImportedItem) (leaf : UseLeaf) : Prop where
  eq : leaf.isRenamedSelf = false → leaf.isBareStar = false → item = leaf.item
  name_eq : leaf.isRenamedSelf = false → importRepresentativeName item = String.ofList leaf.path.last

/-- The name that stands for the item of a leaf is the last segment of its path. -/
theorem importRepresentativeName_item {leaf : UseLeaf} (hpath : leaf.path.IsWellFormed)
    (hne : leaf.kind ≠ .glob → leaf.path.segments ≠ []) :
    importRepresentativeName leaf.item = String.ofList leaf.path.last := by
  cases hkind : leaf.kind with
  | name =>
    rw [UseLeaf.item, hkind]
    simp [importRepresentativeName]
  | rename name =>
    rw [UseLeaf.item, hkind]
    by_cases hsame : String.ofList leaf.path.last = String.ofList name
    · simp [importRepresentativeName, hsame]
    · have hlast : String.ofList leaf.path.last ≠ "" := by
        have hseg := List.getLast?_eq_some_getLast (hne (by rw [hkind]; exact LeafKind.noConfusion))
        rw [UsePath.last, hseg, Option.getD_some]
        intro hnil
        exact (hpath.names _ (List.mem_of_getLast? hseg)).1 (String.ofList_eq_empty_iff.1 hnil)
      simp only [importRepresentativeName, Bool.false_eq_true, if_false]
      rw [if_pos ⟨hsame, hlast⟩]
  | glob =>
    rw [UseLeaf.item, hkind]
    simp only [importRepresentativeName, if_true, String.toList_ofList]
    by_cases hempty : leaf.path.segments = []
    · rw [hpath.eq_empty hempty]
      rfl
    · rw [trimEndStars_text hpath, trimEndColons_text hpath hempty, trim_lastSegmentOf_text hpath hempty]

section Leaf

variable {around p : UsePath} (haround : around.IsWellFormed)
include haround

theorem isItemOf_glob (hfits : around.Fits p) :
    IsItemOf ⟨String.ofList (joinPath around.text p.text), "", "", true⟩ ⟨around, p, .glob⟩ := by
  have hpath : (⟨around, p, .glob⟩ : UseLeaf).path = around.append p := if_neg fun h => h.1 rfl
  have hname : (⟨around, p, .glob⟩ : UseLeaf).path.IsWellFormed := hpath ▸ haround.append hfits
  by_cases hbare : p.segments = [] ∧ around.segments ≠ []
  · -- the path of the item ends in `::`, which is trimmed for the name
    obtain ⟨hempty, hne⟩ := hbare
    rw [hfits.1.eq_empty hempty] at hpath ⊢
    rw [UsePath.append_empty] at hpath
    refine ⟨fun _ hstar => ?_, fun _ => ?_⟩
    · simp [UseLeaf.isBareStar, UsePath.empty, hne] at hstar
    · have hjoin : joinPath around.text UsePath.empty.text = around.text ++ [':', ':'] :=
        if_neg (UsePath.text_ne_nil haround.names hne)
      have hstars : trimEndStars (around.text ++ [':', ':']) = around.text ++ [':', ':'] := by
        simp [trimEndStars]
      rw [hpath, hjoin]
      simp only [importRepresentativeName, if_true, String.toList_ofList]
      rw [hstars, trimEndColons_text_colons haround hne, trim_lastSegmentOf_text haround hne]
  · have htext : joinPath around.text p.text = (around.append p).text := by
      by_cases hne : p.segments = []
      · have hempty : around.segments = [] := by
          by_contra h
          exact hbare ⟨hne, h⟩
        rw [hfits.1.eq_empty hne, haround.eq_empty hempty]
        rfl
      · exact UsePath.joinPath_text haround hfits hne
    have hitem : (⟨around, p, .glob⟩ : UseLeaf).item =
        ⟨String.ofList (around.append p).text, "", "", true⟩ := by rw [UseLeaf.item, hpath]
    rw [htext, ← hitem]
    exact ⟨fun _ _ => rfl, fun _ => importRepresentativeName_item hname fun h => absurd rfl h⟩

theorem isItemOf_of_eq (hleaf : around.FitsLeaf p) {kind : LeafKind} {item : ImportedItem}
    (h : (⟨around, p, kind⟩ : UseLeaf).isRenamedSelf = false → item = (⟨around, p, kind⟩ : UseLeaf).item) :
    IsItemOf item ⟨around, p, kind⟩ := by
  obtain ⟨hfits, hne, hself⟩ := hleaf
  refine ⟨fun hplain _ => h hplain, fun hplain => ?_⟩
  have hpath : (⟨around, p, kind⟩ : UseLeaf).path.IsWellFormed ∧
      (⟨around, p, kind⟩ : UseLeaf).path.segments ≠ [] := by
    rw [UseLeaf.path]
    split_ifs with hcase
    · exact ⟨haround, hself hcase.2⟩
    · exact ⟨haround.append hfits, List.append_ne_nil_of_right_ne_nil _ hne⟩
  rw [h hplain]
  exact importRepresentativeName_item hpath.1 fun _ => hpath.2

theorem isItemOf_rename (hleaf : around.FitsLeaf p) (name : List Char) :
    IsItemOf ⟨String.ofList (joinPath around.text p.text), String.ofList name,
      String.ofList (lastSegmentOf p.text), false⟩ ⟨around, p, .rename name⟩ := by
  refine isItemOf_of_eq haround hleaf fun hself => ?_
  obtain ⟨hfits, hne, -⟩ := hleaf
  have hself : p.isSelf = false := hself
  have hpath : (⟨around, p, .rename name⟩ : UseLeaf).path = around.append p :=
    if_neg fun h => by
      rw [hself] at h
      exact Bool.false_ne_true h.2
  rw [UsePath.joinPath_text haround hfits hne, UsePath.lastSegmentOf_text hfits.1.names hne,
    ← UsePath.last_append around hne, UseLeaf.item, hpath]

theorem isItemOf_name (hleaf : around.FitsLeaf p) (hself : p.isSelf = false) :
    IsItemOf ⟨String.ofList (joinPath around.text p.text), String.ofList (lastSegmentOf p.text),
      String.ofList (lastSegmentOf p.text), false⟩ ⟨around, p, .name⟩ := by
  refine isItemOf_of_eq haround hleaf fun _ => ?_
  obtain ⟨hfits, hne, -⟩ := hleaf
  have hpath : (⟨around, p, .name⟩ : UseLeaf).path = around.append p :=
    if_neg fun h => by
      rw [hself] at h
      exact Bool.false_ne_true h.2
  rw [UsePath.joinPath_text haround hfits hne, UsePath.lastSegmentOf_text hfits.1.names hne,
    ← UsePath.last_append around hne, UseLeaf.item, hpath]

theorem isItemOf_self (hleaf : around.FitsLeaf p) (hself : p.isSelf = true) :
    IsItemOf ⟨String.ofList around.text, String.ofList (lastSegmentOf around.text),
      String.ofList (lastSegmentOf around.text), false⟩ ⟨around, p, .name⟩ := by
  refine isItemOf_of_eq haround hleaf fun _ => ?_
  have hpath : (⟨around, p, .name⟩ : UseLeaf).path = around := if_pos ⟨LeafKind.noConfusion, hself⟩
  rw [UsePath.lastSegmentOf_text haround.names (hleaf.2.2 hself), UseLeaf.item, hpath]

end Leaf

theorem expandUseTreeInto_path {data : NodeData} {children : SyntaxForest} {p around : UsePath}
    (hread : readPath (.node data children) = some p) (haround : around.IsWellFormed)
    (hleaf : around.FitsLeaf p) :
    List.Forall₂ IsItemOf (expandUseTreeInto around.text (.node data children)) [⟨around, p, .name⟩] := by
  obtain ⟨htext, -, hiff⟩ := readPath_spec hread
  have hkind : data.kind = "self" ∨ isPathKind data.kind = true := by
    rw [readPath] at hread
    split_ifs at hread with hscoped hleaf
    · exact .inr (by rw [hscoped]; decide)
    · exact hleaf.1
  change data.text.toList = p.text at htext
  change _ ↔ data.kind = "self" at hiff
  rw [expandUseTreeInto]
  by_cases hdata : data.kind = "self"
  · simp only [hdata, String.reduceEq, if_false, if_true]
    exact .cons (isItemOf_self haround hleaf (hiff.2 hdata)) .nil
  · have hpath := hkind.resolve_left hdata
    have hnot (kind : String) (h : isPathKind kind = false) : data.kind ≠ kind := by
      rintro rfl
      rw [hpath] at h
      cases h
    rw [if_neg (hnot _ (by decide)), if_neg (hnot _ (by decide)), if_neg (hnot _ (by decide)),
      if_neg (hnot _ (by decide)), if_neg hdata, if_pos hpath, htext]
    exact .cons (isItemOf_name haround hleaf (Bool.not_eq_true _ ▸ fun h => hdata (hiff.1 h))) .nil

mutual

/-- Every leaf of a use tree in a group has its item, in the order of the leaves. -/
theorem expandUseTreeInto_spec : ∀ {tree : SyntaxTree} {t : UseTree}, readUseTree tree = some t →
    ∀ {around : UsePath}, around.IsWellFormed → t.IsAccepted around →
      List.Forall₂ IsItemOf (expandUseTreeInto around.text tree) (leavesIn around t)
  | .node data children, t => by
    intro hread around haround haccepted
    rw [readUseTree] at hread
    split_ifs at hread with hglob hscoped hlist has
    · obtain ⟨p, hp, hread⟩ := Option.bind_eq_some_iff.1 hread
      split_ifs at hread with htext
      cases hread
      have hfits : around.Fits p := haccepted
      rw [expandUseTreeInto, if_pos hglob, htext, trim_globText hfits.1]
      exact .cons (isItemOf_glob haround hfits) .nil
    · obtain ⟨p, hp, hread⟩ := Option.bind_eq_some_iff.1 hread
      obtain ⟨ts, hts, rfl⟩ := Option.map_eq_some_iff.1 hread
      obtain ⟨hfits, htrees⟩ := haccepted
      obtain ⟨hfield, hne⟩ := readPathField_spec hp
      rw [expandUseTreeInto, if_neg hglob, if_pos hscoped, hfield]
      dsimp only
      rw [UsePath.joinPath_text haround hfits hne]
      exact expandList_spec hts (haround.append hfits) htrees
    · obtain ⟨ts, hts, rfl⟩ := Option.map_eq_some_iff.1 hread
      obtain ⟨-, htrees⟩ := haccepted
      rw [expandUseTreeInto, if_neg hglob, if_neg hscoped, if_pos hlist]
      rw [UsePath.append_empty] at htrees
      rw [leavesIn, UsePath.append_empty]
      exact expandNamedChildren_spec hts haround htrees
    · obtain ⟨p, hp, hread⟩ := Option.bind_eq_some_iff.1 hread
      obtain ⟨name, hname, rfl⟩ := Option.map_eq_some_iff.1 hread
      obtain ⟨hfield, -⟩ := readPathField_spec hp
      rw [expandUseTreeInto, if_neg hglob, if_neg hscoped, if_neg hlist, if_pos has, hfield, hname]
      exact .cons (isItemOf_rename haround haccepted name) .nil
    · obtain ⟨p, hp, rfl⟩ := Option.map_eq_some_iff.1 hread
      exact expandUseTreeInto_path hp haround haccepted

theorem expandList_spec : ∀ {forest : SyntaxForest} {ts : List UseTree}, readList forest = some ts →
    ∀ {around : UsePath}, around.IsWellFormed → UseTree.AreAccepted around ts →
      List.Forall₂ IsItemOf (expandList around.text forest) (leavesOfAll around ts)
  | .nil, ts => by
    intro hread
    cases hread
  | .cons field (.node data children) rest, ts => by
    intro hread around haround haccepted
    rw [readList] at hread
    rw [expandList]
    split_ifs at hread ⊢ with hfield hkind
    · rw [expandUseTreeInto, if_neg (by rw [hkind]; decide), if_neg (by rw [hkind]; decide), if_pos hkind]
      exact expandNamedChildren_spec hread haround haccepted
    · exact expandList_spec hread haround haccepted

theorem expandNamedChildren_spec : ∀ {forest : SyntaxForest} {ts : List UseTree}, readTrees forest = some ts →
    ∀ {around : UsePath}, around.IsWellFormed → UseTree.AreAccepted around ts →
      List.Forall₂ IsItemOf (expandNamedChildren around.text forest) (leavesOfAll around ts)
  | .nil, ts => by
    intro hread
    cases hread
    intro around _ _
    exact .nil
  | .cons field tree rest, ts => by
    intro hread around haround haccepted
    rw [readTrees] at hread
    rw [expandNamedChildren]
    split_ifs at hread with hskip
    · have hnone : (if tree.data.isNamed = true then expandUseTreeInto around.text tree else []) = [] := by
        rcases hskip with htoken | hcomment
        · rw [if_neg (by rw [htoken]; decide)]
        · rw [expandUseTreeInto_comment hcomment, ite_self]
      rw [hnone]
      exact expandNamedChildren_spec hread haround haccepted
    · obtain ⟨t, ht, hread⟩ := Option.bind_eq_some_iff.1 hread
      obtain ⟨more, hmore, rfl⟩ := Option.map_eq_some_iff.1 hread
      obtain ⟨hfirst, hrest⟩ := haccepted
      have hnamed : tree.data.isNamed = true := by
        rw [not_or, Bool.not_eq_false] at hskip
        exact hskip.1
      rw [if_pos hnamed]
      exact List.rel_append (expandUseTreeInto_spec ht haround hfirst)
        (expandNamedChildren_spec hmore haround hrest)

end

/-! ### Whole trees -/

/-- **One item for each leaf**, in the order of the source: its path is the one that the leaf denotes, and a leaf
that binds a name has that name and the last segment of the path; and the representative name of the first item
is the last segment of the path of the first leaf. -/
theorem expandUseTree_faithful {tree : SyntaxTree} {t : UseTree} (hread : readUseTree tree = some t)
    (haccepted : t.IsAccepted .empty) :
    List.Forall₂ (fun item leaf => leaf.isRenamedSelf = false → leaf.isBareStar = false → item = leaf.item)
        (expandUseTree [] tree) (leaves t) ∧
      ∀ first ∈ (expandUseTree [] tree).head?, ∀ leaf ∈ (leaves t).head?, leaf.isRenamedSelf = false →
        importRepresentativeName first = String.ofList leaf.path.last := by
  have hempty : UsePath.empty.IsWellFormed := by decide
  have hitems : List.Forall₂ IsItemOf (expandUseTree [] tree) (leaves t) :=
    expandUseTreeInto_spec hread hempty haccepted
  refine ⟨hitems.imp fun _ _ h => h.eq, fun first hfirst leaf hleaf => ?_⟩
  generalize expandUseTree [] tree = items at hitems hfirst
  generalize leaves t = all at hitems hleaf
  cases hitems with
  | nil => cases hfirst
  | cons h _ =>
    cases hfirst
    cases hleaf
    exact h.name_eq

/-- A named node whose children stand without blanks between them. -/
def joined (kind : String) (children : List (String × Grown)) : Grown := fun start =>
  let (forest, texts, next) := growAll children start
  (.node ⟨kind, true, start, next - 1, 0, 0, "".intercalate texts⟩ forest, next)

/-- `a::{self, b::{C as D}, self as e, *}`. -/
def nestedUse : SyntaxTree :=
  (group "scoped_use_list" [
    ("path", word "identifier" "a"), ("", sign "::"),
    ("list", group "use_list" [
      ("", sign "\x7b"), ("", word "self" "self"), ("", sign ","),
      ("", group "scoped_use_list" [
        ("path", word "identifier" "b"), ("", sign "::"),
        ("list", group "use_list" [
          ("", sign "\x7b"),
          ("", group "use_as_clause" [
            ("path", word "identifier" "C"), ("", sign "as"), ("alias", word "identifier" "D")]),
          ("", sign "\x7d")])]),
      ("", sign ","),
      ("", group "use_as_clause" [
        ("path", word "self" "self"), ("", sign "as"), ("alias", word "identifier" "e")]),
      ("", sign ","), ("", joined "use_wildcard" [("", sign "*")]), ("", sign "\x7d")])]).tree

def nestedUseTree : UseTree :=
  .group ⟨false, ["a".toList]⟩ [
    .path ⟨false, ["self".toList]⟩,
    .group ⟨false, ["b".toList]⟩ [.rename ⟨false, ["C".toList]⟩ "D".toList],
    .rename ⟨false, ["self".toList]⟩ "e".toList,
    .glob .empty]

theorem expandUseTree_faithful_nested :
    List.Forall₂ (fun item leaf => leaf.isRenamedSelf = false → leaf.isBareStar = false → item = leaf.item)
        (expandUseTree [] nestedUse) (leaves nestedUseTree) ∧
      ∀ first ∈ (expandUseTree [] nestedUse).head?, ∀ leaf ∈ (leaves nestedUseTree).head?,
        leaf.isRenamedSelf = false → importRepresentativeName first = String.ofList leaf.path.last :=
  expandUseTree_faithful (by rfl) (by decide +kernel)

/-- `a::*`. -/
def globUse : SyntaxTree :=
  (joined "use_wildcard" [("", word "identifier" "a"), ("", sign "::"), ("", sign "*")]).tree

/-- The original name of a glob is not the last segment of its path, but empty. -/
theorem globUse_originalName :
    readUseTree globUse = some (.glob ⟨false, ["a".toList]⟩) ∧
      ¬List.Forall₂ (fun item leaf => item.originalName = String.ofList leaf.path.last)
        (expandUseTree [] globUse) (leaves (.glob ⟨false, ["a".toList]⟩)) := by
  refine ⟨by rfl, ?_⟩
  have hitems : expandUseTree [] globUse = [⟨"a", "", "", true⟩] := by decide
  rw [hitems]
  rintro (_ | ⟨h, -⟩)
  revert h
  decide

end Rust

end Extract
