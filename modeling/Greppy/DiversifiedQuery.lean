/-
**The diversified semantic search.**

`semantic_query_diversified` ranks the candidates as `semantic_query` does, and goes through the ranking from
the front.  Of the hits in one file with one name it keeps so many, and drops the others.

It does not go through the whole ranking.  The ranking is cut at eight times the limit, at least at the
limit and in between at ten thousand.  Where the first hits are of few groups, hits of other groups that
come later are not reached.
-/

import Greppy.PerGroup
import Greppy.SemanticScore
import Greppy.Usize

set_option autoImplicit false

namespace Greppy

/-! ### The search -/

structure DiversifiedHit where
  hit : SemanticHit
  confidence : ℚ
  deriving DecidableEq

def maxSemanticScore : ℚ :=
  1 + labelAffinityBonus + fileProximityBonus + simhashMaxBonus + qnamePathMaxBonus + edgeProximityBonus

/-- A hit with its score as a part of the greatest score, between zero and one. -/
def SemanticHit.diversified (hit : SemanticHit) : DiversifiedHit where
  hit := hit
  confidence := max 0 (min 1 (hit.score / maxSemanticScore))

def SemanticHit.group (hit : SemanticHit) : String × String := (hit.node.filePath, hit.node.name)

def candidateCap (limit : ℕ) : ℕ := max (max (min (usizeSaturatingMul limit 8) 10000) limit) 1

section Query

variable (u : Unicode) (arith : Arithmetic) (g : Graph) (query : List Char)
  (nearFile project : Option String)

def semanticQuery (limit : ℕ) : List SemanticHit :=
  semanticQueryFiltered u arith g query nearFile project [] limit

def semanticQueryDiversified (diversify : Bool) (perGroup limit : ℕ) : List DiversifiedHit :=
  let ranked := semanticQuery u arith g query nearFile project (candidateCap limit)
  let kept :=
    if diversify then PerGroup.cutFrom SemanticHit.group (max perGroup 1) (fun _ => 0) ranked else ranked
  (kept.take limit).map SemanticHit.diversified

/-- The ranking of all candidates, of which there are ten thousand at most. -/
def completeRanking : List SemanticHit := semanticQuery u arith g query nearFile project 10000

variable {u arith g query nearFile project}

/-- A ranking is cut at its limit, and there are no more hits than candidates. -/
theorem rankRows_eq_take {q : QuerySignals} {rows : List SearchGraphRow} {n : ℕ}
    (hrows : rows.length ≤ n) (limit : ℕ) :
    rankRows u arith g q rows limit = (rankRows u arith g q rows n).take limit := by
  have hall : ∀ hits : List SemanticHit, hits.length ≤ rows.length →
      (hits.insertionSort SemanticHit.le).take n = hits.insertionSort SemanticHit.le := by
    intro hits hle
    refine List.take_of_length_le ?_
    rw [List.length_insertionSort]
    exact hle.trans hrows
  simp only [rankRows]
  rw [hall _ (List.length_filterMap_le _ _)]

/-- **The ranking with a limit is the beginning of the whole.** -/
theorem semanticQuery_eq_take (limit : ℕ) : semanticQuery u arith g query nearFile project limit =
    (completeRanking u arith g query nearFile project).take limit := by
  rw [completeRanking, semanticQuery, semanticQuery, semanticQueryFiltered_eq, semanticQueryFiltered_eq]
  refine rankRows_eq_take ?_ limit
  exact (List.length_filter_le _ _).trans ((List.length_filter_le _ _).trans (length_searchGraph_le g project))

theorem length_completeRanking_le : (completeRanking u arith g query nearFile project).length ≤ 10000 := by
  rw [completeRanking, semanticQuery_eq_take]
  exact List.length_take_le _ _

theorem semanticQueryDiversified_eq (query : List Char) (nearFile project : Option String)
    (perGroup limit : ℕ) :
    semanticQueryDiversified u arith g query nearFile project true perGroup limit =
      ((PerGroup.cut SemanticHit.group (max perGroup 1)
        ((completeRanking u arith g query nearFile project).take (candidateCap limit))).take limit).map
          SemanticHit.diversified := by
  simp only [semanticQueryDiversified, if_true, semanticQuery_eq_take, PerGroup.cut_eq_cutFrom]

/-- **What the diversified search keeps**, of the beginning of the ranking, and when it is what the whole
ranking keeps: when as many hits are kept of the beginning as are asked for, or as of the whole.  It is so
where the ranking has no more hits than candidates are taken, and for a limit from 1,250 on. -/
theorem semanticQueryDiversified_spec (u : Unicode) (arith : Arithmetic) (g : Graph) (query : List Char)
    (nearFile project : Option String) (perGroup limit : ℕ) :
    let ranking := completeRanking u arith g query nearFile project
    let keep := PerGroup.cut SemanticHit.group (max perGroup 1)
    let found := semanticQueryDiversified u arith g query nearFile project true perGroup limit
    found = ((keep (ranking.take (candidateCap limit))).take limit).map SemanticHit.diversified ∧
    found <+: ((keep ranking).take limit).map SemanticHit.diversified ∧
    (found = ((keep ranking).take limit).map SemanticHit.diversified ↔
      min limit (keep ranking).length ≤ (keep (ranking.take (candidateCap limit))).length) ∧
    (ranking.length ≤ candidateCap limit ∨ 1250 ≤ limit →
      found = ((keep ranking).take limit).map SemanticHit.diversified) := by
  intro ranking keep found
  have hfound : found =
      ((keep (ranking.take (candidateCap limit))).take limit).map SemanticHit.diversified :=
    semanticQueryDiversified_eq query nearFile project perGroup limit
  have hinj : Function.Injective SemanticHit.diversified := fun a b h => congrArg DiversifiedHit.hit h
  refine ⟨hfound, ?_, ?_, ?_⟩
  · rw [hfound]
    exact (List.IsPrefix.take (PerGroup.cut_take_isPrefix _) limit).map _
  · rw [hfound, (List.map_injective_iff.2 hinj).eq_iff]
    exact PerGroup.take_cut_take_eq_iff _ limit
  · intro hall
    have hlen : ranking.length ≤ candidateCap limit := by
      rcases hall with hle | hlimit
      · exact hle
      · have hranking : ranking.length ≤ 10000 := length_completeRanking_le
        rw [candidateCap, usizeSaturatingMul]
        omega
    rw [hfound, List.take_of_length_le hlen]

/-- Candidates that are told apart by nothing but their qualified names are ranked by these, whatever the
arithmetic. -/
theorem rankRows_of_alike {q : QuerySignals} {rows : List SearchGraphRow} {T S : Finset Token}
    {label : String} (hnear : q.nearFile = none) (hshared : (q.qTokens ∩ T).card ≠ 0)
    (hneighbors : anchorNeighbors u g q.qTokens rows = ∅)
    (hrows : ∀ r ∈ rows, r.tokens u = T ∧ qnamePathSegments u r.qualifiedName = S ∧ r.label = label)
    (hsorted : rows.Pairwise fun r s => r.qualifiedName < s.qualifiedName) (limit : ℕ) :
    rankRows u arith g q rows limit =
      (rows.map (hitOf u arith q ∅ (TokenIdf.fromRows u rows))).take limit := by
  have hT : T ≠ ∅ := by
    intro hnil
    rw [hnil, Finset.inter_empty] at hshared
    exact hshared Finset.card_empty
  have hhits : rows.filterMap (scoreOne u arith q ∅ (TokenIdf.fromRows u rows)) =
      rows.map (hitOf u arith q ∅ (TokenIdf.fromRows u rows)) := by
    rw [← List.filterMap_eq_map]
    refine List.filterMap_congr fun r hr => ?_
    have htokens := (hrows r hr).1
    rw [scoreOne, if_neg (by rwa [htokens]), htokens, if_neg fun h => hshared h.1]
    rfl
  have hinput : ∀ r ∈ rows, ∀ s ∈ rows, scoreInput u q ∅ (TokenIdf.fromRows u rows) r =
      scoreInput u q ∅ (TokenIdf.fromRows u rows) s := by
    intro r hr s hs
    obtain ⟨hrt, hrs, hrl⟩ := hrows r hr
    obtain ⟨hst, hss, hsl⟩ := hrows s hs
    simp [scoreInput, hrt, hst, hrs, hss, hrl, hsl, hnear]
  have hpairs : (rows.map (hitOf u arith q ∅ (TokenIdf.fromRows u rows))).Pairwise SemanticHit.le := by
    rw [List.pairwise_map]
    refine hsorted.imp_of_mem fun {r s} hr hs hlt => Or.inr ⟨?_, Or.inl hlt⟩
    exact congrArg arith.score (hinput r hr s hs)
  simp only [rankRows, hneighbors, hhits]
  rw [hpairs.insertionSort_eq]

end Query

/-- Sixteen functions of one name in one file, and one of that name in another file. -/
def crowdedGroup : Graph :=
  Graph.ofInserts ⟨"p", "2026-06-29T00:00:00Z", "/p"⟩
    ((([".", "/", "..", "./", ".:", "/.", "//", "/:", ":.", ":/", "::", "...", "../", "..:", "./.",
        ".//"].map fun separator => ("a.rs", separator)) ++ [("b.rs", ":")]).map
      fun (f : String × String) => ⟨"p", "Function", "run", "p" ++ f.2 ++ "run", f.1, 1, 1, .null⟩) []

/-- The function in the other file is not found, although there is room for it: whatever the arithmetic, what
is found is not the cut of the complete ranking. -/
theorem crowdedGroup_hides_other_file :
    ¬ ∃ arith : Arithmetic,
      semanticQueryDiversified .ascii arith crowdedGroup "run".toList none none true 1 2 =
        ((PerGroup.cut SemanticHit.group 1
          (completeRanking .ascii arith crowdedGroup "run".toList none none)).take 2).map
            SemanticHit.diversified := by
  rintro ⟨arith, hsame⟩
  obtain ⟨rows, hdef⟩ : ∃ rows, rows = (labelledRows crowdedGroup none []).filter fun r =>
      !isPseudo [] r := ⟨_, rfl⟩
  have hrows : (∀ r ∈ rows, r.tokens .ascii = {"p".toList, "run".toList} ∧
      qnamePathSegments .ascii r.qualifiedName = {"p".toList} ∧ r.label = "Function") ∧
      (rows.Pairwise fun r s => r.qualifiedName < s.qualifiedName) ∧ rows.length ≤ 10000 := by
    rw [hdef]
    decide +kernel
  have hkept : (PerGroup.cut (fun r : SearchGraphRow => (r.filePath, r.name)) 1 (rows.take 16)).length = 1 ∧
      (PerGroup.cut (fun r : SearchGraphRow => (r.filePath, r.name)) 1 rows).length = 2 := by
    rw [hdef]
    decide +kernel
  have hneighbors : anchorNeighbors .ascii crowdedGroup (tokenize .ascii "run".toList) rows = ∅ := by
    rw [hdef]
    decide +kernel
  have hshared : ((querySignals .ascii "run".toList none).qTokens ∩
      {"p".toList, "run".toList}).card ≠ 0 := by decide +kernel
  -- the hits are those of the rows in their order, and their groups do not depend on the arithmetic
  obtain ⟨f, hgroup, hranking⟩ : ∃ f : SearchGraphRow → SemanticHit,
      (∀ r, (f r).group = (r.filePath, r.name)) ∧
        completeRanking .ascii arith crowdedGroup "run".toList none none = rows.map f := by
    refine ⟨hitOf .ascii arith (querySignals .ascii "run".toList none) ∅ (TokenIdf.fromRows .ascii rows),
      fun r => rfl, ?_⟩
    rw [completeRanking, semanticQuery, semanticQueryFiltered_eq, ← hdef,
      rankRows_of_alike rfl hshared hneighbors hrows.1 hrows.2.1, List.take_of_length_le]
    rw [List.length_map]
    exact hrows.2.2
  have hcut : ∀ l : List SearchGraphRow, (PerGroup.cut SemanticHit.group 1 (l.map f)).length =
      (PerGroup.cut (fun r : SearchGraphRow => (r.filePath, r.name)) 1 l).length := by
    intro l
    rw [PerGroup.cut_map, List.length_map]
    simp only [hgroup]
  have hcap : candidateCap 2 = 16 := by decide
  have hlen := congrArg List.length hsame
  rw [semanticQueryDiversified_eq, hranking, hcap, ← List.map_take, List.length_map, List.length_take,
    Nat.max_self, hcut, hkept.1, List.length_map, List.length_take, hcut, hkept.2] at hlen
  exact absurd hlen (by decide)

end Greppy
