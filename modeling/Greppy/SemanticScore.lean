/-
**The scores of the semantic search.**

The score of a node is a sum of six contributions.  The first is the overlap of its tokens with those of the
query, in which a token weighs the more the fewer candidates have it; the others are bonuses.  The weights
take a logarithm.  Here the scores are rational numbers, and of the logarithm it is only known that it is
not negative from one on.
-/

import Greppy.SemanticQuery
import Mathlib.Tactic.Linarith
import Mathlib.Tactic.Positivity

set_option autoImplicit false

namespace Greppy

/-- A logarithm: it is not negative from one on. -/
structure Logarithm where
  ln : ℚ → ℚ
  nonneg : ∀ x, 1 ≤ x → 0 ≤ ln x

/-- `TokenIdf::weight`. -/
def TokenIdf.weight (log : Logarithm) (idf : TokenIdf) (token : Token) : ℚ :=
  log.ln ((idf.n + 1) / (idf.df token + 1)) + 1

/-- The weights of the tokens that two sets share, as a part of the weights of all of theirs. -/
def weightedOverlap (log : Logarithm) (idf : TokenIdf) (a b : Finset Token) : ℚ :=
  let interW := ∑ t ∈ a ∩ b, idf.weight log t
  let unionW := ∑ t ∈ a ∪ b, idf.weight log t
  if 0 < unionW then interW / unionW else 0

/-! ### The weights of the signals -/

def labelAffinityBonus : ℚ := 15 / 100

def fileProximityBonus : ℚ := 10 / 100

def simhashMaxBonus : ℚ := 10 / 100

def simhashMinAgreement : ℚ := 30 / 100

def qnamePathMaxBonus : ℚ := 12 / 100

def edgeProximityBonus : ℚ := 14 / 100

/-- `SemanticBreakdown::total`. -/
def SemanticBreakdown.total (b : SemanticBreakdown) : ℚ :=
  b.tokenOverlap + b.labelAffinity + b.fileProximity + b.simhash + b.qnamePath + b.edgeProximity

/-- The contributions that `score_one` adds up. -/
def exactBreakdown (log : Logarithm) (input : ScoreInput) : SemanticBreakdown where
  tokenOverlap := weightedOverlap log input.idf input.qTokens input.nodeTokens
  labelAffinity := if input.labelMatch then labelAffinityBonus else 0
  fileProximity := if input.sharesDir then fileProximityBonus else 0
  simhash :=
    let agreement : ℚ := 1 - input.hamming / minhashK
    if simhashMinAgreement < agreement then
      (agreement - simhashMinAgreement) / (1 - simhashMinAgreement) * simhashMaxBonus
    else 0
  qnamePath := if input.matchedSegments = 0 then 0
    else input.matchedSegments / input.segments * qnamePathMaxBonus
  edgeProximity := if input.neighbor then edgeProximityBonus else 0

/-- The arithmetic of `score_one`. -/
def exactArithmetic (log : Logarithm) : Arithmetic where
  score := fun input => (exactBreakdown log input).total
  breakdown := exactBreakdown log

/-! ### Overlap -/

theorem df_add_le {u : Unicode} {idf : TokenIdf} (h : ∀ t, idf.df t ≤ idf.n) (row : SearchGraphRow) :
    ∀ t, (idf.add u row).df t ≤ (idf.add u row).n := by
  intro t
  have ht := h t
  rw [TokenIdf.add]
  split
  · exact ht
  · dsimp only
    split <;> omega

theorem df_fromRows_le (u : Unicode) (rows : List SearchGraphRow) (t : Token) :
    (TokenIdf.fromRows u rows).df t ≤ (TokenIdf.fromRows u rows).n := by
  refine List.foldlRecOn (motive := fun idf : TokenIdf => ∀ t, idf.df t ≤ idf.n) rows (TokenIdf.add u)
    (fun _ => le_rfl) (fun idf h row _ => df_add_le h row) t

theorem weight_pos (log : Logarithm) {idf : TokenIdf} {t : Token} (h : idf.df t ≤ idf.n) :
    0 < idf.weight log t := by
  have hle : ((idf.df t : ℚ) + 1) ≤ idf.n + 1 := by
    have hcast : (idf.df t : ℚ) ≤ idf.n := by exact_mod_cast h
    linarith
  have hpos : (0 : ℚ) < idf.df t + 1 := by positivity
  have hone : (1 : ℚ) ≤ (idf.n + 1) / (idf.df t + 1) := (one_le_div hpos).2 hle
  have hln := log.nonneg _ hone
  rw [TokenIdf.weight]
  linarith

/-- **There is no overlap where no token is shared.** -/
theorem weightedOverlap_eq_zero_iff (log : Logarithm) {idf : TokenIdf} (h : ∀ t, idf.df t ≤ idf.n)
    (a b : Finset Token) : weightedOverlap log idf a b = 0 ↔ a ∩ b = ∅ := by
  have hpos : ∀ t, 0 < idf.weight log t := fun t => weight_pos log (h t)
  constructor
  · intro hzero
    by_contra hne
    obtain ⟨t, ht⟩ := Finset.nonempty_iff_ne_empty.2 hne
    have hinter : 0 < ∑ t ∈ a ∩ b, idf.weight log t := Finset.sum_pos (fun t _ => hpos t) ⟨t, ht⟩
    have hunion : 0 < ∑ t ∈ a ∪ b, idf.weight log t :=
      Finset.sum_pos (fun t _ => hpos t) ⟨t, Finset.mem_union_left _ (Finset.mem_inter.1 ht).1⟩
    rw [weightedOverlap, if_pos hunion] at hzero
    exact absurd hzero (div_pos hinter hunion).ne'
  · intro hnone
    rw [weightedOverlap, hnone, Finset.sum_empty, zero_div, ite_self]

end Greppy
