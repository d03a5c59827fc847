/-
**The batches are the longest that fit.**

The collected documents are divided from the shortest on, and each batch takes as many of them as it can:
one at least, no more than the maximum, and as long as the batch is balanced.  A balanced batch is padded
by at most an eighth of its tokens, and its longest document is at most half as long again as its shortest.
A document without tokens counts for one, and the tokens of a batch have to be counted in a `usize`, with
an eighth of them to spare.

The code keeps the positions where a batch begins and ends.  Its arithmetic on them is checked here, and
none of it overflows.
-/

import Greppy.EmbeddingIndex
import Mathlib.Algebra.Group.Action.Defs
import Mathlib.Order.Bounds.Basic

set_option autoImplicit false

namespace Greppy

/-! ### Positions -/

/-- The end of the batch that begins at `start`: from `stop` down, until the batch fits or is a single
document. -/
def shrinkEnd (sortedLengths : List ℕ) (start : ℕ) : ℕ → Option ℕ
  | 0 => some 0
  | stop + 1 => do
      let single ← usizeAdd start 1
      if single < stop + 1 then
        let batch ← slice start (stop + 1) sortedLengths
        if fitsBatch batch then some (stop + 1) else shrinkEnd sortedLengths start stop
      else some (stop + 1)

/-- The batches from `start` on.  There is no result without fuel. -/
def planEnds (sortedLengths : List ℕ) (maxBatchSize : ℕ) : ℕ → ℕ → Option (List ℕ)
  | 0, start => if start < sortedLengths.length then none else some []
  | fuel + 1, start =>
    if start < sortedLengths.length then do
      let stop ← shrinkEnd sortedLengths start
        (min (usizeSaturatingAdd start maxBatchSize) sortedLengths.length)
      let batches ← planEnds sortedLengths maxBatchSize fuel stop
      some ((stop - start) :: batches)
    else some []

/-- `plan_adaptive_batches`, on positions. -/
def planAdaptiveBatchesAt (sortedLengths : List ℕ) (maxBatchSize : ℕ) : Option (List ℕ) :=
  planEnds sortedLengths (max maxBatchSize 1) sortedLengths.length 0

variable {lengths : List ℕ} {maxBatchSize : ℕ}

variable {start size fuel : ℕ} {batch plan : List ℕ} {α : Type} {pending : List α}

theorem shrinkEnd_eq (hlen : lengths.length < 2 ^ 64) (hpos : 0 < size)
    (hsize : start + size ≤ lengths.length) :
    shrinkEnd lengths start (start + size) = some (start + shrinkBatch (lengths.drop start) size) := by
  have hsingle : usizeAdd start 1 = some (start + 1) :=
    usizeAdd_eq_some_iff.2 ⟨rfl, by omega⟩
  induction size with
  | zero => cases hpos
  | succ size ih =>
    rw [← Nat.add_assoc, shrinkEnd, hsingle, Option.bind_eq_bind, Option.bind_some]
    cases size with
    | zero =>
      rw [if_neg (by omega)]
      rfl
    | succ size =>
      have hbatch : slice start (start + (size + 1) + 1) lengths =
          some ((lengths.drop start).take (size + 2)) := by
        rw [slice_eq_some (by omega) (by omega), List.drop_take]
        congr 2
        omega
      rw [if_pos (by omega), hbatch, Option.bind_eq_bind, Option.bind_some, shrinkBatch]
      split
      · rfl
      · exact ih (by omega) (by omega)

theorem planBatchesFrom_succ (hne : lengths ≠ []) :
    planBatchesFrom maxBatchSize (fuel + 1) lengths =
      shrinkBatch lengths (min maxBatchSize lengths.length) :: planBatchesFrom maxBatchSize fuel
        (lengths.drop (shrinkBatch lengths (min maxBatchSize lengths.length))) := by
  cases lengths with
  | nil => exact absurd rfl hne
  | cons l rest => rfl

theorem planEnds_eq (hlen : lengths.length < 2 ^ 64) (hmax : 0 < maxBatchSize)
    (hstart : start ≤ lengths.length) (hfuel : lengths.length ≤ start + fuel) :
    planEnds lengths maxBatchSize fuel start =
      some (planBatchesFrom maxBatchSize fuel (lengths.drop start)) := by
  induction fuel generalizing start with
  | zero => rw [planEnds, if_neg (by omega), planBatchesFrom]
  | succ fuel ih =>
    rw [planEnds]
    split
    · rename_i hless
      have hne : lengths.drop start ≠ [] := by
        intro hnil
        have := List.drop_eq_nil_iff.1 hnil
        omega
      have hlength : (lengths.drop start).length = lengths.length - start := List.length_drop
      -- the end of the list is where a saturated sum would end the batch as well
      have hstop : min (usizeSaturatingAdd start maxBatchSize) lengths.length =
          start + min maxBatchSize (lengths.drop start).length := by
        rw [hlength, usizeSaturatingAdd]
        omega
      have hsize : 0 < min maxBatchSize (lengths.drop start).length := by omega
      have hshrunk := shrinkBatch_pos (lengths.drop start) hsize
      have hle := shrinkBatch_le (lengths.drop start) (min maxBatchSize (lengths.drop start).length)
      rw [hstop, shrinkEnd_eq hlen hsize (by omega), Option.bind_eq_bind, Option.bind_some,
        ih (by omega) (by omega), Option.bind_eq_bind, Option.bind_some, Nat.add_sub_cancel_left,
        planBatchesFrom_succ hne, List.drop_drop]
    · rw [List.drop_eq_nil_of_le (by omega)]
      rfl

/-- **No arithmetic on the positions overflows**, and every batch is a slice of the documents. -/
theorem planAdaptiveBatchesAt_eq (hlen : lengths.length < 2 ^ 64) (maxBatchSize : ℕ) :
    planAdaptiveBatchesAt lengths maxBatchSize = some (planAdaptiveBatches lengths maxBatchSize) :=
  planEnds_eq hlen (by omega) (Nat.zero_le _) (by omega)

/-! ### Balanced batches -/

/-- The tokens of the documents of a batch, each of which counts for one at least. -/
def batchTokens (batch : List ℕ) : List ℕ := batch.map (max · 1)

/-- A batch is balanced: padded to its longest document it has at most an eighth more tokens, the longest
is at most half as long again as the shortest, and a `usize` counts the tokens and an eighth of them. -/
structure Balanced (batch : List ℕ) : Prop where
  padding : ∀ longest ∈ batchTokens batch,
    8 * (longest * batch.length) ≤ 9 * (batchTokens batch).sum
  ratio : ∀ shortest ∈ batchTokens batch, ∀ longest ∈ batchTokens batch, 2 * longest ≤ 3 * shortest
  counted : (batchTokens batch).sum + (batchTokens batch).sum / 8 < 2 ^ 64

theorem countTokens_eq_some_iff {sum total : ℕ} (hsum : sum < 2 ^ 64) :
    batch.foldlM (fun sum length => usizeAdd sum (max length 1)) sum = some total ↔
      total = sum + (batchTokens batch).sum ∧ total < 2 ^ 64 := by
  induction batch generalizing sum with
  | nil =>
    simp only [List.foldlM_nil, batchTokens, List.map_nil, List.sum_nil, Nat.add_zero,
      Option.pure_def, Option.some.injEq]
    omega
  | cons l batch ih =>
    simp only [List.foldlM_cons, Option.bind_eq_bind, Option.bind_eq_some_iff,
      usizeAdd_eq_some_iff, batchTokens, List.map_cons, List.sum_cons]
    simp only [batchTokens] at ih
    constructor
    · rintro ⟨next, ⟨hnext, hless⟩, hrest⟩
      obtain ⟨htotal, hfits⟩ := (ih hless).1 hrest
      exact ⟨by omega, hfits⟩
    · rintro ⟨htotal, hfits⟩
      exact ⟨sum + max l 1, ⟨rfl, by omega⟩, (ih (by omega)).2 ⟨by omega, hfits⟩⟩

theorem mem_batchTokens_bounds (hsorted : batch.Pairwise (· ≤ ·)) {t : ℕ}
    (ht : t ∈ batchTokens batch) : max (batch.headD 0) 1 ≤ t ∧ t ≤ max (batch.getLastD 0) 1 := by
  obtain ⟨l, hl, rfl⟩ := List.mem_map.1 ht
  have hne := List.ne_nil_of_mem hl
  have hhead : batch.headD 0 ≤ l := by
    cases batch with
    | nil => cases hl
    | cons a rest =>
      rcases List.mem_cons.1 hl with rfl | hl
      · exact le_rfl
      · exact List.rel_of_pairwise_cons hsorted hl
  have hlast : l ≤ batch.getLastD 0 := by
    rw [List.getLastD_eq_getLast?, List.getLast?_eq_some_getLast hne, Option.getD_some]
    exact hsorted.rel_getLast hl
  omega

theorem isPaddingAllowed_iff {padded allowed : Option ℕ} :
    (match padded, allowed with
      | some padded, some allowed => decide (padded ≤ allowed)
      | _, _ => false) = true ↔ ∃ p a, padded = some p ∧ allowed = some a ∧ p ≤ a := by
  cases padded <;> cases allowed <;> simp

/-- **The checked arithmetic decides whether a batch of several documents is balanced.** -/
theorem fitsBatch_iff (hsorted : batch.Pairwise (· ≤ ·)) (hlen : 2 ≤ batch.length) :
    fitsBatch batch = true ↔ Balanced batch := by
  obtain ⟨shortest, hshortest⟩ : ∃ shortest, shortest = max (batch.headD 0) 1 := ⟨_, rfl⟩
  obtain ⟨longest, hlongest⟩ : ∃ longest, longest = max (batch.getLastD 0) 1 := ⟨_, rfl⟩
  obtain ⟨sum, hsum⟩ : ∃ sum, sum = (batchTokens batch).sum := ⟨_, rfl⟩
  have hbounds : ∀ t ∈ batchTokens batch, shortest ≤ t ∧ t ≤ longest := by
    intro t ht
    rw [hshortest, hlongest]
    exact mem_batchTokens_bounds hsorted ht
  have hne : batch ≠ [] := List.ne_nil_of_length_pos (by omega)
  have hshort : shortest ∈ batchTokens batch := by
    rw [hshortest, List.headD_eq_head?_getD, List.head?_eq_some_head hne, Option.getD_some]
    exact List.mem_map.2 ⟨_, List.head_mem hne, rfl⟩
  have hlong : longest ∈ batchTokens batch := by
    rw [hlongest, List.getLastD_eq_getLast?, List.getLast?_eq_some_getLast hne, Option.getD_some]
    exact List.mem_map.2 ⟨_, List.getLast_mem hne, rfl⟩
  have htwice : 2 * shortest ≤ sum := by
    have hall := List.card_nsmul_le_sum (batchTokens batch) shortest fun t ht => (hbounds t ht).1
    rw [batchTokens, List.length_map, ← batchTokens, ← hsum, smul_eq_mul] at hall
    exact (Nat.mul_le_mul_right shortest hlen).trans hall
  have hallowed : ∀ a, (batch.foldlM (fun sum length => usizeAdd sum (max length 1)) 0).bind
      (fun actual => usizeAdd actual (actual / 8)) = some a ↔ a = sum + sum / 8 ∧ a < 2 ^ 64 := by
    intro a
    rw [Option.bind_eq_some_iff]
    constructor
    · rintro ⟨actual, hactual, hadd⟩
      obtain ⟨hcount, -⟩ := (countTokens_eq_some_iff (by decide)).1 hactual
      have := usizeAdd_eq_some_iff.1 hadd
      rw [Nat.zero_add, ← hsum] at hcount
      rwa [hcount] at this
    · rintro ⟨ha, hless⟩
      exact ⟨sum, (countTokens_eq_some_iff (by decide)).2 ⟨by omega, by omega⟩,
        usizeAdd_eq_some_iff.2 ⟨ha, hless⟩⟩
  have hfits : fitsBatch batch = true ↔ (sum + sum / 8 < 2 ^ 64 ∧
      longest * batch.length < 2 ^ 64 ∧ longest * batch.length ≤ sum + sum / 8) ∧
      shortest + shortest / 2 < 2 ^ 64 ∧ longest ≤ shortest + shortest / 2 := by
    rw [fitsBatch, Bool.and_eq_true, ← hshortest, ← hlongest]
    refine and_congr (isPaddingAllowed_iff.trans ?_) ?_
    · constructor
      · rintro ⟨padded, allowed, hpadded, hallow, hle⟩
        obtain ⟨rfl, hless⟩ := usizeMul_eq_some_iff.1 hpadded
        obtain ⟨rfl, hcounted⟩ := (hallowed allowed).1 hallow
        exact ⟨hcounted, hless, hle⟩
      · rintro ⟨hcounted, hless, hle⟩
        exact ⟨_, _, usizeMul_eq_some_iff.2 ⟨rfl, hless⟩, (hallowed _).2 ⟨rfl, hcounted⟩, hle⟩
    · rw [Option.any_eq_true]
      constructor
      · rintro ⟨limit, hlimit, hle⟩
        obtain ⟨rfl, hless⟩ := usizeAdd_eq_some_iff.1 hlimit
        exact ⟨hless, of_decide_eq_true hle⟩
      · rintro ⟨hless, hle⟩
        exact ⟨_, usizeAdd_eq_some_iff.2 ⟨rfl, hless⟩, decide_eq_true hle⟩
  rw [hfits]
  constructor
  · rintro ⟨⟨hcounted, -, hpadding⟩, -, hratio⟩
    refine ⟨?_, ?_, by rwa [← hsum]⟩
    · intro t ht
      have hle := Nat.mul_le_mul_right batch.length (hbounds t ht).2
      omega
    · intro a ha b hb
      have hleft := (hbounds a ha).1
      have hright := (hbounds b hb).2
      omega
  · rintro ⟨hpadding, hratio, hcounted⟩
    have hpad := hpadding longest hlong
    have hrat := hratio shortest hshort longest hlong
    rw [← hsum] at hpad hcounted
    refine ⟨⟨hcounted, ?_, ?_⟩, ?_, ?_⟩ <;> omega

/-! ### The plan -/

/-- The sizes that the next batch may have: one, or more as long as the batch is balanced. -/
def BatchSize (maxBatchSize : ℕ) (lengths : List ℕ) (size : ℕ) : Prop :=
  0 < size ∧ size ≤ maxBatchSize ∧ size ≤ lengths.length ∧ (size = 1 ∨ Balanced (lengths.take size))

/-- A plan is greedy: each batch has the greatest size that it may have. -/
inductive GreedyPlan (maxBatchSize : ℕ) : List ℕ → List ℕ → Prop
  | nil : GreedyPlan maxBatchSize [] []
  | cons {lengths plan : List ℕ} {size : ℕ}
      (hsize : IsGreatest (fun n => BatchSize maxBatchSize lengths n) size)
      (hplan : GreedyPlan maxBatchSize (lengths.drop size) plan) :
      GreedyPlan maxBatchSize lengths (size :: plan)

/-- The search stops at the first size, from the top, at which the batch fits. -/
theorem fitsBatch_shrinkBatch (lengths : List ℕ) (hsize : 0 < size) :
    (shrinkBatch lengths size = 1 ∨ 2 ≤ shrinkBatch lengths size ∧
      fitsBatch (lengths.take (shrinkBatch lengths size)) = true) ∧
    ∀ n, 2 ≤ n → n ≤ size → fitsBatch (lengths.take n) = true → n ≤ shrinkBatch lengths size := by
  induction size using shrinkBatch.induct lengths with
  | case1 size hfits =>
    rw [shrinkBatch, if_pos hfits]
    exact ⟨Or.inr ⟨by omega, hfits⟩, fun n _ hn _ => hn⟩
  | case2 size hfits ih =>
    obtain ⟨hshrunk, hgreatest⟩ := ih (by omega)
    rw [shrinkBatch, if_neg hfits]
    refine ⟨hshrunk, ?_⟩
    intro n htwo hn hfitsn
    refine hgreatest n htwo ?_ hfitsn
    have hne : n ≠ size + 2 := by
      rintro rfl
      exact hfits hfitsn
    omega
  | case3 size hsmall =>
    have hone : size = 1 := by
      rcases size with - | - | size
      · cases hsize
      · rfl
      · exact absurd rfl (hsmall size)
    rw [shrinkBatch.eq_2 lengths size hsmall]
    exact ⟨Or.inl hone, fun n _ hn _ => hn⟩

theorem isGreatest_shrinkBatch (hsorted : lengths.Pairwise (· ≤ ·)) (hmax : 0 < maxBatchSize)
    (hne : lengths ≠ []) : IsGreatest (fun n => BatchSize maxBatchSize lengths n)
      (shrinkBatch lengths (min maxBatchSize lengths.length)) := by
  have hlen := List.length_pos_iff.2 hne
  have hbalanced : ∀ {n}, 2 ≤ n → n ≤ lengths.length →
      (fitsBatch (lengths.take n) = true ↔ Balanced (lengths.take n)) := by
    intro n htwo hn
    refine fitsBatch_iff (hsorted.sublist (List.take_sublist n lengths)) ?_
    rwa [List.length_take_of_le hn]
  have hsize : 0 < min maxBatchSize lengths.length := by omega
  have hpos := shrinkBatch_pos lengths hsize
  have hle := shrinkBatch_le lengths (min maxBatchSize lengths.length)
  obtain ⟨hshrunk, hgreatest⟩ := fitsBatch_shrinkBatch lengths hsize
  constructor
  · refine ⟨hpos, by omega, by omega, ?_⟩
    rcases hshrunk with hone | ⟨htwo, hfits⟩
    · exact Or.inl hone
    · exact Or.inr ((hbalanced htwo (by omega)).1 hfits)
  · rintro n ⟨hnpos, hnmax, hnlen, hone | hn⟩
    · omega
    · by_cases htwo : 2 ≤ n
      · exact hgreatest n htwo (by omega) ((hbalanced htwo hnlen).2 hn)
      · omega

theorem greedyPlan_planBatchesFrom (hmax : 0 < maxBatchSize) {lengths : List ℕ}
    (hsorted : lengths.Pairwise (· ≤ ·)) (hfuel : lengths.length ≤ fuel) :
    GreedyPlan maxBatchSize lengths (planBatchesFrom maxBatchSize fuel lengths) := by
  induction fuel generalizing lengths with
  | zero =>
    rw [List.length_eq_zero_iff.1 (Nat.le_zero.1 hfuel), planBatchesFrom]
    exact GreedyPlan.nil
  | succ fuel ih =>
    by_cases hne : lengths = []
    · rw [hne]
      exact GreedyPlan.nil
    · have hgreatest := isGreatest_shrinkBatch hsorted hmax hne
      have hpos := hgreatest.1.1
      rw [planBatchesFrom_succ hne]
      refine GreedyPlan.cons hgreatest (ih (hsorted.sublist (List.drop_sublist _ _)) ?_)
      rw [List.length_drop]
      omega

/-! ### Draining -/

/-- `pending.drain(..batch_len)` for every batch of a plan. -/
def drainBatches {α : Type} : List ℕ → List α → List (List α)
  | [], _ => []
  | size :: plan, pending => pending.take size :: drainBatches plan (pending.drop size)

theorem flatten_drainBatches (hsum : plan.sum = pending.length) :
    (drainBatches plan pending).flatten = pending := by
  induction plan generalizing pending with
  | nil => exact (List.eq_nil_of_length_eq_zero hsum.symm).symm
  | cons size plan ih =>
    rw [List.sum_cons] at hsum
    rw [drainBatches, List.flatten_cons, ih (by rw [List.length_drop]; omega), List.take_append_drop]

theorem length_drainBatches (hsum : plan.sum ≤ pending.length) :
    (drainBatches plan pending).map List.length = plan := by
  induction plan generalizing pending with
  | nil => rfl
  | cons size plan ih =>
    rw [List.sum_cons] at hsum
    rw [drainBatches, List.map_cons, ih (by rw [List.length_drop]; omega),
      List.length_take_of_le (by omega)]

section Flush

variable {V : Type} (sha256Hex : String → String) (p : CodeEmbeddingProvider) (env : EmbedEnv V)
  (generation : ℕ)

/-- A batch leaves the collected documents, and is embedded. -/
def flushDrained (s : EmbedState V) (batch : List PendingDoc) : Except String (EmbedState V) :=
  flushLengthSortedBatch sha256Hex p env generation
    { s with pending := s.pending.drop batch.length } batch

theorem flushPlannedBatches_eq {s : EmbedState V} {plan : List ℕ}
    (hsum : plan.sum ≤ s.pending.length) :
    flushPlannedBatches sha256Hex p env generation s plan =
      (drainBatches plan s.pending).foldlM (flushDrained sha256Hex p env generation) s := by
  induction plan generalizing s with
  | nil => rfl
  | cons size plan ih =>
    rw [List.sum_cons] at hsum
    rw [flushPlannedBatches, drainBatches, List.foldlM_cons, flushDrained,
      List.length_take_of_le (by omega)]
    cases hbatch : flushLengthSortedBatch sha256Hex p env generation
        { s with pending := s.pending.drop size } (s.pending.take size) with
    | error e => rfl
    | ok t =>
      have hpending := (flushLengthSortedBatch_spec hbatch).2
      have hrest := @ih t (by rw [hpending, List.length_drop]; omega)
      rw [hpending] at hrest
      exact hrest

/-- **A flush embeds the sorted documents in the batches of the plan**, each document in one batch. -/
theorem flushEmbeddingBatch_eq (s : EmbedState V) :
    ∃ batches : List (List PendingDoc),
      batches.flatten.Perm s.pending ∧
      batches.flatten.Pairwise (fun a b => a.promptTokenLen ≤ b.promptTokenLen) ∧
      batches.map List.length =
        planAdaptiveBatches (batches.flatten.map PendingDoc.promptTokenLen) env.batchSize ∧
      flushEmbeddingBatch sha256Hex p env generation s =
        batches.foldlM (flushDrained sha256Hex p env generation)
          { s with pending := batches.flatten } := by
  obtain ⟨pending, hpending⟩ : ∃ pending, pending =
      s.pending.insertionSort fun a b => a.promptTokenLen ≤ b.promptTokenLen := ⟨_, rfl⟩
  obtain ⟨plan, hplan⟩ : ∃ plan, plan =
      planAdaptiveBatches (pending.map PendingDoc.promptTokenLen) env.batchSize := ⟨_, rfl⟩
  have hsum : plan.sum = pending.length := by
    rw [hplan, sum_planAdaptiveBatches, List.length_map]
  have hflatten := flatten_drainBatches hsum
  refine ⟨drainBatches plan pending, ?_, ?_, ?_, ?_⟩
  · rw [hflatten, hpending]
    exact List.perm_insertionSort _ _
  · rw [hflatten, hpending]
    exact List.pairwise_insertionSort _ _
  · rw [hflatten, ← hplan, length_drainBatches hsum.le]
  · rw [hflatten, flushEmbeddingBatch]
    split
    · rename_i hempty
      have hnil := List.isEmpty_iff.1 hempty
      rw [hnil, List.insertionSort_nil] at hpending
      rw [hplan, hpending, ← hnil]
      obtain ⟨report, vectors, pending, calls⟩ := s
      cases hnil
      rfl
    · simp only [← hpending, ← hplan]
      exact flushPlannedBatches_eq sha256Hex p env generation hsum.le

end Flush

/-- **The plan is greedy, and a flush drains every document once.** -/
theorem planAdaptiveBatches_spec {lengths : List ℕ} (hsorted : lengths.Pairwise (· ≤ ·))
    (hlen : lengths.length < 2 ^ 64) (maxBatchSize : ℕ) :
    planAdaptiveBatchesAt lengths maxBatchSize = some (planAdaptiveBatches lengths maxBatchSize) ∧
      (planAdaptiveBatches lengths maxBatchSize).sum = lengths.length ∧
      GreedyPlan (max maxBatchSize 1) lengths (planAdaptiveBatches lengths maxBatchSize) ∧
      ∀ {V : Type} (sha256Hex : String → String) (p : CodeEmbeddingProvider) (env : EmbedEnv V)
        (generation : ℕ) (s : EmbedState V), ∃ batches : List (List PendingDoc),
          batches.flatten.Perm s.pending ∧
          batches.flatten.Pairwise (fun a b => a.promptTokenLen ≤ b.promptTokenLen) ∧
          batches.map List.length =
            planAdaptiveBatches (batches.flatten.map PendingDoc.promptTokenLen) env.batchSize ∧
          flushEmbeddingBatch sha256Hex p env generation s =
            batches.foldlM (flushDrained sha256Hex p env generation)
              { s with pending := batches.flatten } :=
  ⟨planAdaptiveBatchesAt_eq hlen maxBatchSize, sum_planAdaptiveBatches lengths maxBatchSize,
    greedyPlan_planBatchesFrom (by omega) hsorted le_rfl,
    fun sha256Hex p env generation s => flushEmbeddingBatch_eq sha256Hex p env generation s⟩

/-- A document without tokens, one of ten and two of eleven: the first is on its own. -/
theorem planAdaptiveBatches_zero_ten :
    [0, 10, 11, 11].Pairwise (· ≤ ·) ∧ [0, 10, 11, 11].length < 2 ^ 64 ∧
      planAdaptiveBatches [0, 10, 11, 11] 8 = [1, 3] ∧
      GreedyPlan 8 [0, 10, 11, 11] (planAdaptiveBatches [0, 10, 11, 11] 8) :=
  have hsorted : [0, 10, 11, 11].Pairwise (· ≤ ·) := by decide
  ⟨hsorted, by decide, by decide, (planAdaptiveBatches_spec hsorted (by decide) 8).2.2.1⟩

/-- A document without tokens shares a batch with one of a single token, although the batch is padded to
twice its tokens.  Two documents of `2 ^ 63` tokens do not share one, although neither is padded: a `usize`
does not count their tokens. -/
theorem planAdaptiveBatches_unbalanced :
    (planAdaptiveBatches [0, 1] 2 = [2] ∧ ¬ 8 * (1 * 2) ≤ 9 * (0 + 1) ∧ ¬ 2 * 1 ≤ 3 * 0) ∧
      planAdaptiveBatches [2 ^ 63, 2 ^ 63] 2 = [1, 1] ∧
      8 * (2 ^ 63 * 2) ≤ 9 * (2 ^ 63 + 2 ^ 63) ∧ 2 * 2 ^ 63 ≤ 3 * 2 ^ 63 := by
  decide

end Greppy
