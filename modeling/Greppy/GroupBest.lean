/-
**The best of each group.**

A loop over a list keeps, in a table, the best element it has met of each group.  Which element it ends up
with does not depend on the order of the list, when no two elements have the same rank: it is the element
of the group with the smallest rank.  Whole groups may therefore be left out of the list beforehand, and
what is kept of the others is the same.

Main definitions:

* `GroupBest.keep`, `GroupBest.best` — the step, and the loop.

Main results:

* `GroupBest.mem_best` — **the loop keeps what nothing of its group comes before**;
* `GroupBest.perm_best` — the order of the list does not matter;
* `GroupBest.mem_best_filter` — some of the groups only;
* `GroupBest.take_best_filter_eq_iff` — **when some of the groups have the same first few**.
-/

import Greppy.KeyedTable
import Greppy.Ranking

set_option autoImplicit false

namespace GroupBest

variable {α κ ρ : Type} [LinearOrder ρ] (group : α → κ) (rank : α → ρ)

/-- The element that is there, unless the new one comes before it. -/
def better (old new : α) : α := if rank new < rank old then new else old

variable {group} in
theorem group_better (old new : α) (h : group old = group new) :
    group (better rank old new) = group new := by
  unfold better
  split
  · rfl
  · exact h

variable [DecidableEq κ]

/-- An element takes its place in the table, if it is the best of its group so far. -/
def keep (t : KeyedTable α group) (a : α) : KeyedTable α group :=
  t.upsertWith (better rank) (group_better rank) a

def best (l : List α) : KeyedTable α group := l.foldl (keep group rank) KeyedTable.empty

variable {group rank}

theorem best_append_singleton (l : List α) (a : α) :
    best group rank (l ++ [a]) = keep group rank (best group rank l) a := by
  rw [best, List.foldl_append]
  rfl

variable {l : List α} {a : α}

theorem exists_mem_best (h : a ∈ l) : ∃ b ∈ (best group rank l).rows, group b = group a := by
  induction l using List.reverseRecOn with
  | nil => cases h
  | append_singleton l x ih =>
    rw [best_append_singleton]
    have hx : ∃ b ∈ (keep group rank (best group rank l) x).rows, group b = group x :=
      ⟨_, KeyedTable.mem_upsertWith.2 (.inl rfl), KeyedTable.key_merged (group_better rank) _ x⟩
    rcases List.mem_append.1 h with h | h
    · obtain ⟨b, hb, hgroup⟩ := ih h
      by_cases hsame : group b = group x
      · obtain ⟨c, hc, hcx⟩ := hx
        exact ⟨c, hc, hcx.trans (hsame.symm.trans hgroup)⟩
      · exact ⟨b, KeyedTable.mem_upsertWith.2 (.inr ⟨hb, hsame⟩), hgroup⟩
    · rw [List.mem_singleton.1 h]
      exact hx

/-- **The loop keeps what nothing of its group comes before.** -/
theorem mem_best (hinj : ∀ a ∈ l, ∀ b ∈ l, rank a = rank b → a = b) :
    a ∈ (best group rank l).rows ↔ a ∈ l ∧ ∀ b ∈ l, group b = group a → rank a ≤ rank b := by
  induction l using List.reverseRecOn generalizing a with
  | nil =>
    constructor
    · intro h
      cases h
    · rintro ⟨h, -⟩
      cases h
  | append_singleton l x ih =>
    have hinj' : ∀ a ∈ l, ∀ b ∈ l, rank a = rank b → a = b := fun a ha b hb =>
      hinj a (List.mem_append_left _ ha) b (List.mem_append_left _ hb)
    -- the row of the new element's group
    have hmerged : ∀ c : α, group c = group x →
        (c = (best group rank l).merged (better rank) x ↔
          c ∈ l ++ [x] ∧ ∀ b ∈ l ++ [x], group b = group c → rank c ≤ rank b) := by
      intro c hc
      unfold KeyedTable.merged
      cases hfind : (best group rank l).find? (group x) with
      | none =>
        have hnone : ∀ b ∈ l, group b ≠ group x := by
          intro b hb hgroup
          obtain ⟨r, hr, hrb⟩ : ∃ r ∈ (best group rank l).rows, group r = group b :=
            exists_mem_best hb
          exact KeyedTable.find?_eq_none_iff.1 hfind r hr (hrb.trans hgroup)
        constructor
        · rintro rfl
          refine ⟨by simp, fun b hb hgroup => ?_⟩
          rcases List.mem_append.1 hb with hb | hb
          · exact absurd hgroup (hnone b hb)
          · rw [List.mem_singleton.1 hb]
        · rintro ⟨hmem, -⟩
          rcases List.mem_append.1 hmem with hmem | hmem
          · exact absurd hc (hnone c hmem)
          · exact List.mem_singleton.1 hmem
      | some r =>
        obtain ⟨hr, hrx⟩ := KeyedTable.find?_eq_some_iff.1 hfind
        obtain ⟨hrl, hrmin⟩ := (ih hinj').1 hr
        have hmin : better rank r x ∈ l ++ [x] ∧
            ∀ b ∈ l ++ [x], group b = group x → rank (better rank r x) ≤ rank b := by
          unfold better
          split
          · rename_i hlt
            refine ⟨by simp, fun b hb hgroup => ?_⟩
            rcases List.mem_append.1 hb with hb | hb
            · exact hlt.le.trans (hrmin b hb (hgroup.trans hrx.symm))
            · rw [List.mem_singleton.1 hb]
          · rename_i hle
            refine ⟨List.mem_append_left _ hrl, fun b hb hgroup => ?_⟩
            rcases List.mem_append.1 hb with hb | hb
            · exact hrmin b hb (hgroup.trans hrx.symm)
            · rw [List.mem_singleton.1 hb]
              exact not_lt.1 hle
        constructor
        · rintro rfl
          exact ⟨hmin.1, fun b hb hgroup => hmin.2 b hb (hgroup.trans hc)⟩
        · rintro ⟨hmem, hbest⟩
          refine hinj c hmem _ hmin.1 (le_antisymm ?_ (hmin.2 c hmem hc))
          exact hbest _ hmin.1 ((group_better rank r x hrx).trans hc.symm)
    rw [best_append_singleton, keep, KeyedTable.mem_upsertWith]
    by_cases hgroup : group a = group x
    · rw [← hmerged a hgroup]
      simp [hgroup]
    · have hne : a ≠ (best group rank l).merged (better rank) x := by
        rintro rfl
        exact hgroup (KeyedTable.key_merged (group_better rank) _ x)
      have hax : a ≠ x := by
        rintro rfl
        exact hgroup rfl
      rw [ih hinj']
      constructor
      · rintro (h | ⟨⟨hmem, hbest⟩, -⟩)
        · exact absurd h hne
        · refine ⟨List.mem_append_left _ hmem, fun b hb hb' => ?_⟩
          rcases List.mem_append.1 hb with hb | hb
          · exact hbest b hb hb'
          · rw [List.mem_singleton.1 hb] at hb'
            exact absurd hb'.symm hgroup
      · rintro ⟨hmem, hbest⟩
        rcases List.mem_append.1 hmem with hmem | hmem
        · exact .inr ⟨⟨hmem, fun b hb => hbest b (List.mem_append_left _ hb)⟩, hgroup⟩
        · exact absurd (List.mem_singleton.1 hmem) hax

theorem perm_best {l' : List α} (hinj : ∀ a ∈ l, ∀ b ∈ l, rank a = rank b → a = b)
    (hmem : ∀ a, a ∈ l ↔ a ∈ l') : (best group rank l).rows.Perm (best group rank l').rows := by
  have hinj' : ∀ a ∈ l', ∀ b ∈ l', rank a = rank b → a = b := fun a ha b hb =>
    hinj a ((hmem a).2 ha) b ((hmem b).2 hb)
  refine (List.perm_ext_iff_of_nodup (KeyedTable.rows_nodup _) (KeyedTable.rows_nodup _)).2 fun a => ?_
  rw [mem_best hinj, mem_best hinj']
  simp only [hmem]

/-- Of some of the groups, what is kept is what is kept of all, as far as it belongs to them. -/
theorem mem_best_filter (hinj : ∀ a ∈ l, ∀ b ∈ l, rank a = rank b → a = b) {p : κ → Bool} :
    a ∈ (best group rank (l.filter fun b => p (group b))).rows ↔
      a ∈ (best group rank l).rows ∧ p (group a) = true := by
  have hinj' : ∀ a ∈ l.filter fun b => p (group b), ∀ b ∈ l.filter fun b => p (group b),
      rank a = rank b → a = b := fun a ha b hb =>
    hinj a (List.mem_filter.1 ha).1 b (List.mem_filter.1 hb).1
  rw [mem_best hinj', mem_best hinj, List.mem_filter]
  constructor
  · rintro ⟨⟨ha, hp⟩, hbest⟩
    refine ⟨⟨ha, fun b hb hgroup => hbest b (List.mem_filter.2 ⟨hb, ?_⟩) hgroup⟩, hp⟩
    rw [hgroup]
    exact hp
  · rintro ⟨⟨ha, hbest⟩, hp⟩
    exact ⟨⟨ha, hp⟩, fun b hb hgroup => hbest b (List.mem_filter.1 hb).1 hgroup⟩

theorem nodup_rank_best (hinj : ∀ a ∈ l, ∀ b ∈ l, rank a = rank b → a = b) :
    ((best group rank l).rows.map rank).Nodup := by
  refine List.Nodup.map_on ?_ (KeyedTable.rows_nodup _)
  intro a ha b hb heq
  exact hinj a ((mem_best hinj).1 ha).1 b ((mem_best hinj).1 hb).1 heq

/-- **Some of the groups have the same first few** exactly when none of these is of another group. -/
theorem take_best_filter_eq_iff (hinj : ∀ a ∈ l, ∀ b ∈ l, rank a = rank b → a = b) {p : κ → Bool}
    {n : ℕ} :
    (Ranking.ranked rank (best group rank (l.filter fun b => p (group b))).rows).take n =
        (Ranking.ranked rank (best group rank l).rows).take n ↔
      ∀ a ∈ (Ranking.ranked rank (best group rank l).rows).take n, p (group a) = true := by
  have hinj' : ∀ a ∈ l.filter fun b => p (group b), ∀ b ∈ l.filter fun b => p (group b),
      rank a = rank b → a = b := fun a ha b hb =>
    hinj a (List.mem_filter.1 ha).1 b (List.mem_filter.1 hb).1
  rw [Ranking.take_eq_take_iff_of_strict (Ranking.strict_ranked (nodup_rank_best hinj))
    (Ranking.strict_ranked (nodup_rank_best hinj'))]
  · refine forall₂_congr fun a ha => ?_
    rw [Ranking.mem_ranked, mem_best_filter hinj]
    exact and_iff_right ((Ranking.mem_ranked _ _).1 (List.mem_of_mem_take ha))
  · intro a ha
    rw [Ranking.mem_ranked] at ha ⊢
    exact ((mem_best_filter hinj).1 ha).1

end GroupBest
