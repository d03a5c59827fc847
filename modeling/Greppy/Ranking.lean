/-
**The first few of a list, by a key.**

A query that ranks its candidates sorts them by a key that tells them apart, and cuts the list.  Which
elements are left does not depend on how the list came about: an element is among the first `n` exactly
when fewer than `n` others come before it.  So a ranking of part of the candidates is the ranking of all
of them, as far as the cut goes, when no candidate of the first few is left out.

Main definitions:

* `Ranking.ranked key l` — the list, by key;
* `Ranking.ahead key l a` — how many elements of the list come before `a`;
* `Ranking.byDegree` — the key of a ranking by degree.

Main results:

* `Ranking.mem_take_ranked` — **the first `n` are those with fewer than `n` elements ahead of them**;
* `Ranking.take_ranked_congr` — ranking part of the list, when nothing of the first few is missing;
* `Ranking.take_ranked_eq_iff` — two keys pick the same first few;
* `Ranking.take_byDegree_eq_iff`, `Ranking.take_byDegree_min_eq_iff` — degrees that are counted too low.
-/

import Mathlib.Data.List.Sort
import Mathlib.Data.Prod.Lex

set_option autoImplicit false

namespace Ranking

variable {α κ : Type} [LinearOrder κ]

def ranked (key : α → κ) (l : List α) : List α := l.insertionSort fun a b => key a ≤ key b

/-- How many elements of the list come before `a`. -/
def ahead (key : α → κ) (l : List α) (a : α) : ℕ := l.countP fun b => decide (key b < key a)

section Order

variable (key : α → κ) (l : List α)

theorem perm_ranked : (ranked key l).Perm l := List.perm_insertionSort _ l

@[simp] theorem mem_ranked {a : α} : a ∈ ranked key l ↔ a ∈ l := (perm_ranked key l).mem_iff

@[simp] theorem length_ranked : (ranked key l).length = l.length := (perm_ranked key l).length_eq

theorem pairwise_ranked : (ranked key l).Pairwise fun a b => key a ≤ key b :=
  List.pairwise_insertionSort _ l

variable {key l}

theorem strict_ranked (h : (l.map key).Nodup) : (ranked key l).Pairwise fun a b => key a < key b := by
  have hne : (ranked key l).Pairwise fun a b => key a ≠ key b :=
    List.pairwise_map.1 (((perm_ranked key l).map key).nodup_iff.2 h)
  exact (pairwise_ranked key l).imp₂ (fun _ _ hle hne => lt_of_le_of_ne hle hne) hne

theorem eq_of_strict {l l' : List α} (h : l.Pairwise fun a b => key a < key b)
    (h' : l'.Pairwise fun a b => key a < key b) (hmem : ∀ a, a ∈ l ↔ a ∈ l') : l = l' := by
  have hnodup : ∀ {m : List α}, m.Pairwise (fun a b => key a < key b) → m.Nodup := fun hm =>
    hm.imp fun hlt heq => absurd (congrArg key heq) hlt.ne
  refine ((List.perm_ext_iff_of_nodup (hnodup h) (hnodup h')).2 hmem).eq_of_pairwise ?_ h h'
  intro a b _ _ hab hba
  exact absurd hab hba.asymm

theorem ranked_map {β : Type} (key : β → κ) (f : α → β) (l : List α) :
    ranked key (l.map f) = (ranked (fun a => key (f a)) l).map f :=
  (List.map_insertionSort (fun a b => key (f a) ≤ key (f b)) (fun a b => key a ≤ key b) f l
    fun _ _ _ _ => Iff.rfl).symm

theorem ranked_congr {κ' : Type} [LinearOrder κ'] {key' : α → κ'}
    (h : ∀ a b, key a ≤ key b ↔ key' a ≤ key' b) (l : List α) : ranked key l = ranked key' l := by
  have hsort := List.map_insertionSort (fun a b => key a ≤ key b) (fun a b => key' a ≤ key' b) id l
    fun a _ b _ => h a b
  rwa [List.map_id, List.map_id] at hsort

theorem ranked_eq_of_perm {l' : List α} (h : (l.map key).Nodup) (hperm : l.Perm l') :
    ranked key l = ranked key l' := by
  refine eq_of_strict (strict_ranked h) (strict_ranked ((hperm.map key).nodup_iff.1 h)) fun a => ?_
  rw [mem_ranked, mem_ranked, hperm.mem_iff]

theorem ranked_of_strict (h : l.Pairwise fun a b => key a < key b) : ranked key l = l := by
  have hnodup : (l.map key).Nodup := List.pairwise_map.2 (h.imp fun hlt => hlt.ne)
  exact eq_of_strict (strict_ranked hnodup) h fun a => mem_ranked key l

end Order

/-! ### The first few -/

section Take

variable {key : α → κ} {l : List α}

variable {l' : List α} {a : α} {n : ℕ}

theorem ahead_perm (h : l.Perm l') (a : α) : ahead key l a = ahead key l' a :=
  h.countP_eq _

/-- What comes before the place of `a` is what is ahead of it. -/
theorem ahead_append_cons {before after : List α}
    (h : (before ++ a :: after).Pairwise fun a b => key a < key b) :
    ahead key (before ++ a :: after) a = before.length := by
  obtain ⟨-, hcons, hacross⟩ := List.pairwise_append.1 h
  have hbefore : before.countP (fun b => decide (key b < key a)) = before.length := by
    rw [List.countP_eq_length]
    intro b hb
    exact decide_eq_true (hacross b hb a List.mem_cons_self)
  have hafter : (a :: after).countP (fun b => decide (key b < key a)) = 0 := by
    rw [List.countP_eq_zero]
    intro b hb
    rcases List.mem_cons.1 hb with rfl | hb
    · simp
    · have hlt := (List.pairwise_cons.1 hcons).1 b hb
      simpa using hlt.le
  rw [ahead, List.countP_append, hbefore, hafter, Nat.add_zero]

theorem lt_of_ahead_lt {b : α} (h : ahead key l a < ahead key l b) : key a < key b := by
  by_contra hle
  refine absurd h (Nat.not_lt.2 (List.countP_mono_left fun c _ hc => ?_))
  exact decide_eq_true ((of_decide_eq_true hc).trans_le (not_lt.1 hle))

theorem length_le_ahead (hnd : l.Nodup) (h : ∀ b ∈ l, b ≠ a → key b < key a) :
    l.length ≤ ahead key l a + 1 := by
  classical
  have hall : (l.erase a).countP (fun b => decide (key b < key a)) = (l.erase a).length := by
    rw [List.countP_eq_length]
    intro b hb
    obtain ⟨hne, hb⟩ := hnd.mem_erase_iff.1 hb
    exact decide_eq_true (h b hb hne)
  have hle : (l.erase a).length ≤ ahead key l a := hall ▸ List.erase_sublist.countP_le
  rw [List.length_erase] at hle
  split_ifs at hle <;> omega

/-- **The first `n` are those with fewer than `n` elements ahead of them.** -/
theorem mem_take_ranked (h : (l.map key).Nodup) :
    a ∈ (ranked key l).take n ↔ a ∈ l ∧ ahead key l a < n := by
  have hstrict := strict_ranked h
  rw [← ahead_perm (perm_ranked key l), ← mem_ranked key l]
  constructor
  · intro ha
    obtain ⟨before, after, hsplit⟩ := List.append_of_mem ha
    have hall : ranked key l = before ++ a :: (after ++ (ranked key l).drop n) := by
      rw [← List.cons_append, ← List.append_assoc, ← hsplit, List.take_append_drop]
    refine ⟨List.mem_of_mem_take ha, ?_⟩
    rw [hall] at hstrict
    have hlen : before.length < n := by
      have hle := List.length_take_le n (ranked key l)
      rw [hsplit, List.length_append, List.length_cons] at hle
      omega
    rw [hall, ahead_append_cons hstrict]
    exact hlen
  · rintro ⟨ha, hahead⟩
    obtain ⟨before, after, hsplit⟩ := List.append_of_mem ha
    rw [hsplit] at hstrict hahead ⊢
    rw [ahead_append_cons hstrict] at hahead
    rw [List.take_append, List.mem_append]
    right
    obtain ⟨k, hk⟩ : ∃ k, n - before.length = k + 1 := ⟨n - before.length - 1, by omega⟩
    rw [hk, List.take_succ_cons]
    exact List.mem_cons_self

theorem lt_of_mem_take (h : (l.map key).Nodup) {b : α} (ha : a ∈ (ranked key l).take n) (hb : b ∈ l)
    (hout : b ∉ (ranked key l).take n) : key a < key b := by
  have hdrop : b ∈ (ranked key l).drop n := by
    have hmem := (mem_ranked key l).2 hb
    rw [← List.take_append_drop n (ranked key l), List.mem_append] at hmem
    exact hmem.resolve_left hout
  have hstrict := strict_ranked h
  rw [← List.take_append_drop n (ranked key l)] at hstrict
  exact (List.pairwise_append.1 hstrict).2.2 a ha b hdrop

/-- Part of the candidates has the same first few, when none of these is missing. -/
theorem take_ranked_congr (h : (l.map key).Nodup) (hsub : l'.Sublist l)
    (hall : ∀ a ∈ (ranked key l).take n, a ∈ l') :
    (ranked key l').take n = (ranked key l).take n := by
  have h' : (l'.map key).Nodup := (hsub.map key).nodup h
  refine eq_of_strict ((strict_ranked h').sublist (List.take_sublist _ _))
    ((strict_ranked h).sublist (List.take_sublist _ _)) fun a => ?_
  constructor
  · intro ha
    by_contra hout
    -- all of the first `n` are candidates, and come before `a`
    obtain ⟨hmem, hahead⟩ := (mem_take_ranked h').1 ha
    have hfirst : ((ranked key l).take n).length ≤ ahead key l' a := by
      have hsubperm : ((ranked key l).take n).Subperm (l'.filter fun b => decide (key b < key a)) := by
        refine List.subperm_of_subset ?_ fun b hb => List.mem_filter.2 ⟨hall b hb, ?_⟩
        · refine ((strict_ranked h).sublist (List.take_sublist _ _)).imp fun hlt heq => ?_
          exact absurd (congrArg key heq) hlt.ne
        · exact decide_eq_true (lt_of_mem_take h hb (hsub.subset hmem) hout)
      rw [ahead, List.countP_eq_length_filter]
      exact hsubperm.length_le
    rw [List.length_take, length_ranked] at hfirst
    have hlen : n ≤ l.length → n ≤ ahead key l' a := fun hn => by omega
    by_cases hn : n ≤ l.length
    · have := hlen hn
      omega
    · refine hout ?_
      rw [List.take_of_length_le (by rw [length_ranked]; omega)]
      exact (mem_ranked key l).2 (hsub.subset hmem)
  · intro ha
    refine (mem_take_ranked h').2 ⟨hall a ha, lt_of_le_of_lt ?_ ((mem_take_ranked h).1 ha).2⟩
    exact hsub.countP_le

/-- Of two lists in strict order, one of which is part of the other, the first few are the same when none
of these is missing. -/
theorem take_eq_take_iff_of_strict (h : l.Pairwise fun a b => key a < key b)
    (h' : l'.Pairwise fun a b => key a < key b) (hsub : ∀ a ∈ l', a ∈ l) :
    l'.take n = l.take n ↔ ∀ a ∈ l.take n, a ∈ l' := by
  classical
  constructor
  · intro heq a ha
    exact List.mem_of_mem_take (heq ▸ ha)
  · intro hall
    have hfilter : l' = l.filter fun a => decide (a ∈ l') := by
      refine eq_of_strict h' (h.sublist List.filter_sublist) fun a => ?_
      rw [List.mem_filter, decide_eq_true_eq]
      exact ⟨fun ha => ⟨hsub a ha, ha⟩, And.right⟩
    have hnd : (l.map key).Nodup := List.pairwise_map.2 (h.imp fun hlt => hlt.ne)
    have hsublist : l'.Sublist l := by
      rw [hfilter]
      exact List.filter_sublist
    have hcut := take_ranked_congr hnd hsublist (n := n) (by rwa [ranked_of_strict h])
    rwa [ranked_of_strict h, ranked_of_strict h'] at hcut

/-- Two keys pick the same first few, in the same order, exactly when each of these comes before
whatever it comes before by the other key too. -/
theorem take_ranked_eq_iff {κ' : Type} [LinearOrder κ'] {key' : α → κ'} (h : (l.map key).Nodup)
    (h' : (l.map key').Nodup) :
    (ranked key' l).take n = (ranked key l).take n ↔
      ∀ a ∈ (ranked key l).take n, ∀ b ∈ l, key a < key b → key' a < key' b := by
  have hstrict : ((ranked key l).take n).Pairwise fun a b => key a < key b :=
    (strict_ranked h).sublist (List.take_sublist _ _)
  constructor
  · intro heq a ha b hb hlt
    by_cases hin : b ∈ (ranked key l).take n
    · -- `b` stands behind `a` in the common list
      have hstrict' : ((ranked key l).take n).Pairwise fun a b => key' a < key' b := by
        rw [← heq]
        exact (strict_ranked h').sublist (List.take_sublist _ _)
      obtain ⟨before, after, hsplit⟩ := List.append_of_mem ha
      rw [hsplit] at hin hstrict hstrict'
      rcases List.mem_append.1 hin with hb' | hb'
      · have hgt := (List.pairwise_append.1 hstrict).2.2 b hb' a List.mem_cons_self
        exact absurd hlt hgt.asymm
      · rcases List.mem_cons.1 hb' with rfl | hb'
        · exact absurd hlt (lt_irrefl _)
        · exact (List.pairwise_cons.1 (List.pairwise_append.1 hstrict').2.1).1 b hb'
    · rw [← heq] at ha hin
      exact lt_of_mem_take h' ha hb hin
  · intro hkeep
    have hfirst : ∀ a ∈ (ranked key l).take n, a ∈ l := fun a ha => ((mem_take_ranked h).1 ha).1
    -- the first few, and behind them the others by the other key
    have hsplit : ranked key' l =
        (ranked key l).take n ++ ranked key' ((ranked key l).drop n) := by
      have hdrop : (((ranked key l).drop n).map key').Nodup :=
        ((List.drop_sublist _ _).map key').nodup
          (((perm_ranked key l).map key').nodup_iff.2 h')
      have hacross := strict_ranked h
      rw [← List.take_append_drop n (ranked key l)] at hacross
      refine eq_of_strict (strict_ranked h') (List.pairwise_append.2 ⟨?_, strict_ranked hdrop, ?_⟩) ?_
      · refine hstrict.imp_of_mem fun ha hb hlt => hkeep _ ha _ (hfirst _ hb) hlt
      · intro a ha b hb
        rw [mem_ranked] at hb
        have hbl : b ∈ l := (mem_ranked key l).1 (List.mem_of_mem_drop hb)
        exact hkeep a ha b hbl ((List.pairwise_append.1 hacross).2.2 a ha b hb)
      · intro a
        rw [List.mem_append, mem_ranked, mem_ranked, ← List.mem_append, List.take_append_drop,
          mem_ranked]
    rw [hsplit]
    by_cases hn : n ≤ l.length
    · exact List.take_left' (by rw [List.length_take, length_ranked]; omega)
    · have hnil : (ranked key l).drop n = [] :=
        List.drop_of_length_le (by rw [length_ranked]; omega)
      rw [hnil]
      simp [ranked, List.take_take]

end Take

/-! ### By degree -/

section Degree

variable {tie : α → κ} {deg deg' : α → ℕ} {l : List α}

/-- The greatest degree first, and a key that breaks the ties. -/
def byDegree (tie : α → κ) (deg : α → ℕ) (a : α) : ℕᵒᵈ ×ₗ κ := toLex (OrderDual.toDual (deg a), tie a)

theorem byDegree_lt {a b : α} :
    byDegree tie deg a < byDegree tie deg b ↔ deg b < deg a ∨ deg a = deg b ∧ tie a < tie b := by
  rw [byDegree, byDegree, Prod.Lex.toLex_lt_toLex, OrderDual.toDual_lt_toDual, OrderDual.toDual_inj]

omit [LinearOrder κ] in
theorem nodup_byDegree (h : (l.map tie).Nodup) : (l.map (byDegree tie deg)).Nodup := by
  have hmap : (l.map (byDegree tie deg)).map (fun k => (ofLex k).2) = l.map tie := by
    rw [List.map_map]
    rfl
  exact List.Nodup.of_map _ (hmap ▸ h)

theorem ranked_byDegree_of_forall_eq (hdeg : ∀ a b, deg a = deg b) (l : List α) :
    ranked (byDegree tie deg) l = ranked tie l := by
  refine ranked_congr (fun a b => ?_) l
  rw [byDegree, byDegree, Prod.Lex.toLex_le_toLex, hdeg a b]
  simp

/-- Part of the candidates, with degrees that may be too low, ranks as all of them do, with their degrees,
exactly when none of the first few is missing or has too low a degree. -/
theorem take_byDegree_eq_iff {l' : List α} (h : (l.map tie).Nodup) (hsub : l'.Sublist l)
    (hle : ∀ a, deg' a ≤ deg a) {n : ℕ} :
    ((ranked (byDegree tie deg') l').take n = (ranked (byDegree tie deg) l).take n ∧
      ∀ a ∈ (ranked (byDegree tie deg) l).take n, deg' a = deg a) ↔
        ∀ a ∈ (ranked (byDegree tie deg) l).take n, a ∈ l' ∧ deg' a = deg a := by
  have h' : (l'.map tie).Nodup := (hsub.map tie).nodup h
  constructor
  · rintro ⟨heq, hdeg⟩ a ha
    refine ⟨?_, hdeg a ha⟩
    rw [← heq] at ha
    exact ((mem_take_ranked (nodup_byDegree h')).1 ha).1
  · intro hall
    refine ⟨?_, fun a ha => (hall a ha).2⟩
    have hpart := take_ranked_congr (nodup_byDegree h) hsub fun a ha => (hall a ha).1
    rw [← hpart]
    refine (take_ranked_eq_iff (nodup_byDegree h') (nodup_byDegree h')).2 fun a ha b _ hlt => ?_
    -- whoever comes later has no greater degree, and its degree is not counted too high
    rw [hpart] at ha
    have hdeg := (hall a ha).2
    have hb := hle b
    rw [byDegree_lt] at hlt ⊢
    rcases hlt with hlt | ⟨heq, htie⟩
    · exact .inl (by omega)
    · rcases Nat.lt_or_eq_of_le hb with hlow | hsame
      · exact .inl (by omega)
      · exact .inr ⟨by omega, htie⟩

/-- Degrees that are counted up to a cap change the order of two elements only where both are beyond it. -/
theorem byDegree_min_lt_iff {cap : ℕ} {a b : α} :
    (byDegree tie deg a < byDegree tie deg b →
      byDegree tie (fun c => min cap (deg c)) a < byDegree tie (fun c => min cap (deg c)) b) ↔
    (cap ≤ deg b → deg b < deg a → tie a < tie b) := by
  simp only [byDegree_lt]
  constructor
  · intro h hcap hlt
    rcases h (.inl hlt) with h | ⟨-, htie⟩
    · omega
    · exact htie
  · rintro h (hlt | ⟨heq, htie⟩)
    · by_cases hcap : cap ≤ deg b
      · exact .inr ⟨by omega, h hcap hlt⟩
      · exact .inl (by omega)
    · exact .inr ⟨by rw [heq], htie⟩

/-- When the first few by degrees counted up to a cap are the first few by degree. -/
theorem take_byDegree_min_eq_iff (h : (l.map tie).Nodup) (cap n : ℕ) :
    (ranked (byDegree tie fun c => min cap (deg c)) l).take n = (ranked (byDegree tie deg) l).take n ↔
      ∀ a ∈ (ranked (byDegree tie deg) l).take n, ∀ b ∈ l,
        cap ≤ deg b → deg b < deg a → tie a < tie b := by
  rw [take_ranked_eq_iff (nodup_byDegree h) (nodup_byDegree h)]
  exact forall₂_congr fun a _ => forall₂_congr fun b _ => byDegree_min_lt_iff

end Degree

end Ranking
