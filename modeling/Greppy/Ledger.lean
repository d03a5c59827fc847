/-
**Items handed from stage to stage, and a counter that tracks them.**

A server takes items one after the other, numbers them, and hands each of them from owner to owner
until it is finished.  Whoever holds an item, it is in one of four stages: *uncounted* (taken, but not
yet entered in the counter), *waiting* (counted, without a reply), *closing* (its reply is settled) and
*finished* (struck off the counter).  A reply is settled in one of three ways: the item is answered,
its peer has gone, or it is stranded, that is, dropped although its peer is there.

The counter is a machine integer with a modulus.  The accounting is exact because items are neither
lost nor duplicated between the stages: together they are always all the items taken.

Main definitions:

* `Ledger` — the stages, the replies and the counter; `Ledger.Step` — what may happen to an item;
* `Ledger.Balanced` — the conservation laws.

Main results:

* `Ledger.Step.balanced` — every step keeps the books balanced;
* `Ledger.Balanced.finished_nodup`, `Ledger.Balanced.answered_nodup` — **an item is finished at most
  once and answered at most once**;
* `Ledger.Balanced.counter_eq` — the counter is the number of unfinished items, as long as that is
  below the modulus;
* `Ledger.Step.of_quiet` — with nothing in progress, only a new item can be taken.
-/

import Mathlib.Algebra.BigOperators.Group.List.Basic
import Mathlib.Algebra.Order.Group.Multiset
import Mathlib.Data.Multiset.Range

set_option autoImplicit false

/-- The items in each stage, the replies that are settled, and the counter. -/
structure Ledger where
  taken : ℕ
  uncounted : Multiset ℕ
  counted : Multiset ℕ
  waiting : Multiset ℕ
  closing : Multiset ℕ
  finished : Multiset ℕ
  answered : Multiset ℕ
  gone : Multiset ℕ
  stranded : Multiset ℕ
  counter : ℕ

/-- Changing one owner of many changes the total by what that owner holds. -/
theorem sum_map_set {α M : Type} [AddCommMonoid M] (f : α → M) {owners : List α} {i : ℕ} {a : α}
    (h : owners[i]? = some a) (b : α) :
    ((owners.set i b).map f).sum + f a = (owners.map f).sum + f b := by
  induction owners generalizing i with
  | nil => cases h
  | cons owner owners ih =>
    cases i with
    | zero =>
      cases h
      simp only [List.set_cons_zero, List.map_cons, List.sum_cons]
      rw [add_right_comm, add_comm (f b), add_right_comm]
    | succ i =>
      have hrest := @ih i h
      simp only [List.set_cons_succ, List.map_cons, List.sum_cons]
      rw [add_assoc, hrest, add_assoc]

namespace Ledger

section Steps

variable {modulus : ℕ} {l l' : Ledger} {c : ℕ}

/-- `fetch_add(1)` on a machine counter. -/
def countUp (modulus n : ℕ) : ℕ := if n + 1 < modulus then n + 1 else 0

/-- `fetch_sub(1)` on a machine counter, which wraps below zero. -/
def countDown (modulus : ℕ) : ℕ → ℕ
  | 0 => modulus - 1
  | n + 1 => n

theorem countUp_mod (hpos : 0 < modulus) (n : ℕ) :
    countUp modulus (n % modulus) = (n + 1) % modulus := by
  have hlt : n % modulus < modulus := Nat.mod_lt n hpos
  rw [← Nat.mod_add_mod, countUp]
  split
  · rename_i hfits
    exact (Nat.mod_eq_of_lt hfits).symm
  · have hwraps : n % modulus + 1 = modulus := by omega
    rw [hwraps, Nat.mod_self]

theorem countDown_mod (hpos : 0 < modulus) (n : ℕ) :
    countDown modulus ((n + 1) % modulus) = n % modulus := by
  have hlt : n % modulus < modulus := Nat.mod_lt n hpos
  rw [← countUp_mod hpos, countUp]
  split
  · rfl
  · rw [countDown]
    omega

inductive Step (modulus : ℕ) (l l' : Ledger) : Prop
  | stay (h : l' = l)
  | take (h : l' = { l with taken := l.taken + 1, uncounted := l.taken ::ₘ l.uncounted })
  | count (c : ℕ) (hfrom : l.uncounted = c ::ₘ l'.uncounted) (hto : l'.waiting = c ::ₘ l.waiting)
      (hcounted : l'.counted = c ::ₘ l.counted)
      (hcounter : l'.counter = countUp modulus l.counter)
      (hrest : l' = { l with
        uncounted := l'.uncounted, waiting := l'.waiting, counted := l'.counted,
        counter := l'.counter })
  | answer (c : ℕ) (hfrom : l.waiting = c ::ₘ l'.waiting) (hto : l'.closing = c ::ₘ l.closing)
      (hreply : l'.answered = c ::ₘ l.answered)
      (hrest : l' = { l with
        waiting := l'.waiting, closing := l'.closing, answered := l'.answered })
  | lose (c : ℕ) (hfrom : l.waiting = c ::ₘ l'.waiting) (hto : l'.closing = c ::ₘ l.closing)
      (hreply : l'.gone = c ::ₘ l.gone)
      (hrest : l' = { l with waiting := l'.waiting, closing := l'.closing, gone := l'.gone })
  | strand (c : ℕ) (hfrom : l.waiting = c ::ₘ l'.waiting) (hto : l'.closing = c ::ₘ l.closing)
      (hreply : l'.stranded = c ::ₘ l.stranded)
      (hrest : l' = { l with
        waiting := l'.waiting, closing := l'.closing, stranded := l'.stranded })
  | finish (c : ℕ) (hfrom : l.closing = c ::ₘ l'.closing) (hto : l'.finished = c ::ₘ l.finished)
      (hcounter : l'.counter = countDown modulus l.counter)
      (hrest : l' = { l with
        closing := l'.closing, finished := l'.finished, counter := l'.counter })

/-- The conservation laws: every item taken is uncounted or counted, every item counted is in exactly
one of the other stages, every reply that is settled is settled in one way, and the counter is the
number of unfinished items up to the modulus. -/
structure Balanced (modulus : ℕ) (l : Ledger) : Prop where
  all : l.uncounted + l.counted = Multiset.range l.taken
  stages : l.waiting + l.closing + l.finished = l.counted
  replies : l.answered + l.gone + l.stranded = l.closing + l.finished
  counter : l.counter = (l.waiting.card + l.closing.card) % modulus

theorem Balanced.settle (h : Balanced modulus l) (hfrom : l.waiting = c ::ₘ l'.waiting)
    (hto : l'.closing = c ::ₘ l.closing)
    (hreplies : l'.answered + l'.gone + l'.stranded = c ::ₘ (l.answered + l.gone + l.stranded))
    (hrest : l' = { l with
      waiting := l'.waiting, closing := l'.closing, answered := l'.answered, gone := l'.gone,
      stranded := l'.stranded }) : Balanced modulus l' := by
  rw [hrest]
  refine ⟨h.all, ?_, ?_, ?_⟩
  · simp only [hto]
    rw [← h.stages, hfrom]
    simp only [Multiset.cons_add, Multiset.add_cons]
  · simp only [hto]
    rw [hreplies, h.replies, Multiset.cons_add]
  · simp only [hto, h.counter, hfrom, Multiset.card_cons]
    congr 1
    omega

/-- **Every step keeps the books balanced.** -/
theorem Step.balanced (hstep : Step modulus l l') (hpos : 0 < modulus) (h : Balanced modulus l) :
    Balanced modulus l' := by
  cases hstep with
  | stay hsame =>
    rw [hsame]
    exact h
  | take htake =>
    rw [htake]
    refine ⟨?_, h.stages, h.replies, h.counter⟩
    simp only [Multiset.range_succ, ← h.all, Multiset.cons_add]
  | count c hfrom hto hcounted hcounter hrest =>
    rw [hrest]
    refine ⟨?_, ?_, h.replies, ?_⟩
    · simp only [hcounted]
      rw [← h.all, hfrom]
      simp only [Multiset.cons_add, Multiset.add_cons]
    · simp only [hto, hcounted, ← h.stages, Multiset.cons_add]
    · simp only [hcounter, hto, h.counter, Multiset.card_cons]
      rw [countUp_mod hpos]
      congr 1
      omega
  | answer c hfrom hto hreply hrest =>
    refine h.settle hfrom hto ?_ (by rw [hrest])
    rw [hreply, hrest]
    simp only [Multiset.cons_add]
  | lose c hfrom hto hreply hrest =>
    refine h.settle hfrom hto ?_ (by rw [hrest])
    rw [hreply, hrest]
    simp only [Multiset.cons_add, Multiset.add_cons]
  | strand c hfrom hto hreply hrest =>
    refine h.settle hfrom hto ?_ (by rw [hrest])
    rw [hreply, hrest]
    simp only [Multiset.add_cons]
  | finish c hfrom hto hcounter hrest =>
    rw [hrest]
    refine ⟨h.all, ?_, ?_, ?_⟩
    · simp only [hto]
      rw [← h.stages, hfrom]
      simp only [Multiset.cons_add, Multiset.add_cons]
    · simp only [hto]
      rw [h.replies, hfrom]
      simp only [Multiset.cons_add, Multiset.add_cons]
    · simp only [hcounter, h.counter, hfrom, Multiset.card_cons]
      rw [← add_assoc, countDown_mod hpos]

namespace Balanced

theorem counted_nodup (h : Balanced modulus l) : l.counted.Nodup := by
  have hle : l.counted ≤ Multiset.range l.taken := by
    rw [← h.all]
    exact Multiset.le_add_left _ _
  exact Multiset.nodup_of_le hle (Multiset.nodup_range _)

theorem closing_add_finished_le (h : Balanced modulus l) : l.closing + l.finished ≤ l.counted := by
  rw [← h.stages, add_assoc]
  exact Multiset.le_add_left _ _

theorem finished_nodup (h : Balanced modulus l) : l.finished.Nodup :=
  Multiset.nodup_of_le ((Multiset.le_add_left _ _).trans h.closing_add_finished_le) h.counted_nodup

theorem answered_nodup (h : Balanced modulus l) : l.answered.Nodup := by
  have hle : l.answered ≤ l.closing + l.finished := by
    rw [← h.replies, add_assoc]
    exact Multiset.le_add_right _ _
  exact Multiset.nodup_of_le (hle.trans h.closing_add_finished_le) h.counted_nodup

/-- **The counter is exact** as long as the unfinished items are fewer than the modulus. -/
theorem counter_eq (h : Balanced modulus l)
    (hlt : l.waiting.card + l.closing.card < modulus) :
    l.counter = l.waiting.card + l.closing.card := by
  rw [h.counter, Nat.mod_eq_of_lt hlt]

/-- With no item uncounted or waiting, every item taken is answered, or its peer has gone, or it is
stranded. -/
theorem mem_replies_of_none_waiting (h : Balanced modulus l) (huncounted : l.uncounted = 0)
    (hwaiting : l.waiting = 0) {c : ℕ} (hc : c < l.taken) :
    c ∈ l.answered ∨ c ∈ l.gone ∨ c ∈ l.stranded := by
  have hall : l.answered + l.gone + l.stranded = Multiset.range l.taken := by
    rw [h.replies, ← h.all, ← h.stages, huncounted, hwaiting, zero_add, zero_add]
  have hmem : c ∈ l.answered + l.gone + l.stranded := by
    rw [hall]
    exact Multiset.mem_range.2 hc
  rcases Multiset.mem_add.1 hmem with hmem | hstranded
  · rcases Multiset.mem_add.1 hmem with hanswered | hgone
    · exact .inl hanswered
    · exact .inr (.inl hgone)
  · exact .inr (.inr hstranded)

end Balanced

/-- With nothing in progress, a step leaves everything as it is or takes a new item. -/
theorem Step.of_quiet (hstep : Step modulus l l') (huncounted : l.uncounted = 0)
    (hwaiting : l.waiting = 0) (hclosing : l.closing = 0) :
    l' = l ∨ l'.taken = l.taken + 1 := by
  cases hstep with
  | stay hsame => exact .inl hsame
  | take htake =>
    right
    rw [htake]
  | count c hfrom _ _ _ _ => exact absurd (huncounted.symm.trans hfrom) Multiset.zero_ne_cons
  | answer c hfrom _ _ _ => exact absurd (hwaiting.symm.trans hfrom) Multiset.zero_ne_cons
  | lose c hfrom _ _ _ => exact absurd (hwaiting.symm.trans hfrom) Multiset.zero_ne_cons
  | strand c hfrom _ _ _ => exact absurd (hwaiting.symm.trans hfrom) Multiset.zero_ne_cons
  | finish c hfrom _ _ _ => exact absurd (hclosing.symm.trans hfrom) Multiset.zero_ne_cons

end Steps

end Ledger
