/-
**Parallel extraction, throttled by a memory budget.**

`parallel_extract` (`crates/indexer/src/lib.rs`) parses the files of an inventory in windows.  The
files of a window run on a pool of workers and finish in any order; before each window the memory
budget is asked, and once it is exceeded the remaining files are parsed one at a time.  Every outcome
is written into the slot of its file, and at the end every slot is taken to be filled.

The extractor is a parameter `f`: what matters here is only that the outcome of a file is a function
of the file.  A call that would panic (a slice out of range, an overflow of `usize`, an empty slot)
is `none`, and so is a loop that does not end within its fuel.

Main results:

* `parMap_eq_map` — a window's results do not depend on the order in which its files finish;
* `extractWindows_spec` — after any number of windows the slots before the position are filled, once
  each, and the others are empty;
* `parallelExtract_eq_sequential` — the outcomes are those of a sequential run.
-/

import Greppy.IndexEffect
import Greppy.Usize
import Mathlib.Data.List.Range

set_option autoImplicit false

namespace Greppy

variable {α β : Type}

/-! ### The run's surroundings -/

/-- What a run of `parallel_extract` finds. -/
structure ExtractPool where
  /-- `ThreadPoolBuilder::build` succeeds. -/
  builds : Bool
  /-- `mem_over_budget`, asked before the window that starts at the given position. -/
  overBudget : ℕ → Bool
  /-- The order in which the files of the window at a position finish, by index in the window. -/
  order : ℕ → ℕ → List ℕ
  /-- The pool runs every file of a window once. -/
  order_perm : ∀ pos len, (order pos len).Perm (List.range len)

/-- All of the values, unless one is missing. -/
def unwrapAll : List (Option β) → Option (List β)
  | [] => some []
  | none :: _ => none
  | some b :: rest => (unwrapAll rest).map (b :: ·)

/-- `window.par_iter().map(f).collect()`: each file's result is put at the file's index, in the order
in which the files finish. -/
def parMap (order : List ℕ) (f : α → β) (window : List α) : Option (List β) :=
  unwrapAll (order.foldl (fun out i => out.set i (window[i]?.map f))
    (List.replicate window.length none))

/-! ### The slots -/

/-- The output before it is complete.  `filled` is not part of the program: it lists the indices
written so far. -/
structure Slots (β : Type) where
  slots : List (Option β)
  filled : List ℕ

/-- `n` empty slots. -/
def Slots.empty (n : ℕ) : Slots β := ⟨List.replicate n none, []⟩

/-- `*slot = Some(res)`. -/
def Slots.fill (s : Slots β) (i : ℕ) (res : β) : Slots β :=
  ⟨s.slots.set i (some res), s.filled ++ [i]⟩

/-- `for (slot, res) in slots[pos..end].iter_mut().zip(results)`. -/
def fillSlots : ℕ → ℕ → List β → Slots β → Slots β
  | _, _, [], s => s
  | pos, stop, res :: rest, s =>
    if pos < stop then fillSlots (pos + 1) stop rest (s.fill pos res) else s

/-! ### The loop -/

/-- `while pos < n`: the slots when the loop is left, and whether it was throttled. -/
def extractWindows (pool : ExtractPool) (f : α → β) (files : List α) (chunk : ℕ) :
    ℕ → ℕ → Slots β → Option (Slots β × Bool)
  | 0, _, _ => none
  | fuel + 1, pos, s =>
    if pos < files.length then
      if pool.overBudget pos then do
        -- over budget: the rest of the files, one at a time
        let rest ← slice pos files.length files
        some (fillSlots pos files.length (rest.map f) s, true)
      else do
        let next ← usizeAdd pos chunk
        let stop := min next files.length
        let window ← slice pos stop files
        let results ← parMap (pool.order pos window.length) f window
        let _ ← slice pos stop s.slots
        extractWindows pool f files chunk fuel stop (fillSlots pos stop results s)
    else some (s, false)

def workStealingWindowMultiplier : ℕ := 16

def windowSize (workerCount : ℕ) : ℕ :=
  max (max (usizeSaturatingMul workerCount workStealingWindowMultiplier) workerCount) 1

/-- `parallel_extract`: the outcomes, and whether the run was throttled. -/
def parallelExtract (pool : ExtractPool) (f : α → β) (files : List α) (workerCount : ℕ) :
    Option (List β × Bool) :=
  let n := files.length
  if n = 0 then some ([], false)
  else if workerCount ≤ 1 ∨ n = 1 then some (files.map f, false)
  else if pool.builds = false then some (files.map f, false)
  else do
    let (s, throttled) ←
      extractWindows pool f files (windowSize workerCount) (n + 1) 0 (Slots.empty n)
    let out ← unwrapAll s.slots
    some (out, throttled)

/-! ### One window -/

@[simp] theorem unwrapAll_map_some (l : List β) : unwrapAll (l.map some) = some l := by
  induction l with
  | nil => rfl
  | cons b rest ih => rw [List.map_cons, unwrapAll, ih, Option.map_some]

theorem getElem?_foldl_set (g : ℕ → Option β) (order : List ℕ) (out : List (Option β)) (i : ℕ)
    (hi : i < out.length) :
    (order.foldl (fun out i => out.set i (g i)) out)[i]? =
      if i ∈ order then some (g i) else out[i]? := by
  induction order generalizing out with
  | nil => simp
  | cons j rest ih =>
    rw [List.foldl_cons, ih _ (by simpa using hi)]
    by_cases hmem : i ∈ rest
    · rw [if_pos hmem, if_pos (List.mem_cons_of_mem _ hmem)]
    · rw [if_neg hmem]
      by_cases hij : i = j
      · subst hij
        rw [if_pos List.mem_cons_self, List.getElem?_set_self hi]
      · rw [if_neg (by simp [hij, hmem]), List.getElem?_set_ne (Ne.symm hij)]

theorem length_foldl_set (g : ℕ → Option β) (order : List ℕ) (out : List (Option β)) :
    (order.foldl (fun out i => out.set i (g i)) out).length = out.length := by
  induction order generalizing out with
  | nil => rfl
  | cons j rest ih => rw [List.foldl_cons, ih, List.length_set]

/-- **The order in which the files of a window finish does not matter.** -/
theorem parMap_eq_map {order : List ℕ} {window : List α}
    (horder : order.Perm (List.range window.length)) (f : α → β) :
    parMap order f window = some (window.map f) := by
  have hslots : order.foldl (fun out i => out.set i (window[i]?.map f))
      (List.replicate window.length none) = (window.map f).map some := by
    apply List.ext_getElem?
    intro i
    by_cases hi : i < window.length
    · have hmem : i ∈ order := horder.mem_iff.2 (List.mem_range.2 hi)
      rw [getElem?_foldl_set _ _ _ _ (by simpa using hi), if_pos hmem]
      simp [hi]
    · rw [List.getElem?_eq_none (by rw [length_foldl_set, List.length_replicate]; omega),
        List.getElem?_eq_none (by simp only [List.length_map]; omega)]
  rw [parMap, hslots, unwrapAll_map_some]

/-- Filling the slots from a position on: those before it and those after the last result stay. -/
theorem fillSlots_eq (results : List β) (pos : ℕ) (s : Slots β)
    (hlen : pos + results.length ≤ s.slots.length) :
    fillSlots pos (pos + results.length) results s =
      ⟨s.slots.take pos ++ results.map some ++ s.slots.drop (pos + results.length),
        s.filled ++ List.range' pos results.length⟩ := by
  induction results generalizing pos s with
  | nil => simp [fillSlots]
  | cons res rest ih =>
    rw [List.length_cons] at hlen ⊢
    have hlen' : pos + 1 + rest.length ≤ (s.fill pos res).slots.length := by
      simp only [Slots.fill, List.length_set]
      omega
    have hstop : pos + (rest.length + 1) = pos + 1 + rest.length := by omega
    rw [fillSlots, if_pos (by omega), hstop, ih (pos + 1) (s.fill pos res) hlen']
    have hpos : pos < s.slots.length := by omega
    simp only [Slots.fill, Slots.mk.injEq]
    constructor
    · rw [List.take_set, List.drop_set_of_lt (by omega), List.take_succ_eq_append_getElem hpos,
        List.set_append_right _ _ (by simp [hpos.le])]
      simp [hpos.le]
    · rw [List.append_assoc, List.range'_succ, List.singleton_append]

/-! ### All windows -/

/-- The files before `pos` have their outcomes, the others have none, and each slot before `pos` was
written once. -/
structure FilledTo (f : α → β) (files : List α) (pos : ℕ) (s : Slots β) : Prop where
  slots : s.slots = (files.take pos).map (some ∘ f) ++ List.replicate (files.length - pos) none
  filled : s.filled = List.range pos

variable (pool : ExtractPool) {f : α → β} {files : List α} {chunk : ℕ}

theorem filledTo_empty (f : α → β) (files : List α) :
    FilledTo f files 0 (Slots.empty files.length) where
  slots := by simp [Slots.empty]
  filled := rfl

theorem FilledTo.length {pos : ℕ} {s : Slots β} (h : FilledTo f files pos s)
    (hpos : pos ≤ files.length) : s.slots.length = files.length := by
  rw [h.slots, List.length_append, List.length_map, List.length_take, List.length_replicate]
  omega

/-- Writing the outcomes of the files from `pos` up to `stop` moves the position there. -/
theorem FilledTo.fillSlots {pos stop : ℕ} {s : Slots β} (h : FilledTo f files pos s)
    (hpos : pos ≤ stop) (hstop : stop ≤ files.length) :
    FilledTo f files stop (fillSlots pos stop (((files.take stop).drop pos).map f) s) := by
  have hres : (((files.take stop).drop pos).map f).length = stop - pos := by
    rw [List.length_map, List.length_drop, List.length_take]
    omega
  have hend : pos + (((files.take stop).drop pos).map f).length = stop := by omega
  have hlen := h.length (hpos.trans hstop)
  have hfill := fillSlots_eq (((files.take stop).drop pos).map f) pos s (by omega)
  rw [hend] at hfill
  rw [hfill, hres]
  have htake : (files.take pos).length = pos := by
    rw [List.length_take]
    omega
  refine ⟨?_, ?_⟩
  · have hbefore : s.slots.take pos = (files.take pos).map (some ∘ f) := by
      rw [h.slots, List.take_left' (by rw [List.length_map, htake])]
    have hafter : s.slots.drop stop = List.replicate (files.length - stop) none := by
      rw [h.slots, List.drop_append, List.length_map, htake, List.drop_replicate,
        List.drop_eq_nil_of_le (by rw [List.length_map, htake]; exact hpos), List.nil_append]
      congr 1
      omega
    have hjoin : (files.take stop).map (some ∘ f) =
        (files.take pos).map (some ∘ f) ++ (((files.take stop).drop pos).map f).map some := by
      have htwice : (files.take stop).take pos = files.take pos := by
        rw [List.take_take, Nat.min_eq_left hpos]
      rw [List.map_map, ← List.map_append, ← htwice, List.take_append_drop]
    rw [hbefore, hafter, hjoin]
  · have hrange : List.range' 0 pos ++ List.range' (0 + pos) (stop - pos) = List.range' 0 stop := by
      rw [List.range'_append_1]
      congr 1
      omega
    change s.filled ++ List.range' pos (stop - pos) = List.range stop
    rw [h.filled, List.range_eq_range', List.range_eq_range', ← hrange, Nat.zero_add]

/-- **The loop fills every slot once.**  The position before the `k`-th window is `k * chunk`, so the
next one cannot overflow: it is the first, or the window is no larger than the position. -/
theorem extractWindows_spec (hchunk : 0 < chunk) (hmax : chunk < 2 ^ 64)
    (hn : files.length < 2 ^ 63) (fuel k : ℕ) (s : Slots β)
    (hfuel : files.length - min (k * chunk) files.length < fuel)
    (h : FilledTo f files (min (k * chunk) files.length) s) :
    ∃ s' throttled,
      extractWindows pool f files chunk fuel (min (k * chunk) files.length) s =
        some (s', throttled) ∧
      FilledTo f files files.length s' ∧
      (throttled = true ↔
        ∃ j, k ≤ j ∧ j * chunk < files.length ∧ pool.overBudget (j * chunk) = true) := by
  induction fuel generalizing k s with
  | zero => omega
  | succ fuel ih =>
    by_cases hpos : k * chunk < files.length
    · have hmin : min (k * chunk) files.length = k * chunk := by omega
      rw [hmin] at h hfuel ⊢
      rw [extractWindows, if_pos hpos]
      by_cases hover : pool.overBudget (k * chunk) = true
      · rw [if_pos hover, slice_eq_some hpos.le le_rfl]
        exact ⟨_, true, rfl, h.fillSlots hpos.le le_rfl,
          fun _ => ⟨k, le_rfl, hpos, hover⟩, fun _ => rfl⟩
      · have hsmall : k * chunk = 0 ∨ chunk ≤ k * chunk := by
          cases k with
          | zero => exact Or.inl (Nat.zero_mul chunk)
          | succ k => exact Or.inr (Nat.le_mul_of_pos_left chunk (Nat.succ_pos k))
        have hadd : usizeAdd (k * chunk) chunk = some ((k + 1) * chunk) := by
          rw [usizeAdd, if_pos (by omega), Nat.succ_mul]
        have hnext : k * chunk < (k + 1) * chunk := by
          rw [Nat.succ_mul]
          omega
        have hstop : k * chunk ≤ min ((k + 1) * chunk) files.length := by omega
        have hle : min ((k + 1) * chunk) files.length ≤ files.length := by omega
        have hslots : min ((k + 1) * chunk) files.length ≤ s.slots.length := by
          rw [h.length hpos.le]
          exact hle
        obtain ⟨s', throttled, hrun, hfilled, hflag⟩ := ih (k + 1) _ (by omega)
          (h.fillSlots hstop hle)
        refine ⟨s', throttled, ?_, hfilled, ?_⟩
        · rw [if_neg hover, hadd]
          simp only [Option.bind_eq_bind, Option.bind_some]
          rw [slice_eq_some hstop hle, Option.bind_some, parMap_eq_map (pool.order_perm _ _),
            Option.bind_some, slice_eq_some hstop hslots, Option.bind_some]
          exact hrun
        · rw [hflag]
          constructor
          · rintro ⟨j, hkj, hj, hov⟩
            exact ⟨j, by omega, hj, hov⟩
          · rintro ⟨j, hkj, hj, hov⟩
            -- this window is within the budget, so it is a later one that is not
            have hne : j ≠ k := by
              rintro rfl
              exact hover hov
            exact ⟨j, by omega, hj, hov⟩
    · have hmin : min (k * chunk) files.length = files.length := by omega
      rw [hmin] at h ⊢
      refine ⟨s, false, ?_, h, ?_⟩
      · rw [extractWindows, if_neg (lt_irrefl _)]
      · constructor
        · intro hfalse
          cases hfalse
        · rintro ⟨j, hkj, hj, _⟩
          have hmul : k * chunk ≤ j * chunk := Nat.mul_le_mul_right chunk hkj
          omega

theorem windowSize_pos (workerCount : ℕ) : 0 < windowSize workerCount := by
  rw [windowSize]
  omega

theorem windowSize_lt {workerCount : ℕ} (hw : workerCount < 2 ^ 64) :
    windowSize workerCount < 2 ^ 64 := by
  rw [windowSize, usizeSaturatingMul]
  omega

theorem FilledTo.unwrapAll {s : Slots β} (h : FilledTo f files files.length s) :
    unwrapAll s.slots = some (files.map f) := by
  have hslots : s.slots = (files.map f).map some := by
    rw [h.slots, List.take_length, Nat.sub_self, List.replicate_zero, List.append_nil,
      List.map_map]
  rw [hslots, unwrapAll_map_some]

/-- The run uses the pool, and the budget is exceeded before one of its windows. -/
def Throttled (pool : ExtractPool) (workerCount n : ℕ) : Prop :=
  1 < workerCount ∧ 1 < n ∧ pool.builds = true ∧
    ∃ k, k * windowSize workerCount < n ∧ pool.overBudget (k * windowSize workerCount) = true

theorem extractWindows_start (hchunk : 0 < chunk) (hmax : chunk < 2 ^ 64)
    (hn : files.length < 2 ^ 63) :
    ∃ s throttled,
      extractWindows pool f files chunk (files.length + 1) 0 (Slots.empty files.length) =
        some (s, throttled) ∧
      FilledTo f files files.length s ∧
      (throttled = true ↔ ∃ k, k * chunk < files.length ∧ pool.overBudget (k * chunk) = true) := by
  have hzero : min (0 * chunk) files.length = 0 := by
    rw [Nat.zero_mul, Nat.zero_min]
  have hspec := extractWindows_spec pool hchunk hmax hn (files.length + 1) 0
    (Slots.empty files.length) (by omega) (by rw [hzero]; exact filledTo_empty f files)
  rw [hzero] at hspec
  simpa using hspec

theorem parallelExtract_spec (hn : files.length < 2 ^ 63) {workerCount : ℕ}
    (hw : workerCount < 2 ^ 64) :
    ∃ throttled, parallelExtract pool f files workerCount = some (files.map f, throttled) ∧
      (throttled = true ↔ Throttled pool workerCount files.length) := by
  simp only [parallelExtract]
  by_cases hzero : files.length = 0
  · rw [if_pos hzero, List.length_eq_zero_iff.1 hzero]
    refine ⟨false, rfl, ?_⟩
    simp [Throttled]
  · rw [if_neg hzero]
    by_cases hseq : workerCount ≤ 1 ∨ files.length = 1
    · rw [if_pos hseq]
      refine ⟨false, rfl, ?_⟩
      simp only [Throttled, Bool.false_eq_true, false_iff]
      rintro ⟨hworkers, hlen, _⟩
      omega
    · rw [if_neg hseq]
      by_cases hbuilds : pool.builds = false
      · rw [if_pos hbuilds]
        refine ⟨false, rfl, ?_⟩
        simp [Throttled, hbuilds]
      · obtain ⟨s, throttled, hrun, hfilled, hflag⟩ :=
          extractWindows_start pool (windowSize_pos workerCount) (windowSize_lt hw) hn
        rw [if_neg hbuilds, hrun]
        simp only [Option.bind_eq_bind, Option.bind_some]
        rw [hfilled.unwrapAll, Option.bind_some]
        refine ⟨throttled, rfl, ?_⟩
        rw [hflag, Throttled]
        have hsome : pool.builds = true := by simpa using hbuilds
        constructor
        · intro h
          exact ⟨by omega, by omega, hsome, h⟩
        · rintro ⟨_, _, _, h⟩
          exact h

/-- **Parallel extraction is sequential extraction.**  For every list of files, every number of
workers, every pool and every order of completion, and wherever the memory budget is exceeded, the
function returns the outcome of every file, in the order of the files.  With any window size, the
loop writes every slot once and leaves none empty. -/
theorem parallelExtract_eq_sequential (pool : ExtractPool) (f : α → β) (files : List α)
    (workerCount : ℕ) (hn : files.length < 2 ^ 63) (hw : workerCount < 2 ^ 64) :
    (∃ throttled, parallelExtract pool f files workerCount = some (files.map f, throttled) ∧
      (throttled = true ↔ Throttled pool workerCount files.length)) ∧
    ∀ chunk, 0 < chunk → chunk < 2 ^ 64 →
      ∃ s throttled,
        extractWindows pool f files chunk (files.length + 1) 0 (Slots.empty files.length) =
          some (s, throttled) ∧
        s.slots = files.map (some ∘ f) ∧ s.filled = List.range files.length := by
  refine ⟨parallelExtract_spec pool hn hw, ?_⟩
  intro chunk hchunk hmax
  obtain ⟨s, throttled, hrun, hfilled, _⟩ :=
    extractWindows_start pool (f := f) hchunk hmax hn
  refine ⟨s, throttled, hrun, ?_, hfilled.filled⟩
  rw [hfilled.slots, List.take_length, Nat.sub_self, List.replicate_zero, List.append_nil]

/-- A pool whose files finish last to first, with a budget that is exceeded after 32 files. -/
def latePool : ExtractPool where
  builds := true
  overBudget pos := decide (32 ≤ pos)
  order _ len := (List.range len).reverse
  order_perm _ _ := List.reverse_perm _

theorem parallelExtract_eq_sequential_forty :
    parallelExtract latePool (· + 1) (List.range 40) 2 =
      some ((List.range 40).map (· + 1), true) := by
  obtain ⟨⟨throttled, hrun, hflag⟩, _⟩ :=
    parallelExtract_eq_sequential latePool (· + 1) (List.range 40) 2 (by decide) (by decide)
  have hthrottled : throttled = true :=
    hflag.2 ⟨by decide, by decide, rfl, 1, by decide, by decide⟩
  rw [hrun, hthrottled]

end Greppy
