/-
**Machines that go through rows.**

A machine takes a row and a state to an output row and the next state, and `run` feeds it one row after the
other.  The rules here say when the work may be done in another order: with machines stacked on each other
stage by stage, with lanes that do not meet block by block, and with rows that are stored and read all
stores before the first read.

Main definitions:

* `run`, `stack` — a machine over a list of rows, and machines of which each feeds the next;
* `lanes`, `blockwise` — a machine for every cell of a row, and blocks of them that go through the rows on
  their own.

Main results:

* `run_append`, `run_around` — rows in two parts, and what is done before and behind a machine;
* `run_stack`, `stack_encode` — **a stack runs stage by stage**;
* `blockwise_eq` — **lanes run block by block**;
* `run_stored` — **stores that no earlier row reads may come first**.
-/

import Mathlib.Data.List.Basic

set_option autoImplicit false

namespace Rows

variable {α β γ δ σ ρ : Type}

/-- The rows one after the other: their outputs, and the state behind them. -/
def run (step : α → σ → β × σ) : List α → σ → List β × σ
  | [], s => ([], s)
  | a :: as, s =>
    let (b, s) := step a s
    let (bs, s) := run step as s
    (b :: bs, s)

section Run

variable (step : α → σ → β × σ)

theorem run_cons (a : α) (as : List α) (s : σ) : run step (a :: as) s =
    ((step a s).1 :: (run step as (step a s).2).1, (run step as (step a s).2).2) := rfl

theorem run_append (as as' : List α) (s : σ) : run step (as ++ as') s =
    ((run step as s).1 ++ (run step as' (run step as s).2).1, (run step as' (run step as s).2).2) := by
  induction as generalizing s with
  | nil => rfl
  | cons a as ih =>
    rw [List.cons_append, run_cons, run_cons, ih]
    rfl

theorem run_map (f : γ → α) (cs : List γ) (s : σ) :
    run step (cs.map f) s = run (fun c s => step (f c) s) cs s := by
  induction cs generalizing s with
  | nil => rfl
  | cons c cs ih => rw [List.map_cons, run_cons, run_cons, ih]

/-- A state may be part of a larger one. -/
theorem run_embed {larger : α → ρ → β × ρ} (embed : σ → ρ)
    (h : ∀ a s, larger a (embed s) = ((step a s).1, embed (step a s).2)) (as : List α) (s : σ) :
    run larger as (embed s) = ((run step as s).1, embed (run step as s).2) := by
  induction as generalizing s with
  | nil => rfl
  | cons a as ih => rw [run_cons, h, ih, run_cons]

/-- What is done to a row before and behind a machine can be done to all rows. -/
theorem run_around (before : γ → α) (behind : γ → β → δ) (cs : List γ) (s : σ) :
    run (fun c s => (behind c (step (before c) s).1, (step (before c) s).2)) cs s =
      (List.zipWith behind cs (run step (cs.map before) s).1, (run step (cs.map before) s).2) := by
  induction cs generalizing s with
  | nil => rfl
  | cons c cs ih =>
    rw [run_cons, ih, List.map_cons, run_cons]
    rfl

end Run

/-- Rows that carry their number. -/
theorem zipWith_zipIdx (f : α → β → γ) (as : List α) (bs : List β) (start : ℕ) :
    List.zipWith (fun x b => (f x.1 b, x.2)) (as.zipIdx start) bs = (List.zipWith f as bs).zipIdx start := by
  induction as generalizing bs start with
  | nil => rfl
  | cons a as ih =>
    cases bs with
    | nil => rfl
    | cons b bs => rw [List.zipIdx_cons, List.zipWith_cons_cons, List.zipWith_cons_cons, List.zipIdx_cons, ih]

/-! ### Stacks -/

/-- Machines stacked on each other: the output of each is what the next one reads. -/
def stack (step : α → σ → α × σ) : α → List σ → α × List σ
  | a, [] => (a, [])
  | a, s :: ss =>
    let (a, s) := step a s
    let (a, ss) := stack step a ss
    (a, s :: ss)

theorem stack_cons (step : α → σ → α × σ) (a : α) (s : σ) (ss : List σ) : stack step a (s :: ss) =
    ((stack step (step a s).1 ss).1, (step a s).2 :: (stack step (step a s).1 ss).2) := rfl

theorem run_stack_nil (step : α → σ → α × σ) (as : List α) : run (stack step) as [] = (as, []) := by
  induction as with
  | nil => rfl
  | cons a as ih =>
    rw [run_cons, stack, ih]

theorem run_stack_cons (step : α → σ → α × σ) (as : List α) (s : σ) (ss : List σ) :
    run (stack step) as (s :: ss) =
      ((run (stack step) (run step as s).1 ss).1, (run step as s).2 :: (run (stack step) (run step as s).1 ss).2) := by
  induction as generalizing s ss with
  | nil => rfl
  | cons a as ih =>
    rw [run_cons, stack_cons, ih, run_cons, run_cons]

/-- **Row by row through all stages** is all rows through one stage after the other. -/
theorem run_stack (step : α → σ → α × σ) (as : List α) (ss : List σ) :
    run (stack step) as ss = stack (run step) as ss := by
  induction ss generalizing as with
  | nil => rw [run_stack_nil, stack]
  | cons s ss ih => rw [run_stack_cons, stack_cons, ih]

/-- Stages that do the same in two ways of writing the rows. -/
theorem stack_encode {f : α → σ → α × σ} {g : β → σ → β × σ} (encode : β → α)
    (h : ∀ b s, f (encode b) s = (encode (g b s).1, (g b s).2)) (b : β) (ss : List σ) :
    stack f (encode b) ss = (encode (stack g b ss).1, (stack g b ss).2) := by
  induction ss generalizing b with
  | nil => rfl
  | cons s ss ih => rw [stack_cons, h, ih, stack_cons]

/-! ### Lanes -/

section Lanes

variable (step : α → σ → β × σ)

/-- A machine for every cell of a row.  Those that get no cell wait. -/
def lanes : List α → List σ → List β × List σ
  | a :: as, s :: ss =>
    let (b, s) := step a s
    let (bs, ss) := lanes as ss
    (b :: bs, s :: ss)
  | _, ss => ([], ss)

/-- Blocks of lanes, each of which goes through its part of all rows; the outputs are put together row by
row. -/
def blockwise : List (List α) → List (List σ) → List (List β) × List σ
  | rows, [] => (rows.map fun _ => [], [])
  | rows, block :: blocks =>
    let (out, block') := run (lanes step) (rows.map (List.take block.length)) block
    let (outs, ss) := blockwise (rows.map (List.drop block.length)) blocks
    (List.zipWith (· ++ ·) out outs, block' ++ ss)

theorem lanes_append (as : List α) (ss ts : List σ) : lanes step as (ss ++ ts) =
    ((lanes step (as.take ss.length) ss).1 ++ (lanes step (as.drop ss.length) ts).1,
      (lanes step (as.take ss.length) ss).2 ++ (lanes step (as.drop ss.length) ts).2) := by
  induction ss generalizing as with
  | nil => simp [lanes]
  | cons s ss ih =>
    cases as with
    | nil => cases ts <;> simp [lanes]
    | cons a as => simp [lanes, ih]

theorem length_lanes (as : List α) (ss : List σ) : (lanes step as ss).2.length = ss.length := by
  induction ss generalizing as with
  | nil => cases as <;> rfl
  | cons s ss ih =>
    cases as with
    | nil => rfl
    | cons a as => simp [lanes, ih]

theorem run_lanes_append (rows : List (List α)) (ss ts : List σ) : run (lanes step) rows (ss ++ ts) =
    (List.zipWith (· ++ ·) (run (lanes step) (rows.map (List.take ss.length)) ss).1
        (run (lanes step) (rows.map (List.drop ss.length)) ts).1,
      (run (lanes step) (rows.map (List.take ss.length)) ss).2 ++
        (run (lanes step) (rows.map (List.drop ss.length)) ts).2) := by
  induction rows generalizing ss ts with
  | nil => rfl
  | cons as rows ih =>
    have hlen := length_lanes step (as.take ss.length) ss
    rw [run_cons, lanes_append, ih, hlen]
    rfl

theorem run_lanes_nil (rows : List (List α)) :
    run (lanes step) rows [] = (rows.map fun _ => [], []) := by
  induction rows with
  | nil => rfl
  | cons as rows ih =>
    have hnil : lanes step as [] = ([], []) := by
      cases as <;> rfl
    rw [run_cons, hnil, ih, List.map_cons]

/-- **Block by block** the lanes do what they do row by row. -/
theorem blockwise_eq (rows : List (List α)) (blocks : List (List σ)) :
    blockwise step rows blocks = run (lanes step) rows blocks.flatten := by
  induction blocks generalizing rows with
  | nil => rw [List.flatten_nil, run_lanes_nil, blockwise]
  | cons block blocks ih =>
    rw [List.flatten_cons, run_lanes_append, blockwise, ih]

end Lanes

/-! ### Stores and reads -/

section Stored

variable {store : σ → ρ → σ} {read : σ → ρ → β} {before : ρ → ρ → Prop}

theorem read_foldl_store (hread : ∀ s r r', before r r' → read (store s r') r = read s r) {r : ρ} {rs : List ρ}
    (h : ∀ r' ∈ rs, before r r') (s : σ) : read (rs.foldl store s) r = read s r := by
  induction rs generalizing s with
  | nil => rfl
  | cons r' rs ih =>
    rw [List.foldl_cons, ih fun r'' hr => h r'' (List.mem_cons_of_mem _ hr)]
    exact hread s r r' (h r' List.mem_cons_self)

/-- **All stores may come before the first read** if no row reads what a later one stores. -/
theorem run_stored (hread : ∀ s r r', before r r' → read (store s r') r = read s r) {rs : List ρ}
    (h : rs.Pairwise before) (s : σ) : run (fun r s => (read (store s r) r, store s r)) rs s =
      (rs.map (read (rs.foldl store s)), rs.foldl store s) := by
  induction rs generalizing s with
  | nil => rfl
  | cons r rs ih =>
    obtain ⟨hfirst, hrest⟩ := List.pairwise_cons.1 h
    rw [run_cons, ih hrest, List.map_cons, List.foldl_cons, read_foldl_store hread hfirst]

end Stored

end Rows
