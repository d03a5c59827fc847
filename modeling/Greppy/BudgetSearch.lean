/-
**Breadth-first search with a budget.**

A search that may hold only so many nodes goes on after its budget is spent, but places no further ones;
it notes that there was one it could not place.  What it holds in the end are the first entries of the
search without a budget, and the note says whether that search has more.  So the note is right whatever
the order in which neighbours are looked at, and also when the budget is spent to the last place.

A search that nothing stops holds what its start is connected to.

Main definitions:

* `BreadthFirst.offer`, `BreadthFirst.searchWithin` — the search with a budget.

Main results:

* `BreadthFirst.searchWithin_of_search` — **the search with a budget finds the first entries of the
  search without, and notes whether there are more**;
* `BreadthFirst.search_closure` — an exhausted search has found what is connected to its start.
-/

import Greppy.BreadthFirst

set_option autoImplicit false

namespace BreadthFirst

variable {α ε : Type} [DecidableEq α] (node : ε → α) (expand : ε → List ε) (limit : ℕ)

/-- What a search with a budget works on: the entries placed, those to expand, and whether there was one
too many. -/
@[ext]
structure Budgeted (ε : Type) where
  placed : List ε
  queue : List ε
  cut : Bool

/-- An entry that an expansion comes to. -/
def offer (s : Budgeted ε) (e : ε) : Budgeted ε :=
  if node e ∈ s.placed.map node then s
  else if limit ≤ s.placed.length then { s with cut := true }
  else { s with placed := s.placed ++ [e], queue := s.queue ++ [e] }

/-- The search that places at most `limit` entries. -/
def searchWithin : ℕ → List ε → List ε → Bool → Option (List ε × Bool)
  | _, placed, [], cut => some (placed, cut)
  | 0, _, _ :: _, _ => none
  | fuel + 1, placed, e :: queue, cut =>
    let s := (expand e).foldl (offer node limit) ⟨placed, queue, cut⟩
    searchWithin fuel s.placed s.queue s.cut

variable {node} {expand} {limit}

/-! ### One expansion -/

variable (node) in
/-- With the budget spent, an expansion leaves the entries as they are. -/
theorem foldl_offer_full {s : Budgeted ε} (hfull : limit ≤ s.placed.length) (es : List ε) :
    (es.foldl (offer node limit) s).placed = s.placed ∧
      (es.foldl (offer node limit) s).queue = s.queue ∧
      (es.foldl (offer node limit) s).cut =
        (s.cut || !(firsts node (s.placed.map node) es).isEmpty) := by
  induction es generalizing s with
  | nil => simp [firsts]
  | cons e es ih =>
    rw [List.foldl_cons, firsts]
    by_cases hseen : node e ∈ s.placed.map node
    · rw [if_pos hseen, show offer node limit s e = s by rw [offer, if_pos hseen]]
      exact ih hfull
    · have hoffer : offer node limit s e = { s with cut := true } := by
        rw [offer, if_neg hseen, if_pos hfull]
      obtain ⟨hplaced, hqueue, hcut⟩ := ih (s := { s with cut := true }) hfull
      rw [if_neg hseen, hoffer]
      exact ⟨hplaced, hqueue, by simp [hcut]⟩

variable (node) in
/-- An expansion places the first of its new entries, as far as the budget goes. -/
theorem foldl_offer {s : Budgeted ε} (hroom : s.placed.length ≤ limit) (es : List ε) :
    es.foldl (offer node limit) s =
      { placed := s.placed ++ (firsts node (s.placed.map node) es).take (limit - s.placed.length)
        queue := s.queue ++ (firsts node (s.placed.map node) es).take (limit - s.placed.length)
        cut := s.cut || decide (limit < s.placed.length + (firsts node (s.placed.map node) es).length) } := by
  induction es generalizing s with
  | nil =>
    have hnot : ¬ limit < s.placed.length := by omega
    simp [firsts, hnot]
  | cons e es ih =>
    by_cases hfull : limit ≤ s.placed.length
    · obtain ⟨hplaced, hqueue, hcut⟩ := foldl_offer_full node hfull (e :: es)
      have hzero : limit - s.placed.length = 0 := by omega
      have hcount : (!(firsts node (s.placed.map node) (e :: es)).isEmpty) =
          decide (limit < s.placed.length + (firsts node (s.placed.map node) (e :: es)).length) := by
        cases firsts node (s.placed.map node) (e :: es) with
        | nil => simpa using hroom
        | cons x xs =>
          simp only [List.isEmpty_cons, Bool.not_false, List.length_cons, true_eq_decide_iff]
          omega
      rw [hcount] at hcut
      rw [hzero, List.take_zero, List.append_nil, List.append_nil]
      exact Budgeted.ext hplaced hqueue hcut
    · rw [List.foldl_cons, firsts]
      by_cases hseen : node e ∈ s.placed.map node
      · rw [if_pos hseen, show offer node limit s e = s by rw [offer, if_pos hseen]]
        exact ih hroom
      · have hoffer : offer node limit s e =
            { s with placed := s.placed ++ [e], queue := s.queue ++ [e] } := by
          rw [offer, if_neg hseen, if_neg hfull]
        have hcongr : firsts node ((s.placed ++ [e]).map node) es =
            firsts node (node e :: s.placed.map node) es := by
          refine firsts_congr (fun a => ?_) es
          simp [or_comm]
        obtain ⟨k, hk⟩ : ∃ k, limit - s.placed.length = k + 1 :=
          ⟨limit - s.placed.length - 1, by omega⟩
        have hlen : (s.placed ++ [e]).length = s.placed.length + 1 := by
          rw [List.length_append, List.length_singleton]
        have hk' : limit - (s.placed.length + 1) = k := by omega
        rw [if_neg hseen, hoffer, ih (by rw [hlen]; omega)]
        simp only [hcongr, hlen, hk, hk', List.take_succ_cons, List.append_assoc,
          List.singleton_append, List.length_cons]
        rw [Nat.add_right_comm, Nat.add_assoc]

/-! ### The whole search -/

/-- With the budget spent and the note taken, nothing changes any more. -/
theorem searchWithin_full {fuel : ℕ} {placed queue : List ε} (hfull : limit ≤ placed.length)
    (hfuel : queue.length ≤ fuel) :
    searchWithin node expand limit fuel placed queue true = some (placed, true) := by
  induction queue generalizing fuel with
  | nil => cases fuel <;> rfl
  | cons e queue ih =>
    obtain ⟨fuel, rfl⟩ : ∃ n, fuel = n + 1 := ⟨fuel - 1, by rw [List.length_cons] at hfuel; omega⟩
    obtain ⟨hplaced, hqueue, hcut⟩ :=
      foldl_offer_full node (s := ⟨placed, queue, true⟩) hfull (expand e)
    rw [Bool.true_or] at hcut
    simp only [searchWithin, hplaced, hqueue, hcut]
    exact ih (by rw [List.length_cons] at hfuel; omega)

theorem search_ne_error {fuel : ℕ} {placed queue r : List ε} :
    search node expand (fun _ => false) fuel placed queue ≠ some (.error r) := by
  intro h
  induction fuel generalizing placed queue with
  | zero => cases queue <;> cases h
  | succ fuel ih =>
    cases queue with
    | nil => cases h
    | cons e queue =>
      rw [search] at h
      rcases discover_cases node (fun _ => false) placed queue (expand e) with
        ⟨hok, -⟩ | ⟨_, _, _, -, hstop, -⟩
      · rw [hok] at h
        exact ih h
      · cases hstop

theorem length_queue_le {fuel : ℕ} {placed queue r : List ε}
    (h : search node expand (fun _ => false) fuel placed queue = some (.ok r)) : queue.length ≤ fuel := by
  induction fuel generalizing placed queue with
  | zero =>
    cases queue with
    | nil => exact le_rfl
    | cons e queue => cases h
  | succ fuel ih =>
    cases queue with
    | nil => exact Nat.zero_le _
    | cons e queue =>
      rw [search] at h
      rcases discover_cases node (fun _ => false) placed queue (expand e) with
        ⟨hok, -⟩ | ⟨_, _, _, -, hstop, -⟩
      · rw [hok] at h
        have hle := ih h
        rw [List.length_append] at hle
        rw [List.length_cons]
        omega
      · cases hstop

variable (limit) in
/-- **The search with a budget finds the first entries of the search without, and notes whether there
are more.** -/
theorem searchWithin_of_search {fuel : ℕ} {placed queue r : List ε} (hroom : placed.length ≤ limit)
    (h : search node expand (fun _ => false) fuel placed queue = some (.ok r)) :
    searchWithin node expand limit fuel placed queue false =
      some (r.take limit, decide (limit < r.length)) := by
  induction fuel generalizing placed queue with
  | zero =>
    cases queue with
    | nil =>
      rw [search] at h
      cases h
      rw [List.take_of_length_le hroom, decide_eq_false (by omega)]
      rfl
    | cons e queue => cases h
  | succ fuel ih =>
    cases queue with
    | nil =>
      rw [search] at h
      cases h
      rw [List.take_of_length_le hroom, decide_eq_false (by omega)]
      rfl
    | cons e queue =>
      rw [search] at h
      rcases discover_cases node (fun _ => false) placed queue (expand e) with
        ⟨hok, -⟩ | ⟨_, _, _, -, hstop, -⟩
      · rw [hok] at h
        simp only [searchWithin, foldl_offer node (s := ⟨placed, queue, false⟩) hroom,
          Bool.false_or]
        by_cases hfits : placed.length + (firsts node (placed.map node) (expand e)).length ≤ limit
        · rw [decide_eq_false (by omega), List.take_of_length_le (by omega)]
          exact ih (by rw [List.length_append]; exact hfits) h
        · -- the budget is spent on a part of the new entries
          obtain ⟨more, rfl⟩ := search_extends node h
          have hfull : limit ≤ (placed ++ (firsts node (placed.map node) (expand e)).take
              (limit - placed.length)).length := by
            rw [List.length_append, List.length_take]
            omega
          have hfuel := length_queue_le h
          rw [decide_eq_true (by omega), searchWithin_full hfull]
          · have hlong : limit < (placed ++ firsts node (placed.map node) (expand e) ++ more).length := by
              rw [List.length_append, List.length_append]
              omega
            rw [decide_eq_true hlong, List.append_assoc, List.take_append,
              List.take_of_length_le hroom, List.take_append_of_le_length (by omega)]
          · rw [List.length_append] at hfuel ⊢
            rw [List.length_take]
            omega
      · cases hstop

/-! ### What a search comes to -/

/-- A search under way: what is placed was come to from the start, and what is done leads to entries
placed. -/
structure Spread (node : ε → α) (expand : ε → List ε) (s : ε) (done queue : List ε) : Prop where
  nodup : ((done ++ queue).map node).Nodup
  start : s ∈ done ++ queue
  reached : ∀ e ∈ done ++ queue, Relation.ReflTransGen (fun d x => x ∈ expand d) s e
  closed : ∀ e ∈ done, ∀ x ∈ expand e, node x ∈ (done ++ queue).map node

variable (node expand) in
omit [DecidableEq α] in
theorem spread_start (s : ε) : Spread node expand s [] [s] where
  nodup := List.nodup_singleton _
  start := List.mem_singleton_self s
  reached := by
    intro e he
    rw [List.mem_singleton.1 he]
  closed := fun e he => by cases he

theorem Spread.step {s e : ε} {done queue : List ε} (h : Spread node expand s done (e :: queue)) :
    Spread node expand s (done ++ [e])
      (queue ++ firsts node ((done ++ e :: queue).map node) (expand e)) := by
  have hassoc : done ++ [e] ++ (queue ++ firsts node ((done ++ e :: queue).map node) (expand e)) =
      done ++ e :: queue ++ firsts node ((done ++ e :: queue).map node) (expand e) := by simp
  have he : e ∈ done ++ e :: queue := List.mem_append_right _ List.mem_cons_self
  constructor
  · rw [hassoc]
    exact nodup_append_firsts node h.nodup _
  · rw [hassoc]
    exact List.mem_append_left _ h.start
  · rw [hassoc]
    intro x hx
    rcases List.mem_append.1 hx with hx | hx
    · exact h.reached x hx
    · exact (h.reached e he).tail (mem_of_mem_firsts hx).1
  · rw [hassoc]
    intro d hd x hx
    rw [List.map_append, List.mem_append]
    rcases List.mem_append.1 hd with hd | hd
    · exact .inl (h.closed d hd x hx)
    · rw [List.mem_singleton.1 hd] at hx
      exact node_mem_firsts _ hx

theorem spread_search {fuel : ℕ} {s : ε} {done queue r : List ε} (h : Spread node expand s done queue)
    (hr : search node expand (fun _ => false) fuel (done ++ queue) queue = some (.ok r)) :
    Spread node expand s r [] := by
  induction fuel generalizing done queue with
  | zero =>
    cases queue with
    | nil =>
      rw [search, List.append_nil] at hr
      cases hr
      exact h
    | cons e queue => cases hr
  | succ fuel ih =>
    cases queue with
    | nil =>
      rw [search, List.append_nil] at hr
      cases hr
      exact h
    | cons e queue =>
      rw [search] at hr
      rcases discover_cases node (fun _ => false) (done ++ e :: queue) queue (expand e) with
        ⟨hok, -⟩ | ⟨_, _, _, -, hstop, -⟩
      · rw [hok] at hr
        exact ih h.step (by simpa using hr)
      · cases hstop

theorem search_closure {R : α → α → Prop} {fuel : ℕ} {s : ε} {r : List ε}
    (hstep : ∀ e x, x ∈ expand e → R (node e) (node x))
    (hall : ∀ e b, R (node e) b → b ≠ node e → ∃ x ∈ expand e, node x = b)
    (hr : search node expand (fun _ => false) fuel [s] [s] = some (.ok r)) :
    (r.map node).Nodup ∧ ∀ b, b ∈ r.map node ↔ Relation.ReflTransGen R (node s) b := by
  have h := spread_search (spread_start node expand s) hr
  have hnodup := h.nodup
  have hclosed := h.closed
  rw [List.append_nil] at hnodup hclosed
  refine ⟨hnodup, fun b => ⟨fun hb => ?_, fun hb => ?_⟩⟩
  · obtain ⟨e, he, rfl⟩ := List.mem_map.1 hb
    exact (h.reached e (by rwa [List.append_nil])).lift node hstep
  · induction hb with
    | refl =>
      have hs := h.start
      rw [List.append_nil] at hs
      exact List.mem_map_of_mem hs
    | @tail c b _ hcb ih =>
      obtain ⟨e, he, rfl⟩ := List.mem_map.1 ih
      by_cases hloop : b = node e
      · rw [hloop]
        exact ih
      · obtain ⟨x, hx, rfl⟩ := hall e b hcb hloop
        exact hclosed e he x hx

end BreadthFirst
