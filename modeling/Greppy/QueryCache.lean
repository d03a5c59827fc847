/-
**The cache of query embeddings.**

`crates/store/src/query_cache.rs` keeps the embeddings of queries in a table of its own, under a key that
stands for the model and the words of the query.  A look-up notes the second in which it is made.  An
insertion replaces what the key had, and then deletes the least recently used rows if the table exceeds a
number of rows or of bytes; rows used in the same second are told apart by when they were created, and then
by the number of the row.

The time of creation is kept as a text, which does not sort as the number of seconds in it does when the
number of digits grows: then the row just inserted may be the one that is deleted.  What the byte budget
comes to, and how the database renumbers its rows when it is compacted, is left open.

Main results:

* `normalizeQueryText_eq_iff` — a key stands for the words of a query;
* `pruneToBudget_spec` — what is deleted was used no later than what is kept;
* `queryCache_policy` — **what an insertion does in any run**.
-/

import Greppy.CamelSplit
import Greppy.GgufLayout
import Greppy.Ranking

set_option autoImplicit false

namespace Greppy

/-! ### Keys -/

/-- `str::trim`. -/
def trimText (s : List Char) : List Char :=
  ((s.dropWhile isWhitespace).reverse.dropWhile isWhitespace).reverse

/-- One character of `normalize_query_text`: the text so far, and whether a blank is due. -/
def normalizeStep (acc : List Char × Bool) (c : Char) : List Char × Bool :=
  if isWhitespace c then (acc.1, true)
  else ((if acc.2 && !acc.1.isEmpty then acc.1 ++ [' '] else acc.1) ++ [c], false)

def normalizeQueryText (q : List Char) : List Char :=
  ((trimText q).foldl normalizeStep ([], false)).1

/-! ### The table -/

/-- A row of `query_embeddings`; a component of a vector is given by its bits. -/
structure CachedQuery where
  rowid : ℕ
  modelKey : String
  queryText : List Char
  dim : ℤ
  vector : Bytes
  createdAt : String
  lastAccessed : ℕ
  deriving DecidableEq

/-- `PRIMARY KEY (model_key, query_text)`. -/
def CachedQuery.key (r : CachedQuery) : String × List Char := (r.modelKey, r.queryText)

def CachedQuery.renumbered (f : ℕ → ℕ) (r : CachedQuery) : CachedQuery := { r with rowid := f r.rowid }

@[simp] theorem CachedQuery.key_renumbered (f : ℕ → ℕ) (r : CachedQuery) : (r.renumbered f).key = r.key :=
  rfl

/-- The row, used at a time if it has the key. -/
def CachedQuery.touched (key : String × List Char) (now : ℕ) (r : CachedQuery) : CachedQuery :=
  { r with lastAccessed := if r.key = key then now else r.lastAccessed }

@[simp] theorem CachedQuery.key_touched (key : String × List Char) (now : ℕ) (r : CachedQuery) :
    (r.touched key now).key = r.key := rfl

/-- `ORDER BY last_accessed ASC, created_at ASC, rowid ASC`. -/
def CachedQuery.age (r : CachedQuery) : ℕ ×ₗ String ×ₗ ℕ :=
  toLex (r.lastAccessed, toLex (r.createdAt, r.rowid))

structure QueryCache where
  table : KeyedTable CachedQuery CachedQuery.key
  rowids_nodup : (table.rows.map CachedQuery.rowid).Nodup

/-- `f32::to_le_bytes` of each component. -/
def floatBytes (v : List UInt32) : Bytes := v.flatMap fun x => leBytes 4 x.toNat

/-- `f32::from_le_bytes` of each four bytes. -/
def readFloats : Bytes → List UInt32
  | a :: b :: c :: d :: rest => UInt32.ofNat (Reader.leNat [a, b, c, d]) :: readFloats rest
  | _ => []

/-- `now_iso8601`, from the reading of the clock. -/
def nowIso8601 (secs : ℕ) : String := "1970-01-01T00:00:00Z+" ++ toString secs ++ "s"

/-- What the budget is computed from: the size of the database file, the limit in the environment, and the
numbers that compacting the database gives to the rows. -/
structure CacheBudget where
  pageCount : ℤ
  pageSize : ℤ
  maxMib : ℤ
  renumber : ℕ → ℕ
  renumber_injective : Function.Injective renumber

/-- `saturating_mul` and `saturating_sub` of `i64` end in this range. -/
def saturateI64 (x : ℤ) : ℤ := max (-2 ^ 63) (min x (2 ^ 63 - 1))

def queryCacheMaxEntries : ℤ := 10000

def queryCacheTrimEntries : ℤ := 8000

theorem le_foldr_max {l : List ℕ} {a : ℕ} (h : a ∈ l) : a ≤ l.foldr max 0 := by
  induction l with
  | nil => cases h
  | cons b l ih =>
    rcases List.mem_cons.1 h with rfl | h
    · exact le_max_left _ _
    · exact (ih h).trans (le_max_right _ _)

namespace QueryCache

def empty : QueryCache := ⟨KeyedTable.empty, by simp⟩

/-- The rows under a key: at most one. -/
def find? (s : QueryCache) (key : String × List Char) : Option CachedQuery := s.table.find? key

/-- The vector of a row, unless its length is wrong. -/
def decode (r : CachedQuery) : Except String (List UInt32) :=
  if r.dim < 0 then .error ("query cache row has negative dim " ++ toString r.dim)
  else if (r.vector.length : ℤ) ≠ r.dim * 4 then
    .error ("query cache blob length mismatch: bytes " ++ toString r.vector.length ++ ", dim " ++
      toString r.dim)
  else .ok (readFloats r.vector)

/-- `UPDATE query_embeddings SET last_accessed = now` for a key. -/
def touch (s : QueryCache) (key : String × List Char) (now : ℕ) : QueryCache where
  table := s.table.mapRows (CachedQuery.touched key now) (CachedQuery.key_touched key now)
  rowids_nodup := by
    have hids : (s.table.rows.map (CachedQuery.touched key now)).map CachedQuery.rowid =
        s.table.rows.map CachedQuery.rowid := by
      rw [List.map_map]
      rfl
    exact hids ▸ s.rowids_nodup

def get (s : QueryCache) (modelKey : String) (queryText : List Char) (now : ℕ) :
    Except String (Option (List UInt32)) × QueryCache :=
  match s.find? (modelKey, queryText) with
  | none => (.ok none, s)
  | some r => ((decode r).map some, s.touch (modelKey, queryText) now)

def nextRowid (s : QueryCache) : ℕ := (s.table.rows.map CachedQuery.rowid).foldr max 0 + 1

/-- `INSERT OR REPLACE INTO query_embeddings`. -/
def insert (s : QueryCache) (modelKey : String) (queryText : List Char) (vector : List UInt32)
    (createdAt : String) (now : ℕ) : QueryCache where
  table := s.table.upsert
    { rowid := s.nextRowid, modelKey := modelKey, queryText := queryText, dim := vector.length,
      vector := floatBytes vector, createdAt := createdAt, lastAccessed := now }
  rowids_nodup := by
    have hfresh : ∀ r ∈ s.table.rows, r.rowid ≠ s.nextRowid := fun r hr =>
      Nat.ne_of_lt (Nat.lt_succ_of_le (le_foldr_max (List.mem_map_of_mem hr)))
    refine ((KeyedTable.perm_upsertWith _ _).map CachedQuery.rowid).nodup_iff.2 ?_
    rw [List.map_cons, List.nodup_cons]
    refine ⟨fun hmem => ?_, (List.filter_sublist.map _).nodup s.rowids_nodup⟩
    obtain ⟨r, hr, hid⟩ := List.mem_map.1 hmem
    refine hfresh r (List.mem_filter.1 hr).1 (hid.trans ?_)
    rw [KeyedTable.merged]
    cases s.table.find? _ <;> rfl

/-- How many rows are kept when the table exceeds its budget. -/
def keep (budget : CacheBudget) (count : ℤ) : Option ℤ :=
  let bytes := saturateI64 (budget.pageCount * budget.pageSize)
  let maxBytes := saturateI64 (budget.maxMib * (1024 * 1024))
  let overEntries := queryCacheMaxEntries < count
  let overBytes := 0 < maxBytes ∧ maxBytes < bytes
  if ¬ overEntries ∧ ¬ overBytes then none
  else
    let keep := min queryCacheTrimEntries count
    if overBytes ∧ 0 < bytes then
      let byteTarget := (saturateI64 (count * (saturateI64 (maxBytes * 8)).tdiv 10)).tdiv bytes
      some (min keep (max byteTarget 1))
    else some keep

/-- The oldest rows are deleted, and the others renumbered. -/
def delete (s : QueryCache) (n : ℕ) (budget : CacheBudget) : QueryCache :=
  let victims := ((Ranking.ranked CachedQuery.age s.table.rows).take n).map CachedQuery.rowid
  let kept := s.table.filter fun r => decide (r.rowid ∉ victims)
  { table := kept.mapRows (CachedQuery.renumbered budget.renumber) (CachedQuery.key_renumbered _)
    rowids_nodup := by
      have hids : (kept.rows.map (CachedQuery.renumbered budget.renumber)).map CachedQuery.rowid =
          (kept.rows.map CachedQuery.rowid).map budget.renumber := by
        rw [List.map_map, List.map_map]
        rfl
      refine hids ▸ List.Nodup.map budget.renumber_injective ?_
      exact (List.filter_sublist.map _).nodup s.rowids_nodup }

def pruneToBudget (s : QueryCache) (budget : CacheBudget) : QueryCache :=
  let count : ℤ := s.table.rows.length
  match keep budget count with
  | none => s
  | some keep =>
    let remove := saturateI64 (count - keep)
    if 0 < remove then s.delete remove.toNat budget else s

/-- `put`; the clock is read once for the time of creation and once for the time of use. -/
def put (s : QueryCache) (modelKey : String) (queryText : List Char) (vector : List UInt32)
    (created now : ℕ) (budget : CacheBudget) : QueryCache :=
  (s.insert modelKey queryText vector (nowIso8601 created) now).pruneToBudget budget

end QueryCache

/-! ### The words of a key -/

section Normalize

theorem words_trimText (s : List Char) : words (trimText s) = words s := by
  have hspace : ∀ c, isWhitespace c = true → isWhitespace c = true := fun _ h => h
  rw [trimText, words_reverse_dropWhile hspace, List.reverse_reverse, words_dropWhile hspace]

/-- Characters without whitespace are appended as they are, behind a blank where one is due. -/
theorem foldl_normalizeStep_run {w : List Char} (hw : ∀ c ∈ w, isWhitespace c = false) (hne : w ≠ [])
    (out : List Char) (due : Bool) : w.foldl normalizeStep (out, due) =
      ((if due && !out.isEmpty then out ++ [' '] else out) ++ w, false) := by
  induction w generalizing out due with
  | nil => exact absurd rfl hne
  | cons c w ih =>
    have hc := hw c List.mem_cons_self
    rw [List.foldl_cons, normalizeStep, hc, if_neg Bool.false_ne_true]
    cases w with
    | nil => rfl
    | cons c' w =>
      rw [ih (fun d hd => hw d (List.mem_cons_of_mem c hd)) (List.cons_ne_nil c' w)]
      simp

theorem last_run (s : List Char) : s = [] ∨ (∃ front c, s = front ++ [c] ∧ isWhitespace c = true) ∨
    ∃ front w, s = front ++ w ∧ w ≠ [] ∧ (∀ c ∈ w, isWhitespace c = false) ∧
      (front = [] ∨ ∃ front' c, front = front' ++ [c] ∧ isWhitespace c = true) := by
  induction s using List.reverseRecOn with
  | nil => exact .inl rfl
  | append_singleton s c ih =>
    right
    cases hc : isWhitespace c with
    | true => exact .inl ⟨s, c, rfl, hc⟩
    | false =>
      right
      rcases ih with rfl | ⟨front, d, rfl, hd⟩ | ⟨front, w, rfl, hne, hw, hfront⟩
      · exact ⟨[], [c], rfl, by simp, by simpa using hc, .inl rfl⟩
      · exact ⟨front ++ [d], [c], rfl, by simp, by simpa using hc, .inr ⟨front, d, rfl, hd⟩⟩
      · refine ⟨front, w ++ [c], by simp, by simp, fun d hd => ?_, hfront⟩
        rcases List.mem_append.1 hd with hd | hd
        · exact hw d hd
        · rw [List.mem_singleton.1 hd, hc]

theorem joinWords_words_eq_nil {s : List Char} (h : joinWords (words s) = []) : words s = [] := by
  cases hs : words s with
  | nil => rfl
  | cons w ws =>
    have hw : w ≠ [] := ne_nil_of_mem_words (hs ▸ List.mem_cons_self)
    rw [hs, joinWords, List.intercalate] at h
    cases ws with
    | nil => simp [hw] at h
    | cons v ws => simp [hw] at h

/-- The loop puts the words together with a blank between them, and the words can be read off again. -/
theorem normalize_words (s : List Char) : (s.foldl normalizeStep ([], false)).1 = joinWords (words s) ∧
    words (joinWords (words s)) = words s := by
  induction hlen : s.length using Nat.strong_induction_on generalizing s with
  | _ n ih =>
    subst hlen
    rcases last_run s with rfl | ⟨front, c, rfl, hc⟩ | ⟨front, w, rfl, hne, hw, hfront⟩
    · exact ⟨rfl, rfl⟩
    · have hstep := ih front.length (by simp) front rfl
      rw [List.foldl_append, words_concat_space hc, List.foldl_cons, List.foldl_nil, normalizeStep, hc]
      exact hstep
    · have hlt : front.length < (front ++ w).length := by
        rw [List.length_append]
        exact Nat.lt_add_of_pos_right (List.length_pos_of_ne_nil hne)
      obtain ⟨hout, hread⟩ := ih front.length hlt front rfl
      have hone := words_eq_singleton hne hw
      -- the run is a word of its own
      have hwords : words (front ++ w) = words front ++ [w] := by
        rcases hfront with rfl | ⟨front, c, rfl, hc⟩
        · exact hone
        · rw [List.append_assoc, List.singleton_append, words_append_space hc,
            words_concat_space hc, hone]
      have hdue : front = [] ∨ (front.foldl normalizeStep ([], false)).2 = true := by
        rcases hfront with rfl | ⟨front, c, rfl, hc⟩
        · exact .inl rfl
        · right
          rw [List.foldl_append, List.foldl_cons, List.foldl_nil, normalizeStep, hc]
          rfl
      have hfold : ((front ++ w).foldl normalizeStep ([], false)).1 = joinWords (words front ++ [w]) := by
        rw [List.foldl_append, ← Prod.mk.eta (p := front.foldl normalizeStep ([], false)),
          foldl_normalizeStep_run hw hne, hout]
        by_cases hnil : words front = []
        · simp [hnil, joinWords, List.intercalate]
        · have hfront' : front ≠ [] := by
            rintro rfl
            exact hnil rfl
          have hjoin : joinWords (words front) ≠ [] := fun h => hnil (joinWords_words_eq_nil h)
          rw [joinWords_concat hnil, hdue.resolve_left hfront']
          simp [hjoin]
      refine ⟨by rw [hfold, hwords], ?_⟩
      rw [hwords]
      by_cases hnil : words front = []
      · rw [hnil]
        simpa [joinWords, List.intercalate] using hone
      · rw [joinWords_concat hnil, words_append_space (by decide), hread, hone]

/-- **A key stands for the words of a query.** -/
theorem normalizeQueryText_eq_iff (q q' : List Char) :
    normalizeQueryText q = normalizeQueryText q' ↔ words q = words q' := by
  have hwords : ∀ q, normalizeQueryText q = joinWords (words q) := fun q => by
    rw [normalizeQueryText, (normalize_words _).1, words_trimText]
  rw [hwords, hwords]
  constructor
  · intro h
    rw [← (normalize_words q).2, h, (normalize_words q').2]
  · intro h
    rw [h]

end Normalize

/-! ### Vectors -/

theorem leBytes_four (n : ℕ) : ∃ a b c d, leBytes 4 n = [a, b, c, d] := ⟨_, _, _, _, rfl⟩

theorem readFloats_floatBytes (v : List UInt32) : readFloats (floatBytes v) = v := by
  induction v with
  | nil => rfl
  | cons x v ih =>
    obtain ⟨a, b, c, d, hx⟩ := leBytes_four x.toNat
    have hcons : floatBytes (x :: v) = a :: b :: c :: d :: floatBytes v := by
      rw [floatBytes, List.flatMap_cons, hx]
      rfl
    have hnat : Reader.leNat [a, b, c, d] = x.toNat := by
      rw [← hx]
      exact leNat_leBytes x.toNat_lt
    rw [hcons, readFloats, ih, hnat, UInt32.ofNat_toNat]

theorem length_floatBytes (v : List UInt32) : (floatBytes v).length = v.length * 4 := by
  induction v with
  | nil => rfl
  | cons x v ih =>
    rw [floatBytes, List.flatMap_cons, List.length_append, length_leBytes]
    rw [floatBytes] at ih
    rw [ih, List.length_cons]
    omega

namespace QueryCache

theorem decode_floatBytes {r : CachedQuery} {v : List UInt32} (hdim : r.dim = v.length)
    (hvector : r.vector = floatBytes v) : decode r = .ok v := by
  have hlength : (r.vector.length : ℤ) = r.dim * 4 := by
    rw [hvector, length_floatBytes, hdim]
    push_cast
    rfl
  rw [decode, if_neg (by omega), if_neg (not_not.2 hlength), hvector, readFloats_floatBytes]

/-! ### What is deleted -/

section Deletion

variable {s : QueryCache} {budget : CacheBudget}

theorem rowid_inj {r r' : CachedQuery} (hr : r ∈ s.table.rows) (hr' : r' ∈ s.table.rows)
    (h : r.rowid = r'.rowid) : r = r' :=
  List.inj_on_of_nodup_map s.rowids_nodup hr hr' h

theorem nodup_age : (s.table.rows.map CachedQuery.age).Nodup := by
  have hids : (s.table.rows.map CachedQuery.age).map (fun k => (ofLex (ofLex k).2).2) =
      s.table.rows.map CachedQuery.rowid := by
    rw [List.map_map]
    rfl
  exact List.Nodup.of_map _ (hids ▸ s.rowids_nodup)

/-- A row stays when at least as many rows as are deleted are older. -/
theorem find?_delete (n : ℕ) (key : String × List Char) : (s.delete n budget).find? key =
    ((s.find? key).filter fun r => decide (n ≤ Ranking.ahead CachedQuery.age s.table.rows r)).map
      (CachedQuery.renumbered budget.renumber) := by
  rw [find?, delete, KeyedTable.find?_mapRows, KeyedTable.find?_filter]
  cases hfind : s.table.find? key with
  | none => rw [find?, hfind]; rfl
  | some r =>
    have hr := KeyedTable.mem_of_find? hfind
    have hvictim : r.rowid ∈ ((Ranking.ranked CachedQuery.age s.table.rows).take n).map
        CachedQuery.rowid ↔ Ranking.ahead CachedQuery.age s.table.rows r < n := by
      rw [List.mem_map]
      constructor
      · rintro ⟨r', hr', hid⟩
        obtain ⟨hmem, hahead⟩ := (Ranking.mem_take_ranked nodup_age).1 hr'
        rwa [← rowid_inj hmem hr hid]
      · intro hahead
        exact ⟨r, (Ranking.mem_take_ranked nodup_age).2 ⟨hr, hahead⟩, rfl⟩
    have hdecide : decide (r.rowid ∉ ((Ranking.ranked CachedQuery.age s.table.rows).take n).map
        CachedQuery.rowid) = decide (n ≤ Ranking.ahead CachedQuery.age s.table.rows r) := by
      rw [decide_eq_decide, hvictim, not_lt]
    rw [find?, hfind, Option.filter_some, Option.filter_some, hdecide]

/-- The budget leaves at least one row, and no more than the table may have. -/
theorem keep_bounds {count keep : ℤ} (hcount : 0 < count) (h : QueryCache.keep budget count = some keep) :
    1 ≤ keep ∧ keep ≤ 8000 ∧ keep ≤ count := by
  rw [QueryCache.keep] at h
  simp only [queryCacheTrimEntries] at h
  split_ifs at h with hover hbytes
  · obtain rfl := Option.some.inj h
    omega
  · obtain rfl := Option.some.inj h
    omega

theorem keep_eq_none {count : ℤ} (h : QueryCache.keep budget count = none) : count ≤ 10000 := by
  rw [QueryCache.keep] at h
  simp only [queryCacheMaxEntries] at h
  split_ifs at h with hover
  omega

theorem length_delete (n : ℕ) : (s.delete n budget).table.rows.length = s.table.rows.length - n := by
  have hperm : (s.table.rows.filter fun r => decide (r.rowid ∉
      ((Ranking.ranked CachedQuery.age s.table.rows).take n).map CachedQuery.rowid)).Perm
        ((Ranking.ranked CachedQuery.age s.table.rows).drop n) := by
    have hnd : (Ranking.ranked CachedQuery.age s.table.rows).Nodup :=
      (Ranking.perm_ranked _ _).nodup_iff.2 s.table.rows_nodup
    refine (List.perm_ext_iff_of_nodup (s.table.rows_nodup.filter _)
      (hnd.sublist (List.drop_sublist _ _))).2 fun r => ?_
    have hsplit : r ∈ s.table.rows ↔ r ∈ (Ranking.ranked CachedQuery.age s.table.rows).take n ∨
        r ∈ (Ranking.ranked CachedQuery.age s.table.rows).drop n := by
      rw [← List.mem_append, List.take_append_drop, Ranking.mem_ranked]
    have hdisjoint : r ∈ (Ranking.ranked CachedQuery.age s.table.rows).take n →
        r ∉ (Ranking.ranked CachedQuery.age s.table.rows).drop n := by
      intro htake hdrop
      rw [← List.take_append_drop n (Ranking.ranked CachedQuery.age s.table.rows)] at hnd
      exact (List.nodup_append.1 hnd).2.2 r htake r hdrop rfl
    rw [List.mem_filter, decide_eq_true_eq, List.mem_map]
    constructor
    · rintro ⟨hr, hout⟩
      exact (hsplit.1 hr).resolve_left fun htake => hout ⟨r, htake, rfl⟩
    · intro hdrop
      refine ⟨hsplit.2 (.inr hdrop), ?_⟩
      rintro ⟨r', htake, hid⟩
      have hr' := ((Ranking.mem_take_ranked nodup_age).1 htake).1
      rw [rowid_inj hr' (hsplit.2 (.inr hdrop)) hid] at htake
      exact hdisjoint htake hdrop
  rw [delete]
  simp only [KeyedTable.mapRows, List.length_map, KeyedTable.rows_filter]
  rw [hperm.length_eq, List.length_drop, Ranking.length_ranked]

/-- **What is deleted are the oldest rows**, some number of them but not all; the others stay, perhaps
under other numbers, and fit the table. -/
theorem pruneToBudget_spec (budget : CacheBudget) (hpos : 0 < s.table.rows.length)
    (hsmall : s.table.rows.length ≤ 10001) : ∃ n < s.table.rows.length, ∃ f : ℕ → ℕ,
      (∀ key, (s.pruneToBudget budget).find? key = ((s.find? key).filter fun r =>
        decide (n ≤ Ranking.ahead CachedQuery.age s.table.rows r)).map (CachedQuery.renumbered f)) ∧
      (s.pruneToBudget budget).table.rows.length ≤ 10000 := by
  have hstay : ∀ key, s.find? key = ((s.find? key).filter fun r =>
      decide (0 ≤ Ranking.ahead CachedQuery.age s.table.rows r)).map (CachedQuery.renumbered id) := by
    intro key
    cases s.find? key <;> rfl
  rw [pruneToBudget]
  cases hkeep : QueryCache.keep budget (s.table.rows.length : ℤ) with
  | none =>
    have hle := keep_eq_none hkeep
    exact ⟨0, hpos, id, hstay, by simp only; omega⟩
  | some keep =>
    obtain ⟨hone, hfew, hall⟩ := keep_bounds (by omega) hkeep
    have hsaturate : saturateI64 (s.table.rows.length - keep) = s.table.rows.length - keep := by
      rw [saturateI64]
      omega
    simp only [hsaturate]
    split_ifs with hremove
    · refine ⟨_, ?_, budget.renumber, find?_delete _, ?_⟩
      · omega
      · rw [length_delete]
        omega
    · exact ⟨0, hpos, id, hstay, by omega⟩

end Deletion

end QueryCache

/-! ### Runs -/

/-- A query that is looked up, or put into the cache, with the readings of the clock. -/
inductive CacheOp where
  | get (modelKey : String) (query : List Char) (now : ℕ)
  | put (modelKey : String) (query : List Char) (vector : List UInt32) (created now : ℕ)
      (budget : CacheBudget)

namespace CacheOp

def key : CacheOp → String × List Char
  | get modelKey query _ => (modelKey, normalizeQueryText query)
  | put modelKey query _ _ _ _ => (modelKey, normalizeQueryText query)

def time : CacheOp → ℕ
  | get _ _ now => now
  | put _ _ _ _ now _ => now

/-- The readings of the clock, in their order. -/
def readings : CacheOp → List ℕ
  | get _ _ now => [now]
  | put _ _ _ created now _ => [created, now]

def apply (s : QueryCache) : CacheOp → QueryCache
  | get modelKey query now => (s.get modelKey (normalizeQueryText query) now).2
  | put modelKey query vector created now budget =>
    s.put modelKey (normalizeQueryText query) vector created now budget

end CacheOp

def runCache (ops : List CacheOp) : QueryCache := ops.foldl CacheOp.apply QueryCache.empty

def Clocked (ops : List CacheOp) : Prop := (ops.flatMap CacheOp.readings).Pairwise (· ≤ ·)

/-- When a key was used last; zero if never. -/
def lastUse (ops : List CacheOp) (key : String × List Char) : ℕ :=
  ops.foldl (fun t op => if op.key = key then op.time else t) 0

structure UsesRecorded (ops : List CacheOp) (s : QueryCache) : Prop where
  used : ∀ r ∈ s.table.rows, r.lastAccessed = lastUse ops r.key
  whole : ∀ r ∈ s.table.rows, ∃ v : List UInt32, r.dim = v.length ∧ r.vector = floatBytes v
  few : s.table.rows.length ≤ 10000

section Runs

variable {ops : List CacheOp} {s : QueryCache}

theorem lastUse_concat (op : CacheOp) (key : String × List Char) :
    lastUse (ops ++ [op]) key = if op.key = key then op.time else lastUse ops key := by
  rw [lastUse, List.foldl_append]
  rfl

theorem lastUse_le {op : CacheOp} (h : Clocked (ops ++ [op])) (key : String × List Char) :
    ∀ t ∈ op.readings, lastUse ops key ≤ t := by
  intro t ht
  have hseen : lastUse ops key = 0 ∨ lastUse ops key ∈ ops.flatMap CacheOp.readings := by
    clear h
    induction ops using List.reverseRecOn with
    | nil => exact .inl rfl
    | append_singleton ops op' ih =>
      rw [lastUse_concat, List.flatMap_append]
      split_ifs
      · right
        cases op' <;> simp [CacheOp.time, CacheOp.readings]
      · exact ih.imp id fun hmem => List.mem_append.2 (.inl hmem)
  rcases hseen with hzero | hmem
  · omega
  · rw [Clocked, List.flatMap_append, List.flatMap_singleton] at h
    exact (List.pairwise_append.1 h).2.2 _ hmem t ht

theorem find?_get (modelKey : String) (query : List Char) (now : ℕ) (key : String × List Char) :
    ((CacheOp.get modelKey query now).apply s).find? key =
      (s.find? key).map (CachedQuery.touched (modelKey, normalizeQueryText query) now) := by
  rw [CacheOp.apply, QueryCache.get]
  cases hfind : s.find? (modelKey, normalizeQueryText query) with
  | none =>
    cases hkey : s.find? key with
    | none => simp
    | some r =>
      have hne : r.key ≠ (modelKey, normalizeQueryText query) := by
        rw [KeyedTable.key_of_find? hkey]
        rintro rfl
        rw [hfind] at hkey
        cases hkey
      simp [CachedQuery.touched, hne]
  | some r =>
    simp only [QueryCache.touch, QueryCache.find?]
    exact KeyedTable.find?_mapRows _ _ _ _

theorem find?_insert (modelKey : String) (queryText : List Char) (v : List UInt32) (createdAt : String)
    (now : ℕ) (key : String × List Char) : (s.insert modelKey queryText v createdAt now).find? key =
      if (modelKey, queryText) = key then
        some { rowid := s.nextRowid, modelKey := modelKey, queryText := queryText, dim := v.length,
               vector := floatBytes v, createdAt := createdAt, lastAccessed := now }
      else s.find? key :=
  KeyedTable.find?_upsert _ _ _

theorem length_insert (modelKey : String) (queryText : List Char) (v : List UInt32) (createdAt : String)
    (now : ℕ) : 0 < (s.insert modelKey queryText v createdAt now).table.rows.length ∧
      (s.insert modelKey queryText v createdAt now).table.rows.length ≤ s.table.rows.length + 1 :=
  KeyedTable.length_upsert _ _

theorem forall_rows_iff {P : CachedQuery → Prop} :
    (∀ r ∈ s.table.rows, P r) ↔ ∀ key r, s.find? key = some r → P r := by
  constructor
  · exact fun h key r hr => h r (KeyedTable.mem_of_find? hr)
  · exact fun h r hr => h r.key r (KeyedTable.find?_of_mem hr)

theorem recorded_insert (h : UsesRecorded ops s) (modelKey : String) (query : List Char) (v : List UInt32)
    (created now : ℕ) (budget : CacheBudget) :
    ∀ r ∈ (s.insert modelKey (normalizeQueryText query) v (nowIso8601 created) now).table.rows,
      r.lastAccessed = lastUse (ops ++ [.put modelKey query v created now budget]) r.key ∧
      ∃ v' : List UInt32, r.dim = v'.length ∧ r.vector = floatBytes v' := by
  rw [forall_rows_iff]
  intro key r hr
  have hkey : r.key = key := KeyedTable.key_of_find? hr
  rw [find?_insert] at hr
  rw [hkey, lastUse_concat, CacheOp.key, CacheOp.time]
  split_ifs at hr ⊢ with heq
  · obtain rfl := Option.some.inj hr
    exact ⟨rfl, v, rfl, rfl⟩
  · have hmem := KeyedTable.mem_of_find? hr
    rw [← hkey]
    exact ⟨h.used r hmem, h.whole r hmem⟩

/-- **Every run is recorded.** -/
theorem recorded_runCache (ops : List CacheOp) : UsesRecorded ops (runCache ops) := by
  induction ops using List.reverseRecOn with
  | nil => exact ⟨by simp [runCache, QueryCache.empty, KeyedTable.empty],
      by simp [runCache, QueryCache.empty, KeyedTable.empty],
      by simp [runCache, QueryCache.empty, KeyedTable.empty]⟩
  | append_singleton ops op ih =>
    have hrun : runCache (ops ++ [op]) = op.apply (runCache ops) := by
      rw [runCache, List.foldl_append]
      rfl
    rw [hrun]
    cases op with
    | get modelKey query now =>
      have hrows : ∀ key r, ((CacheOp.get modelKey query now).apply (runCache ops)).find? key = some r →
          ∃ r' ∈ (runCache ops).table.rows, r'.key = key ∧
            r = r'.touched (modelKey, normalizeQueryText query) now := by
        intro key r hr
        rw [find?_get] at hr
        obtain ⟨r', hr', rfl⟩ := Option.map_eq_some_iff.1 hr
        exact ⟨r', KeyedTable.mem_of_find? hr', KeyedTable.key_of_find? hr', rfl⟩
      refine ⟨forall_rows_iff.2 fun key r hr => ?_, forall_rows_iff.2 fun key r hr => ?_, ?_⟩
      · obtain ⟨r', hmem, -, rfl⟩ := hrows key r hr
        rw [lastUse_concat, CacheOp.key, CacheOp.time, CachedQuery.key_touched,
          CachedQuery.touched, ih.used r' hmem]
        exact if_congr eq_comm rfl rfl
      · obtain ⟨r', hmem, -, rfl⟩ := hrows key r hr
        exact ih.whole r' hmem
      · refine le_of_eq_of_le ?_ ih.few
        rw [CacheOp.apply, QueryCache.get]
        cases (runCache ops).find? (modelKey, normalizeQueryText query) with
        | none => rfl
        | some r => simp [QueryCache.touch, KeyedTable.mapRows]
    | put modelKey query v created now budget =>
      have hinsert := recorded_insert ih modelKey query v created now budget
      obtain ⟨hpos, hlen⟩ := length_insert (s := runCache ops) modelKey (normalizeQueryText query) v
        (nowIso8601 created) now
      have hfew := ih.few
      obtain ⟨n, -, f, hfind, hlast⟩ := QueryCache.pruneToBudget_spec budget hpos (by omega)
      have hrows : ∀ key r, ((CacheOp.put modelKey query v created now budget).apply
          (runCache ops)).find? key = some r → ∃ r' ∈ ((runCache ops).insert modelKey
            (normalizeQueryText query) v (nowIso8601 created) now).table.rows, r = r'.renumbered f := by
        intro key r hr
        rw [CacheOp.apply, QueryCache.put, hfind] at hr
        obtain ⟨r', hr', rfl⟩ := Option.map_eq_some_iff.1 hr
        obtain ⟨hr', -⟩ := Option.filter_eq_some_iff.1 hr'
        exact ⟨r', KeyedTable.mem_of_find? hr', rfl⟩
      refine ⟨forall_rows_iff.2 fun key r hr => ?_, forall_rows_iff.2 fun key r hr => ?_, hlast⟩
      · obtain ⟨r', hmem, rfl⟩ := hrows key r hr
        exact (hinsert r' hmem).1
      · obtain ⟨r', hmem, rfl⟩ := hrows key r hr
        exact (hinsert r' hmem).2

end Runs

/-! ### The policy -/

/-- What an insertion promises about the caches before and after it, for the times at which keys were used:
what was put in is found at once, unless a row used in the same second was created at a time whose text
sorts behind; another key finds what it found before, or nothing; the table is within its limit; and what
was deleted was used no later than what was kept. -/
structure InsertionPolicy (s s' : QueryCache) (use : String × List Char → ℕ) (key : String × List Char)
    (vector : List UInt32) (created now : ℕ) : Prop where
  retrievable : (∀ r ∈ s.table.rows, r.key ≠ key → r.lastAccessed = now →
      r.createdAt ≤ nowIso8601 created) →
    ∀ t, (s'.get key.1 key.2 t).1 = .ok (some vector)
  others : ∀ k ≠ key, ∀ t, (s'.get k.1 k.2 t).1 = (s.get k.1 k.2 t).1 ∨ (s'.get k.1 k.2 t).1 = .ok none
  bounded : s'.table.rows.length ≤ 10000
  evicted : ∀ k k', k = key ∨ (s.find? k).isSome → s'.find? k = none → (s'.find? k').isSome →
    use k ≤ use k'

section Policy

variable {s : QueryCache}

theorem get_fst (key : String × List Char) (t : ℕ) : (s.get key.1 key.2 t).1 =
    match s.find? key with
    | none => .ok none
    | some r => (QueryCache.decode r).map some := by
  rw [QueryCache.get]
  cases s.find? key <;> rfl

theorem decode_renumbered (f : ℕ → ℕ) (r : CachedQuery) :
    QueryCache.decode (r.renumbered f) = QueryCache.decode r := rfl

/-- **What an insertion does in any run.** -/
theorem queryCache_policy (ops : List CacheOp) (modelKey : String) (query : List Char)
    (vector : List UInt32) (created now : ℕ) (budget : CacheBudget)
    (hclock : Clocked (ops ++ [.put modelKey query vector created now budget])) :
    InsertionPolicy (runCache ops) (runCache (ops ++ [.put modelKey query vector created now budget]))
      (lastUse (ops ++ [.put modelKey query vector created now budget]))
      (modelKey, normalizeQueryText query) vector created now := by
  have hrecorded := recorded_runCache ops
  have hafter := recorded_runCache (ops ++ [.put modelKey query vector created now budget])
  have hinserted := recorded_insert hrecorded modelKey query vector created now budget
  set s := runCache ops with hs
  set inserted := s.insert modelKey (normalizeQueryText query) vector (nowIso8601 created) now
    with hinsert
  obtain ⟨hpos, hlen⟩ : 0 < inserted.table.rows.length ∧
      inserted.table.rows.length ≤ s.table.rows.length + 1 := length_insert _ _ _ _ _
  have hfew := hrecorded.few
  obtain ⟨n, hn, f, hfind, -⟩ := QueryCache.pruneToBudget_spec (s := inserted) budget hpos (by omega)
  have hrun : runCache (ops ++ [.put modelKey query vector created now budget]) =
      inserted.pruneToBudget budget := by
    rw [runCache, List.foldl_append]
    rfl
  -- what a key has in the end it has after the insertion
  have hinsertFind : ∀ key, inserted.find? key = if (modelKey, normalizeQueryText query) = key then
      some { rowid := s.nextRowid, modelKey := modelKey, queryText := normalizeQueryText query,
             dim := vector.length, vector := floatBytes vector, createdAt := nowIso8601 created,
             lastAccessed := now }
      else s.find? key := fun key => find?_insert _ _ _ _ _ key
  refine ⟨fun hties t => ?_, fun k hk t => ?_, hafter.few, fun k k' hin hout hkept => ?_⟩
  · -- the row inserted is the newest
    set new : CachedQuery :=
      { rowid := s.nextRowid, modelKey := modelKey, queryText := normalizeQueryText query,
        dim := vector.length, vector := floatBytes vector, createdAt := nowIso8601 created,
        lastAccessed := now } with hnew
    have hnewFind : inserted.find? (modelKey, normalizeQueryText query) = some new := by
      rw [hinsertFind, if_pos rfl]
    have hnewest : ∀ r ∈ inserted.table.rows, r ≠ new → r.age < new.age := by
      intro r hr hne
      have hr' : r ∈ s.table.rows ∧ r.key ≠ new.key := by
        rcases KeyedTable.mem_upsert.1 hr with h | h
        · exact absurd h hne
        · exact h
      have hused := hrecorded.used r hr'.1
      have hle : r.lastAccessed ≤ now := by
        rw [hused]
        exact lastUse_le hclock r.key now (by simp [CacheOp.readings])
      rw [CachedQuery.age, CachedQuery.age, Prod.Lex.toLex_lt_toLex, Prod.Lex.toLex_lt_toLex]
      rcases Nat.lt_or_eq_of_le hle with hlt | heq
      · exact .inl hlt
      · refine .inr ⟨heq, ?_⟩
        rcases lt_or_eq_of_le (hties r hr'.1 hr'.2 heq) with hlt | heq'
        · exact .inl hlt
        · exact .inr ⟨heq', Nat.lt_succ_of_le (le_foldr_max (List.mem_map_of_mem hr'.1))⟩
    have hlast := Ranking.length_le_ahead inserted.table.rows_nodup hnewest
    have hahead : n ≤ Ranking.ahead CachedQuery.age inserted.table.rows new := by omega
    rw [hrun, get_fst, hfind, hnewFind, Option.filter_some, if_pos (decide_eq_true hahead)]
    simp only [Option.map_some, decode_renumbered]
    rw [QueryCache.decode_floatBytes rfl rfl]
    rfl
  · rw [hrun, get_fst, get_fst, hfind, hinsertFind, if_neg (Ne.symm hk)]
    cases s.find? k with
    | none => exact .inr rfl
    | some r =>
      rw [Option.filter_some]
      split_ifs
      · exact .inl rfl
      · exact .inr rfl
  · rw [hrun, hfind] at hout hkept
    obtain ⟨r, hr⟩ : ∃ r, inserted.find? k = some r := by
      rw [hinsertFind]
      split_ifs with heq
      · exact ⟨_, rfl⟩
      · exact Option.isSome_iff_exists.1 (hin.resolve_left (Ne.symm heq))
    obtain ⟨r', hr'⟩ := Option.isSome_iff_exists.1 hkept
    obtain ⟨r'', hr'', -⟩ := Option.map_eq_some_iff.1 hr'
    obtain ⟨hr'', hstays⟩ := Option.filter_eq_some_iff.1 hr''
    rw [hr, Option.filter_some, Option.map_eq_none_iff] at hout
    have hgoes : Ranking.ahead CachedQuery.age inserted.table.rows r < n := by
      by_contra hle
      rw [if_pos (decide_eq_true (not_lt.1 hle))] at hout
      cases hout
    have hage := Ranking.lt_of_ahead_lt (hgoes.trans_le (of_decide_eq_true hstays))
    have hused := (hinserted r (KeyedTable.mem_of_find? hr)).1
    have hused'' := (hinserted r'' (KeyedTable.mem_of_find? hr'')).1
    rw [KeyedTable.key_of_find? hr] at hused
    rw [KeyedTable.key_of_find? hr''] at hused''
    rw [← hused, ← hused'']
    rcases Prod.Lex.toLex_lt_toLex.1 hage with hlt | ⟨heq, -⟩
    · exact hlt.le
    · exact heq.le

end Policy

/-- A budget that is not exceeded by bytes. -/
def roomyBudget : CacheBudget := ⟨10, 4096, 64, id, Function.injective_id⟩

def tightBudget : CacheBudget := ⟨1000, 4096, 1, id, Function.injective_id⟩

/-- A query is found under other blanks between its words. -/
theorem queryCache_policy_blanks :
    InsertionPolicy (runCache [.get "m" "list".toList 7])
      (runCache ([.get "m" "list".toList 7] ++ [.put "m" " reverse  list".toList [1, 2] 7 8 roomyBudget]))
      (lastUse ([.get "m" "list".toList 7] ++ [.put "m" " reverse  list".toList [1, 2] 7 8 roomyBudget]))
      ("m", normalizeQueryText " reverse  list".toList) [1, 2] 7 8 ∧
    ((runCache [.get "m" "list".toList 7, .put "m" " reverse  list".toList [1, 2] 7 8 roomyBudget]).get
      "m" (normalizeQueryText "reverse list ".toList) 9).1.toOption = some (some [1, 2]) :=
  ⟨queryCache_policy _ "m" " reverse  list".toList [1, 2] 7 8 roomyBudget
    (by unfold Clocked; decide), by decide +kernel⟩

/-- A key has no dimension: a vector of two components is found where one of a single component was put.
And when the seconds get one more digit, a row that was just put in is deleted before one that was used in
the same second and created before. -/
theorem queryCache_dimension_digits :
    ((runCache [.put "m" "q".toList [1] 1 1 roomyBudget, .put "m" "q".toList [2, 3] 2 2 roomyBudget]).get
      "m" (normalizeQueryText "q".toList) 3).1.toOption = some (some [2, 3]) ∧
    Clocked [.put "m" "a".toList [1] 9999999999 9999999999 roomyBudget, .get "m" "a".toList 10000000000,
      .put "m" "b".toList [2] 10000000000 10000000000 tightBudget] ∧
    ((runCache [.put "m" "a".toList [1] 9999999999 9999999999 roomyBudget,
      .get "m" "a".toList 10000000000, .put "m" "b".toList [2] 10000000000 10000000000 tightBudget]).get
        "m" (normalizeQueryText "b".toList) 10000000000).1.toOption = some none := by
  refine ⟨by decide +kernel, by unfold Clocked; decide, by decide +kernel⟩

end Greppy
