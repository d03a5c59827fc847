/-
**Tables of rows with a unique key.**

A relational table with a primary key is a list of rows no two of which have the same key.  The
uniqueness is a field of the structure, so a table that violates its key cannot be built and no
later proof has to carry the fact along.

The three operations are the ones an embedded SQL database offers on such a table: look a row up by
key, `INSERT … ON CONFLICT(key) DO UPDATE` (an *upsert*, which either appends a row or merges it
into the one already there), and `DELETE … WHERE`.  Row order is insertion order; an upsert that
hits an existing row leaves the row where it is.

Main definitions:

* `KeyedTable` — a list of rows with pairwise distinct keys;
* `KeyedTable.find?`, `KeyedTable.upsertWith`, `KeyedTable.filter` — lookup, upsert and delete;
* `lastWrite` — the last of a list of writes to a key.

Main results:

* `KeyedTable.find?_eq_some_iff` — a lookup finds exactly the row with that key;
* `KeyedTable.find?_upsertWith`, `KeyedTable.find?_filter` — **what a lookup sees** after an upsert
  or a deletion;
* `KeyedTable.mem_upsertWith`, `KeyedTable.perm_upsertWith` — the rows after an upsert;
* `KeyedTable.perm_of_find?_eq` — two tables that answer every lookup alike hold the same rows;
* `lastWrite_append` — later writes win;
* `KeyedTable.find?_foldl_upsert` — what a lookup sees after a sequence of upserts.
-/

import Mathlib.Data.List.Induction
import Mathlib.Data.List.Nodup
import Mathlib.Data.List.Perm.Subperm

set_option autoImplicit false

/-- A table of rows of type `α` whose keys are pairwise distinct. -/
structure KeyedTable (α : Type) {κ : Type} (key : α → κ) where
  /-- The rows, in insertion order. -/
  rows : List α
  keys_nodup : (rows.map key).Nodup

namespace KeyedTable

variable {α κ : Type} {key : α → κ}

@[ext] theorem ext {t u : KeyedTable α key} (h : t.rows = u.rows) : t = u := by
  cases t
  cases u
  congr

/-- The table without rows. -/
def empty : KeyedTable α key := ⟨[], by simp⟩

@[simp] theorem rows_empty : (empty : KeyedTable α key).rows = [] := rfl

theorem eq_of_key_eq (t : KeyedTable α key) {a b : α} (ha : a ∈ t.rows) (hb : b ∈ t.rows)
    (h : key a = key b) : a = b :=
  List.inj_on_of_nodup_map t.keys_nodup ha hb h

theorem rows_nodup (t : KeyedTable α key) : t.rows.Nodup := t.keys_nodup.of_map

/-! ### Deletion -/

/-- The rows that satisfy `p`: what `DELETE … WHERE NOT p` leaves. -/
def filter (p : α → Bool) (t : KeyedTable α key) : KeyedTable α key :=
  ⟨t.rows.filter p, (List.filter_sublist.map key).nodup t.keys_nodup⟩

@[simp] theorem rows_filter (p : α → Bool) (t : KeyedTable α key) :
    (t.filter p).rows = t.rows.filter p := rfl

section Lookup

variable [DecidableEq κ]

/-! ### Lookup -/

/-- The row with key `k`, if there is one. -/
def find? (t : KeyedTable α key) (k : κ) : Option α :=
  t.rows.find? fun r => decide (key r = k)

@[simp] theorem find?_empty (k : κ) : (empty : KeyedTable α key).find? k = none := rfl

variable {t : KeyedTable α key} {k : κ} {a : α}

theorem find?_eq_some_iff : t.find? k = some a ↔ a ∈ t.rows ∧ key a = k := by
  constructor
  · intro h
    exact ⟨List.mem_of_find?_eq_some h, by simpa using List.find?_some h⟩
  · rintro ⟨ha, rfl⟩
    cases hf : t.find? (key a) with
    | none =>
      have := List.find?_eq_none.1 hf a ha
      simp at this
    | some b =>
      have hb : b ∈ t.rows := List.mem_of_find?_eq_some hf
      have hk : key b = key a := by simpa using List.find?_some hf
      rw [t.eq_of_key_eq hb ha hk]

theorem find?_eq_none_iff : t.find? k = none ↔ ∀ a ∈ t.rows, key a ≠ k := by
  simp [find?, List.find?_eq_none]

theorem find?_of_mem (h : a ∈ t.rows) : t.find? (key a) = some a :=
  find?_eq_some_iff.2 ⟨h, rfl⟩

theorem mem_of_find? (h : t.find? k = some a) : a ∈ t.rows :=
  (find?_eq_some_iff.1 h).1

theorem key_of_find? (h : t.find? k = some a) : key a = k :=
  (find?_eq_some_iff.1 h).2

theorem find?_filter (t : KeyedTable α key) (p : α → Bool) (k : κ) :
    (t.filter p).find? k = (t.find? k).filter p := by
  ext a
  simp only [find?_eq_some_iff, rows_filter, List.mem_filter, Option.filter_eq_some_iff]
  tauto

/-- A key has one row at most, and so a lookup finds every row that has it. -/
theorem toList_find? (t : KeyedTable α key) (k : κ) :
    (t.find? k).toList = t.rows.filter fun r => decide (key r = k) := by
  obtain ⟨rows, hnodup⟩ := t
  induction rows with
  | nil => rfl
  | cons r rows ih =>
    rw [List.map_cons, List.nodup_cons] at hnodup
    by_cases hr : key r = k
    · have hrest : rows.filter (fun s => decide (key s = k)) = [] := by
        refine List.filter_eq_nil_iff.2 fun s hs => ?_
        rw [decide_eq_true_eq, ← hr]
        exact fun hsr => hnodup.1 (hsr ▸ List.mem_map_of_mem hs)
      rw [find?, List.find?_cons_of_pos (by simpa using hr),
        List.filter_cons_of_pos (by simpa using hr), hrest]
      rfl
    · rw [find?, List.find?_cons_of_neg (by simpa using hr),
        List.filter_cons_of_neg (by simpa using hr)]
      exact ih hnodup.2

/-- Two tables that answer every lookup alike hold the same rows, in some order. -/
theorem perm_of_find?_eq {u : KeyedTable α key} (h : ∀ k, t.find? k = u.find? k) :
    t.rows.Perm u.rows := by
  refine (List.perm_ext_iff_of_nodup t.rows_nodup u.rows_nodup).2 fun a => ?_
  have ha := h (key a)
  constructor
  · intro hm
    exact mem_of_find? (ha ▸ find?_of_mem hm)
  · intro hm
    exact mem_of_find? (ha ▸ find?_of_mem hm)

/-! ### Upsert -/

/-- Writing `merge r a` over each row `r` that shares the key of `a` keeps the keys. -/
private theorem map_key_merge (merge : α → α → α)
    (hmerge : ∀ r a, key r = key a → key (merge r a) = key a) (a : α) (l : List α) :
    (l.map fun r => if key r = key a then merge r a else r).map key = l.map key := by
  rw [List.map_map]
  refine List.map_congr_left fun r _ => ?_
  by_cases h : key r = key a
  · simp [h, hmerge r a h]
  · simp [h]

/-- `INSERT a ON CONFLICT(key) DO UPDATE`: the row with the key of `a` becomes `merge row a`; when
no row has that key, `a` is appended. -/
def upsertWith (merge : α → α → α) (hmerge : ∀ r a, key r = key a → key (merge r a) = key a)
    (a : α) (t : KeyedTable α key) : KeyedTable α key :=
  if h : (t.find? (key a)).isSome then
    ⟨t.rows.map fun r => if key r = key a then merge r a else r, by
      rw [map_key_merge merge hmerge]
      exact t.keys_nodup⟩
  else
    ⟨t.rows ++ [a], by
      have hnone : ∀ r ∈ t.rows, key r ≠ key a := find?_eq_none_iff.1 (by simpa using h)
      rw [List.map_append, List.nodup_append]
      refine ⟨t.keys_nodup, by simp, ?_⟩
      intro x hx y hy
      obtain ⟨r, hr, rfl⟩ := List.mem_map.1 hx
      simp only [List.map_cons, List.map_nil, List.mem_singleton] at hy
      rw [hy]
      exact hnone r hr⟩

/-- `INSERT OR REPLACE`: the upsert that overwrites the whole row. -/
def upsert (a : α) (t : KeyedTable α key) : KeyedTable α key :=
  t.upsertWith (fun _ new => new) (fun _ _ _ => rfl) a

variable {merge : α → α → α} {hmerge : ∀ r a, key r = key a → key (merge r a) = key a}

variable {t : KeyedTable α key} {a : α}

theorem rows_upsertWith_of_find? {r : α} (h : t.find? (key a) = some r) :
    (t.upsertWith merge hmerge a).rows =
      t.rows.map fun r => if key r = key a then merge r a else r := by
  unfold upsertWith
  rw [dif_pos (by simp [h])]

theorem rows_upsertWith_of_find?_none (h : t.find? (key a) = none) :
    (t.upsertWith merge hmerge a).rows = t.rows ++ [a] := by
  unfold upsertWith
  rw [dif_neg (by simp [h])]

/-- The row an upsert of `a` leaves under the key of `a`. -/
def merged (merge : α → α → α) (t : KeyedTable α key) (a : α) : α :=
  match t.find? (key a) with
  | some r => merge r a
  | none => a

theorem key_merged (hmerge : ∀ r a, key r = key a → key (merge r a) = key a)
    (t : KeyedTable α key) (a : α) : key (t.merged merge a) = key a := by
  unfold merged
  cases h : t.find? (key a) with
  | none => rfl
  | some r => exact hmerge r a (key_of_find? h)

/-- The rows after an upsert: the merged row, and the rows with other keys. -/
theorem mem_upsertWith {b : α} :
    b ∈ (t.upsertWith merge hmerge a).rows ↔
      b = t.merged merge a ∨ (b ∈ t.rows ∧ key b ≠ key a) := by
  cases h : t.find? (key a) with
  | none =>
    rw [rows_upsertWith_of_find?_none h, List.mem_append, List.mem_singleton]
    have hnone := find?_eq_none_iff.1 h
    have hm : t.merged merge a = a := by simp [merged, h]
    rw [hm]
    constructor
    · rintro (hb | rfl)
      · exact Or.inr ⟨hb, hnone b hb⟩
      · exact Or.inl rfl
    · rintro (rfl | ⟨hb, _⟩)
      · exact Or.inr rfl
      · exact Or.inl hb
  | some r =>
    obtain ⟨hr, hk⟩ := find?_eq_some_iff.1 h
    have hm : t.merged merge a = merge r a := by simp [merged, h]
    rw [rows_upsertWith_of_find? h, List.mem_map, hm]
    constructor
    · rintro ⟨s, hs, rfl⟩
      by_cases hsk : key s = key a
      · left
        rw [if_pos hsk, t.eq_of_key_eq hs hr (hsk.trans hk.symm)]
      · right
        rw [if_neg hsk]
        exact ⟨hs, hsk⟩
    · rintro (rfl | ⟨hb, hbk⟩)
      · exact ⟨r, hr, by rw [if_pos hk]⟩
      · exact ⟨b, hb, by rw [if_neg hbk]⟩

theorem mem_upsert {b : α} : b ∈ (t.upsert a).rows ↔ b = a ∨ (b ∈ t.rows ∧ key b ≠ key a) := by
  have hmerged : t.merged (fun _ new => new) a = a := by
    unfold merged
    cases t.find? (key a) with
    | none => rfl
    | some r => rfl
  unfold upsert
  rw [mem_upsertWith, hmerged]

/-- **What a lookup sees after an upsert.** -/
theorem find?_upsertWith (t : KeyedTable α key) (a : α) (k : κ) :
    (t.upsertWith merge hmerge a).find? k =
      if key a = k then some (t.merged merge a) else t.find? k := by
  have hkey := key_merged hmerge t a
  ext b
  simp only [find?_eq_some_iff, mem_upsertWith]
  by_cases h : key a = k
  · rw [if_pos h]
    simp only [Option.some.injEq]
    constructor
    · rintro ⟨rfl | ⟨_, hb⟩, hk⟩
      · rfl
      · exact absurd (hk.trans h.symm) hb
    · rintro rfl
      exact ⟨Or.inl rfl, hkey.trans h⟩
  · rw [if_neg h, find?_eq_some_iff]
    constructor
    · rintro ⟨rfl | ⟨hb, _⟩, hk⟩
      · exact absurd (hkey.symm.trans hk) h
      · exact ⟨hb, hk⟩
    · rintro ⟨hb, hk⟩
      exact ⟨Or.inr ⟨hb, fun he => h (he.symm.trans hk)⟩, hk⟩

/-- A table is the row under a key, if there is one, and the rows under the other keys. -/
theorem perm_find?_append_filter (t : KeyedTable α key) (k : κ) :
    t.rows.Perm ((t.find? k).toList ++ (t.filter fun r => decide (key r ≠ k)).rows) := by
  cases h : t.find? k with
  | none =>
    have hnone := find?_eq_none_iff.1 h
    have hfilter : t.rows.filter (fun r => decide (key r ≠ k)) = t.rows :=
      List.filter_eq_self.2 fun r hr => by simpa using hnone r hr
    rw [rows_filter, hfilter]
    exact List.Perm.refl _
  | some a =>
    obtain ⟨ha, hk⟩ := find?_eq_some_iff.1 h
    have hnodup : (a :: (t.filter fun r => decide (key r ≠ k)).rows).Nodup := by
      refine List.nodup_cons.2 ⟨?_, (t.filter _).rows_nodup⟩
      simp [hk]
    refine (List.perm_ext_iff_of_nodup t.rows_nodup hnodup).2 fun b => ?_
    simp only [List.mem_cons, rows_filter, List.mem_filter, decide_eq_true_eq]
    constructor
    · intro hb
      by_cases hbk : key b = k
      · exact Or.inl (t.eq_of_key_eq hb ha (hbk.trans hk.symm))
      · exact Or.inr ⟨hb, hbk⟩
    · rintro (rfl | ⟨hb, _⟩)
      · exact ha
      · exact hb

/-- The rows after an upsert, as a multiset: the merged row, and the rows under the other keys. -/
theorem perm_upsertWith (t : KeyedTable α key) (a : α) :
    (t.upsertWith merge hmerge a).rows.Perm
      (t.merged merge a :: (t.filter fun r => decide (key r ≠ key a)).rows) := by
  have hfilter : ((t.upsertWith merge hmerge a).filter fun r => decide (key r ≠ key a)).rows.Perm
      (t.filter fun r => decide (key r ≠ key a)).rows := by
    refine perm_of_find?_eq fun k => ?_
    rw [find?_filter, find?_filter, find?_upsertWith]
    by_cases hk : key a = k
    · have hold : (t.find? k).filter (fun r => decide (key r ≠ key a)) = none := by
        refine Option.filter_eq_none_iff.2 fun r hr => ?_
        simp [key_of_find? hr, hk]
      rw [if_pos hk, hold]
      simp [key_merged hmerge t a]
    · rw [if_neg hk]
  have hsplit := perm_find?_append_filter (t.upsertWith merge hmerge a) (key a)
  rw [find?_upsertWith, if_pos rfl] at hsplit
  exact hsplit.trans (List.Perm.append_left _ hfilter)

@[simp] theorem find?_upsert (t : KeyedTable α key) (a : α) (k : κ) :
    (t.upsert a).find? k = if key a = k then some a else t.find? k := by
  have hm : t.merged (fun _ new => new) a = a := by
    unfold merged
    cases t.find? (key a) <;> rfl
  rw [upsert, find?_upsertWith, hm]

theorem length_upsert (t : KeyedTable α key) (a : α) :
    0 < (t.upsert a).rows.length ∧ (t.upsert a).rows.length ≤ t.rows.length + 1 := by
  have hperm : (t.upsert a).rows.Perm
      (t.merged (fun _ new => new) a :: (t.filter fun r => decide (key r ≠ key a)).rows) :=
    perm_upsertWith t a
  have hle : (t.filter fun r => decide (key r ≠ key a)).rows.length ≤ t.rows.length :=
    List.length_filter_le _ _
  rw [hperm.length_eq, List.length_cons]
  omega

/-! ### Tables from lists -/

/-- Insert the rows of a list one after the other, a later one overwriting an earlier one with the
same key: how a list of pairs is collected into a map. -/
def ofList (l : List α) : KeyedTable α key := l.foldl (fun t a => t.upsert a) empty

private theorem rows_foldl_upsert {l : List α} (t : KeyedTable α key) (hl : (l.map key).Nodup)
    (ht : ∀ a ∈ l, ∀ r ∈ t.rows, key r ≠ key a) :
    (l.foldl (fun t a => t.upsert a) t).rows = t.rows ++ l := by
  induction l generalizing t with
  | nil => simp
  | cons a l ih =>
    rw [List.map_cons, List.nodup_cons] at hl
    obtain ⟨ha, hl⟩ := hl
    have hrows : (t.upsert a).rows = t.rows ++ [a] :=
      rows_upsertWith_of_find?_none (find?_eq_none_iff.2 (ht a (by simp)))
    rw [List.foldl_cons, ih (t.upsert a) hl, hrows, List.append_assoc, List.singleton_append]
    intro b hb r hr
    rw [hrows, List.mem_append, List.mem_singleton] at hr
    rcases hr with hr | rfl
    · exact ht b (by simp [hb]) r hr
    · exact fun h => ha (h ▸ List.mem_map_of_mem hb)

theorem rows_ofList {l : List α} (hl : (l.map key).Nodup) :
    (ofList l : KeyedTable α key).rows = l := by
  simpa [ofList] using rows_foldl_upsert (empty : KeyedTable α key) hl (by simp)

end Lookup

/-! ### Updating every row -/

/-- `UPDATE … SET`: rewrite every row without touching its key. -/
def mapRows (f : α → α) (hf : ∀ a, key (f a) = key a) (t : KeyedTable α key) :
    KeyedTable α key :=
  ⟨t.rows.map f, by
    have : (t.rows.map f).map key = t.rows.map key := by
      rw [List.map_map]
      exact List.map_congr_left fun a _ => hf a
    rw [this]
    exact t.keys_nodup⟩

theorem find?_mapRows [DecidableEq κ] (f : α → α) (hf : ∀ a, key (f a) = key a)
    (t : KeyedTable α key) (k : κ) : (t.mapRows f hf).find? k = (t.find? k).map f := by
  simp only [find?, mapRows, List.find?_map]
  congr 2
  funext a
  simp [hf]

end KeyedTable

/-! ### Sequences of writes -/

section LastWrite

variable {α κ : Type} [DecidableEq κ] (key : α → κ)

/-- The last of the writes `l` that goes to the key `k`. -/
def lastWrite (l : List α) (k : κ) : Option α := l.reverse.find? fun a => decide (key a = k)

@[simp] theorem lastWrite_nil (k : κ) : lastWrite key [] k = none := rfl

@[simp] theorem lastWrite_singleton (a : α) (k : κ) :
    lastWrite key [a] k = if key a = k then some a else none := by
  by_cases h : key a = k <;> simp [lastWrite, h]

theorem lastWrite_append (l l' : List α) (k : κ) :
    lastWrite key (l ++ l') k = (lastWrite key l' k).or (lastWrite key l k) := by
  rw [lastWrite, List.reverse_append, List.find?_append]
  rfl

variable {key}

variable {l : List α} {k : κ} {a : α}

theorem mem_of_lastWrite (h : lastWrite key l k = some a) : a ∈ l ∧ key a = k := by
  have hkey := List.find?_some h
  exact ⟨List.mem_reverse.1 (List.mem_of_find?_eq_some h), of_decide_eq_true hkey⟩

theorem lastWrite_eq_none_iff : lastWrite key l k = none ↔ k ∉ l.map key := by
  simp [lastWrite, List.find?_eq_none]

theorem exists_lastWrite (key : α → κ) (h : a ∈ l) : ∃ b, lastWrite key l (key a) = some b := by
  rw [← Option.isSome_iff_exists, Option.isSome_iff_ne_none]
  intro hnone
  exact lastWrite_eq_none_iff.1 hnone (List.mem_map_of_mem h)

/-- Where no key is written twice, every write is the last. -/
theorem lastWrite_of_nodup (hl : (l.map key).Nodup) (h : a ∈ l) :
    lastWrite key l (key a) = some a := by
  obtain ⟨b, hb⟩ := exists_lastWrite key h
  obtain ⟨hmem, hkey⟩ := mem_of_lastWrite hb
  rw [hb, List.inj_on_of_nodup_map hl hmem h hkey]

/-- The last write through a map, to a key that the map tells apart. -/
theorem lastWrite_map (key : α → κ) {β μ : Type} [DecidableEq μ] {f : α → β} {key' : β → μ} {k' : μ}
    (h : ∀ a ∈ l, key' (f a) = k' ↔ key a = k) :
    lastWrite key' (l.map f) k' = (lastWrite key l k).map f := by
  induction l using List.reverseRecOn with
  | nil => rfl
  | append_singleton l a ih =>
    have ih' := ih fun b hb => h b (List.mem_append_left _ hb)
    have ha := h a (List.mem_append_right _ (List.mem_singleton.2 rfl))
    rw [List.map_append, List.map_singleton, lastWrite_append, lastWrite_append,
      lastWrite_singleton, lastWrite_singleton, ih']
    by_cases hk : key a = k
    · rw [if_pos hk, if_pos (ha.2 hk)]
      rfl
    · rw [if_neg hk, if_neg fun hk' => hk (ha.1 hk')]
      rfl

/-- Writes to other keys do not matter. -/
theorem lastWrite_filter {p : α → Bool} (h : ∀ a ∈ l, key a = k → p a = true) :
    lastWrite key (l.filter p) k = lastWrite key l k := by
  unfold lastWrite
  rw [← List.filter_reverse, List.find?_filter]
  induction l using List.reverseRecOn with
  | nil => rfl
  | append_singleton l a ih =>
    have ih' := ih fun b hb => h b (List.mem_append_left _ hb)
    have ha := h a (List.mem_append_right _ (List.mem_singleton.2 rfl))
    rw [List.reverse_append, List.reverse_singleton, List.singleton_append, List.find?_cons,
      List.find?_cons, ih']
    by_cases hk : key a = k
    · simp [hk, ha hk]
    · simp [hk]

/-- The last write, if it is kept, is the last of those that are kept. -/
theorem lastWrite_filter_of_some {p : α → Bool} (h : lastWrite key l k = some a) (ha : p a = true) :
    lastWrite key (l.filter p) k = some a := by
  unfold lastWrite at h ⊢
  rw [← List.filter_reverse, List.find?_filter]
  obtain ⟨hk, front, back, happ, hnot⟩ := List.find?_eq_some_iff_append.1 h
  refine List.find?_eq_some_iff_append.2 ⟨?_, front, back, happ, fun b hb => ?_⟩
  · rw [ha, hk]
    rfl
  · have hb' := hnot b hb
    simp only [Bool.not_eq_true'] at hb'
    simp [hb']

/-- The last write to a key is the last to any narrower key that it goes to. -/
theorem lastWrite_of_narrower {μ : Type} [DecidableEq μ] {key' : α → μ} {k' : μ}
    (h : lastWrite key l k = some a) (hnarrow : ∀ b, key' b = k' → key b = k) (ha : key' a = k') :
    lastWrite key' l k' = some a := by
  unfold lastWrite at h ⊢
  obtain ⟨-, front, back, happ, hnot⟩ := List.find?_eq_some_iff_append.1 h
  refine List.find?_eq_some_iff_append.2 ⟨decide_eq_true ha, front, back, happ, fun b hb => ?_⟩
  have hb' := hnot b hb
  simp only [Bool.not_eq_true', decide_eq_false_iff_not] at hb' ⊢
  exact fun hk => hb' (hnarrow b hk)

/-- **What a lookup sees after a sequence of upserts.** -/
theorem KeyedTable.find?_foldl_upsert (l : List α) (t : KeyedTable α key) (k : κ) :
    (l.foldl (fun t a => t.upsert a) t).find? k = (lastWrite key l k).or (t.find? k) := by
  induction l using List.reverseRecOn with
  | nil => rfl
  | append_singleton l a ih =>
    rw [List.foldl_append, List.foldl_cons, List.foldl_nil, KeyedTable.find?_upsert, ih, lastWrite_append,
      lastWrite_singleton]
    by_cases hk : key a = k
    · rw [if_pos hk, if_pos hk]
      rfl
    · rw [if_neg hk, if_neg hk]
      rfl

end LastWrite
