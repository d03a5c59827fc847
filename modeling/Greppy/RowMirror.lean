/-
**Copies of the rows of a table.**

A second table holds a copy of every row of a first one, in any order.  It is maintained by hand: when a row
goes, its copy is removed, and when one is written, its copy is added.  A copy is removed by its value, and
so it has to be computed from the row as it was.

* `RowMirror.remove` — the copies of some rows are removed;
* `RowMirror.perm_delete`, `RowMirror.perm_upsertWith` — **what is left are the copies of the rows that
  are left**, after a deletion and after an upsert;
* `RowMirror.filter_eq_singleton` — each row has one copy.
-/

import Greppy.KeyedTable
import Mathlib.Data.Multiset.AddSub

set_option autoImplicit false

namespace RowMirror

variable {α β : Type} [DecidableEq β] {image : α → β} {copies : List β}

def remove (image : α → β) (rows : List α) (copies : List β) : List β :=
  rows.foldl (fun copies a => copies.erase (image a)) copies

theorem perm_remove {rows rest : List α} (h : copies.Perm ((rows ++ rest).map image)) :
    (remove image rows copies).Perm (rest.map image) := by
  have hdiff : remove image rows copies = copies.diff (rows.map image) := by
    rw [List.diff_eq_foldl, List.foldl_map]
    rfl
  rw [hdiff]
  refine Multiset.coe_eq_coe.1 ?_
  rw [← Multiset.coe_sub, Multiset.coe_eq_coe.2 h, List.map_append, ← Multiset.coe_add,
    Multiset.add_comm, Multiset.add_sub_cancel_right]

theorem perm_delete {rows : List α} (h : copies.Perm (rows.map image)) (p : α → Bool) :
    (remove image (rows.filter p) copies).Perm ((rows.filter fun a => !p a).map image) :=
  perm_remove (h.trans ((List.filter_append_perm p rows).symm.map image))

/-- Writing a row: the copy of the row that is written over is removed, and the copy of what was written
is added. -/
theorem perm_upsertWith {κ : Type} [DecidableEq κ] {key : α → κ} {t : KeyedTable α key}
    {merge : α → α → α} (hmerge : ∀ r a, key r = key a → key (merge r a) = key a)
    (h : copies.Perm (t.rows.map image)) (a : α) :
    (remove image (t.find? (key a)).toList copies ++ [image (t.merged merge a)]).Perm
      ((t.upsertWith merge hmerge a).rows.map image) := by
  have hrest := perm_remove (h.trans ((t.perm_find?_append_filter (key a)).map image))
  -- both sides are the untouched copies and the one of the written row
  refine (List.perm_append_singleton _ _).trans ?_
  refine List.Perm.trans ?_ ((t.perm_upsertWith a).map image).symm
  rw [List.map_cons]
  exact hrest.cons _

omit [DecidableEq β] in
theorem filter_eq_singleton {ι : Type} [DecidableEq ι] {rows : List α} {id : α → ι} {id' : β → ι}
    (h : copies.Perm (rows.map image)) (hid : ∀ a, id' (image a) = id a)
    (hnodup : (rows.map id).Nodup) {a : α} (ha : a ∈ rows) :
    copies.filter (fun b => decide (id' b = id a)) = [image a] := by
  have hrows : rows.filter (fun b => decide (id b = id a)) = [a] := by
    let t : KeyedTable α id := ⟨rows, hnodup⟩
    rw [← t.toList_find? (id a), KeyedTable.find?_of_mem (t := t) ha]
    rfl
  have hfilter := h.filter fun b => decide (id' b = id a)
  rw [List.filter_map] at hfilter
  have hcongr : rows.filter ((fun b => decide (id' b = id a)) ∘ image) = [a] := by
    rw [← hrows]
    exact List.filter_congr fun b _ => by simp [hid]
  rw [hcongr, List.map_singleton] at hfilter
  exact List.perm_singleton.1 hfilter

end RowMirror
