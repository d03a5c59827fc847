/-
**How long an evidence pack lives.**

`ExpandPack` has the operations on the table of packs, one by one.  Here they are called one after the
other on a clock that does not go back, and the packs that were inserted are written down with the id they
were given.  An insertion deletes the expired packs first and so does a look-up, so that at any time the
table has the packs of this log which have not expired, and no others.

An id is the beginning of a hash.  An insertion tries sixteen of them and then gives up, which bounds how
often the same pack can be inserted in one second.

An expiry that does not fit the signed column wraps around; such packs are told apart by
`IssuedPack.Fits`, and nothing is said about them.
-/

import Greppy.ExpandRuns

set_option autoImplicit false

namespace Greppy

/-! ### Packs that were inserted -/

/-- A pack that was inserted, and the id it was given. -/
structure IssuedPack where
  clock : SystemTime
  pack : NewExpandPack
  id : String

namespace IssuedPack

def stored (i : IssuedPack) : ExpandPack := i.pack.stored i.clock i.id

/-- `now + max(ttl, 1)`. -/
def expiry (i : IssuedPack) : ℕ := i.clock.unixSecs + (max i.pack.ttlSecs 1).toNat

theorem one_le_ttl (pack : NewExpandPack) : 1 ≤ (max pack.ttlSecs 1).toNat := by
  have hmax : max pack.ttlSecs 1 = if pack.ttlSecs ≤ 1 then 1 else pack.ttlSecs := rfl
  rw [hmax]
  split
  · exact le_rfl
  · rename_i hlarge
    have hlt := UInt64.lt_iff_toNat_lt.1 (UInt64.not_le.1 hlarge)
    exact Nat.le_of_lt hlt

def Fits (i : IssuedPack) : Prop := i.expiry < 2 ^ 63

def Live (now : SystemTime) (i : IssuedPack) : Prop := now.unixSecs < i.expiry

theorem toNat_expiresAt (i : IssuedPack) : i.stored.expiresAt.toNat = min i.expiry (2 ^ 64 - 1) := by
  have hval : i.stored.expiresAt = saturatingAdd (unixNowSecs i.clock) (max i.pack.ttlSecs 1) := rfl
  rw [hval, saturatingAdd, toNat_unixNowSecs, UInt64.toNat_ofNat', expiry]
  omega

theorem fits_stored_iff {i : IssuedPack} : i.stored.Fits ↔ i.Fits := by
  rw [ExpandPack.Fits, toNat_expiresAt, Fits]
  omega

theorem live_stored_iff {i : IssuedPack} (hfits : i.Fits) {now : SystemTime} :
    i.stored.Live now ↔ i.Live now := by
  rw [ExpandPack.Live, UInt64.lt_iff_toNat_lt, toNat_unixNowSecs, toNat_expiresAt, Live]
  rw [Fits] at hfits
  omega

theorem Live.mono {i : IssuedPack} {now now' : SystemTime} (h : i.Live now')
    (hle : now.unixSecs ≤ now'.unixSecs) : i.Live now := by
  rw [Live] at h ⊢
  omega

end IssuedPack

/-! ### Insertions, look-ups and purges -/

/-- A call on the table of packs, and the time it is made. -/
inductive PackOp where
  | insert (clock : SystemTime) (pack : NewExpandPack)
  | lookUp (clock : SystemTime) (id : String)
  | purge (clock : SystemTime)

def PackOp.clock : PackOp → SystemTime
  | .insert clock _ | .lookUp clock _ | .purge clock => clock

def ClockForward (clocks : List SystemTime) : Prop :=
  clocks.Pairwise fun a b => a.unixSecs ≤ b.unixSecs

instance (clocks : List SystemTime) : Decidable (ClockForward clocks) :=
  inferInstanceAs (Decidable (clocks.Pairwise fun a b => a.unixSecs ≤ b.unixSecs))

/-- The table of packs, and the packs that were inserted, the newest one first. -/
structure PackLog where
  table : ExpandTable
  issued : List IssuedPack

namespace PackLog

variable (sha256 : List UInt8 → Vector UInt8 32) (json : JsonText)

def step (s : PackLog) : PackOp → PackLog
  | .insert clock pack =>
    match Store.insertExpandPack sha256 json clock pack s.table with
    | (.ok id, t) => ⟨t, ⟨clock, pack, id⟩ :: s.issued⟩
    | (.error _, t) => ⟨t, s.issued⟩
  | .lookUp clock id => ⟨(Store.getExpandPack json clock id s.table).2, s.issued⟩
  | .purge clock => ⟨(Store.pruneExpiredExpandPacksAt (unixNowSecs clock) s.table).2, s.issued⟩

/-- The calls, from the empty table on. -/
def run (ops : List PackOp) : PackLog := ops.foldl (step sha256 json) ⟨KeyedTable.empty, []⟩

/-! ### The table and the log -/

/-- The packs of the log that have not expired are in the table, and every row of the table is a pack of
the log. -/
structure Inv (s : PackLog) (now : SystemTime) : Prop where
  held : ∀ i ∈ s.issued, i.Fits → i.Live now → s.table.Holds json i.stored
  rows : ∀ row ∈ s.table.rows, ∃ i ∈ s.issued, rowToExpandPack json row = i.stored
  reads : ∀ i ∈ s.issued, IdReads i.id

variable {json}

variable {s : PackLog} {now : SystemTime} {i : IssuedPack}

theorem Inv.mono {now' : SystemTime} (h : s.Inv json now) (hle : now.unixSecs ≤ now'.unixSecs) :
    s.Inv json now' where
  held := fun i hi hfits hlive => h.held i hi hfits (hlive.mono hle)
  rows := h.rows
  reads := h.reads

theorem Inv.prune (h : s.Inv json now) :
    (⟨(Store.pruneExpiredExpandPacksAt (unixNowSecs now) s.table).2, s.issued⟩ : PackLog).Inv json
      now where
  held := by
    intro i hi hfits hlive
    exact holds_prune json (h.held i hi hfits hlive) ((IssuedPack.live_stored_iff hfits).2 hlive)
      (IssuedPack.fits_stored_iff.2 hfits)
  rows := fun row hrow => h.rows row (mem_prune.1 hrow).1
  reads := h.reads

theorem Inv.live_of_mem (h : s.Inv json now) {row : ExpandRow}
    (hrow : row ∈ (Store.pruneExpiredExpandPacksAt (unixNowSecs now) s.table).2.rows) :
    ∃ i ∈ s.issued, rowToExpandPack json row = i.stored ∧ i.Fits ∧ i.Live now := by
  obtain ⟨hmem, hlater⟩ := mem_prune.1 hrow
  obtain ⟨i, hi, hread⟩ := h.rows row hmem
  have hexpires : row.expiresAt = i.stored.expiresAt.toInt64 := by
    rw [← hread, rowToExpandPack, Int64.toInt64_toUInt64]
  rw [hexpires] at hlater
  have hfits : i.stored.Fits := fits_of_not_expired hlater
  refine ⟨i, hi, hread, IssuedPack.fits_stored_iff.1 hfits, ?_⟩
  rw [expires_iff hfits, not_not] at hlater
  exact (IssuedPack.live_stored_iff (IssuedPack.fits_stored_iff.1 hfits)).1 hlater

/-- **A call keeps the invariant.** -/
theorem Inv.step (hjson : json.RoundTrips) (op : PackOp) (h : s.Inv json op.clock) :
    (s.step sha256 json op).Inv json op.clock := by
  cases op with
  | insert clock pack =>
    have hpruned := h.prune
    have hspec := insertExpandPack_spec sha256 hjson clock pack s.table
    simp only [PackLog.step]
    rcases hins : Store.insertExpandPack sha256 json clock pack s.table with ⟨result, t⟩
    rw [hins] at hspec
    rcases hspec with ⟨attempt, -, row, hid, hcandidate, hread, hrows⟩ | ⟨⟨e, he⟩, -, hrows⟩
    · simp only at hid hrows
      subst hid
      refine ⟨?_, ?_, ?_⟩
      · intro i hi hfits hlive
        rcases List.mem_cons.1 hi with rfl | hi
        · exact ⟨row, by rw [hrows]; simp, hread⟩
        · obtain ⟨old, hold, hsame⟩ := hpruned.held i hi hfits hlive
          exact ⟨old, by rw [hrows]; exact List.mem_append_left _ hold, hsame⟩
      · intro r hr
        rw [hrows] at hr
        rcases List.mem_append.1 hr with hr | hr
        · obtain ⟨i, hi, hsame⟩ := hpruned.rows r hr
          exact ⟨i, List.mem_cons_of_mem _ hi, hsame⟩
        · rw [List.mem_singleton.1 hr]
          exact ⟨_, List.mem_cons_self, hread⟩
      · intro i hi
        rcases List.mem_cons.1 hi with rfl | hi
        · exact hcandidate ▸ idReads_expandPackId sha256 pack _ attempt
        · exact h.reads i hi
    · simp only at he hrows
      subst he
      have hsame : t = (Store.pruneExpiredExpandPacksAt (unixNowSecs clock) s.table).2 :=
        KeyedTable.ext hrows
      rw [hsame]
      exact hpruned
  | lookUp clock id =>
    simp only [PackLog.step, Store.getExpandPack]
    split
    · exact h
    · exact h.prune
  | purge clock => exact h.prune

/-- **In every run the table has the packs that live.** -/
theorem inv_run (hjson : json.RoundTrips) (ops : List PackOp) (now : SystemTime)
    (h : ClockForward (ops.map PackOp.clock ++ [now])) : (run sha256 json ops).Inv json now := by
  induction ops using List.reverseRecOn generalizing now with
  | nil =>
    refine ⟨?_, ?_, ?_⟩
    · intro i hi
      cases hi
    · intro row hrow
      cases hrow
    · intro i hi
      cases hi
  | append_singleton ops op ih =>
    rw [ClockForward, List.map_append, List.map_singleton, List.pairwise_append] at h
    have hle : op.clock.unixSecs ≤ now.unixSecs := h.2.2 op.clock (by simp) now (by simp)
    rw [run, List.foldl_append]
    exact (Inv.step sha256 hjson op (ih op.clock h.1)).mono hle

/-! ### What the calls return -/

theorem Inv.kept (h : s.Inv json now) (hi : i ∈ s.issued) (hfits : i.Fits) (hlive : i.Live now)
    {text : String} (htext : trimWhitespace text.toList = i.id.toList) :
    (Store.getExpandPack json now text s.table).1 = some i.stored := by
  have hid : IdReads i.stored.id := h.reads i hi
  have hsame : Store.getExpandPack json now text s.table =
      Store.getExpandPack json now i.stored.id s.table := by
    have hown : String.ofList (trimWhitespace i.stored.id.toList) = String.ofList i.id.toList :=
      hid.1.trans (String.ofList_toList).symm
    unfold Store.getExpandPack
    rw [htext, hown]
  rw [hsame]
  exact getExpandPack_of_holds json (h.held i hi hfits hlive)
    ((IssuedPack.live_stored_iff hfits).2 hlive) (IssuedPack.fits_stored_iff.2 hfits) hid

theorem Inv.live_of_get (h : s.Inv json now) {text : String} {p : ExpandPack}
    (hget : (Store.getExpandPack json now text s.table).1 = some p) :
    ∃ i ∈ s.issued, p = i.stored ∧ i.Fits ∧ i.Live now := by
  unfold Store.getExpandPack at hget
  dsimp only at hget
  split at hget
  · cases hget
  · obtain ⟨row, hfound, rfl⟩ := Option.map_eq_some_iff.1 hget
    have hrow := KeyedTable.mem_of_find? (Option.filter_eq_some_iff.1 hfound).1
    exact h.live_of_mem hrow

theorem Inv.gone (h : s.Inv json now) (hfits : i.Fits) (hdead : ¬ i.Live now) (text : String) :
    (Store.getExpandPack json now text s.table).1 ≠ some i.stored := by
  intro hget
  obtain ⟨j, -, hsame, hjfits, hjlive⟩ := h.live_of_get hget
  have hexpiry := congrArg (fun p : ExpandPack => p.expiresAt.toNat) hsame
  simp only [IssuedPack.toNat_expiresAt] at hexpiry
  rw [IssuedPack.Live] at hdead hjlive
  rw [IssuedPack.Fits] at hfits hjfits
  omega

theorem Inv.fresh (hjson : json.RoundTrips) (h : s.Inv json now) {pack : NewExpandPack}
    {id : String} (hid : (Store.insertExpandPack sha256 json now pack s.table).1 = .ok id)
    (hi : i ∈ s.issued) (hfits : i.Fits) (hlive : i.Live now) : i.id ≠ id := by
  rcases insertExpandPack_spec sha256 hjson now pack s.table with
    ⟨attempt, -, row, hok, -, -, hrows⟩ | ⟨⟨e, he⟩, -⟩
  · obtain ⟨old, hold, hread⟩ := h.prune.held i hi hfits hlive
    have holdid : old.id = i.id := congrArg ExpandPack.id hread
    have hnodup := (Store.insertExpandPack sha256 json now pack s.table).2.keys_nodup
    rw [hrows, List.map_append, List.nodup_append] at hnodup
    have hne : old.id ≠ row.id :=
      hnodup.2.2 old.id (List.mem_map_of_mem hold) row.id (by simp)
    have hrowid : row.id = id := by
      rw [hok] at hid
      cases hid
      rfl
    rw [← holdid, ← hrowid]
    exact hne
  · rw [he] at hid
    cases hid

/-- A pack that has a text is refused when its sixteen ids belong to packs that live. -/
theorem Inv.refused (hjson : json.RoundTrips) (h : s.Inv json now) {pack : NewExpandPack}
    (htext : pack.HasText json) {e : String}
    (he : (Store.insertExpandPack sha256 json now pack s.table).1 = .error e) {attempt : ℕ}
    (hlt : attempt < 16) :
    ∃ i ∈ s.issued, i.Fits ∧ i.Live now ∧
      i.id = expandPackId sha256 pack (unixNowSecs now) attempt := by
  rcases insertExpandPack_spec sha256 hjson now pack s.table with
    ⟨-, -, row, hok, -⟩ | ⟨-, htaken, -⟩
  · rw [hok] at he
    cases he
  · obtain ⟨row, hrow, hid⟩ := htaken htext attempt hlt
    obtain ⟨i, hi, hread, hfits, hlive⟩ := h.live_of_mem hrow
    have hrowid : row.id = i.id := congrArg ExpandPack.id hread
    exact ⟨i, hi, hfits, hlive, hrowid.symm.trans hid⟩

variable (json)

/-- What the table of packs promises at a time. -/
structure PacksLive (s : PackLog) (now : SystemTime) : Prop where
  /-- A look-up before its expiry returns a pack as it was inserted. -/
  kept : ∀ i ∈ s.issued, i.Fits → i.Live now → ∀ text : String,
    trimWhitespace text.toList = i.id.toList →
    (Store.getExpandPack json now text s.table).1 = some i.stored
  /-- No look-up from its expiry on returns it. -/
  gone : ∀ i ∈ s.issued, i.Fits → ¬ i.Live now → ∀ text : String,
    (Store.getExpandPack json now text s.table).1 ≠ some i.stored
  /-- A pack that is inserted has an id of its own. -/
  fresh : ∀ pack id, (Store.insertExpandPack sha256 json now pack s.table).1 = .ok id →
    ∀ i ∈ s.issued, i.Fits → i.Live now → i.id ≠ id
  /-- An insertion fails when its sixteen ids are taken, and not otherwise. -/
  refused : ∀ pack e, NewExpandPack.HasText json pack →
    (Store.insertExpandPack sha256 json now pack s.table).1 = .error e →
    ∀ attempt < 16, ∃ i ∈ s.issued, i.Fits ∧ i.Live now ∧
      i.id = expandPackId sha256 pack (unixNowSecs now) attempt

end PackLog

section Repeated

variable (sha256 : List UInt8 → Vector UInt8 32) {json : JsonText} {clock : SystemTime}
  {pack : NewExpandPack}

/-- The same pack, inserted a number of times in one second. -/
def repeated (json : JsonText) (clock : SystemTime) (pack : NewExpandPack) (n : ℕ) : PackLog :=
  PackLog.run sha256 json (List.replicate n (.insert clock pack))

theorem inv_repeated (hjson : json.RoundTrips) (clock : SystemTime) (pack : NewExpandPack) (n : ℕ) :
    (repeated sha256 json clock pack n).Inv json clock := by
  refine PackLog.inv_run sha256 hjson _ clock ?_
  have hclocks : (List.replicate n (PackOp.insert clock pack)).map PackOp.clock ++ [clock] =
      List.replicate (n + 1) clock := by
    rw [List.map_replicate, List.replicate_succ']
    rfl
  rw [hclocks]
  exact List.pairwise_replicate.2 (.inr le_rfl)

theorem ids_repeated (hjson : json.RoundTrips)
    (hfits : clock.unixSecs + (max pack.ttlSecs 1).toNat < 2 ^ 63) (n : ℕ)
    (hall : ∀ k < n, ∃ id, (Store.insertExpandPack sha256 json clock pack
      (repeated sha256 json clock pack k).table).1 = .ok id) :
    (∀ i ∈ (repeated sha256 json clock pack n).issued, i.clock = clock ∧ i.pack = pack) ∧
    ((repeated sha256 json clock pack n).issued.map IssuedPack.id).Nodup ∧
    (repeated sha256 json clock pack n).issued.length = n ∧
    ∀ i ∈ (repeated sha256 json clock pack n).issued,
      i.id ∈ (List.range 16).map (expandPackId sha256 pack (unixNowSecs clock)) := by
  induction n with
  | zero =>
    refine ⟨?_, List.nodup_nil, rfl, ?_⟩
    · intro i hi
      cases hi
    · intro i hi
      cases hi
  | succ n ih =>
    obtain ⟨hsame, hnodup, hlen, hids⟩ := ih fun k hk => hall k (by omega)
    obtain ⟨id, hid⟩ := hall n (Nat.lt_succ_self n)
    have hinv := inv_repeated sha256 hjson clock pack n
    have hissued : (repeated sha256 json clock pack (n + 1)).issued =
        ⟨clock, pack, id⟩ :: (repeated sha256 json clock pack n).issued := by
      have hstep : repeated sha256 json clock pack (n + 1) =
          (repeated sha256 json clock pack n).step sha256 json (.insert clock pack) := by
        rw [repeated, List.replicate_succ', PackLog.run, List.foldl_append]
        rfl
      rw [hstep]
      simp only [PackLog.step]
      rcases hins : Store.insertExpandPack sha256 json clock pack
        (repeated sha256 json clock pack n).table with ⟨result, t⟩
      rw [hins] at hid
      simp only at hid
      subst hid
      rfl
    have hcandidate : id ∈ (List.range 16).map (expandPackId sha256 pack (unixNowSecs clock)) := by
      rcases insertExpandPack_spec sha256 hjson clock pack
        (repeated sha256 json clock pack n).table with ⟨a, ha, row, hok, hrow, -⟩ | ⟨⟨e, he⟩, -⟩
      · rw [hok] at hid
        cases hid
        exact List.mem_map.2 ⟨a, List.mem_range.2 ha, hrow.symm⟩
      · rw [he] at hid
        cases hid
    have hnew : ∀ i ∈ (repeated sha256 json clock pack n).issued, i.id ≠ id := by
      intro i hi
      obtain ⟨hclock, hpack⟩ := hsame i hi
      have hexpiry : i.expiry = clock.unixSecs + (max pack.ttlSecs 1).toNat := by
        rw [IssuedPack.expiry, hclock, hpack]
      have hone := IssuedPack.one_le_ttl pack
      refine hinv.fresh sha256 hjson hid hi ?_ ?_
      · rw [IssuedPack.Fits, hexpiry]
        exact hfits
      · rw [IssuedPack.Live, hexpiry]
        omega
    rw [hissued]
    refine ⟨?_, ?_, by simp [hlen], ?_⟩
    · intro i hi
      rcases List.mem_cons.1 hi with rfl | hi
      · exact ⟨rfl, rfl⟩
      · exact hsame i hi
    · rw [List.map_cons, List.nodup_cons]
      refine ⟨?_, hnodup⟩
      intro hmem
      obtain ⟨i, hi, heq⟩ := List.mem_map.1 hmem
      exact hnew i hi heq
    · intro i hi
      rcases List.mem_cons.1 hi with rfl | hi
      · exact hcandidate
      · exact hids i hi

/-- **The same pack is inserted at most sixteen times in one second.** -/
theorem sixteen_ids (hjson : json.RoundTrips)
    (hfits : clock.unixSecs + (max pack.ttlSecs 1).toNat < 2 ^ 63) {n : ℕ}
    (hall : ∀ k < n, ∃ id, (Store.insertExpandPack sha256 json clock pack
      (repeated sha256 json clock pack k).table).1 = .ok id) : n ≤ 16 := by
  obtain ⟨-, hnodup, hlen, hids⟩ := ids_repeated sha256 hjson hfits n hall
  have hsub : (repeated sha256 json clock pack n).issued.map IssuedPack.id ⊆
      (List.range 16).map (expandPackId sha256 pack (unixNowSecs clock)) := by
    intro id hid
    obtain ⟨i, hi, rfl⟩ := List.mem_map.1 hid
    exact hids i hi
  have hle := (hnodup.subperm hsub).length_le
  rw [List.length_map, hlen, List.length_map, List.length_range] at hle
  exact hle

end Repeated

end Greppy
