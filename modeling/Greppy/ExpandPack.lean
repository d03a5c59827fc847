/-
**Evidence packs in the store.**

A query command keeps the source evidence for its answer in the table `expand_packs` and prints the id of
the pack; `greppy expand <id>` shows it later.  A pack lives for a number of seconds.  The id is the
beginning of a hash over the pack, the time and the number of the attempt, so that two packs may ask for
the same id; then the second takes the next attempt.

Times are `u64` in the program and `i64` in the table.  A time to live that leads beyond the `i64` gives
a negative time in the table, and such a pack has expired from the start.

The hash function, and the text form of JSON values, are given from outside.
-/

import Greppy.Json
import Greppy.KeyedTable
import Greppy.RustStr
import Greppy.SystemClock
import Greppy.Utf8

set_option autoImplicit false

namespace Greppy

/-! ### Packs and rows -/

/-- `serde_json::to_string` and `serde_json::from_str`, of JSON values. -/
structure JsonText where
  toText : Json → Except String String
  ofText : String → Option Json

/-- A value that has a text is read back from it. -/
def JsonText.RoundTrips (json : JsonText) : Prop :=
  ∀ v text, json.toText v = .ok text → json.ofText text = some v

structure NewExpandPack where
  project : String
  command : String
  query : String
  graphGeneration : UInt64
  summaryJson : Json
  payloadText : String
  payloadJson : Option Json
  ttlSecs : UInt64
deriving DecidableEq

structure ExpandPack where
  id : String
  project : String
  command : String
  query : String
  graphGeneration : UInt64
  createdAt : UInt64
  expiresAt : UInt64
  summaryJson : Json
  payloadText : String
  payloadJson : Option Json
deriving DecidableEq

/-- A row of `expand_packs`. -/
structure ExpandRow where
  id : String
  project : String
  command : String
  query : String
  graphGeneration : Int64
  createdAt : Int64
  expiresAt : Int64
  summaryJson : String
  payloadText : String
  payloadJson : Option String

/-- The table `expand_packs`. -/
abbrev ExpandTable : Type := KeyedTable ExpandRow ExpandRow.id

def unixNowSecs (now : SystemTime) : UInt64 := UInt64.ofNat now.unixSecs

/-- `u64::saturating_add`. -/
def saturatingAdd (a b : UInt64) : UInt64 := UInt64.ofNat (min (a.toNat + b.toNat) (2 ^ 64 - 1))

/-! ### The id of a pack -/

/-- `u64::to_le_bytes`. -/
def leU64 (n : UInt64) : List UInt8 := (List.range 8).map fun k => UInt8.ofNat (n.toNat / 256 ^ k)

/-- A digit of `{:02x}`. -/
def hexDigit (n : ℕ) : Char := if n < 10 then Char.ofNat (48 + n) else Char.ofNat (87 + n)

/-- `format!("{b:02x}")` for each byte. -/
def hexText (bytes : List UInt8) : List Char :=
  bytes.flatMap fun b => [hexDigit (b.toNat / 16), hexDigit (b.toNat % 16)]

variable (sha256 : List UInt8 → Vector UInt8 32) (json : JsonText)

def expandPackId (pack : NewExpandPack) (now : UInt64) (attempt : ℕ) : String :=
  let bytes := Utf8.encode pack.project.toList ++ [0] ++ Utf8.encode pack.command.toList ++ [0] ++
    Utf8.encode pack.query.toList ++ [0] ++ leU64 pack.graphGeneration ++ leU64 now ++
    [UInt8.ofNat attempt] ++ Utf8.encode pack.payloadText.toList
  String.ofList (hexText ((sha256 bytes).toList.take 8))

/-! ### The operations of the store -/

/-- `prune_expired_expand_packs_at`: the number of rows deleted, and the table. -/
def Store.pruneExpiredExpandPacksAt (now : UInt64) (t : ExpandTable) : ℕ × ExpandTable :=
  let kept := t.filter fun row => !decide (row.expiresAt ≤ now.toInt64)
  (t.rows.length - kept.rows.length, kept)

/-- `INSERT OR IGNORE`: the number of rows inserted, and the table. -/
def insertOrIgnore (row : ExpandRow) (t : ExpandTable) : ℕ × ExpandTable :=
  (if (t.find? row.id).isSome then 0 else 1,
    t.upsertWith (fun old _ => old) (fun _ _ h => h) row)

/-- The attempts of `insert_expand_pack` to find a free id. -/
def insertAttempts (row : ℕ → ExpandRow) : List ℕ → ExpandTable → Except String String × ExpandTable
  | [], t => (.error "could not allocate unique expand pack id after 16 attempts", t)
  | attempt :: attempts, t =>
    let (inserted, t) := insertOrIgnore (row attempt) t
    if inserted = 1 then (.ok (row attempt).id, t) else insertAttempts row attempts t

/-- `Option::map(to_string)` and `transpose`. -/
def toTextOption : Option Json → Except String (Option String)
  | none => .ok none
  | some v => (json.toText v).map some

/-- `insert_expand_pack`, with the text of an `Error::Store`. -/
def Store.insertExpandPack (clock : SystemTime) (pack : NewExpandPack) (t : ExpandTable) :
    Except String String × ExpandTable :=
  let now := unixNowSecs clock
  let expiresAt := saturatingAdd now (max pack.ttlSecs 1)
  let (_, t) := Store.pruneExpiredExpandPacksAt now t
  match json.toText pack.summaryJson with
  | .error e => (.error ("serialize expand summary: " ++ e), t)
  | .ok summaryJson =>
    match toTextOption json pack.payloadJson with
    | .error e => (.error ("serialize expand payload JSON: " ++ e), t)
    | .ok payloadJson =>
      insertAttempts
        (fun attempt =>
          { id := expandPackId sha256 pack now attempt
            project := pack.project
            command := pack.command
            query := pack.query
            graphGeneration := pack.graphGeneration.toInt64
            createdAt := now.toInt64
            expiresAt := expiresAt.toInt64
            summaryJson := summaryJson
            payloadText := pack.payloadText
            payloadJson := payloadJson })
        (List.range 16) t

def rowToExpandPack (row : ExpandRow) : ExpandPack where
  id := row.id
  project := row.project
  command := row.command
  query := row.query
  graphGeneration := row.graphGeneration.toUInt64
  createdAt := row.createdAt.toUInt64
  expiresAt := row.expiresAt.toUInt64
  summaryJson := (json.ofText row.summaryJson).getD .null
  payloadText := row.payloadText
  payloadJson := row.payloadJson.bind json.ofText

def Store.getExpandPack (clock : SystemTime) (id : String) (t : ExpandTable) :
    Option ExpandPack × ExpandTable :=
  let id := String.ofList (trimWhitespace id.toList)
  if id = "" then (none, t)
  else
    let now := unixNowSecs clock
    let (_, t) := Store.pruneExpiredExpandPacksAt now t
    (((t.find? id).filter fun row => decide (now.toInt64 < row.expiresAt)).map
      (rowToExpandPack json), t)

structure ExpandHandle where
  id : String
  summary : String

def expandSummaryText (summary : Json) : String :=
  ((summary.get "text").bind Json.asStr).getD "evidence pack"

/-- `insert_expand_pack_best_effort`: what is given to the user, and the table. -/
def insertExpandPackBestEffort (clock : SystemTime) (pack : NewExpandPack) (t : ExpandTable) :
    Option ExpandHandle × ExpandTable :=
  if trimWhitespace pack.payloadText.toList = [] then (none, t)
  else
    match Store.insertExpandPack sha256 json clock pack t with
    | (.ok id, t) => (some ⟨id, expandSummaryText pack.summaryJson⟩, t)
    | (.error _, t) => (none, t)

/-- The pack that an insertion makes of the data it is given. -/
def NewExpandPack.stored (pack : NewExpandPack) (clock : SystemTime) (id : String) : ExpandPack where
  id := id
  project := pack.project
  command := pack.command
  query := pack.query
  graphGeneration := pack.graphGeneration
  createdAt := unixNowSecs clock
  expiresAt := saturatingAdd (unixNowSecs clock) (max pack.ttlSecs 1)
  summaryJson := pack.summaryJson
  payloadText := pack.payloadText
  payloadJson := pack.payloadJson

/-! ### Times in the table -/

/-- The time has not come at which the pack expires. -/
def ExpandPack.Live (clock : SystemTime) (p : ExpandPack) : Prop :=
  unixNowSecs clock < p.expiresAt

instance (clock : SystemTime) (p : ExpandPack) : Decidable (p.Live clock) :=
  inferInstanceAs (Decidable (unixNowSecs clock < p.expiresAt))

/-- The time at which the pack expires is positive in the table. -/
def ExpandPack.Fits (p : ExpandPack) : Prop := p.expiresAt.toNat < 2 ^ 63

instance (p : ExpandPack) : Decidable p.Fits :=
  inferInstanceAs (Decidable (p.expiresAt.toNat < 2 ^ 63))

theorem toInt_toInt64_of_lt {n : UInt64} (h : n.toNat < 2 ^ 63) : n.toInt64.toInt = n.toNat := by
  have hbits : n.toInt64.toInt = n.toBitVec.toInt := rfl
  have hnat : n.toBitVec.toNat = n.toNat := rfl
  rw [hbits, BitVec.toInt_eq_toNat_of_lt (by omega), hnat]

theorem toNat_unixNowSecs (clock : SystemTime) : (unixNowSecs clock).toNat = clock.unixSecs := by
  have hlt := unixSecs_lt clock
  rw [unixNowSecs, UInt64.toNat_ofNat']
  omega

variable {clock : SystemTime} {p : ExpandPack} {t : ExpandTable}

/-- For times that fit, the comparison in the table is the one of the program. -/
theorem expires_iff (hfits : p.Fits) :
    p.expiresAt.toInt64 ≤ (unixNowSecs clock).toInt64 ↔ ¬ p.Live clock := by
  have hnow : (unixNowSecs clock).toNat < 2 ^ 63 := by
    rw [toNat_unixNowSecs]
    exact unixSecs_lt clock
  rw [ExpandPack.Live, Int64.le_iff_toInt_le, toInt_toInt64_of_lt hfits, toInt_toInt64_of_lt hnow,
    UInt64.lt_iff_toNat_lt]
  omega

theorem fits_of_not_expired (h : ¬ p.expiresAt.toInt64 ≤ (unixNowSecs clock).toInt64) : p.Fits := by
  have hnow : (unixNowSecs clock).toNat < 2 ^ 63 := by
    rw [toNat_unixNowSecs]
    exact unixSecs_lt clock
  rw [Int64.le_iff_toInt_le, toInt_toInt64_of_lt hnow] at h
  have hbits : p.expiresAt.toInt64.toInt = p.expiresAt.toBitVec.toInt := rfl
  have hnat : p.expiresAt.toBitVec.toNat = p.expiresAt.toNat := rfl
  rw [hbits, BitVec.toInt_eq_toNat_cond, hnat] at h
  have hlt := p.expiresAt.toNat_lt
  rw [ExpandPack.Fits]
  split at h <;> omega

theorem ExpandPack.Live.mono {clock' : SystemTime} (h : p.Live clock')
    (hle : clock.unixSecs ≤ clock'.unixSecs) : p.Live clock := by
  rw [ExpandPack.Live, UInt64.lt_iff_toNat_lt, toNat_unixNowSecs] at h ⊢
  omega

/-! ### What the id looks like -/

theorem hexDigit_not_whitespace {n : ℕ} (h : n < 16) : isWhitespace (hexDigit n) = false := by
  have hall : ∀ k : Fin 16, isWhitespace (hexDigit k) = false := by decide
  exact hall ⟨n, h⟩

theorem hexText_not_whitespace (bytes : List UInt8) : ∀ c ∈ hexText bytes, isWhitespace c = false := by
  intro c hc
  obtain ⟨b, -, hc⟩ := List.mem_flatMap.1 hc
  have hb : b.toNat < 256 := b.toNat_lt
  simp only [List.mem_cons, List.not_mem_nil, or_false] at hc
  rcases hc with rfl | rfl
  · exact hexDigit_not_whitespace (by omega)
  · exact hexDigit_not_whitespace (by omega)

/-- The id is a text that `get_expand_pack` looks up as it is. -/
def IdReads (id : String) : Prop := String.ofList (trimWhitespace id.toList) = id ∧ id ≠ ""

theorem idReads_expandPackId (pack : NewExpandPack) (now : UInt64) (attempt : ℕ) :
    IdReads (expandPackId sha256 pack now attempt) := by
  have hreads : ∀ digest : Vector UInt8 32,
      IdReads (String.ofList (hexText (digest.toList.take 8))) := by
    intro digest
    constructor
    · rw [String.toList_ofList, trimWhitespace_eq_self (hexText_not_whitespace _)]
    · intro hempty
      have hlen : (hexText (digest.toList.take 8)).length = 16 := by
        rw [hexText, List.length_flatMap]
        simp
      have hnil := congrArg (fun s : String => s.toList.length) hempty
      rw [String.toList_ofList, hlen] at hnil
      exact absurd hnil (by decide)
  exact hreads _

/-! ### The effect of the operations -/

/-- The table has a row that reads as the pack. -/
def ExpandTable.Holds (json : JsonText) (t : ExpandTable) (p : ExpandPack) : Prop :=
  ∃ row ∈ t.rows, rowToExpandPack json row = p

theorem mem_prune {row : ExpandRow} :
    row ∈ (Store.pruneExpiredExpandPacksAt (unixNowSecs clock) t).2.rows ↔
      row ∈ t.rows ∧ ¬ row.expiresAt ≤ (unixNowSecs clock).toInt64 := by
  rw [Store.pruneExpiredExpandPacksAt, KeyedTable.rows_filter, List.mem_filter, Bool.not_eq_true',
    decide_eq_false_iff_not]

theorem not_expired {row : ExpandRow} (hlive : p.Live clock) (hfits : p.Fits)
    (hrow : rowToExpandPack json row = p) : ¬ row.expiresAt ≤ (unixNowSecs clock).toInt64 := by
  have hexp : row.expiresAt = p.expiresAt.toInt64 := by
    rw [← hrow, rowToExpandPack, Int64.toInt64_toUInt64]
  rw [hexp, expires_iff hfits]
  exact fun h => h hlive

theorem holds_prune (h : t.Holds json p) (hlive : p.Live clock) (hfits : p.Fits) :
    (Store.pruneExpiredExpandPacksAt (unixNowSecs clock) t).2.Holds json p := by
  obtain ⟨row, hrow, hread⟩ := h
  exact ⟨row, mem_prune.2 ⟨hrow, not_expired json hlive hfits hread⟩, hread⟩

theorem insertOrIgnore_spec (row : ExpandRow) (t : ExpandTable) :
    ((insertOrIgnore row t).1 = 1 ∧ t.find? row.id = none ∧
        (insertOrIgnore row t).2.rows = t.rows ++ [row]) ∨
      ((insertOrIgnore row t).1 = 0 ∧ (∃ old ∈ t.rows, old.id = row.id) ∧
        (insertOrIgnore row t).2.rows = t.rows) := by
  unfold insertOrIgnore
  cases hfind : t.find? row.id with
  | none => exact .inl ⟨rfl, rfl, KeyedTable.rows_upsertWith_of_find?_none hfind⟩
  | some old =>
    refine .inr ⟨rfl, ⟨old, KeyedTable.find?_eq_some_iff.1 hfind⟩, ?_⟩
    rw [KeyedTable.rows_upsertWith_of_find? hfind]
    simp

theorem insertAttempts_cons (row : ℕ → ExpandRow) (a : ℕ) (attempts : List ℕ) (t : ExpandTable) :
    insertAttempts row (a :: attempts) t =
      if (insertOrIgnore (row a) t).1 = 1 then (.ok (row a).id, (insertOrIgnore (row a) t).2)
      else insertAttempts row attempts (insertOrIgnore (row a) t).2 := rfl

/-- One of the attempts adds its row, or all of them find their id taken. -/
theorem insertAttempts_spec (row : ℕ → ExpandRow) (attempts : List ℕ) (t : ExpandTable) :
    (∃ a ∈ attempts, (insertAttempts row attempts t).1 = .ok (row a).id ∧
        t.find? (row a).id = none ∧ (insertAttempts row attempts t).2.rows = t.rows ++ [row a]) ∨
      (∃ e, (insertAttempts row attempts t).1 = .error e) ∧
        (∀ a ∈ attempts, ∃ old ∈ t.rows, old.id = (row a).id) ∧
        (insertAttempts row attempts t).2.rows = t.rows := by
  induction attempts generalizing t with
  | nil => exact .inr ⟨⟨_, rfl⟩, by simp, rfl⟩
  | cons a attempts ih =>
    rw [insertAttempts_cons]
    rcases insertOrIgnore_spec (row a) t with ⟨hone, hfree, hrows⟩ | ⟨hzero, htaken, hrows⟩
    · rw [if_pos hone]
      exact .inl ⟨a, by simp, rfl, hfree, hrows⟩
    · rw [if_neg (by rw [hzero]; decide)]
      have hsame : (insertOrIgnore (row a) t).2 = t := KeyedTable.ext hrows
      rw [hsame]
      rcases ih t with ⟨b, hb, hrest⟩ | ⟨herror, hall, hrest⟩
      · exact .inl ⟨b, by simp [hb], hrest⟩
      · refine .inr ⟨herror, ?_, hrest⟩
        intro b hb
        rcases List.mem_cons.1 hb with rfl | hb
        · exact htaken
        · exact hall b hb

theorem ofText_toTextOption {json : JsonText} (hjson : json.RoundTrips) {v : Option Json}
    {text : Option String} (h : toTextOption json v = .ok text) : text.bind json.ofText = v := by
  cases v with
  | none =>
    cases h
    rfl
  | some v =>
    rw [toTextOption] at h
    cases hv : json.toText v with
    | error e => simp [hv, Except.map] at h
    | ok s =>
      rw [hv] at h
      cases h
      exact hjson v s hv

def NewExpandPack.HasText (json : JsonText) (pack : NewExpandPack) : Prop :=
  (∃ text, json.toText pack.summaryJson = .ok text) ∧
    ∃ text, toTextOption json pack.payloadJson = .ok text

/-- **An insertion that returns an id has added one row**, which reads as the pack it was given; any other
insertion adds nothing, and was not able to write the pack or found all ids taken.  Both leave what has not
expired. -/
theorem insertExpandPack_spec {json : JsonText} (hjson : json.RoundTrips) (clock : SystemTime)
    (pack : NewExpandPack) (t : ExpandTable) :
    (∃ attempt < 16, ∃ row, (Store.insertExpandPack sha256 json clock pack t).1 = .ok row.id ∧
        row.id = expandPackId sha256 pack (unixNowSecs clock) attempt ∧
        rowToExpandPack json row = pack.stored clock row.id ∧
        (Store.insertExpandPack sha256 json clock pack t).2.rows =
          (Store.pruneExpiredExpandPacksAt (unixNowSecs clock) t).2.rows ++ [row]) ∨
      (∃ e, (Store.insertExpandPack sha256 json clock pack t).1 = .error e) ∧
        (pack.HasText json → ∀ attempt < 16,
          ∃ row ∈ (Store.pruneExpiredExpandPacksAt (unixNowSecs clock) t).2.rows,
            row.id = expandPackId sha256 pack (unixNowSecs clock) attempt) ∧
        (Store.insertExpandPack sha256 json clock pack t).2.rows =
          (Store.pruneExpiredExpandPacksAt (unixNowSecs clock) t).2.rows := by
  unfold Store.insertExpandPack
  dsimp only
  cases hsummary : json.toText pack.summaryJson with
  | error e =>
    refine .inr ⟨⟨_, rfl⟩, ?_, rfl⟩
    rintro ⟨⟨text, htext⟩, -⟩
    rw [hsummary] at htext
    cases htext
  | ok summary =>
    cases hpayload : toTextOption json pack.payloadJson with
    | error e =>
      refine .inr ⟨⟨_, rfl⟩, ?_, rfl⟩
      rintro ⟨-, text, htext⟩
      rw [hpayload] at htext
      cases htext
    | ok payload =>
      dsimp only
      rcases insertAttempts_spec _ (List.range 16) _ with
        ⟨a, ha, hid, -, hrows⟩ | ⟨herror, htaken, hrows⟩
      · refine .inl ⟨a, List.mem_range.1 ha, _, hid, rfl, ?_, hrows⟩
        simp only [rowToExpandPack, NewExpandPack.stored, UInt64.toUInt64_toInt64,
          hjson _ _ hsummary, ofText_toTextOption hjson hpayload, Option.getD_some]
      · exact .inr ⟨herror, fun _ attempt h => htaken attempt (List.mem_range.2 h), hrows⟩

/-- The second table holds what has not expired in the first one. -/
def KeepsLive (json : JsonText) (clock : SystemTime) (t t' : ExpandTable) : Prop :=
  ∀ p : ExpandPack, p.Live clock → p.Fits → t.Holds json p → t'.Holds json p

theorem KeepsLive.refl (clock : SystemTime) (t : ExpandTable) : KeepsLive json clock t t :=
  fun _ _ _ h => h

theorem keepsLive_prune (clock : SystemTime) (t : ExpandTable) :
    KeepsLive json clock t (Store.pruneExpiredExpandPacksAt (unixNowSecs clock) t).2 :=
  fun _ hlive hfits h => holds_prune json h hlive hfits

theorem keepsLive_get (clock : SystemTime) (id : String) (t : ExpandTable) :
    KeepsLive json clock t (Store.getExpandPack json clock id t).2 := by
  unfold Store.getExpandPack
  dsimp only
  split
  · exact KeepsLive.refl json clock t
  · exact keepsLive_prune json clock t

/-- A pack is returned to the user only when the table holds it, and no insertion takes a live pack
away. -/
theorem insertExpandPackBestEffort_spec {json : JsonText} (hjson : json.RoundTrips)
    (clock : SystemTime) (pack : NewExpandPack) (t : ExpandTable) :
    KeepsLive json clock t (insertExpandPackBestEffort sha256 json clock pack t).2 ∧
      ∀ handle, (insertExpandPackBestEffort sha256 json clock pack t).1 = some handle →
        trimWhitespace pack.payloadText.toList ≠ [] ∧ IdReads handle.id ∧
        (insertExpandPackBestEffort sha256 json clock pack t).2.Holds json
          (pack.stored clock handle.id) := by
  unfold insertExpandPackBestEffort
  by_cases hblank : trimWhitespace pack.payloadText.toList = []
  · rw [if_pos hblank]
    exact ⟨KeepsLive.refl json clock t, fun handle h => by cases h⟩
  · rw [if_neg hblank]
    have hpruned : ∀ t' : ExpandTable,
        (∀ row ∈ (Store.pruneExpiredExpandPacksAt (unixNowSecs clock) t).2.rows, row ∈ t'.rows) →
        KeepsLive json clock t t' := by
      intro t' hsub p hlive hfits h
      obtain ⟨row, hrow, hread⟩ := holds_prune json h hlive hfits
      exact ⟨row, hsub row hrow, hread⟩
    rcases hins : Store.insertExpandPack sha256 json clock pack t with ⟨result, t'⟩
    have hspec := insertExpandPack_spec sha256 hjson clock pack t
    rw [hins] at hspec
    rcases hspec with ⟨attempt, -, row, hid, hcandidate, hread, hrows⟩ | ⟨⟨e, he⟩, -, hrows⟩
    · simp only at hid hrows
      subst hid
      have hreads : IdReads row.id := hcandidate ▸ idReads_expandPackId sha256 pack _ attempt
      refine ⟨hpruned t' fun r hr => by rw [hrows]; exact List.mem_append_left _ hr, ?_⟩
      intro handle hhandle
      cases hhandle
      exact ⟨hblank, hreads, row, by rw [hrows]; simp, hread⟩
    · simp only at he hrows
      subst he
      exact ⟨hpruned t' fun r hr => by rw [hrows]; exact hr, fun handle h => by cases h⟩

/-- **A pack that the table holds is found by its id, as it was inserted, until it expires.** -/
theorem getExpandPack_of_holds (h : t.Holds json p) (hlive : p.Live clock) (hfits : p.Fits)
    (hid : IdReads p.id) : (Store.getExpandPack json clock p.id t).1 = some p := by
  obtain ⟨row, hrow, hread⟩ := holds_prune json h hlive hfits
  have hrowid : row.id = p.id := by rw [← hread, rowToExpandPack]
  have hfind : (Store.pruneExpiredExpandPacksAt (unixNowSecs clock) t).2.find? p.id = some row :=
    KeyedTable.find?_eq_some_iff.2 ⟨hrow, hrowid⟩
  have hlater : (unixNowSecs clock).toInt64 < row.expiresAt :=
    Int64.not_le.1 (not_expired json hlive hfits hread)
  unfold Store.getExpandPack
  rw [hid.1, if_neg hid.2]
  dsimp only
  rw [hfind, Option.filter_some, if_pos (decide_eq_true hlater), Option.map_some, hread]

end Greppy
