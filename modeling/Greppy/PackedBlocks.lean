/-
**Packed blocks.**

For the vector kernels the blocks of eight weight rows are packed into one, and the blocks of four
activation rows into another.  The values are laid out in runs of eight, one run for each row in turn, so
that two registers' worth of a packed block hold the same positions of two rows.  The scales and minimums
of `Q4_K` are decoded, the six bits of `Q6_K` are put together, and the sums of the activations are laid
out in runs of four.  A single activation row is packed as four copies of itself.
-/

import Greppy.KQuants

set_option autoImplicit false

namespace Matmul

open Checked Cells

/-! ### The layouts -/

structure BlockQ4Kx8Vnni where
  d : Vector Float32 8
  dmin : Vector Float32 8
  scales : Vector (Vector UInt8 8) 8
  mins : Vector (Vector UInt8 8) 8
  qs : Vector UInt8 1024
deriving Inhabited

structure BlockQ6Kx8 where
  d : Vector Float32 8
  scales : Vector (Vector Int8 8) 16
  qs : Vector UInt8 2048
deriving Inhabited

structure BlockQ8Kx4 where
  d : Vector Float32 4
  qs : Vector Int8 1024
  bsums : Vector Int16 64
deriving Inhabited

/-- The packed block of the blocks `src`. -/
structure BlockQ4Kx8Vnni.Packs (dst : BlockQ4Kx8Vnni) (toF32 : F16 → Float32) (src : ℕ → BlockQ4K) :
    Prop where
  d : ∀ row < 8, cell dst.d row = toF32 (src row).d
  dmin : ∀ row < 8, cell dst.dmin row = toF32 (src row).dmin
  scales : ∀ g < 8, ∀ row < 8, ((cell₂ dst.scales (g, row)).toNat : ℤ) = (src row).scale g
  mins : ∀ g < 8, ∀ row < 8, ((cell₂ dst.mins (g, row)).toNat : ℤ) = (src row).min g
  qs : ∀ k < 1024, cell dst.qs k = cell (src (k / 8 % 8)).qs (k / 64 * 8 + k % 8)

/-- The packed block of the blocks `src`. -/
structure BlockQ6Kx8.Packs (dst : BlockQ6Kx8) (toF32 : F16 → Float32) (src : ℕ → BlockQ6K) : Prop where
  d : ∀ row < 8, cell dst.d row = toF32 (src row).d
  scales : ∀ g < 16, ∀ row < 8, cell₂ dst.scales (g, row) = cell (src row).scales g
  qs : ∀ k < 2048, cell dst.qs k = (src (k / 8 % 8)).code (k / 64 * 8 + k % 8)

/-- The packed block of the blocks `src`. -/
structure BlockQ8Kx4.Packs (dst : BlockQ8Kx4) (src : ℕ → BlockQ8K) : Prop where
  d : ∀ row < 4, cell dst.d row = (src row).d
  qs : ∀ k < 1024, cell dst.qs k = cell (src (k / 8 % 4)).qs (k / 32 * 8 + k % 8)
  bsums : ∀ k < 64, cell dst.bsums k = cell (src (k / 4 % 4)).bsums (k / 16 * 4 + k % 4)

/-! ### Packing the blocks of some rows -/

/-- `dst.scales` and `dst.mins`. -/
def packScalesMins (src : Vector BlockQ4K 8) :
    Option (Vector (Vector UInt8 8) 8 × Vector (Vector UInt8 8) 8) :=
  loop 8 (fun row => loop 8 fun quantGroup dst => do
    let (scales, mins) := decodeQ4KScalesMins (cell src row).scales
    let scale ← scales[quantGroup]?
    let min ← mins[quantGroup]?
    let dst ← onFst (setCell₂ · quantGroup row scale) dst
    onSnd (setCell₂ · quantGroup row min) dst)
    (Vector.replicate 8 (Vector.replicate 8 0), Vector.replicate 8 (Vector.replicate 8 0))

/-- `dst.qs` of `pack_to_q4kx8_vnni`. -/
def packQsQ4K (src : Vector BlockQ4K 8) : Option (Vector UInt8 1024) :=
  loop 128 (fun interleave qs =>
    let row := interleave % 8
    let sourceOffset := interleave / 8 * 8
    copySlice qs (interleave * 8) (cell src row).qs sourceOffset 8) (Vector.replicate 1024 0)

/-- One turn of `pack_to_q4kx8_vnni`. -/
def packBlockQ4K (toF32 : F16 → Float32) (src : Vector BlockQ4K 8) : Option BlockQ4Kx8Vnni := do
  let (scales, mins) ← packScalesMins src
  let qs ← packQsQ4K src
  some ⟨src.map fun x => toF32 x.d, src.map fun x => toF32 x.dmin, scales, mins, qs⟩

/-- `dst.scales` of `pack_to_q6kx8`. -/
def packScalesQ6K (src : Vector BlockQ6K 8) : Option (Vector (Vector Int8 8) 16) :=
  loop 8 (fun row => loop 16 fun quantGroup dst => do
    let scale ← (cell src row).scales[quantGroup]?
    setCell₂ dst quantGroup row scale) (Vector.replicate 16 (Vector.replicate 8 0))

/-- `dst.qs` of `pack_to_q6kx8`. -/
def packQsQ6K (decoded : Vector (Vector UInt8 256) 8) : Option (Vector UInt8 2048) :=
  loop 32 (fun chunk => loop 8 fun row qs =>
    let dstOffset := (chunk * 8 + row) * 8
    copySlice qs dstOffset (cell decoded row) (chunk * 8) 8) (Vector.replicate 2048 0)

/-- One turn of `pack_to_q6kx8`. -/
def packBlockQ6K (toF32 : F16 → Float32) (src : Vector BlockQ6K 8) : Option BlockQ6Kx8 := do
  let decoded ← fromFn 8 fun row => decodeQ6K id (cell src row)
  let scales ← packScalesQ6K src
  let qs ← packQsQ6K decoded
  some ⟨src.map fun x => toF32 x.d, scales, qs⟩

/-- `packed.qs` of the blocks of four rows. -/
def packQsQ8K (src : Vector BlockQ8K 4) : Option (Vector Int8 1024) :=
  loop 32 (fun chunk => loop 4 fun row qs =>
    let srcOffset := chunk * 8
    let dstOffset := (chunk * 4 + row) * 8
    copySlice qs dstOffset (cell src row).qs srcOffset 8) (Vector.replicate 1024 0)

/-- `packed.bsums` of the blocks of four rows. -/
def packBsums (src : Vector BlockQ8K 4) : Option (Vector Int16 64) :=
  loop 4 (fun quarter => loop 4 fun row bsums =>
    let srcOffset := quarter * 4
    let dstOffset := quarter * 16 + row * 4
    copySlice bsums dstOffset (cell src row).bsums srcOffset 4) (Vector.replicate 64 0)

/-- One turn of `pack_q8kx4_rows`, and with the same block four times of `pack_q8kx4_repeated`. -/
def packBlockQ8K (src : Vector BlockQ8K 4) : Option BlockQ8Kx4 := do
  let qs ← packQsQ8K src
  let bsums ← packBsums src
  some ⟨src.map BlockQ8K.d, qs, bsums⟩

/-! ### Packing rows -/

/-- `std::array::from_fn(|row| &blocks[(group * 8 + row) * row_blocks + block])`. -/
def gatherBlocks {α : Type} [Inhabited α] (blocks : List α) (rowBlocks group block : ℕ) :
    Option (Vector α 8) := fromFn 8 fun row => blocks[(group * 8 + row) * rowBlocks + block]?

/-- The loops of `pack_to_q4kx8_vnni` and `pack_to_q6kx8` over the groups of eight rows and their blocks,
with what is done in one turn. -/
def packRows {α β : Type} [Inhabited α] (packBlock : Vector α 8 → Option β) (blocks : List α)
    (rows : ℕ) : Option (List β) :=
  if rows = 0 ∨ rows % 8 ≠ 0 then some []
  else do
    let rowBlocks := blocks.length / rows
    let packed ← (List.range (rows / 8)).mapM fun group => (List.range rowBlocks).mapM fun block => do
      let src ← gatherBlocks blocks rowBlocks group block
      packBlock src
    some packed.flatten

def packToQ4Kx8Vnni (toF32 : F16 → Float32) (blocks : List BlockQ4K) (rows : ℕ) :
    Option (List BlockQ4Kx8Vnni) := packRows (packBlockQ4K toF32) blocks rows

def packToQ6Kx8 (toF32 : F16 → Float32) (blocks : List BlockQ6K) (rows : ℕ) :
    Option (List BlockQ6Kx8) := packRows (packBlockQ6K toF32) blocks rows

def packQ8Kx4Rows (rows : Vector (List BlockQ8K) 4) : Option (List BlockQ8Kx4) :=
  (List.range (cell rows 0).length).mapM fun block => do
    let src ← fromFn 4 fun row => (cell rows row)[block]?
    packBlockQ8K src

def packQ8Kx4Repeated (row : List BlockQ8K) : Option (List BlockQ8Kx4) :=
  row.mapM fun src => packBlockQ8K (Vector.replicate 4 src)

/-! ### The packed values -/

theorem cell_map {α β : Type} [Inhabited α] [Inhabited β] {n : ℕ} (f : α → β) (a : Vector α n) {i : ℕ}
    (h : i < n) : cell (a.map f) i = f (cell a i) := by
  simp [cell_eq_getElem _ h]

theorem packScalesMins_spec (src : Vector BlockQ4K 8) :
    ∃ scales mins, packScalesMins src = some (scales, mins) ∧
      ∀ g < 8, ∀ row < 8,
        cell₂ scales (g, row) = cell (decodeQ4KScalesMins (cell src row).scales).1 g ∧
        cell₂ mins (g, row) = cell (decodeQ4KScalesMins (cell src row).scales).2 g := by
  let v : (ℕ × ℕ) ⊕ (ℕ × ℕ) → UInt8 := Sum.elim
    (fun k => cell (decodeQ4KScalesMins (cell src k.2).scales).1 k.1)
    fun k => cell (decodeQ4KScalesMins (cell src k.2).scales).2 k.1
  have hturn (row : ℕ) (hrow : row < 8) (g : ℕ) (hg : g < 8) : Writes
      (readPair (cell₂ (α := UInt8) (n := 8) (m := 8)) (cell₂ (α := UInt8) (n := 8) (m := 8)))
      (fun dst => do
        let scale ← (decodeQ4KScalesMins (cell src row).scales).1[g]?
        let min ← (decodeQ4KScalesMins (cell src row).scales).2[g]?
        let dst ← onFst (setCell₂ · g row scale) dst
        onSnd (setCell₂ · g row min) dst)
      (fun k => k = .inl (g, row) ∨ k = .inr (g, row)) v := by
    refine Writes.bind (getElem?_eq_cell _ hg) (Writes.bind (getElem?_eq_cell _ hg) ?_)
    have hscale := Writes.onFst (cell₂ (α := UInt8) (n := 8) (m := 8)) (v ∘ .inr)
      (writes_setCell₂ (n := 8) (m := 8) (v := v ∘ .inl) hg hrow rfl)
    have hmin := Writes.onSnd (cell₂ (α := UInt8) (n := 8) (m := 8)) (v ∘ .inl)
      (writes_setCell₂ (n := 8) (m := 8) (v := v ∘ .inr) hg hrow rfl)
    rw [Sum.elim_comp_inl_inr] at hscale hmin
    refine (hscale.andThen hmin).congr ?_
    rintro (k | k)
    · simp
    · simp
  obtain ⟨⟨scales, mins⟩, hrun, hcells, -⟩ :=
    Writes.forLoop (fun row hrow => Writes.forLoop fun g hg => hturn row hrow g hg)
      (Vector.replicate 8 (Vector.replicate 8 0), Vector.replicate 8 (Vector.replicate 8 0))
  refine ⟨scales, mins, hrun, fun g hg row hrow => ⟨?_, ?_⟩⟩
  · exact hcells (.inl (g, row)) ⟨row, hrow, g, hg, .inl rfl⟩
  · exact hcells (.inr (g, row)) ⟨row, hrow, g, hg, .inr rfl⟩

theorem packQsQ4K_spec (src : Vector BlockQ4K 8) :
    ∃ qs, packQsQ4K src = some qs ∧
      ∀ k < 1024, cell qs k = cell (cell src (k / 8 % 8)).qs (k / 64 * 8 + k % 8) := by
  obtain ⟨qs, hrun, hcells, -⟩ := Writes.forLoop (n := 128) (f := fun interleave qs =>
      copySlice qs (interleave * 8) (cell src (interleave % 8)).qs (interleave / 8 * 8) 8)
    (fun interleave h => writes_copySlice (n := 1024)
      (v := fun k => cell (cell src (k / 8 % 8)).qs (k / 64 * 8 + k % 8)) (by omega) (by omega)
      fun t ht => by
        have hrow : (interleave * 8 + t) / 8 % 8 = interleave % 8 := by omega
        have hoff : (interleave * 8 + t) / 64 * 8 + (interleave * 8 + t) % 8 = interleave / 8 * 8 + t := by
          omega
        rw [hrow, hoff]) (Vector.replicate 1024 0)
  exact ⟨qs, hrun, fun k hk => hcells k ⟨k / 8, by omega, by omega, by omega⟩⟩

theorem packBlockQ4K_spec (toF32 : F16 → Float32) (src : Vector BlockQ4K 8) :
    ∃ dst, packBlockQ4K toF32 src = some dst ∧ dst.Packs toF32 (cell src) := by
  obtain ⟨scales, mins, hscales, hcells⟩ := packScalesMins_spec src
  obtain ⟨qs, hqs, hvalues⟩ := packQsQ4K_spec src
  refine ⟨⟨src.map fun x => toF32 x.d, src.map fun x => toF32 x.dmin, scales, mins, qs⟩, ?_, ?_⟩
  · rw [packBlockQ4K, hscales]
    simp only [Option.bind_eq_bind, Option.bind_some, hqs]
  · constructor
    case d => exact fun row hrow => cell_map _ src hrow
    case dmin => exact fun row hrow => cell_map _ src hrow
    case scales =>
      intro g hg row hrow
      rw [(hcells g hg row hrow).1, BlockQ4K.scale]
    case mins =>
      intro g hg row hrow
      rw [(hcells g hg row hrow).2, BlockQ4K.min]
    case qs => exact hvalues

theorem packScalesQ6K_spec (src : Vector BlockQ6K 8) :
    ∃ scales, packScalesQ6K src = some scales ∧
      ∀ g < 16, ∀ row < 8, cell₂ scales (g, row) = cell (cell src row).scales g := by
  obtain ⟨scales, hrun, hcells, -⟩ := Writes.forLoop (n := 8) (f := fun row => loop 16
      fun quantGroup dst => do
        let scale ← (cell src row).scales[quantGroup]?
        setCell₂ dst quantGroup row scale)
    (fun row hrow => Writes.forLoop fun g hg => Writes.bind (getElem?_eq_cell _ hg)
      (writes_setCell₂ (n := 16) (m := 8) (v := fun k => cell (cell src k.2).scales k.1) hg hrow rfl))
    (Vector.replicate 16 (Vector.replicate 8 0))
  exact ⟨scales, hrun, fun g hg row hrow => hcells (g, row) ⟨row, hrow, g, hg, rfl⟩⟩

theorem packQsQ6K_spec (decoded : Vector (Vector UInt8 256) 8) :
    ∃ qs, packQsQ6K decoded = some qs ∧
      ∀ k < 2048, cell qs k = cell (cell decoded (k / 8 % 8)) (k / 64 * 8 + k % 8) := by
  obtain ⟨qs, hrun, hcells, -⟩ := Writes.forLoop (n := 32) (f := fun chunk => loop 8 fun row qs =>
      copySlice qs ((chunk * 8 + row) * 8) (cell decoded row) (chunk * 8) 8)
    (fun chunk hchunk => Writes.forLoop fun row hrow => writes_copySlice (n := 2048)
      (v := fun k => cell (cell decoded (k / 8 % 8)) (k / 64 * 8 + k % 8)) (by omega) (by omega)
      fun t ht => by
        have hsrc : ((chunk * 8 + row) * 8 + t) / 8 % 8 = row := by omega
        have hoff : ((chunk * 8 + row) * 8 + t) / 64 * 8 + ((chunk * 8 + row) * 8 + t) % 8 =
            chunk * 8 + t := by omega
        rw [hsrc, hoff]) (Vector.replicate 2048 0)
  exact ⟨qs, hrun, fun k hk => hcells k ⟨k / 64, by omega, k / 8 % 8, by omega, by omega, by omega⟩⟩

theorem packBlockQ6K_spec (toF32 : F16 → Float32) (src : Vector BlockQ6K 8) :
    ∃ dst, packBlockQ6K toF32 src = some dst ∧ dst.Packs toF32 (cell src) := by
  choose decode hdecode hcode using fun x => decodeQ6K_spec (id : UInt8 → UInt8) x
  obtain ⟨decoded, hdecoded, hrows⟩ := fromFn_spec (n := 8)
    (f := fun row => decodeQ6K id (cell src row)) fun row _ => hdecode (cell src row)
  obtain ⟨scales, hscales, hcells⟩ := packScalesQ6K_spec src
  obtain ⟨qs, hqs, hvalues⟩ := packQsQ6K_spec decoded
  refine ⟨⟨src.map fun x => toF32 x.d, scales, qs⟩, ?_, ?_⟩
  · rw [packBlockQ6K, hdecoded]
    simp only [Option.bind_eq_bind, Option.bind_some, hscales, hqs]
  · constructor
    case d => exact fun row hrow => cell_map _ src hrow
    case scales => exact hcells
    case qs =>
      intro k hk
      rw [hvalues k hk, hrows _ (by omega), hcode _ _ (by omega)]
      rfl

theorem packQsQ8K_spec (src : Vector BlockQ8K 4) :
    ∃ qs, packQsQ8K src = some qs ∧
      ∀ k < 1024, cell qs k = cell (cell src (k / 8 % 4)).qs (k / 32 * 8 + k % 8) := by
  obtain ⟨qs, hrun, hcells, -⟩ := Writes.forLoop (n := 32) (f := fun chunk => loop 4 fun row qs =>
      copySlice qs ((chunk * 4 + row) * 8) (cell src row).qs (chunk * 8) 8)
    (fun chunk hchunk => Writes.forLoop fun row hrow => writes_copySlice (n := 1024)
      (v := fun k => cell (cell src (k / 8 % 4)).qs (k / 32 * 8 + k % 8)) (by omega) (by omega)
      fun t ht => by
        have hsrc : ((chunk * 4 + row) * 8 + t) / 8 % 4 = row := by omega
        have hoff : ((chunk * 4 + row) * 8 + t) / 32 * 8 + ((chunk * 4 + row) * 8 + t) % 8 =
            chunk * 8 + t := by omega
        rw [hsrc, hoff]) (Vector.replicate 1024 0)
  exact ⟨qs, hrun, fun k hk => hcells k ⟨k / 32, by omega, k / 8 % 4, by omega, by omega, by omega⟩⟩

theorem packBsums_spec (src : Vector BlockQ8K 4) :
    ∃ bsums, packBsums src = some bsums ∧
      ∀ k < 64, cell bsums k = cell (cell src (k / 4 % 4)).bsums (k / 16 * 4 + k % 4) := by
  obtain ⟨bsums, hrun, hcells, -⟩ := Writes.forLoop (n := 4) (f := fun quarter => loop 4
      fun row bsums => copySlice bsums (quarter * 16 + row * 4) (cell src row).bsums (quarter * 4) 4)
    (fun quarter hquarter => Writes.forLoop fun row hrow => writes_copySlice (n := 64)
      (v := fun k => cell (cell src (k / 4 % 4)).bsums (k / 16 * 4 + k % 4)) (by omega) (by omega)
      fun t ht => by
        have hsrc : (quarter * 16 + row * 4 + t) / 4 % 4 = row := by omega
        have hoff : (quarter * 16 + row * 4 + t) / 16 * 4 + (quarter * 16 + row * 4 + t) % 4 =
            quarter * 4 + t := by omega
        rw [hsrc, hoff]) (Vector.replicate 64 0)
  exact ⟨bsums, hrun, fun k hk => hcells k ⟨k / 16, by omega, k / 4 % 4, by omega, by omega, by omega⟩⟩

theorem packBlockQ8K_spec (src : Vector BlockQ8K 4) :
    ∃ dst, packBlockQ8K src = some dst ∧ dst.Packs (cell src) := by
  obtain ⟨qs, hqs, hvalues⟩ := packQsQ8K_spec src
  obtain ⟨bsums, hbsums, hsums⟩ := packBsums_spec src
  refine ⟨⟨src.map BlockQ8K.d, qs, bsums⟩, ?_, fun row hrow => cell_map _ src hrow, hvalues, hsums⟩
  rw [packBlockQ8K, hqs]
  simp only [Option.bind_eq_bind, Option.bind_some, hbsums]

/-! ### The packed rows -/

/-- A `mapM` whose calls all have a value has their values. -/
theorem mapM_spec {α β : Type} {f : α → Option β} {l : List α} (h : ∀ a ∈ l, ∃ b, f a = some b) :
    ∃ bs, l.mapM f = some bs ∧ bs.length = l.length ∧ ∀ i : ℕ, bs[i]? = l[i]?.bind f := by
  induction l with
  | nil => exact ⟨[], rfl, rfl, fun i => by simp⟩
  | cons a l ih =>
    obtain ⟨b, hb⟩ := h a List.mem_cons_self
    obtain ⟨bs, hbs, hlen, hget⟩ := ih fun a' ha' => h a' (List.mem_cons_of_mem a ha')
    refine ⟨b :: bs, ?_, by rw [List.length_cons, List.length_cons, hlen], fun i => ?_⟩
    · rw [List.mapM_cons, hb, hbs]
      rfl
    · cases i with
      | zero => exact hb.symm
      | succ i => exact hget i

theorem mapM_range_spec {β : Type} {f : ℕ → Option β} {n : ℕ} (h : ∀ i < n, ∃ b, f i = some b) :
    ∃ bs, (List.range n).mapM f = some bs ∧ bs.length = n ∧ ∀ i < n, bs[i]? = f i := by
  obtain ⟨bs, hbs, hlen, hget⟩ := mapM_spec (l := List.range n) fun i hi => h i (List.mem_range.mp hi)
  refine ⟨bs, hbs, by rw [hlen, List.length_range], fun i hi => ?_⟩
  rw [hget, List.getElem?_range hi]
  rfl

theorem getElem?_flatten {α : Type} {m j : ℕ} (hj : j < m) {lists : List (List α)}
    (h : ∀ l ∈ lists, l.length = m) (i : ℕ) :
    lists.flatten[i * m + j]? = lists[i]?.bind fun l => l[j]? := by
  induction lists generalizing i with
  | nil => rfl
  | cons l lists ih =>
    have hl : l.length = m := h l List.mem_cons_self
    rw [List.flatten_cons]
    cases i with
    | zero => rw [Nat.zero_mul, Nat.zero_add, List.getElem?_append_left (by omega)]; rfl
    | succ i =>
      have hrest : (i + 1) * m + j - l.length = i * m + j := by
        rw [Nat.succ_mul, hl]
        omega
      have hlater : l.length ≤ (i + 1) * m + j := by
        rw [Nat.succ_mul, hl]
        omega
      rw [List.getElem?_append_right hlater, hrest, List.getElem?_cons_succ,
        ih fun l' hl' => h l' (List.mem_cons_of_mem l hl')]

def groupBlocks {α : Type} (packed : List α) (rowBlocks group : ℕ) : List α :=
  (packed.drop (group * rowBlocks)).take rowBlocks

section Rows

variable {α β : Type} [Inhabited α] {packBlock : Vector α 8 → Option β} {blocks : List α} {rows : ℕ}

theorem gatherBlocks_spec {group block : ℕ} (h8 : rows % 8 = 0) (hgroup : group < rows / 8)
    (hblock : block < blocks.length / rows) :
    ∃ src, gatherBlocks blocks (blocks.length / rows) group block = some src ∧
      ∀ row < 8, blocks[(group * 8 + row) * (blocks.length / rows) + block]? = some (cell src row) := by
  have hget (row : ℕ) (hrow : row < 8) :
      blocks[(group * 8 + row) * (blocks.length / rows) + block]? =
        some (blocks.getD ((group * 8 + row) * (blocks.length / rows) + block) default) := by
    have hlt : (group * 8 + row) * (blocks.length / rows) + block < blocks.length := by
      calc (group * 8 + row) * (blocks.length / rows) + block
          < (group * 8 + row + 1) * (blocks.length / rows) := by
            rw [Nat.succ_mul]
            omega
        _ ≤ rows * (blocks.length / rows) := Nat.mul_le_mul_right _ (by omega)
        _ ≤ blocks.length := Nat.mul_div_le _ _
    rw [List.getElem?_eq_getElem hlt, List.getD_eq_getElem?_getD, List.getElem?_eq_getElem hlt]
    rfl
  obtain ⟨src, hsrc, hcells⟩ := fromFn_spec hget
  exact ⟨src, hsrc, fun row hrow => by rw [hcells row hrow, hget row hrow]⟩

/-- **Every block of a group of rows** is packed, and stands at its place. -/
theorem packRows_spec (blocks : List α) (hpack : ∀ src, ∃ dst, packBlock src = some dst) (h0 : rows ≠ 0)
    (h8 : rows % 8 = 0) :
    ∃ packed, packRows packBlock blocks rows = some packed ∧
      ∀ group < rows / 8, ∀ block < blocks.length / rows, ∃ src dst,
        (∀ row < 8, blocks[(group * 8 + row) * (blocks.length / rows) + block]? = some (cell src row)) ∧
        packBlock src = some dst ∧
        (groupBlocks packed (blocks.length / rows) group)[block]? = some dst := by
  have hturn (group : ℕ) (hgroup : group < rows / 8) := mapM_range_spec
    (f := fun block => gatherBlocks blocks (blocks.length / rows) group block >>= packBlock)
    (n := blocks.length / rows) fun block hblock => by
      obtain ⟨src, hsrc, -⟩ := gatherBlocks_spec h8 hgroup hblock
      rw [hsrc]
      exact hpack src
  obtain ⟨lists, hlists, hlen, hget⟩ := mapM_range_spec (n := rows / 8) fun group hgroup => by
    obtain ⟨l, hl, -⟩ := hturn group hgroup
    exact ⟨l, hl⟩
  have hlengths : ∀ l ∈ lists, l.length = blocks.length / rows := by
    intro l hl
    obtain ⟨group, hgroup⟩ := List.mem_iff_getElem?.mp hl
    have hlt : group < rows / 8 := hlen ▸ (List.getElem?_eq_some_iff.mp hgroup).1
    obtain ⟨l', hl', hlen', -⟩ := hturn group hlt
    obtain rfl : l = l' := Option.some.inj (hgroup.symm.trans ((hget group hlt).trans hl'))
    exact hlen'
  refine ⟨lists.flatten, ?_, fun group hgroup block hblock => ?_⟩
  · rw [packRows, if_neg (by omega)]
    simp only [Option.bind_eq_bind] at hlists ⊢
    rw [hlists]
    rfl
  · obtain ⟨l, hl, -, hblocks⟩ := hturn group hgroup
    obtain ⟨src, hsrc, hcells⟩ := gatherBlocks_spec h8 hgroup hblock
    obtain ⟨dst, hdst⟩ := hpack src
    refine ⟨src, dst, hcells, hdst, ?_⟩
    rw [groupBlocks, List.getElem?_take_of_lt hblock, List.getElem?_drop, getElem?_flatten hblock hlengths,
      (hget group hgroup).trans hl]
    refine (hblocks block hblock).trans ?_
    rw [hsrc]
    exact hdst

end Rows

/-- Four activation rows that a kernel reads together: different ones, or one of them four times. -/
inductive ActivationTile where
  | ofRows (rows : Vector (List BlockQ8K) 4)
  | ofRow (row : List BlockQ8K)

namespace ActivationTile

def pack : ActivationTile → Option (List BlockQ8Kx4)
  | ofRows rows => packQ8Kx4Rows rows
  | ofRow row => packQ8Kx4Repeated row

def row : ActivationTile → ℕ → List BlockQ8K
  | ofRows rows, i => cell rows i
  | ofRow row, _ => row

theorem fromFn_row_spec (tile : ActivationTile) {n block : ℕ} (hlen : ∀ i < 4, (tile.row i).length = n)
    (hblock : block < n) : ∃ src : Vector BlockQ8K 4,
      fromFn 4 (fun i => (tile.row i)[block]?) = some src ∧
      ∀ i < 4, (tile.row i)[block]? = some (cell src i) := by
  have hget (i : ℕ) (hi : i < 4) : (tile.row i)[block]? = some ((tile.row i).getD block default) := by
    have hlt : block < (tile.row i).length := by rwa [hlen i hi]
    rw [List.getElem?_eq_getElem hlt, List.getD_eq_getElem?_getD, List.getElem?_eq_getElem hlt]
    rfl
  obtain ⟨src, hsrc, hcells⟩ := fromFn_spec hget
  exact ⟨src, hsrc, fun i hi => by rw [hcells i hi, hget i hi]⟩

/-- **Every block of a tile** is packed, and stands at its place. -/
theorem pack_spec (tile : ActivationTile) {n : ℕ} (hlen : ∀ i < 4, (tile.row i).length = n) :
    ∃ packed, tile.pack = some packed ∧ packed.length = n ∧
      ∀ block < n, ∃ (src : ℕ → BlockQ8K) (dst : BlockQ8Kx4),
        (∀ i < 4, (tile.row i)[block]? = some (src i)) ∧ packed[block]? = some dst ∧ dst.Packs src := by
  choose dst hdst hpacks using packBlockQ8K_spec
  cases tile with
  | ofRows rows =>
    have hturn (block : ℕ) (hblock : block < n) : ∃ src,
        (fromFn 4 (fun i => (cell rows i)[block]?) >>= packBlockQ8K) = some (dst src) ∧
        ∀ i < 4, (cell rows i)[block]? = some (cell src i) := by
      obtain ⟨src, hsrc, hcells⟩ := (ofRows rows).fromFn_row_spec hlen hblock
      change fromFn 4 (fun i => (cell rows i)[block]?) = some src at hsrc
      exact ⟨src, by rw [hsrc, Option.bind_eq_bind, Option.bind_some, hdst], hcells⟩
    obtain ⟨packed, hpacked, hlength, hget⟩ := mapM_range_spec (n := n)
      (f := fun block => fromFn 4 (fun i => (cell rows i)[block]?) >>= packBlockQ8K)
      fun block hblock => by
        obtain ⟨src, hsrc, -⟩ := hturn block hblock
        exact ⟨dst src, hsrc⟩
    refine ⟨packed, ?_, hlength, fun block hblock => ?_⟩
    · have hn : (cell rows 0).length = n := hlen 0 (by omega)
      rw [pack, packQ8Kx4Rows, hn]
      exact hpacked
    · obtain ⟨src, hsrc, hcells⟩ := hturn block hblock
      exact ⟨cell src, dst src, hcells, (hget block hblock).trans hsrc, hpacks src⟩
  | ofRow row =>
    obtain ⟨packed, hpacked, hlength, hget⟩ := mapM_spec (l := row)
      (f := fun src => packBlockQ8K (Vector.replicate 4 src)) fun src _ => ⟨_, hdst _⟩
    have hn : row.length = n := hlen 0 (by omega)
    refine ⟨packed, hpacked, by rw [hlength, hn], fun block hblock => ?_⟩
    obtain ⟨src, hsrc⟩ : ∃ src, row[block]? = some src :=
      ⟨_, List.getElem?_eq_getElem (by omega : block < row.length)⟩
    refine ⟨cell (Vector.replicate 4 src), dst _, fun i hi => ?_, ?_, hpacks _⟩
    · rw [cell_replicate _ hi]
      exact hsrc
    · rw [hget, hsrc, Option.bind_some, hdst]

end ActivationTile

end Matmul
