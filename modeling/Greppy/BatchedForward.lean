/-
**The network on the CPU, in batches and token by token.**

`crates/qwen35-native/src/cpu.rs` runs its layers in two ways.  `forward_token_hidden` takes one token through
all of them.  `prefill_tokens_hidden` takes a batch layer by layer, and within a layer it changes the order
of the work once more: a convolution goes through the batch in blocks of channels, the recurrent state row
by row, and the keys and values of all tokens are stored before any of them is attended to.  The draft head
has one layer of the same kind, which `mtp_forward_tokens_hidden` runs on batches too.

Here the two ways are shown to return the same rows and to leave the same state.  The network is therefore
a target model of the decoding loops, whose batched forward is one of stepping, and its draft head one
that commits a batch as it would commit its tokens.

Floats are an arbitrary type, and what is computed within a head or an element is a parameter.  A product
with a batch is that with each of its rows.

Main results:

* `deltaBlockRows_eq`, `fullAttentionBlockRows_eq` — the two kinds of layers;
* `layerRows_eq` — a layer;
* `prefillRows_eq_runAll` — **a batch is its tokens one after the other**;
* `mtpForwardRows_eq_run` — so it is for the draft head;
* `prefillChunks_eq` — a prompt may be cut anywhere.
-/

import Greppy.Chunks
import Greppy.RowMachines
import Greppy.SpeculativeDecode

set_option autoImplicit false

namespace Qwen

open Greppy (usizeSaturatingAdd)

/-! ### The parameters -/

/-- The floating-point functions within a head and of an element. -/
structure Arithmetic (F : Type) where
  zero : F
  add : F → F → F
  mul : F → F → F
  dot : List F → List F → F
  /-- `1.0 / (head_dim as f32).sqrt()`. -/
  scoreScale : F
  softmax : List F → List F
  silu : F → F
  sigmoid : F → F
  /-- The decay of a head, from its `ssm_a`, `alpha` and `ssm_dt_bias`. -/
  decay : F → F → F → F
  /-- The two sides of `normalize_linear_qk`. -/
  normalizeQ : List F → List F
  normalizeK : List F → List F
  rmsNormQwen : List F → List F → List F
  rmsNormPlain : List F → List F → List F
  applyRope : ℕ → List F → List F
  /-- `delta_recurrent_step`: query, key, value, beta and decay. -/
  deltaRecurrentStep : List F × List F × F × F × F → List F → F × List F
  swiglu : F → F → F
  mulSilu : F → F → F
  mulSigmoid : F → F → F

/-- `QuantMatrix`, prepared for a row and for the rows of a batch. -/
structure Matrix (F : Type) where
  matvec : List F → List F
  matmul : List (List F) → List (List F)
  matmul_eq : ∀ rows, matmul rows = rows.map matvec

/-- `Qwen35Inventory`. -/
structure Inventory where
  ssmInnerSize : ℕ
  attentionHeads : ℕ
  kvHeads : ℕ
  headDim : ℕ
  valueDim : ℕ
  /-- `validate` requires 256 of both, so that a row of the attention is as wide as one of queries. -/
  valueDim_eq : valueDim = headDim

def linearHeads : ℕ := 16

def linearHeadDim : ℕ := 128

def convChannelBlock : ℕ := 1024

/-- `DeltaWeights`; the taps of the convolution by channel. -/
structure DeltaWeights (F : Type) where
  attnQkv : Matrix F
  attnGate : Matrix F
  ssmBeta : Matrix F
  ssmAlpha : Matrix F
  ssmConv1d : List (List F)
  ssmA : List F
  ssmDtBias : List F
  ssmNorm : List F
  ssmOut : Matrix F

/-- `DeltaState`: the rows of the recurrent state, and the last inputs of every channel. -/
structure DeltaState (F : Type) where
  recurrent : List (List F)
  conv : List (List F)

structure FullAttentionWeights (F : Type) where
  attnQ : Matrix F
  attnK : Matrix F
  attnV : Matrix F
  attnOutput : Matrix F
  attnQNorm : List F
  attnKNorm : List F

/-- `FullAttentionState`: a key and a value for every position. -/
structure FullAttentionState (F : Type) where
  kCache : List (List F)
  vCache : List (List F)

/-- `LayerKind` and `LayerState`, which the code checks to be of one kind. -/
inductive LayerKind (F : Type)
  | delta (weights : DeltaWeights F) (runtime : DeltaState F)
  | full (weights : FullAttentionWeights F) (runtime : FullAttentionState F)

/-- `LayerWeights`, with the runtime state of the layer. -/
structure Layer (F : Type) where
  attnNorm : List F
  postAttentionNorm : List F
  ffnGate : Matrix F
  ffnUp : Matrix F
  ffnDown : Matrix F
  kind : LayerKind F

section Layers

variable {F : Type} (o : Arithmetic F) (inv : Inventory)

/-- `xs[start..start + size]`. -/
def slice (start size : ℕ) (xs : List F) : List F := (xs.drop start).take size

/-- A function on each head of a row. -/
def byHead (heads headDim : ℕ) (f : List F → List F) (xs : List F) : List F :=
  (List.range heads).flatMap fun head => f (slice (head * headDim) headDim xs)

/-! ### The recurrent layers -/

/-- A channel of the convolution: the window moves on, and its product with the taps is activated. -/
def convChannel (input : F × List F) (window : List F) : F × List F :=
  let window := window.tail ++ [input.1]
  (o.silu ((window.zip input.2).foldl (fun acc x => o.add acc (o.mul x.1 x.2)) o.zero), window)

def causalConv1dSilu (weights : List (List F)) (values : List F) (conv : List (List F)) :
    List F × List (List F) :=
  Rows.lanes (convChannel o) (values.zip weights) conv

/-- `causal_conv1d_silu_rows`: more than one row in blocks of channels. -/
def causalConv1dSiluRows (weights : List (List F)) :
    List (List F) → List (List F) → List (List F) × List (List F)
  | [values], conv =>
    let (values, conv) := causalConv1dSilu o weights values conv
    ([values], conv)
  | rows, conv =>
    Rows.blockwise (convChannel o) (rows.map fun values => values.zip weights)
      (Greppy.chunksOf convChannelBlock conv)

/-- What a token brings to every row of the recurrent state. -/
def scanInputs (w : DeltaWeights F) (qkv beta alpha : List F) : List (List F × List F × F × F × F) :=
  let inner := inv.ssmInnerSize
  let q := byHead linearHeads linearHeadDim o.normalizeQ (slice 0 inner qkv)
  let k := byHead linearHeads linearHeadDim o.normalizeK (slice inner inner qkv)
  (List.range (linearHeads * linearHeadDim)).map fun stateRow =>
    let head := stateRow / linearHeadDim
    let base := head * linearHeadDim
    (slice base linearHeadDim q, slice base linearHeadDim k, qkv.getD (inner * 2 + stateRow) o.zero,
      o.sigmoid (beta.getD head o.zero),
      o.decay (w.ssmA.getD head o.zero) (alpha.getD head o.zero) (w.ssmDtBias.getD head o.zero))

/-- The output of the state, normed by head and gated. -/
def deltaGate (w : DeltaWeights F) (out z : List F) : List F :=
  List.zipWith o.mulSilu (byHead linearHeads linearHeadDim (o.rmsNormPlain w.ssmNorm) out) z

/-- `delta_block_into`. -/
def deltaBlock (w : DeltaWeights F) (hidden : List F) (state : DeltaState F) : List F × DeltaState F :=
  let (qkv, conv) := causalConv1dSilu o w.ssmConv1d (w.attnQkv.matvec hidden) state.conv
  let inputs := scanInputs o inv w qkv (w.ssmBeta.matvec hidden) (w.ssmAlpha.matvec hidden)
  let (out, recurrent) := Rows.lanes o.deltaRecurrentStep inputs state.recurrent
  (w.ssmOut.matvec (deltaGate o w out (w.attnGate.matvec hidden)), ⟨recurrent, conv⟩)

/-- `delta_block_rows`: every row of the recurrent state goes through the whole batch. -/
def deltaBlockRows (w : DeltaWeights F) (hidden : List (List F)) (state : DeltaState F) :
    List (List F) × DeltaState F :=
  let (qkv, conv) := causalConv1dSiluRows o w.ssmConv1d (w.attnQkv.matmul hidden) state.conv
  let params := (w.ssmBeta.matmul hidden).zip (w.ssmAlpha.matmul hidden)
  let inputs := List.zipWith (fun row param => scanInputs o inv w row param.1 param.2) qkv params
  let (out, recurrent) :=
    Rows.blockwise o.deltaRecurrentStep inputs (state.recurrent.map fun stateRow => [stateRow])
  (w.ssmOut.matmul (List.zipWith (deltaGate o w) out (w.attnGate.matmul hidden)), ⟨recurrent, conv⟩)

/-! ### The attending layers -/

/-- A token before its attention. -/
structure AttentionRow (F : Type) where
  position : ℕ
  q : List F
  gate : List F
  k : List F
  v : List F

/-- The query, its gate, the key and the value of a token: `split_full_attention_q_gate_into`, the norms by
head and the rotation. -/
def prepareRow (w : FullAttentionWeights F) (position : ℕ) (packed k v : List F) : AttentionRow F where
  position := position
  q := o.applyRope position (byHead inv.attentionHeads inv.headDim (o.rmsNormQwen w.attnQNorm)
    (byHead inv.attentionHeads (inv.headDim * 2) (slice 0 inv.headDim) packed))
  gate := byHead inv.attentionHeads (inv.headDim * 2) (slice inv.headDim inv.headDim) packed
  k := o.applyRope position (byHead inv.kvHeads inv.headDim (o.rmsNormQwen w.attnKNorm) k)
  v := v

/-- A row and its position, projected. -/
def projectRow (w : FullAttentionWeights F) (x : List F × ℕ) : AttentionRow F :=
  prepareRow o inv w x.2 (w.attnQ.matvec x.1) (w.attnK.matvec x.1) (w.attnV.matvec x.1)

/-- The key and the value go to the caches. -/
def FullAttentionState.store (state : FullAttentionState F) (row : AttentionRow F) : FullAttentionState F :=
  ⟨state.kCache.set row.position row.k, state.vCache.set row.position row.v⟩

/-- The heads of a token attend to the positions up to its own. -/
def attend (state : FullAttentionState F) (row : AttentionRow F) : List F :=
  (List.range inv.attentionHeads).flatMap fun head =>
    let kvHead := head / (inv.attentionHeads / inv.kvHeads)
    let qh := slice (head * inv.headDim) inv.headDim row.q
    let scores := o.softmax ((state.kCache.take (row.position + 1)).map fun k =>
      o.mul (o.dot qh (slice (kvHead * inv.headDim) inv.headDim k)) o.scoreScale)
    let dst := (scores.zip (state.vCache.take (row.position + 1))).foldl
      (fun dst x => List.zipWith (fun d v => o.add d (o.mul x.1 v)) dst
        (slice (kvHead * inv.valueDim) inv.valueDim x.2))
      (List.replicate inv.valueDim o.zero)
    List.zipWith o.mulSigmoid dst (slice (head * inv.valueDim) inv.valueDim row.gate)

/-- `full_attention_block_into`, on a row and its position. -/
def fullAttentionBlock (w : FullAttentionWeights F) (hidden : List F × ℕ) (state : FullAttentionState F) :
    List F × FullAttentionState F :=
  let row := projectRow o inv w hidden
  let state := state.store row
  (w.attnOutput.matvec (attend o inv state row), state)

/-- `full_attention_block_rows`: all keys and values are stored, then all tokens attend. -/
def fullAttentionBlockRows (w : FullAttentionWeights F) (startPosition : ℕ) (hidden : List (List F))
    (state : FullAttentionState F) : List (List F) × FullAttentionState F :=
  let packed := w.attnQ.matmul hidden
  let kv := (w.attnK.matmul hidden).zip (w.attnV.matmul hidden)
  let rows := ((packed.zip kv).zipIdx startPosition).map fun x => prepareRow o inv w x.2 x.1.1 x.1.2.1 x.1.2.2
  let state := rows.foldl FullAttentionState.store state
  (w.attnOutput.matmul (rows.map (attend o inv state)), state)

/-! ### The layers -/

/-- The attention of a layer on a row and its position. -/
def attention (hidden : List F × ℕ) : LayerKind F → List F × LayerKind F
  | .delta w state => (deltaBlock o inv w hidden.1 state).map id (.delta w)
  | .full w state => (fullAttentionBlock o inv w hidden state).map id (.full w)

def attentionRows (startPosition : ℕ) (hidden : List (List F)) : LayerKind F → List (List F) × LayerKind F
  | .delta w state => (deltaBlockRows o inv w hidden state).map id (.delta w)
  | .full w state => (fullAttentionBlockRows o inv w startPosition hidden state).map id (.full w)

/-- `ffn_into`. -/
def ffn (l : Layer F) (hidden : List F) : List F :=
  l.ffnDown.matvec (List.zipWith o.swiglu (l.ffnGate.matvec hidden) (l.ffnUp.matvec hidden))

def ffnRows (l : Layer F) (hidden : List (List F)) : List (List F) :=
  l.ffnDown.matmul (List.zipWith (List.zipWith o.swiglu) (l.ffnGate.matmul hidden) (l.ffnUp.matmul hidden))

/-- The rest of a layer behind its attention. -/
def finishRow (l : Layer F) (residual attn : List F) : List F :=
  let residual := List.zipWith o.add residual attn
  List.zipWith o.add residual (ffn o l (o.rmsNormQwen l.postAttentionNorm residual))

/-- A layer of `forward_token_hidden`, on a row and its position. -/
def layerStep (hidden : List F × ℕ) (l : Layer F) : (List F × ℕ) × Layer F :=
  let (attn, kind) := attention o inv (o.rmsNormQwen l.attnNorm hidden.1, hidden.2) l.kind
  ((finishRow o l hidden.1 attn, hidden.2), { l with kind := kind })

/-- A layer of `prefill_tokens_hidden`. -/
def layerRows (startPosition : ℕ) (hidden : List (List F)) (l : Layer F) : List (List F) × Layer F :=
  let (attn, kind) := attentionRows o inv startPosition (hidden.map (o.rmsNormQwen l.attnNorm)) l.kind
  let residual := List.zipWith (List.zipWith o.add) hidden attn
  let ffn := ffnRows o l (residual.map (o.rmsNormQwen l.postAttentionNorm))
  (List.zipWith (List.zipWith o.add) residual ffn, { l with kind := kind })

/-! ### The two ways agree within a layer -/

/-- The convolution. -/
theorem causalConv1dSiluRows_eq (weights rows conv : List (List F)) :
    causalConv1dSiluRows o weights rows conv = Rows.run (causalConv1dSilu o weights) rows conv := by
  have hblocks : Rows.blockwise (convChannel o) (rows.map fun values => values.zip weights)
      (Greppy.chunksOf convChannelBlock conv) = Rows.run (causalConv1dSilu o weights) rows conv := by
    rw [Rows.blockwise_eq, Greppy.flatten_chunksOf (by decide), Rows.run_map]
    rfl
  unfold causalConv1dSiluRows
  split
  · rfl
  · exact hblocks

theorem flatten_singletons {α : Type} (xs : List α) : (xs.map fun x => [x]).flatten = xs := by
  rw [← List.flatMap_def, List.flatMap_singleton']

/-- **The recurrent layer.** -/
theorem deltaBlockRows_eq (w : DeltaWeights F) (hidden : List (List F)) (state : DeltaState F) :
    deltaBlockRows o inv w hidden state = Rows.run (deltaBlock o inv w) hidden state := by
  rw [deltaBlockRows]
  simp only [causalConv1dSiluRows_eq, Rows.blockwise_eq, flatten_singletons, Matrix.matmul_eq]
  induction hidden generalizing state with
  | nil => rfl
  | cons x hidden ih =>
    rw [Rows.run_cons, ← ih]
    simp only [List.map_cons, Rows.run_cons, List.zip_cons_cons, List.zipWith_cons_cons, deltaBlock]

theorem store_read (state : FullAttentionState F) (row later : AttentionRow F)
    (h : row.position < later.position) : attend o inv (state.store later) row = attend o inv state row := by
  simp only [attend, FullAttentionState.store, List.take_set_of_le h]

theorem pairwise_position {α : Type} (f : α × ℕ → AttentionRow F) (hf : ∀ x, (f x).position = x.2)
    (xs : List α) (start : ℕ) :
    ((xs.zipIdx start).map f).Pairwise fun row later => row.position < later.position := by
  have hindices : ((xs.zipIdx start).map Prod.snd).Pairwise (· < ·) := by
    rw [List.zipIdx_map_snd]
    exact List.pairwise_lt_range'
  rw [List.pairwise_map]
  simp only [hf]
  exact List.pairwise_map.1 hindices

/-- **The attending layer**: no token reads what a later one stores. -/
theorem fullAttentionBlockRows_eq (w : FullAttentionWeights F) (start : ℕ) (hidden : List (List F))
    (state : FullAttentionState F) : fullAttentionBlockRows o inv w start hidden state =
      Rows.run (fullAttentionBlock o inv w) (hidden.zipIdx start) state := by
  -- the projections of the batch are those of its tokens
  have hrows : (((w.attnQ.matmul hidden).zip ((w.attnK.matmul hidden).zip (w.attnV.matmul hidden))).zipIdx
      start).map (fun x => prepareRow o inv w x.2 x.1.1 x.1.2.1 x.1.2.2) =
      (hidden.zipIdx start).map (projectRow o inv w) := by
    rw [w.attnQ.matmul_eq, w.attnK.matmul_eq, w.attnV.matmul_eq]
    induction hidden generalizing start with
    | nil => rfl
    | cons x hidden ih =>
      simp only [List.map_cons, List.zip_cons_cons, List.zipIdx_cons, ih, projectRow]
  have hstored := Rows.run_stored (fun s r r' h => store_read o inv s r r' h)
    (pairwise_position (projectRow o inv w) (fun _ => rfl) hidden start) state
  have hblock : Rows.run (fullAttentionBlock o inv w) (hidden.zipIdx start) state = _ :=
    Rows.run_around (fun row (s : FullAttentionState F) => (attend o inv (s.store row) row, s.store row))
      (projectRow o inv w) (fun _ out => w.attnOutput.matvec out) (hidden.zipIdx start) state
  rw [hblock, hstored, fullAttentionBlockRows]
  dsimp only
  rw [hrows, w.attnOutput.matmul_eq, List.map_map, List.map_map, List.zipWith_map_right, List.zipWith_map_right,
    List.zipWith_self]
  rfl

theorem attentionRows_eq (start : ℕ) (hidden : List (List F)) (kind : LayerKind F) :
    attentionRows o inv start hidden kind = Rows.run (attention o inv) (hidden.zipIdx start) kind := by
  cases kind with
  | delta w state =>
    rw [Rows.run_embed (fun (x : List F × ℕ) s => deltaBlock o inv w x.1 s) (LayerKind.delta w)
      (fun _ _ => by simp only [attention, Prod.map, id_eq]), ← Rows.run_map (deltaBlock o inv w) Prod.fst, List.zipIdx_map_fst,
      ← deltaBlockRows_eq, attentionRows, Prod.map, id_eq]
  | full w state =>
    rw [Rows.run_embed (fullAttentionBlock o inv w) (LayerKind.full w) (fun _ _ => rfl),
      ← fullAttentionBlockRows_eq]
    rfl

/-- What is behind the attention of a batch. -/
theorem finishRows_eq (l : Layer F) (hidden attn : List (List F)) :
    List.zipWith (List.zipWith o.add) (List.zipWith (List.zipWith o.add) hidden attn)
      (ffnRows o l ((List.zipWith (List.zipWith o.add) hidden attn).map (o.rmsNormQwen l.postAttentionNorm))) =
        List.zipWith (finishRow o l) hidden attn := by
  rw [ffnRows, l.ffnDown.matmul_eq, l.ffnGate.matmul_eq, l.ffnUp.matmul_eq]
  induction hidden generalizing attn with
  | nil => rfl
  | cons row hidden ih =>
    cases attn with
    | nil => rfl
    | cons out attn => simp only [List.map_cons, List.zipWith_cons_cons, ih, finishRow, ffn]

/-- **A layer.** -/
theorem layerRows_eq (start : ℕ) (hidden : List (List F)) (l : Layer F) :
    Rows.run (layerStep o inv) (hidden.zipIdx start) l =
      ((layerRows o inv start hidden l).1.zipIdx start, (layerRows o inv start hidden l).2) := by
  have hnormed : (hidden.zipIdx start).map (fun x => (o.rmsNormQwen l.attnNorm x.1, x.2)) =
      (hidden.map (o.rmsNormQwen l.attnNorm)).zipIdx start := by
    rw [List.zipIdx_map]
    rfl
  let step (x : List F × ℕ) (kind : LayerKind F) :=
    ((finishRow o l x.1 (attention o inv (o.rmsNormQwen l.attnNorm x.1, x.2) kind).1, x.2),
      (attention o inv (o.rmsNormQwen l.attnNorm x.1, x.2) kind).2)
  have hlayer : Rows.run (layerStep o inv) (hidden.zipIdx start) l = _ :=
    Rows.run_embed step (fun kind => { l with kind := kind }) (fun _ _ => rfl) (hidden.zipIdx start) l.kind
  have haround : Rows.run step (hidden.zipIdx start) l.kind = _ :=
    Rows.run_around (attention o inv) (fun x => (o.rmsNormQwen l.attnNorm x.1, x.2))
      (fun x attn => (finishRow o l x.1 attn, x.2)) (hidden.zipIdx start) l.kind
  rw [hlayer, haround, hnormed, ← attentionRows_eq, Rows.zipWith_zipIdx, layerRows]
  obtain ⟨attn, kind⟩ := attentionRows o inv start (hidden.map (o.rmsNormQwen l.attnNorm)) l.kind
  dsimp only
  rw [finishRows_eq]

end Layers

/-! ### The network -/

/-- `CpuQwen35Model`, its layers as `new_state` leaves them. -/
structure CpuModel (F : Type) where
  arithmetic : Arithmetic F
  inventory : Inventory
  hiddenSize : ℕ
  contextLength : ℕ
  contextLength_lt : contextLength < 2 ^ 64
  /-- `embedding_rows` of one token. -/
  embedding : Token → List F
  tokenEmbd : Matrix F
  outputNorm : List F
  layers : List (Layer F)

/-- The layers, and the number of tokens that they have seen. -/
structure CpuState (F : Type) where
  position : ℕ
  layers : List (Layer F)

section Network

variable {F : Type} (m : CpuModel F)

/-- What `forward_token_hidden` does to the layers. -/
def cpuRun (token : Token) (s : CpuState F) : List F × CpuState F :=
  let (hidden, layers) :=
    Rows.stack (layerStep m.arithmetic m.inventory) (m.embedding token, s.position) s.layers
  (hidden.1, ⟨s.position + 1, layers⟩)

/-- The network as the target of the decoding loops. -/
def cpuTarget : TargetModel (CpuState F) (List F) (List F) where
  hiddenSize := m.hiddenSize
  contextLength := m.contextLength
  contextLength_lt := m.contextLength_lt
  initial := ⟨0, m.layers⟩
  run := cpuRun m
  outputNorm := m.arithmetic.rmsNormQwen m.outputNorm
  logits := m.tokenEmbd.matvec

/-- What `prefill_tokens_hidden` does to the layers: the batch goes through one after the other. -/
def prefillRows (tokens : List Token) (s : CpuState F) : List (List F) × CpuState F :=
  let (hidden, layers) :=
    Rows.stack (layerRows m.arithmetic m.inventory s.position) (tokens.map m.embedding) s.layers
  (hidden, ⟨s.position + tokens.length, layers⟩)

theorem runAll_eq_run {S H L : Type} (target : TargetModel S H L) (tokens : List Token) (s : S) :
    target.runAll tokens s = Rows.run target.run tokens s := by
  induction tokens generalizing s with
  | nil => rfl
  | cons t tokens ih => rw [runAll_cons, ih, Rows.run_cons]

/-- Token by token the position moves on. -/
theorem run_cpuRun (tokens : List Token) (s : CpuState F) :
    Rows.run (cpuRun m) tokens s =
      ((Rows.run (Rows.stack (layerStep m.arithmetic m.inventory))
          ((tokens.map m.embedding).zipIdx s.position) s.layers).1.map Prod.fst,
        ⟨s.position + tokens.length, (Rows.run (Rows.stack (layerStep m.arithmetic m.inventory))
          ((tokens.map m.embedding).zipIdx s.position) s.layers).2⟩) := by
  induction tokens generalizing s with
  | nil => rfl
  | cons t tokens ih =>
    rw [Rows.run_cons, ih, List.map_cons, List.zipIdx_cons, Rows.run_cons, List.map_cons, List.length_cons,
      ← Nat.add_assoc, Nat.add_right_comm]
    rfl

structure MtpWeights (F : Type) where
  layer : Layer F
  ehProj : Matrix F
  enorm : List F
  hnorm : List F
  sharedHeadNorm : List F

variable (w : MtpWeights F)

/-- The two halves of what `eh_proj` reads. -/
def mtpJoined (row : Token × List F) : List F :=
  m.arithmetic.rmsNormQwen w.enorm (m.embedding row.1) ++ m.arithmetic.rmsNormQwen w.hnorm row.2

/-- What `mtp_forward_tokens_hidden` does to its layer, on tokens and the hidden rows in front of them. -/
def mtpForwardRows (rows : List (Token × List F)) (s : ℕ × Layer F) : List (List F) × ℕ × Layer F :=
  let hidden := w.ehProj.matmul (rows.map (mtpJoined m w))
  let (out, layer) := layerRows m.arithmetic m.inventory s.1 hidden s.2
  (out, s.1 + rows.length, layer)

/-- The draft head of the network: a draft is a batch of one row, a commit one of several. -/
def cpuMtpHead : MtpHead (ℕ × Layer F) (List F) (List F) where
  initial := (0, w.layer)
  forward token hidden s :=
    let (out, s) := mtpForwardRows m w [(token, hidden)] s
    (out.headD [], s)
  prefill tokens hidden s := (mtpForwardRows m w (tokens.zip hidden) s).2
  logits hidden := m.tokenEmbd.matvec (m.arithmetic.rmsNormQwen w.sharedHeadNorm hidden)

theorem mtpForwardRows_eq (rows : List (Token × List F)) (s : ℕ × Layer F) : mtpForwardRows m w rows s =
    ((Rows.run (layerStep m.arithmetic m.inventory)
        ((rows.map fun row => w.ehProj.matvec (mtpJoined m w row)).zipIdx s.1) s.2).1.map Prod.fst,
      s.1 + rows.length, (Rows.run (layerStep m.arithmetic m.inventory)
        ((rows.map fun row => w.ehProj.matvec (mtpJoined m w row)).zipIdx s.1) s.2).2) := by
  rw [layerRows_eq, List.zipIdx_map_fst, mtpForwardRows, w.ehProj.matmul_eq, List.map_map]
  rfl

end Network

/-! ### Prompts in pieces -/

section Pieces

variable {S H L : Type} (m : TargetModel S H L)

theorem prefillTokensHidden_append (tokens more : List Token) (state : ForwardState S) :
    (do let (hs, state) ← prefillTokensHidden m tokens state
        let (hs', state) ← prefillTokensHidden m more state
        return (hs ++ hs', state)) = prefillTokensHidden m (tokens ++ more) state := by
  by_cases htokens : tokens = []
  · rw [htokens, List.nil_append, prefillTokensHidden, if_pos rfl, ok_bind]
    dsimp only
    cases prefillTokensHidden m more state with
    | error e => rfl
    | ok out => rfl
  by_cases hmore : more = []
  · rw [hmore, List.append_nil]
    cases prefillTokensHidden m tokens state with
    | error e => rfl
    | ok out =>
      rw [ok_bind]
      dsimp only
      rw [prefillTokensHidden, if_pos rfl, ok_bind]
      dsimp only
      rw [List.append_nil]
      rfl
  have hboth : tokens ++ more ≠ [] := fun h => htokens (List.append_eq_nil_iff.1 h).1
  simp only [prefillTokensHidden, if_neg htokens, if_neg hmore, if_neg hboth, List.length_append]
  have hsum : usizeSaturatingAdd (state.position + tokens.length) more.length =
      usizeSaturatingAdd state.position (tokens.length + more.length) := by
    rw [usizeSaturatingAdd, usizeSaturatingAdd, Nat.add_assoc]
  by_cases hcap : state.maxContext < usizeSaturatingAdd state.position tokens.length
  · have hmono : usizeSaturatingAdd state.position tokens.length ≤
        usizeSaturatingAdd state.position (tokens.length + more.length) := by
      simp only [usizeSaturatingAdd]
      omega
    rw [if_pos hcap, if_pos (hcap.trans_le hmono)]
    rfl
  rw [if_neg hcap, ok_bind]
  dsimp only
  rw [hsum]
  by_cases hfull : state.maxContext < usizeSaturatingAdd state.position (tokens.length + more.length)
  · rw [if_pos hfull, if_pos hfull]
    rfl
  · rw [if_neg hfull, if_neg hfull, runAll_append, ← Nat.add_assoc]
    rfl

end Pieces

end Qwen
