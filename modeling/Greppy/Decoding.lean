/-
**Generating text with and without drafts.**

`crates/qwen35-native/src/cpu.rs` decodes in two ways.  `generate_without_mtp` feeds one token after
the other to the target model and samples the next one from its logits.  `generate_with_mtp` lets a
small draft head propose a chain of tokens first, has the target model verify the whole chain, and
keeps what the target itself would have sampled; two copies of the target's state are kept so that a
chain that is only partly accepted can be taken back.

The network is a parameter: a deterministic function of a token and the state of the layers, from
which a batched forward is obtained by stepping.  So is the draft head, of which nothing is assumed,
and the sampler, a function of the logits, the history and the state of its generator.  A hidden row
is a value here, and a flat buffer of rows a list of them; the checks of the code on the length of such
buffers are checks on the number of rows.
-/

import Greppy.Usize

set_option autoImplicit false

namespace Qwen

open Greppy (usizeSaturatingAdd usizeSaturatingMul)

abbrev Token : Type := ℕ

/-- A failed request with its message, or a panic. -/
inductive Error
  | invalidRequest (message : String)
  | panicked
  deriving DecidableEq

/-! ### The target model -/

/-- The network: one token through the layers, the norm of the output and the logits of a row.
`S` is the state of the layers, `H` a hidden row and `L` a row of logits. -/
structure TargetModel (S H L : Type) where
  hiddenSize : ℕ
  contextLength : ℕ
  contextLength_lt : contextLength < 2 ^ 64
  initial : S
  run : Token → S → H × S
  outputNorm : H → H
  logits : H → L

/-- `ForwardState`: the layers, the number of tokens they have seen, and room for how many. -/
structure ForwardState (S : Type) where
  position : ℕ
  layers : S
  maxContext : ℕ

structure MtpState (M : Type) where
  position : ℕ
  attention : M
  maxContext : ℕ

/-- `TargetForwardOutput` for one row. -/
structure TargetOutput (H L : Type) where
  hidden : H
  logits : L

section Target

variable {S H L : Type} (m : TargetModel S H L)

/-- Tokens through the layers one after the other: the hidden rows and the state behind them. -/
def TargetModel.runAll : List Token → S → List H × S
  | [], s => ([], s)
  | t :: ts, s =>
    let (h, s) := m.run t s
    let (hs, s) := TargetModel.runAll ts s
    (h :: hs, s)

def newState (maxContext : ℕ) : ForwardState S where
  position := 0
  layers := m.initial
  maxContext := maxContext

/-- The refusal of a state that has no room left. -/
def contextCapError (maxContext : ℕ) : Error :=
  .invalidRequest ("qwen35 prompt exceeds local context cap " ++ toString maxContext)

def forwardTokenHidden (token : Token) (state : ForwardState S) :
    Except Error (H × ForwardState S) :=
  if state.maxContext ≤ state.position then .error (contextCapError state.maxContext)
  else
    let (h, layers) := m.run token state.layers
    .ok (h, { state with position := state.position + 1, layers := layers })

def forwardTokenLogits (token : Token) (state : ForwardState S) :
    Except Error (L × ForwardState S) := do
  let (h, state) ← forwardTokenHidden m token state
  return (m.logits (m.outputNorm h), state)

/-- `forward_token_logits_hidden`: the hidden row is the one behind the output norm. -/
def forwardTokenLogitsHidden (token : Token) (state : ForwardState S) :
    Except Error (TargetOutput H L × ForwardState S) := do
  let (h, state) ← forwardTokenHidden m token state
  return (⟨m.outputNorm h, m.logits (m.outputNorm h)⟩, state)

/-- `prefill_tokens_hidden`: the rows are those before the output norm. -/
def prefillTokensHidden (tokens : List Token) (state : ForwardState S) :
    Except Error (List H × ForwardState S) :=
  if tokens = [] then .ok ([], state)
  else if state.maxContext < usizeSaturatingAdd state.position tokens.length then
    .error (contextCapError state.maxContext)
  else
    let (hs, layers) := m.runAll tokens state.layers
    .ok (hs, { state with position := state.position + tokens.length, layers := layers })

/-- `forward_tokens_logits_hidden`: one row for each token. -/
def forwardTokensLogitsHidden (tokens : List Token) (state : ForwardState S) :
    Except Error (List (TargetOutput H L) × ForwardState S) := do
  let (hs, state) ← prefillTokensHidden m tokens state
  return (hs.map fun h => ⟨m.outputNorm h, m.logits (m.outputNorm h)⟩, state)

def lastHiddenRow (hidden : List H) (rows : ℕ) : Except Error H :=
  if rows = 0 ∨ hidden.length ≠ rows then
    .error (.invalidRequest ("hidden row layout length " ++ toString (hidden.length * m.hiddenSize) ++
      ", expected non-empty " ++ toString rows ++ "x" ++ toString m.hiddenSize))
  else
    match hidden[rows - 1]? with
    | some h => .ok h
    | none => .error .panicked

def targetFromPrefilledHidden (hidden : List H) (rows : ℕ) : Except Error (TargetOutput H L) := do
  let h ← lastHiddenRow m hidden rows
  return ⟨m.outputNorm h, m.logits (m.outputNorm h)⟩

/-- `chunks(size)`; a list of length `fuel` has at most as many chunks. -/
def chunksFrom {α : Type} (size : ℕ) : ℕ → List α → List (List α)
  | 0, _ => []
  | fuel + 1, xs => if xs = [] then [] else xs.take size :: chunksFrom size fuel (xs.drop size)

def chunks {α : Type} (size : ℕ) (xs : List α) : List (List α) := chunksFrom size xs.length xs

/-- The prompt through the layers, in chunks: `for tokens in ….chunks(512) { … }`. -/
def prefillChunks : List (List Token) → ForwardState S → Except Error (List H × ForwardState S)
  | [], state => .ok ([], state)
  | tokens :: rest, state => do
      let (hs, state) ← prefillTokensHidden m tokens state
      let (more, state) ← prefillChunks rest state
      return (hs ++ more, state)

/-- `prompt_ids.len().saturating_add(max_tokens).saturating_add(1).min(context_length)`. -/
def maxContextFor (promptLength maxTokens : ℕ) : ℕ :=
  min (usizeSaturatingAdd (usizeSaturatingAdd promptLength maxTokens) 1) m.contextLength

end Target

/-! ### The draft head -/

/-- The draft head: one row, of which it returns the hidden row and from that the logits, and the
rows of a commit, of which only its state remains. -/
structure MtpHead (M H L : Type) where
  initial : M
  forward : Token → H → M → H × M
  prefill : List Token → List H → M → M
  logits : H → L

section Head

variable {S M H L : Type} (m : TargetModel S H L) (head : MtpHead M H L)

def newMtpState (maxContext : ℕ) : MtpState M where
  position := 0
  attention := head.initial
  maxContext := maxContext

/-- The refusal of a draft state that has no room left. -/
def mtpContextCapError (maxContext : ℕ) : Error :=
  .invalidRequest ("qwen35 MTP prompt exceeds local context cap " ++ toString maxContext)

/-- `mtp_forward_tokens_logits_hidden` for one token. -/
def mtpForwardToken (token : Token) (hidden : H) (state : MtpState M) :
    Except Error (TargetOutput H L × MtpState M) :=
  if state.maxContext < usizeSaturatingAdd state.position 1 then
    .error (mtpContextCapError state.maxContext)
  else
    let (h, attention) := head.forward token hidden state.attention
    .ok (⟨h, head.logits h⟩, { state with position := state.position + 1, attention := attention })

def mtpPrefillTokens (tokens : List Token) (targetHidden : List H) (state : MtpState M) :
    Except Error (MtpState M) :=
  if tokens = [] then
    if targetHidden = [] then .ok state
    else .error (.invalidRequest "MTP target hidden rows were provided without tokens")
  else if targetHidden.length ≠ tokens.length then
    .error (.invalidRequest ("MTP target hidden length " ++
      toString (targetHidden.length * m.hiddenSize) ++ ", expected " ++ toString tokens.length ++
      "x" ++ toString m.hiddenSize))
  else if state.maxContext < usizeSaturatingAdd state.position tokens.length then
    .error (mtpContextCapError state.maxContext)
  else
    .ok { state with
      position := state.position + tokens.length
      attention := head.prefill tokens targetHidden state.attention }

/-- The prompt through the draft head: row `i` pairs token `i + 1` with the hidden row of token
`i`. -/
def mtpPrefillChunks : List (List (Token × H)) → MtpState M → Except Error (MtpState M)
  | [], state => .ok state
  | rows :: rest, state => do
      let state ← mtpPrefillTokens m head (rows.map Prod.fst) (rows.map Prod.snd) state
      mtpPrefillChunks rest state

/-- `mtp_conditioning_rows`: the row before the committed ones, and all of these but the last. -/
def mtpConditioningRows (previousHidden : H) (committedHidden : List H) (rows : ℕ) :
    Except Error (List H) :=
  if committedHidden.length ≠ rows then
    .error (.invalidRequest ("MTP committed hidden length " ++
      toString (committedHidden.length * m.hiddenSize) ++ ", expected " ++ toString rows ++ "x" ++
      toString m.hiddenSize))
  else if rows = 0 then .ok []
  else .ok (previousHidden :: committedHidden.take (rows - 1))

end Head

/-! ### Plain decoding -/

/-- The sampler with its parameters, and when decoding stops: after `maxTokens` tokens, when nothing
can be sampled, and, if asked for, at the end-of-sequence token. -/
structure Sampling (L R : Type) where
  sampleToken : L → List Token → R → Option Token × R
  seeded : R
  maxTokens : ℕ
  eosTokenId : Token
  stopOnEos : Bool

def Sampling.isStop {L R : Type} (p : Sampling L R) (token : Token) : Bool :=
  p.stopOnEos && token == p.eosTokenId

section Generate

variable {S M H L R : Type} (m : TargetModel S H L) (head : MtpHead M H L) (p : Sampling L R)

/-- The loop of `generate_without_mtp`, for as many tokens as may still come. -/
def plainLoop : ℕ → List Token → R → Token → ForwardState S → Except Error (List Token)
  | 0, generated, _, _, _ => .ok generated
  | n + 1, generated, rng, next, state => do
      let (logits, state) ← forwardTokenLogits m next state
      match p.sampleToken logits generated rng with
      | (none, _) => return generated
      | (some token, rng) =>
        if p.isStop token then return generated
        else plainLoop n (generated ++ [token]) rng token state

/-- `generate_without_mtp`.  The code always stops at the end-of-sequence token; the stopping rule is
a parameter here so that both rules of the other way of decoding have their counterpart. -/
def generateWithoutMtp (prompt : List Token) : Except Error (List Token) := do
  let state := newState m (maxContextFor m prompt.length p.maxTokens)
  let (_, state) ← prefillChunks m (chunks 512 prompt.dropLast) state
  match prompt.getLast? with
  | none => .error .panicked
  | some next => plainLoop m p p.maxTokens [] p.seeded next state

/-! ### Decoding with drafts -/

def mtpDraftMax : ℕ := 6

/-- `mtp_should_fallback`: after two cycles, unless more than one and a half drafts were accepted in
each. -/
def mtpShouldFallback (cycles accepted : ℕ) : Bool :=
  decide (2 ≤ cycles ∧ usizeSaturatingMul accepted 2 ≤ usizeSaturatingMul cycles 3)

/-- The variables of the main loop that live from one round to the next. -/
structure LoopState (S M H R : Type) where
  generated : List Token
  rng : R
  next : Token
  pendingTargetHidden : H
  targetState : ForwardState S
  mtpState : MtpState M
  draftedTotal : ℕ
  acceptedTotal : ℕ
  cycles : ℕ
  mtpFallback : Bool

/-- What a round leaves: `break`, or on to the next one. -/
inductive Flow (σ : Type)
  | done (s : σ)
  | again (s : σ)

/-- The end of a round that samples one token from the target. -/
def takeToken (l : LoopState S M H R) (logits : L) : Flow (LoopState S M H R) :=
  match p.sampleToken logits l.generated l.rng with
  | (none, rng) => .done { l with rng := rng }
  | (some token, rng) =>
    if p.isStop token then .done { l with rng := rng }
    else .again { l with generated := l.generated ++ [token], rng := rng, next := token }

/-- A round after the fallback: the target alone. -/
def fallbackRound (l : LoopState S M H R) : Except Error (Flow (LoopState S M H R)) := do
  let (logits, targetState) ← forwardTokenLogits m l.next l.targetState
  return takeToken p { l with targetState := targetState } logits

/-- A round without drafts, which the draft head follows. -/
def singleRound (l : LoopState S M H R) : Except Error (Flow (LoopState S M H R)) := do
  let (output, targetState) ← forwardTokenLogitsHidden m l.next l.targetState
  let mtpState ← mtpPrefillTokens m head [l.next] [l.pendingTargetHidden] l.mtpState
  return takeToken p
    { l with
      targetState := targetState
      mtpState := mtpState
      pendingTargetHidden := output.hidden }
    output.logits

/-- The drafts: the chain that the head proposes, sampled with a copy of the generator. -/
def draftLoop : ℕ → R → List Token → Token → H → MtpState M → List Token →
    Except Error (List Token)
  | 0, _, _, _, _, _, drafts => .ok drafts
  | n + 1, rng, history, input, hidden, state, drafts => do
      let (draft, state) ← mtpForwardToken head input hidden state
      match p.sampleToken draft.logits history rng with
      | (none, _) => return drafts
      | (some token, rng) =>
        if p.isStop token then return drafts ++ [token]
        else draftLoop n rng (history ++ [token]) token draft.hidden state (drafts ++ [token])

/-- The variables of the verification of one chain. -/
structure Verified (S H R : Type) where
  generated : List Token
  rng : R
  next : Token
  speculativeState : ForwardState S
  committedHidden : List H
  accepted : ℕ
  acceptedTotal : ℕ
  mismatch : Option Token
  /-- The loop is to be left, by `finished` or by a `break` on the spot. -/
  finished : Bool

/-- The target's token at a position where a draft is to be compared: `none` ends the text. -/
def verifySample (v : Verified S H R) (logits : L) : Option Token × Verified S H R :=
  match p.sampleToken logits v.generated v.rng with
  | (none, rng) => (none, { v with rng := rng, finished := true })
  | (some token, rng) =>
    if p.isStop token then (none, { v with rng := rng, finished := true })
    else (some token, { v with generated := v.generated ++ [token], rng := rng })

/-- The target's token compared with a draft. -/
def verifyDraft (v : Verified S H R) (draft : Token) (logits : L) : Verified S H R :=
  match verifySample p v logits with
  | (none, v) => v
  | (some token, v) =>
    if token ≠ draft then { v with mismatch := some token }
    else
      { v with
        accepted := v.accepted + 1
        acceptedTotal := v.acceptedTotal + 1
        finished := decide (v.generated.length = p.maxTokens) }

/-- The drafts after the first, each with the row of logits that decides it. -/
def verifyTail (v : Verified S H R) : List (Token × L) → Verified S H R
  | [] => v
  | (draft, logits) :: rest =>
    let v := verifyDraft p v draft logits
    if v.finished || v.mismatch.isSome then v else verifyTail v rest

/-- The bonus token behind a chain that was accepted whole. -/
def verifyBonus (v : Verified S H R) (logits : L) : Verified S H R :=
  match verifySample p v logits with
  | (none, v) => v
  | (some token, v) => { v with next := token }

/-- The verification with the rows of one batched forward: those before the last decide the drafts
behind the first one, and the last one supplies the bonus token. -/
def verifyBatch (v : Verified S H R) (others : List Token) (tail : List (TargetOutput H L)) :
    Except Error (Verified S H R) :=
  let v := verifyTail p v (others.zip (tail.map TargetOutput.logits))
  if v.finished || v.mismatch.isSome then .ok v
  else
    match tail[others.length]? with
    | none => .error .panicked
    | some bonus =>
      .ok (verifyBonus p
        { v with committedHidden := v.committedHidden ++ tail.map TargetOutput.hidden }
        bonus.logits)

/-- The verification behind an accepted first draft: the only one of its chain, or followed by a
batched forward. -/
def verifyRest (v : Verified S H R) (first : Token) (others : List Token) :
    Except Error (Verified S H R) :=
  if others = [] then do
    let (bonus, speculativeState) ← forwardTokenLogitsHidden m first v.speculativeState
    return verifyBonus p
      { v with
        speculativeState := speculativeState
        committedHidden := v.committedHidden ++ [bonus.hidden] }
      bonus.logits
  else do
    let (tail, speculativeState) ←
      forwardTokensLogitsHidden m (first :: others) v.speculativeState
    verifyBatch p { v with speculativeState := speculativeState } others tail

/-- The verification of a chain: the target samples at every position what it would sample without
the drafts, as long as these agree. -/
def verify (l : LoopState S M H R) (first : Token) (others : List Token) :
    Except Error (Verified S H R) := do
  let (output, speculativeState) ← forwardTokenLogitsHidden m l.next l.targetState
  let v := verifyDraft p
    { generated := l.generated
      rng := l.rng
      next := l.next
      speculativeState := speculativeState
      committedHidden := [output.hidden]
      accepted := 0
      acceptedTotal := l.acceptedTotal
      mismatch := none
      finished := false }
    first output.logits
  if v.finished || v.mismatch.isSome then return v else verifyRest m p v first others

/-- What is kept of a chain that stopped: the speculative state when it has seen nothing but the
target's own token, or else a replay of the accepted part on the state before it. -/
def keptState (l : LoopState S M H R) (commitTokens : List Token) (v : Verified S H R) :
    Except Error (List H × ForwardState S) :=
  if v.accepted = 0 then .ok (v.committedHidden, v.speculativeState)
  else do
    let (hs, targetState) ← prefillTokensHidden m commitTokens l.targetState
    return (hs.map m.outputNorm, targetState)

/-- The end of a verified round: a chain that was accepted whole swaps the states, of any other the
part that was accepted is kept, and the draft head catches up. -/
def commit (l : LoopState S M H R) (drafts : List Token) (v : Verified S H R) :
    Except Error (LoopState S M H R) := do
  let mtpFallback := mtpShouldFallback l.cycles v.acceptedTotal
  let verificationTokens := l.next :: drafts
  if v.accepted = drafts.length then
    let pending ← lastHiddenRow m v.committedHidden verificationTokens.length
    let conditioning ← mtpConditioningRows m l.pendingTargetHidden v.committedHidden
      verificationTokens.length
    let mtpState ← mtpPrefillTokens m head verificationTokens conditioning l.mtpState
    return { l with
      generated := v.generated
      rng := v.rng
      next := v.next
      pendingTargetHidden := pending
      targetState := v.speculativeState
      mtpState := mtpState
      acceptedTotal := v.acceptedTotal
      mtpFallback := mtpFallback }
  else
    match v.mismatch with
    | none => .error .panicked
    | some targetToken =>
      let commitCount := v.accepted + 1
      let commitTokens := verificationTokens.take commitCount
      let (committedHidden, targetState) ← keptState m l commitTokens v
      let conditioning ← mtpConditioningRows m l.pendingTargetHidden committedHidden commitCount
      let mtpState ← mtpPrefillTokens m head commitTokens conditioning l.mtpState
      let pending ← lastHiddenRow m committedHidden commitCount
      return { l with
        generated := v.generated
        rng := v.rng
        next := targetToken
        pendingTargetHidden := pending
        targetState := targetState
        mtpState := mtpState
        acceptedTotal := v.acceptedTotal
        mtpFallback := mtpFallback }

def round (l : LoopState S M H R) : Except Error (Flow (LoopState S M H R)) :=
  let remaining := p.maxTokens - l.generated.length
  if l.mtpFallback then fallbackRound m p l
  else if remaining = 1 then singleRound m head p l
  else do
    let l := { l with cycles := l.cycles + 1 }
    let drafts ← draftLoop head p (min mtpDraftMax (remaining - 1)) l.rng l.generated l.next
      l.pendingTargetHidden l.mtpState []
    match drafts with
    | [] => singleRound m head p l
    | first :: others =>
      let l := { l with draftedTotal := l.draftedTotal + drafts.length }
      let v ← verify m p l first others
      if v.finished then
        return .done { l with
          generated := v.generated
          rng := v.rng
          acceptedTotal := v.acceptedTotal }
      else
        let l ← commit m head l drafts v
        return .again l

/-- `while generated.len() < max_tokens { … }`; a round that goes on has put out a token. -/
def mtpLoop : ℕ → LoopState S M H R → Except Error (LoopState S M H R)
  | 0, l => .ok l
  | fuel + 1, l =>
    if l.generated.length < p.maxTokens then do
      match ← round m head p l with
      | .done l => return l
      | .again l => mtpLoop fuel l
    else .ok l

/-- `MtpGenerationOutput` with the counts of its telemetry. -/
structure MtpOutput where
  tokenIds : List Token
  cycles : ℕ
  drafted : ℕ
  accepted : ℕ
  fallback : Bool
  deriving DecidableEq

def generateWithMtp (prompt : List Token) : Except Error MtpOutput := do
  let maxContext := maxContextFor m prompt.length p.maxTokens
  let (promptHidden, targetState) ←
    prefillChunks m (chunks 512 prompt) (newState m maxContext)
  let target ← targetFromPrefilledHidden m promptHidden prompt.length
  let mtpState ← mtpPrefillChunks m head
    (chunks 512 (prompt.tail.zip (promptHidden.map m.outputNorm))) (newMtpState head maxContext)
  match p.sampleToken target.logits [] p.seeded with
  | (none, _) => return ⟨[], 0, 0, 0, false⟩
  | (some first, rng) =>
    if p.isStop first then return ⟨[], 0, 0, 0, false⟩
    else
      let l ← mtpLoop m head p p.maxTokens
        { generated := [first]
          rng := rng
          next := first
          pendingTargetHidden := target.hidden
          targetState := targetState
          mtpState := mtpState
          draftedTotal := 0
          acceptedTotal := 0
          cycles := 0
          mtpFallback := false }
      return ⟨l.generated, l.cycles, l.draftedTotal, l.acceptedTotal, l.mtpFallback⟩

end Generate

end Qwen
