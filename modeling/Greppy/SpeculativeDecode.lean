/-
**Drafts do not change what is generated.**

`generate_with_mtp` is a simulation of `generate_without_mtp` that runs several tokens ahead.  Behind
both is `Qwen.decode`, decoding without a context limit: from the history, the generator, the next
token to feed and the state of the layers before it.  A round of the main loop starts from such a
configuration and ends in one that decodes to the same text; which of the two states it keeps, what it
replays on the other and what the draft head proposed has no influence on it.

The position in the context is part of the invariant, because a forward beyond it is an error: before
a round the target has seen the prompt and all but the last generated token, and a chain is never
longer than what may still be generated.

Main results:

* `Qwen.verifyDraft_cases`, `Qwen.verifyTail_cases`, `Qwen.verify_cases` — the verification follows
  stepwise decoding;
* `Qwen.commit_accepted`, `Qwen.commit_stopped`, `Qwen.round_inv` — a round keeps the invariant or
  ends with the text;
* `Qwen.generateWithMtp_eq` — **decoding with drafts returns what plain decoding returns**.
-/

import Greppy.Decoding

set_option autoImplicit false

namespace Qwen

open Greppy (usizeSaturatingAdd usizeSaturatingAdd_le)

theorem ok_bind {α β : Type} (a : α) (f : α → Except Error β) : (Except.ok a >>= f) = f a := rfl

section Generate

variable {S M H L R : Type} (m : TargetModel S H L) (head : MtpHead M H L) (p : Sampling L R)

/-! ### Stepwise decoding -/

def rowLogits (token : Token) (s : S) : L := m.logits (m.outputNorm (m.run token s).1)

/-- A token sampled to be put out; `none` when nothing is sampled or the text ends. -/
def draw (logits : L) (generated : List Token) (rng : R) : Option (Token × R) :=
  match p.sampleToken logits generated rng with
  | (none, _) => none
  | (some token, rng) => if p.isStop token then none else some (token, rng)

/-- Decoding step by step: at most so many further tokens, from a history, a generator, the next
token to feed and the state of the layers before it. -/
def decode : ℕ → List Token → R → Token → S → List Token
  | 0, generated, _, _, _ => generated
  | n + 1, generated, rng, next, s =>
    match draw p (rowLogits m next s) generated rng with
    | none => generated
    | some (token, rng) => decode n (generated ++ [token]) rng token (m.run next s).2

variable {rng : R} {next token : Token} {s : S} {state : ForwardState S} {v : Verified S H R}
  {result : List Token} {l : LoopState S M H R} {promptLength : ℕ}

variable {n : ℕ} {generated tokens chain : List Token} {logits : L} {first : Token}

theorem decode_none (h : draw p (rowLogits m next s) generated rng = none) :
    decode m p n generated rng next s = generated := by
  cases n with
  | zero => rfl
  | succ n => rw [decode, h]

theorem decode_some {rng' : R} (h : draw p (rowLogits m next s) generated rng = some (token, rng'))
    (hn : 0 < n) :
    decode m p n generated rng next s =
      decode m p (n - 1) (generated ++ [token]) rng' token (m.run next s).2 := by
  cases n with
  | zero => omega
  | succ n => rw [decode, h, Nat.add_sub_cancel]

theorem length_decode_le (n : ℕ) (generated : List Token) (rng : R) (next : Token) (s : S) :
    (decode m p n generated rng next s).length ≤ generated.length + n := by
  induction n generalizing generated rng next s with
  | zero => exact Nat.le_refl _
  | succ n ih =>
    rw [decode]
    split
    · omega
    · refine Nat.le_trans (ih _ _ _ _) ?_
      rw [List.length_append, List.length_singleton]
      omega

/-! ### Tokens through the layers -/

@[simp] theorem runAll_nil (s : S) : m.runAll [] s = ([], s) := rfl

theorem runAll_cons (t : Token) (ts : List Token) (s : S) :
    m.runAll (t :: ts) s =
      ((m.run t s).1 :: (m.runAll ts (m.run t s).2).1, (m.runAll ts (m.run t s).2).2) := rfl

theorem runAll_append (ts us : List Token) (s : S) :
    m.runAll (ts ++ us) s =
      ((m.runAll ts s).1 ++ (m.runAll us (m.runAll ts s).2).1,
        (m.runAll us (m.runAll ts s).2).2) := by
  induction ts generalizing s with
  | nil => rfl
  | cons t ts ih => rw [List.cons_append, runAll_cons, ih, runAll_cons, List.cons_append]

@[simp] theorem length_runAll (ts : List Token) (s : S) : (m.runAll ts s).1.length = ts.length := by
  induction ts generalizing s with
  | nil => rfl
  | cons t ts ih => rw [runAll_cons, List.length_cons, ih, List.length_cons]

def ForwardState.advance (state : ForwardState S) (tokens : List Token) : ForwardState S where
  position := state.position + tokens.length
  layers := (m.runAll tokens state.layers).2
  maxContext := state.maxContext

theorem advance_advance (state : ForwardState S) (ts us : List Token) :
    (state.advance m ts).advance m us = state.advance m (ts ++ us) := by
  simp only [ForwardState.advance, runAll_append, List.length_append, Nat.add_assoc]

theorem forwardTokenHidden_ok (h : state.position < state.maxContext) :
    forwardTokenHidden m token state =
      .ok ((m.run token state.layers).1, state.advance m [token]) := by
  rw [forwardTokenHidden, if_neg (by omega)]
  rfl

theorem forwardTokenLogits_ok (h : state.position < state.maxContext) :
    forwardTokenLogits m token state =
      .ok (rowLogits m token state.layers, state.advance m [token]) := by
  rw [forwardTokenLogits, forwardTokenHidden_ok m h]
  rfl

def rowOutput (token : Token) (s : S) : TargetOutput H L :=
  ⟨m.outputNorm (m.run token s).1, rowLogits m token s⟩

theorem forwardTokenLogitsHidden_ok (h : state.position < state.maxContext) :
    forwardTokenLogitsHidden m token state =
      .ok (rowOutput m token state.layers, state.advance m [token]) := by
  rw [forwardTokenLogitsHidden, forwardTokenHidden_ok m h]
  rfl

theorem prefillTokensHidden_ok (h : state.position + tokens.length ≤ state.maxContext) :
    prefillTokensHidden m tokens state =
      .ok ((m.runAll tokens state.layers).1, state.advance m tokens) := by
  have hroom := usizeSaturatingAdd_le state.position tokens.length
  rw [prefillTokensHidden]
  split
  · rename_i hnil
    rw [hnil]
    rfl
  · rw [if_neg (by omega)]
    rfl

/-- The outputs behind the tokens of a chain, one for each. -/
def rowOutputs (tokens : List Token) (s : S) : List (TargetOutput H L) :=
  (m.runAll tokens s).1.map fun h => ⟨m.outputNorm h, m.logits (m.outputNorm h)⟩

theorem forwardTokensLogitsHidden_ok (h : state.position + tokens.length ≤ state.maxContext) :
    forwardTokensLogitsHidden m tokens state =
      .ok (rowOutputs m tokens state.layers, state.advance m tokens) := by
  rw [forwardTokensLogitsHidden, prefillTokensHidden_ok m h]
  rfl

@[simp] theorem length_rowOutputs (ts : List Token) (s : S) :
    (rowOutputs m ts s).length = ts.length := by
  rw [rowOutputs, List.length_map, length_runAll]

theorem lastHiddenRow_ok {hidden : List H} (rows : ℕ) (hrows : rows ≠ 0)
    (hlen : hidden.length = rows) : ∃ h, lastHiddenRow m hidden rows = .ok h := by
  have hlast : hidden[rows - 1]? = some (hidden.get ⟨rows - 1, by omega⟩) :=
    List.getElem?_eq_getElem _
  refine ⟨hidden.get ⟨rows - 1, by omega⟩, ?_⟩
  rw [lastHiddenRow, if_neg (by simp [hrows, hlen]), hlast]

theorem lastHiddenRow_concat (hs : List H) (h : H) {rows : ℕ} (hlen : hs.length + 1 = rows) :
    lastHiddenRow m (hs ++ [h]) rows = .ok h := by
  subst hlen
  rw [lastHiddenRow, if_neg (by simp), Nat.add_sub_cancel, List.getElem?_concat_length]

theorem mtpConditioningRows_ok (previous : H) {committed : List H} (rows : ℕ) (hrows : rows ≠ 0)
    (hlen : committed.length = rows) :
    ∃ rs, mtpConditioningRows m previous committed rows = .ok rs ∧ rs.length = rows := by
  refine ⟨previous :: committed.take (rows - 1), ?_, ?_⟩
  · rw [mtpConditioningRows, if_neg (by simp [hlen]), if_neg hrows]
  · rw [List.length_cons, List.length_take]
    omega

theorem mtpPrefillTokens_ok (tokens : List Token) (hidden : List H) (state : MtpState M)
    (hlen : hidden.length = tokens.length)
    (hroom : state.position + tokens.length ≤ state.maxContext) :
    ∃ state', mtpPrefillTokens m head tokens hidden state = .ok state' ∧
      state'.position = state.position + tokens.length ∧
      state'.maxContext = state.maxContext := by
  have hsat := usizeSaturatingAdd_le state.position tokens.length
  rw [mtpPrefillTokens]
  split
  · rename_i hnil
    rw [hnil, List.length_nil, List.length_eq_zero_iff] at hlen
    rw [if_pos hlen, hnil]
    exact ⟨state, rfl, rfl, rfl⟩
  · rw [if_neg (by simp [hlen]), if_neg (by omega)]
    exact ⟨_, rfl, rfl, rfl⟩

/-! ### Verification -/

/-- What `verifySample` and `takeToken` do, by what is drawn. -/
theorem verifySample_none (h : draw p logits v.generated v.rng = none) :
    ∃ rng, verifySample p v logits = (none, { v with rng := rng, finished := true }) := by
  obtain ⟨drawn, rng, hsample⟩ : ∃ drawn rng, p.sampleToken logits v.generated v.rng = (drawn, rng) :=
    ⟨_, _, rfl⟩
  refine ⟨rng, ?_⟩
  rw [draw, hsample] at h
  rw [verifySample, hsample]
  cases drawn with
  | none => rfl
  | some token =>
    cases hstop : p.isStop token with
    | true => simp only [hstop, if_true]
    | false =>
      simp only [hstop, Bool.false_eq_true, if_false] at h
      cases h

theorem verifySample_some (h : draw p logits v.generated v.rng = some (token, rng)) :
    verifySample p v logits =
      (some token, { v with generated := v.generated ++ [token], rng := rng }) := by
  obtain ⟨drawn, rng', hsample⟩ : ∃ drawn rng, p.sampleToken logits v.generated v.rng = (drawn, rng) :=
    ⟨_, _, rfl⟩
  rw [draw, hsample] at h
  rw [verifySample, hsample]
  cases drawn with
  | none => cases h
  | some token' =>
    cases hstop : p.isStop token' with
    | true =>
      simp only [hstop, if_true] at h
      cases h
    | false =>
      simp only [hstop, Bool.false_eq_true, if_false] at h ⊢
      cases h
      rfl

/-- Decoding goes on from the history and the generator of a verification, with `token` to be fed to
the state `s` of the layers. -/
def Decodes (result : List Token) (v : Verified S H R) (token : Token) (s : S) : Prop :=
  decode m p (p.maxTokens - v.generated.length) v.generated v.rng token s = result

def Settled (result : List Token) (v : Verified S H R) : Prop :=
  v.finished = true ∧ v.generated = result

/-- **One position of the verification** ends the text, or meets a token that is not the draft, or
accepts the draft; decoding goes on behind it in either case. -/
theorem verifyDraft_cases (hv : v.finished = false) (hlen : v.generated.length < p.maxTokens)
    (hd : Decodes m p result v token s) (draft : Token) :
    (Settled result (verifyDraft p v draft (rowLogits m token s)) ∧
      (verifyDraft p v draft (rowLogits m token s)).acceptedTotal ≤ v.acceptedTotal + 1) ∨
    (∃ target rng, verifyDraft p v draft (rowLogits m token s) =
        { v with generated := v.generated ++ [target], rng := rng, mismatch := some target } ∧
      Decodes m p result (verifyDraft p v draft (rowLogits m token s)) target (m.run token s).2) ∨
    (∃ rng, verifyDraft p v draft (rowLogits m token s) =
        { v with
          generated := v.generated ++ [draft]
          rng := rng
          accepted := v.accepted + 1
          acceptedTotal := v.acceptedTotal + 1 } ∧
      v.generated.length + 1 < p.maxTokens ∧
      Decodes m p result (verifyDraft p v draft (rowLogits m token s)) draft (m.run token s).2) := by
  cases hdraw : draw p (rowLogits m token s) v.generated v.rng with
  | none =>
    obtain ⟨rng, hsample⟩ := verifySample_none p hdraw
    have hend : v.generated = result := (decode_none m p hdraw).symm.trans hd
    left
    rw [verifyDraft, hsample]
    exact ⟨⟨rfl, hend⟩, Nat.le_succ _⟩
  | some drawn =>
    obtain ⟨target, rng⟩ := drawn
    have hsample := verifySample_some p hdraw
    have hnext : decode m p (p.maxTokens - (v.generated.length + 1)) (v.generated ++ [target]) rng
        target (m.run token s).2 = result := by
      rw [← Nat.sub_sub, ← decode_some m p hdraw (by omega)]
      exact hd
    by_cases hsame : target = draft
    · subst hsame
      have hverify : verifyDraft p v target (rowLogits m token s) =
          { v with
            generated := v.generated ++ [target]
            rng := rng
            accepted := v.accepted + 1
            acceptedTotal := v.acceptedTotal + 1
            finished := decide ((v.generated ++ [target]).length = p.maxTokens) } := by
        rw [verifyDraft, hsample]
        simp only [ne_eq, not_true_eq_false, if_false]
      by_cases hfull : (v.generated ++ [target]).length = p.maxTokens
      · -- the text is full, and decoding puts out nothing more
        left
        rw [hverify]
        refine ⟨⟨decide_eq_true hfull, ?_⟩, Nat.le_refl _⟩
        rw [List.length_append, List.length_singleton] at hfull
        rw [hfull, Nat.sub_self] at hnext
        exact hnext
      · right
        right
        rw [hverify, decide_eq_false hfull, ← hv]
        rw [List.length_append, List.length_singleton] at hfull
        refine ⟨rng, rfl, by omega, ?_⟩
        simp only [Decodes, List.length_append, List.length_singleton]
        exact hnext
    · right
      left
      have hverify : verifyDraft p v draft (rowLogits m token s) =
          { v with generated := v.generated ++ [target], rng := rng, mismatch := some target } := by
        rw [verifyDraft, hsample]
        simp only [ne_eq, hsame, not_false_eq_true, if_true]
      rw [hverify]
      refine ⟨target, rng, rfl, ?_⟩
      simp only [Decodes, List.length_append, List.length_singleton]
      exact hnext

/-- A chain of which `k` drafts were accepted before `target` came instead: decoding goes on with it
behind the accepted ones, which follow `token`. -/
structure PartChain (result : List Token) (before after : Verified S H R) (token : Token)
    (drafts : List Token) (s : S) (k : ℕ) (target : Token) : Prop where
  lt : k < drafts.length
  running : after.finished = false
  mismatch : after.mismatch = some target
  accepted : after.accepted = before.accepted + k
  length : after.generated.length = before.generated.length + k + 1
  le_max : after.generated.length ≤ p.maxTokens
  decodes : Decodes m p result after target (m.runAll (token :: drafts.take k) s).2

/-- A chain that was accepted whole: decoding goes on with its last token. -/
structure WholeChain (result : List Token) (before after : Verified S H R) (token : Token)
    (drafts : List Token) (s : S) : Prop where
  running : after.finished = false
  mismatch : after.mismatch = none
  accepted : after.accepted = before.accepted + drafts.length
  length : after.generated.length = before.generated.length + drafts.length
  lt_max : after.generated.length < p.maxTokens
  sameState : after.speculativeState = before.speculativeState
  sameHidden : after.committedHidden = before.committedHidden
  decodes : ∃ last before, (rowOutputs m (token :: drafts) s)[drafts.length]? =
      some (rowOutput m last before) ∧
    (m.run last before).2 = (m.runAll (token :: drafts) s).2 ∧ Decodes m p result after last before

/-- The rows of logits that decide the drafts behind `token`. -/
def decidingRows (token : Token) (drafts : List Token) (s : S) : List (Token × L) :=
  drafts.zip ((rowOutputs m (token :: drafts) s).map TargetOutput.logits)

theorem decidingRows_cons (token draft : Token) (drafts : List Token) (s : S) :
    decidingRows m token (draft :: drafts) s =
      (draft, rowLogits m token s) :: decidingRows m draft drafts (m.run token s).2 := rfl

/-- **The verification of a chain** ends the text, or stops at a draft that is not the target's
token, or accepts all of them. -/
theorem verifyTail_cases (hv : v.finished = false) (hmismatch : v.mismatch = none)
    (hlen : v.generated.length < p.maxTokens) (hd : Decodes m p result v token s)
    (drafts : List Token) :
    (verifyTail p v (decidingRows m token drafts s)).acceptedTotal ≤
        v.acceptedTotal + drafts.length ∧
      (Settled result (verifyTail p v (decidingRows m token drafts s)) ∨
        (∃ k target, PartChain m p result v (verifyTail p v (decidingRows m token drafts s)) token
          drafts s k target) ∨
        WholeChain m p result v (verifyTail p v (decidingRows m token drafts s)) token drafts s) := by
  induction drafts generalizing v token s with
  | nil =>
    refine ⟨Nat.le_refl _, Or.inr (Or.inr ?_)⟩
    exact
      { running := hv
        mismatch := hmismatch
        accepted := rfl
        length := rfl
        lt_max := hlen
        sameState := rfl
        sameHidden := rfl
        decodes := ⟨token, s, rfl, rfl, hd⟩ }
  | cons draft drafts ih =>
    rw [decidingRows_cons, verifyTail]
    rcases verifyDraft_cases m p hv hlen hd draft with
      ⟨hsettled, hle⟩ | ⟨target, rng, hsame, hnext⟩ | ⟨rng, hsame, hroom, hnext⟩
    · have hstop : ((verifyDraft p v draft (rowLogits m token s)).finished ||
          (verifyDraft p v draft (rowLogits m token s)).mismatch.isSome) = true := by
        rw [hsettled.1, Bool.true_or]
      simp only [hstop, if_true, List.length_cons]
      exact ⟨by omega, Or.inl hsettled⟩
    · have hstop : ((verifyDraft p v draft (rowLogits m token s)).finished ||
          (verifyDraft p v draft (rowLogits m token s)).mismatch.isSome) = true := by
        rw [hsame, Option.isSome_some, Bool.or_true]
      simp only [hstop, if_true, List.length_cons]
      refine ⟨by rw [hsame]; exact Nat.le_add_right _ _, Or.inr (Or.inl ⟨0, target, ?_⟩)⟩
      exact
        { lt := Nat.succ_pos _
          running := by rw [hsame]; exact hv
          mismatch := by rw [hsame]
          accepted := by rw [hsame]; rfl
          length := by rw [hsame]; exact List.length_append
          le_max := by
            rw [hsame, List.length_append, List.length_singleton]
            omega
          decodes := hnext }
    · -- accepted: the rest of the chain starts from this draft
      have hrun : (verifyDraft p v draft (rowLogits m token s)).finished = false := by
        rw [hsame]
        exact hv
      have hnone : (verifyDraft p v draft (rowLogits m token s)).mismatch = none := by
        rw [hsame]
        exact hmismatch
      have hgen : (verifyDraft p v draft (rowLogits m token s)).generated.length =
          v.generated.length + 1 := by
        rw [hsame, List.length_append, List.length_singleton]
      have hacc : (verifyDraft p v draft (rowLogits m token s)).accepted = v.accepted + 1 := by
        rw [hsame]
      have htotal : (verifyDraft p v draft (rowLogits m token s)).acceptedTotal =
          v.acceptedTotal + 1 := by
        rw [hsame]
      have hgo : ¬ ((verifyDraft p v draft (rowLogits m token s)).finished ||
          (verifyDraft p v draft (rowLogits m token s)).mismatch.isSome) = true := by
        rw [hrun, hnone]
        exact nofun
      obtain ⟨hle, hcases⟩ := ih hrun hnone (by omega) hnext
      simp only [if_neg hgo, List.length_cons]
      refine ⟨by omega, ?_⟩
      rcases hcases with hsettled | ⟨k, target, hpart⟩ | hwhole
      · exact Or.inl hsettled
      · refine Or.inr (Or.inl ⟨k + 1, target, ?_⟩)
        exact
          { lt := Nat.succ_lt_succ hpart.lt
            running := hpart.running
            mismatch := hpart.mismatch
            accepted := by rw [hpart.accepted, hacc]; omega
            length := by rw [hpart.length, hgen]; omega
            le_max := hpart.le_max
            decodes := hpart.decodes }
      · refine Or.inr (Or.inr ?_)
        obtain ⟨last, before, hrow, hstate, hdec⟩ := hwhole.decodes
        exact
          { running := hwhole.running
            mismatch := hwhole.mismatch
            accepted := by rw [hwhole.accepted, hacc, List.length_cons]; omega
            length := by rw [hwhole.length, hgen, List.length_cons]; omega
            lt_max := hwhole.lt_max
            sameState := by rw [hwhole.sameState, hsame]
            sameHidden := by rw [hwhole.sameHidden, hsame]
            decodes := ⟨last, before, hrow, hstate, hdec⟩ }

theorem verifyBonus_cases (hlen : v.generated.length < p.maxTokens)
    (hd : Decodes m p result v token s) :
    (Settled result (verifyBonus p v (rowLogits m token s)) ∧
      (verifyBonus p v (rowLogits m token s)).acceptedTotal = v.acceptedTotal) ∨
    (∃ target rng, verifyBonus p v (rowLogits m token s) =
        { v with generated := v.generated ++ [target], rng := rng, next := target } ∧
      Decodes m p result (verifyBonus p v (rowLogits m token s)) target (m.run token s).2) := by
  cases hdraw : draw p (rowLogits m token s) v.generated v.rng with
  | none =>
    obtain ⟨rng, hsample⟩ := verifySample_none p hdraw
    left
    rw [verifyBonus, hsample]
    exact ⟨⟨rfl, (decode_none m p hdraw).symm.trans hd⟩, rfl⟩
  | some drawn =>
    obtain ⟨target, rng⟩ := drawn
    have hverify : verifyBonus p v (rowLogits m token s) =
        { v with generated := v.generated ++ [target], rng := rng, next := target } := by
      rw [verifyBonus, verifySample_some p hdraw]
    right
    rw [hverify]
    refine ⟨target, rng, rfl, ?_⟩
    rw [Decodes, List.length_append, List.length_singleton, ← Nat.sub_sub,
      ← decode_some m p hdraw (by omega)]
    exact hd

/-- A verified chain of which the first `k` drafts were accepted, seen from the round it belongs to. -/
structure Stopped (result : List Token) (l : LoopState S M H R) (chain : List Token)
    (v : Verified S H R) (k : ℕ) (target : Token) : Prop where
  lt : k < chain.length
  running : v.finished = false
  mismatch : v.mismatch = some target
  accepted : v.accepted = k
  length : v.generated.length = l.generated.length + k + 1
  le_max : v.generated.length ≤ p.maxTokens
  decodes : Decodes m p result v target (m.runAll (l.next :: chain.take k) l.targetState.layers).2
  /-- Without an accepted draft the speculative state is the one to keep. -/
  first : k = 0 → v.speculativeState = l.targetState.advance m [l.next] ∧
    v.committedHidden.length = 1

/-- A verified chain that was accepted whole, with its bonus token. -/
structure Accepted (result : List Token) (l : LoopState S M H R) (chain : List Token)
    (v : Verified S H R) : Prop where
  running : v.finished = false
  accepted : v.accepted = chain.length
  length : v.generated.length = l.generated.length + chain.length + 1
  le_max : v.generated.length ≤ p.maxTokens
  decodes : Decodes m p result v v.next (m.runAll (l.next :: chain) l.targetState.layers).2
  state : v.speculativeState = l.targetState.advance m (l.next :: chain)
  hidden : v.committedHidden.length = chain.length + 1

theorem accepted_of_bonus (chain : List Token) {last : Token} {before : S}
    (hrun : v.finished = false) (hacc : v.accepted = chain.length)
    (hlength : v.generated.length = l.generated.length + chain.length)
    (hlt : v.generated.length < p.maxTokens) (hd : Decodes m p result v last before)
    (hafter : (m.run last before).2 = (m.runAll (l.next :: chain) l.targetState.layers).2)
    (hstate : v.speculativeState = l.targetState.advance m (l.next :: chain))
    (hhidden : v.committedHidden.length = chain.length + 1) :
    (verifyBonus p v (rowLogits m last before)).acceptedTotal = v.acceptedTotal ∧
      (Settled result (verifyBonus p v (rowLogits m last before)) ∨
        Accepted m p result l chain (verifyBonus p v (rowLogits m last before))) := by
  rcases verifyBonus_cases m p hlt hd with ⟨hsettled, htotal⟩ | ⟨target, rng, hsame, hnext⟩
  · exact ⟨htotal, Or.inl hsettled⟩
  · refine ⟨by rw [hsame], Or.inr ?_⟩
    rw [hafter] at hnext
    rw [hsame] at hnext ⊢
    exact
      { running := hrun
        accepted := hacc
        length := by rw [List.length_append, List.length_singleton, hlength]
        le_max := by
          rw [List.length_append, List.length_singleton]
          omega
        decodes := hnext
        state := hstate
        hidden := hhidden }

/-- A verification in which the first draft of a chain has been accepted. -/
structure FirstAccepted (result : List Token) (l : LoopState S M H R) (first : Token)
    (v : Verified S H R) : Prop where
  running : v.finished = false
  mismatch : v.mismatch = none
  accepted : v.accepted = 1
  total : v.acceptedTotal = l.acceptedTotal + 1
  length : v.generated.length = l.generated.length + 1
  lt_max : v.generated.length < p.maxTokens
  decodes : Decodes m p result v first (m.run l.next l.targetState.layers).2
  hidden : v.committedHidden.length = 1

/-- The rest of a chain is verified with the rows of one batched forward. -/
theorem verifyBatch_cases (hv : FirstAccepted m p result l first v) (others : List Token)
    (hstate : v.speculativeState = l.targetState.advance m (l.next :: first :: others)) :
    ∃ v', verifyBatch p v others
        (rowOutputs m (first :: others) (m.run l.next l.targetState.layers).2) = .ok v' ∧
      v'.acceptedTotal ≤ l.acceptedTotal + (others.length + 1) ∧
      (Settled result v' ∨ (∃ k target, Stopped m p result l (first :: others) v' k target) ∨
        Accepted m p result l (first :: others) v') := by
  obtain ⟨hle, hcases⟩ := verifyTail_cases m p hv.running hv.mismatch hv.lt_max hv.decodes others
  have htotal := hv.total
  rw [decidingRows] at hle hcases
  simp only [verifyBatch]
  generalize verifyTail p v (others.zip ((rowOutputs m (first :: others)
    (m.run l.next l.targetState.layers).2).map TargetOutput.logits)) = w at hle hcases ⊢
  rcases hcases with hsettled | ⟨k, target, hpart⟩ | hwhole
  · rw [hsettled.1, Bool.true_or, if_pos rfl]
    exact ⟨_, rfl, by omega, Or.inl hsettled⟩
  · rw [hpart.mismatch, Option.isSome_some, Bool.or_true, if_pos rfl]
    refine ⟨_, rfl, by omega, Or.inr (Or.inl ⟨k + 1, target, ?_⟩)⟩
    exact
      { lt := Nat.succ_lt_succ hpart.lt
        running := hpart.running
        mismatch := hpart.mismatch
        accepted := by rw [hpart.accepted, hv.accepted, Nat.add_comm]
        length := by rw [hpart.length, hv.length]; omega
        le_max := hpart.le_max
        decodes := hpart.decodes
        first := fun hzero => absurd hzero (Nat.succ_ne_zero k) }
  · obtain ⟨last, before, hrow, hafter, hnext⟩ := hwhole.decodes
    have hgo : (w.finished || w.mismatch.isSome) = false := by
      rw [hwhole.running, hwhole.mismatch]
      rfl
    rw [hgo, if_neg nofun, hrow]
    obtain ⟨hsame, hend⟩ := accepted_of_bonus m p (first :: others) (l := l)
      (v := { w with
              committedHidden := w.committedHidden ++ (rowOutputs m (first :: others)
                (m.run l.next l.targetState.layers).2).map TargetOutput.hidden })
      hwhole.running
      (by rw [hwhole.accepted, hv.accepted, List.length_cons, Nat.add_comm])
      (by rw [hwhole.length, hv.length, List.length_cons]; omega)
      hwhole.lt_max hnext hafter (by rw [hwhole.sameState, hstate])
      (by
        rw [List.length_append, hwhole.sameHidden, hv.hidden, List.length_map, length_rowOutputs,
          Nat.add_comm])
    refine ⟨_, rfl, ?_, ?_⟩
    · exact Nat.le_trans (Nat.le_of_eq hsame) (Nat.le_trans hle (by omega))
    · rcases hend with hsettled | haccepted
      · exact Or.inl hsettled
      · exact Or.inr (Or.inr haccepted)

/-- What is left of a verification once the first draft has been accepted. -/
theorem verifyRest_cases (hv : FirstAccepted m p result l first v) (others : List Token)
    (hroom : l.targetState.position + (others.length + 2) ≤ l.targetState.maxContext)
    (hstate : v.speculativeState = l.targetState.advance m [l.next]) :
    ∃ v', verifyRest m p v first others = .ok v' ∧
      v'.acceptedTotal ≤ l.acceptedTotal + (others.length + 1) ∧
      (Settled result v' ∨ (∃ k target, Stopped m p result l (first :: others) v' k target) ∨
        Accepted m p result l (first :: others) v') := by
  have hplace : v.speculativeState.position = l.targetState.position + 1 := by
    rw [hstate]
    rfl
  have hmax : v.speculativeState.maxContext = l.targetState.maxContext := by
    rw [hstate]
    rfl
  have hlayers : v.speculativeState.layers = (m.run l.next l.targetState.layers).2 := by
    rw [hstate]
    rfl
  rw [verifyRest]
  split
  · -- the chain of one draft: the bonus token comes from a forward of its own
    rename_i hothers
    subst hothers
    rw [forwardTokenLogitsHidden_ok m (by omega), hlayers]
    obtain ⟨htotal, hcases⟩ := accepted_of_bonus m p [first] (l := l)
      (v := { v with
              speculativeState := v.speculativeState.advance m [first]
              committedHidden := v.committedHidden ++
                [(rowOutput m first (m.run l.next l.targetState.layers).2).hidden] })
      hv.running hv.accepted hv.length hv.lt_max hv.decodes rfl
      (by rw [hstate, advance_advance]; rfl)
      (by rw [List.length_append, hv.hidden]; rfl)
    refine ⟨_, rfl, ?_, ?_⟩
    · exact Nat.le_of_eq (htotal.trans hv.total)
    · rcases hcases with hsettled | haccepted
      · exact Or.inl hsettled
      · exact Or.inr (Or.inr haccepted)
  · rw [forwardTokensLogitsHidden_ok m (by rw [List.length_cons]; omega), hlayers]
    exact verifyBatch_cases m p
      (v := { v with speculativeState := v.speculativeState.advance m (first :: others) })
      ⟨hv.running, hv.mismatch, hv.accepted, hv.total, hv.length, hv.lt_max, hv.decodes, hv.hidden⟩
      others (by rw [hstate, advance_advance]; rfl)

/-- **The verification of a round** succeeds, and ends the text, stops at a draft or accepts the
whole chain. -/
theorem verify_cases (first : Token) (others : List Token) (hlen : l.generated.length < p.maxTokens)
    (hroom : l.targetState.position + (others.length + 2) ≤ l.targetState.maxContext)
    (hd : decode m p (p.maxTokens - l.generated.length) l.generated l.rng l.next
      l.targetState.layers = result) :
    ∃ v, verify m p l first others = .ok v ∧
      v.acceptedTotal ≤ l.acceptedTotal + (others.length + 1) ∧
      (Settled result v ∨ (∃ k target, Stopped m p result l (first :: others) v k target) ∨
        Accepted m p result l (first :: others) v) := by
  have hfirst : forwardTokenLogitsHidden m l.next l.targetState =
      .ok (rowOutput m l.next l.targetState.layers, l.targetState.advance m [l.next]) :=
    forwardTokenLogitsHidden_ok m (by omega)
  let v₀ : Verified S H R :=
    { generated := l.generated
      rng := l.rng
      next := l.next
      speculativeState := l.targetState.advance m [l.next]
      committedHidden := [(rowOutput m l.next l.targetState.layers).hidden]
      accepted := 0
      acceptedTotal := l.acceptedTotal
      mismatch := none
      finished := false }
  have hd₀ : Decodes m p result v₀ l.next l.targetState.layers := hd
  -- what is left of the verification once the first draft has been compared
  have hverify : verify m p l first others =
      (let v := verifyDraft p v₀ first (rowLogits m l.next l.targetState.layers)
       if v.finished || v.mismatch.isSome then .ok v else verifyRest m p v first others) := by
    rw [verify, hfirst]
    rfl
  rw [hverify]
  rcases verifyDraft_cases m p (v := v₀) rfl hlen hd₀ first with
    ⟨hsettled, hle⟩ | ⟨target, rng, hsame, hnext⟩ | ⟨rng, hsame, hmore, hnext⟩
  · refine ⟨verifyDraft p v₀ first (rowLogits m l.next l.targetState.layers), ?_, ?_,
      Or.inl hsettled⟩
    · simp only [hsettled.1, Bool.true_or, if_true]
    · exact Nat.le_trans hle (Nat.add_le_add_left (by omega) _)
  · rw [hsame] at hnext
    simp only [hsame, Option.isSome_some, Bool.or_true, if_true]
    refine ⟨_, rfl, Nat.le_add_right _ _, Or.inr (Or.inl ⟨0, target, ?_⟩)⟩
    exact
      { lt := Nat.succ_pos _
        running := rfl
        mismatch := rfl
        accepted := rfl
        length := List.length_append
        le_max := by
          rw [List.length_append, List.length_singleton]
          exact hlen
        decodes := hnext
        first := fun _ => ⟨rfl, rfl⟩ }
  · rw [hsame] at hnext
    simp only [hsame]
    refine verifyRest_cases m p ?_ others hroom rfl
    exact
      { running := rfl
        mismatch := rfl
        accepted := rfl
        total := rfl
        length := List.length_append
        lt_max := by
          rw [List.length_append]
          exact hmore
        decodes := hnext
        hidden := rfl }

/-! ### A round -/

/-- What holds before every round of the main loop, for a prompt of that length and the text that is
to come out. -/
structure LoopInv (promptLength : ℕ) (result : List Token) (l : LoopState S M H R) : Prop where
  begun : 1 ≤ l.generated.length
  le_max : l.generated.length ≤ p.maxTokens
  decodes : decode m p (p.maxTokens - l.generated.length) l.generated l.rng l.next
    l.targetState.layers = result
  /-- The target has seen the prompt and all generated tokens but the last. -/
  position : l.targetState.position + 1 = promptLength + l.generated.length
  room : l.targetState.maxContext = promptLength + p.maxTokens + 1
  /-- The draft head is one token behind; after the fallback it is left alone. -/
  mtpPosition : l.mtpFallback = false → l.mtpState.position + 2 = promptLength + l.generated.length
  mtpRoom : l.mtpState.maxContext = promptLength + p.maxTokens + 1
  counts : l.acceptedTotal ≤ l.draftedTotal

/-- The round ends the loop with the text, or goes on with more of it. -/
def FlowInv (promptLength : ℕ) (result : List Token) (before : ℕ) :
    Flow (LoopState S M H R) → Prop
  | .done l => l.generated = result ∧ l.acceptedTotal ≤ l.draftedTotal
  | .again l => LoopInv m p promptLength result l ∧ before < l.generated.length

theorem takeToken_inv (hlen : l.generated.length < p.maxTokens) (hbegun : 1 ≤ l.generated.length)
    (hd : decode m p (p.maxTokens - l.generated.length) l.generated l.rng next s = result)
    (hlayers : l.targetState.layers = (m.run next s).2)
    (hposition : l.targetState.position = promptLength + l.generated.length)
    (hroom : l.targetState.maxContext = promptLength + p.maxTokens + 1)
    (hmtp : l.mtpFallback = false → l.mtpState.position + 1 = promptLength + l.generated.length)
    (hmtpRoom : l.mtpState.maxContext = promptLength + p.maxTokens + 1)
    (hcounts : l.acceptedTotal ≤ l.draftedTotal) :
    FlowInv m p promptLength result l.generated.length (takeToken p l (rowLogits m next s)) := by
  rw [takeToken]
  cases hsample : p.sampleToken (rowLogits m next s) l.generated l.rng with
  | mk token rng =>
    cases token with
    | none =>
      have hdraw : draw p (rowLogits m next s) l.generated l.rng = none := by
        rw [draw, hsample]
      exact ⟨(decode_none m p hdraw).symm.trans hd, hcounts⟩
    | some token =>
      cases hstop : p.isStop token with
      | true =>
        have hdraw : draw p (rowLogits m next s) l.generated l.rng = none := by
          rw [draw, hsample]
          simp only [hstop, if_true]
        simp only [hstop, if_true]
        exact ⟨(decode_none m p hdraw).symm.trans hd, hcounts⟩
      | false =>
        have hdraw : draw p (rowLogits m next s) l.generated l.rng = some (token, rng) := by
          rw [draw, hsample]
          simp only [hstop, Bool.false_eq_true, if_false]
        have hgen : (l.generated ++ [token]).length = l.generated.length + 1 := by
          rw [List.length_append, List.length_singleton]
        simp only [hstop, Bool.false_eq_true, if_false]
        refine ⟨?_, by rw [hgen]; omega⟩
        exact
          { begun := by rw [hgen]; omega
            le_max := by rw [hgen]; omega
            decodes := by
              rw [hgen, hlayers, ← Nat.sub_sub, ← decode_some m p hdraw (by omega)]
              exact hd
            position := by rw [hgen, hposition]; omega
            room := hroom
            mtpPosition := by
              intro hfallback
              rw [hgen, ← Nat.add_assoc, ← hmtp hfallback]
            mtpRoom := hmtpRoom
            counts := hcounts }

theorem fallbackRound_inv (hl : LoopInv m p promptLength result l)
    (hlen : l.generated.length < p.maxTokens) (hfallback : l.mtpFallback = true) :
    ∃ flow, fallbackRound m p l = .ok flow ∧
      FlowInv m p promptLength result l.generated.length flow := by
  have hposition := hl.position
  have hroom := hl.room
  rw [fallbackRound, forwardTokenLogits_ok m (by omega)]
  refine ⟨_, rfl, ?_⟩
  exact takeToken_inv m p (l := { l with targetState := l.targetState.advance m [l.next] })
    hlen hl.begun hl.decodes rfl hposition hroom
    (fun h => absurd (hfallback.symm.trans h) nofun) hl.mtpRoom hl.counts

theorem singleRound_inv (hl : LoopInv m p promptLength result l)
    (hlen : l.generated.length < p.maxTokens) (hfallback : l.mtpFallback = false) :
    ∃ flow, singleRound m head p l = .ok flow ∧
      FlowInv m p promptLength result l.generated.length flow := by
  have hposition := hl.position
  have hroom := hl.room
  have hmtp := hl.mtpPosition hfallback
  have hmtpRoom := hl.mtpRoom
  obtain ⟨mtpState, hprefill, hplace, hmax⟩ := mtpPrefillTokens_ok m head [l.next]
    [l.pendingTargetHidden] l.mtpState rfl
    (by rw [List.length_singleton]; omega)
  rw [List.length_singleton] at hplace
  rw [singleRound, forwardTokenLogitsHidden_ok m (by omega)]
  change ∃ flow, (mtpPrefillTokens m head [l.next] [l.pendingTargetHidden] l.mtpState >>= _) =
    Except.ok flow ∧ _
  rw [hprefill]
  refine ⟨_, rfl, ?_⟩
  exact takeToken_inv m p
    (l := { l with
            targetState := l.targetState.advance m [l.next]
            mtpState := mtpState
            pendingTargetHidden := (rowOutput m l.next l.targetState.layers).hidden })
    hlen hl.begun hl.decodes rfl hposition hroom
    (by
      intro _
      rw [hplace]
      omega)
    (hmax.trans hmtpRoom) hl.counts

theorem draftLoop_ok (n : ℕ) (rng : R) (history : List Token) (input : Token) (hidden : H)
    (state : MtpState M) (drafts : List Token) (hroom : state.position + n ≤ state.maxContext) :
    ∃ drafts', draftLoop head p n rng history input hidden state drafts = .ok drafts' ∧
      drafts'.length ≤ drafts.length + n := by
  induction n generalizing rng history input hidden state drafts with
  | zero => exact ⟨drafts, rfl, Nat.le_refl _⟩
  | succ n ih =>
    have hsat := usizeSaturatingAdd_le state.position 1
    rw [draftLoop, mtpForwardToken, if_neg (by omega)]
    change ∃ drafts', (match p.sampleToken _ history rng with
      | (none, _) => Except.ok drafts
      | (some token, rng) => if p.isStop token then Except.ok (drafts ++ [token])
          else draftLoop head p n rng (history ++ [token]) token _ _ (drafts ++ [token])) =
        Except.ok drafts' ∧ _
    split
    · exact ⟨drafts, rfl, by omega⟩
    split
    · refine ⟨_, rfl, ?_⟩
      rw [List.length_append, List.length_singleton]
      omega
    · rename_i token rng' _ _
      obtain ⟨drafts', hdrafts, hle⟩ := ih rng' (history ++ [token]) token
        (head.forward input hidden state.attention).1
        ⟨state.position + 1, (head.forward input hidden state.attention).2, state.maxContext⟩
        (drafts ++ [token]) (by simp only; omega)
      rw [List.length_append, List.length_singleton] at hle
      exact ⟨drafts', hdrafts, by omega⟩

/-- A chain that was accepted whole is committed by keeping the speculative state. -/
theorem commit_accepted (hl : LoopInv m p promptLength result l) (hfallback : l.mtpFallback = false)
    (hv : Accepted m p result l chain v) (hcounts : v.acceptedTotal ≤ l.draftedTotal) :
    ∃ l', commit m head l chain v = .ok l' ∧ LoopInv m p promptLength result l' ∧
      l.generated.length < l'.generated.length := by
  have hposition := hl.position
  have hmtp := hl.mtpPosition hfallback
  have hmtpRoom := hl.mtpRoom
  have hlength := hv.length
  have hmax := hv.le_max
  obtain ⟨pending, hpending⟩ := lastHiddenRow_ok m (l.next :: chain).length
    (Nat.succ_ne_zero _) hv.hidden
  obtain ⟨rows, hrows, hrowsLength⟩ := mtpConditioningRows_ok m l.pendingTargetHidden
    (l.next :: chain).length (Nat.succ_ne_zero _) hv.hidden
  obtain ⟨mtpState, hprefill, hplace, hmtpMax⟩ := mtpPrefillTokens_ok m head
    (l.next :: chain) rows l.mtpState hrowsLength
    (by rw [List.length_cons]; omega)
  rw [List.length_cons] at hplace
  rw [commit]
  simp only [if_pos hv.accepted, hpending, hrows, hprefill, ok_bind]
  refine ⟨_, rfl, ?_, ?_⟩
  · exact
      { begun := by
          change 1 ≤ v.generated.length
          omega
        le_max := hmax
        decodes := by
          rw [hv.state]
          exact hv.decodes
        position := by
          rw [hv.state]
          simp only [ForwardState.advance, List.length_cons]
          omega
        room := by
          rw [hv.state]
          exact hl.room
        mtpPosition := by
          intro _
          change mtpState.position + 2 = promptLength + v.generated.length
          omega
        mtpRoom := hmtpMax.trans hmtpRoom
        counts := hcounts }
  · simp only
    omega

/-- A chain that stopped at a draft is committed with what was accepted of it, and goes on with the
target's token. -/
theorem commit_stopped {k : ℕ} {target : Token} (hl : LoopInv m p promptLength result l)
    (hfallback : l.mtpFallback = false) (hv : Stopped m p result l chain v k target)
    (hcounts : v.acceptedTotal ≤ l.draftedTotal) :
    ∃ l', commit m head l chain v = .ok l' ∧ LoopInv m p promptLength result l' ∧
      l.generated.length < l'.generated.length := by
  have hposition := hl.position
  have hroom := hl.room
  have hmtp := hl.mtpPosition hfallback
  have hmtpRoom := hl.mtpRoom
  have hlength := hv.length
  have hmax := hv.le_max
  have hk := hv.lt
  have hcommit : ((l.next :: chain).take (k + 1)).length = k + 1 := by
    rw [List.length_take, List.length_cons]
    omega
  -- whichever state is kept, it has seen the accepted tokens
  obtain ⟨hidden, hkept, hhidden⟩ : ∃ hidden : List H,
      keptState m l ((l.next :: chain).take (k + 1)) v =
        .ok (hidden, l.targetState.advance m ((l.next :: chain).take (k + 1))) ∧
      hidden.length = k + 1 := by
    rw [keptState, hv.accepted]
    by_cases hzero : k = 0
    · obtain ⟨hstate, hone⟩ := hv.first hzero
      refine ⟨v.committedHidden, ?_, by rw [hone, hzero]⟩
      rw [if_pos hzero, hstate, hzero]
      rfl
    · rw [if_neg hzero, prefillTokensHidden_ok m (by rw [hcommit]; omega)]
      refine ⟨_, rfl, ?_⟩
      rw [List.length_map, length_runAll, hcommit]
  obtain ⟨rows, hrows, hrowsLength⟩ := mtpConditioningRows_ok m l.pendingTargetHidden
    (k + 1) (Nat.succ_ne_zero k) hhidden
  obtain ⟨pending, hpending⟩ := lastHiddenRow_ok m (k + 1) (Nat.succ_ne_zero k) hhidden
  obtain ⟨mtpState, hprefill, hplace, hmtpMax⟩ := mtpPrefillTokens_ok m head
    ((l.next :: chain).take (k + 1)) rows l.mtpState
    (hrowsLength.trans hcommit.symm) (by rw [hcommit]; omega)
  rw [hcommit] at hplace
  rw [commit, hv.accepted, if_neg (by omega), hv.mismatch]
  simp only [hkept, hrows, hprefill, hpending, ok_bind]
  refine ⟨_, rfl, ?_, ?_⟩
  · exact
      { begun := by
          change 1 ≤ v.generated.length
          omega
        le_max := hmax
        decodes := hv.decodes
        position := by
          simp only [ForwardState.advance, hcommit]
          omega
        room := hroom
        mtpPosition := by
          intro _
          change mtpState.position + 2 = promptLength + v.generated.length
          omega
        mtpRoom := hmtpMax.trans hmtpRoom
        counts := hcounts }
  · simp only
    omega

/-- **A round** of the main loop succeeds, and keeps the invariant or ends with the text. -/
theorem round_inv (hl : LoopInv m p promptLength result l) (hlen : l.generated.length < p.maxTokens) :
    ∃ flow, round m head p l = .ok flow ∧
      FlowInv m p promptLength result l.generated.length flow := by
  rw [round]
  by_cases hfalls : l.mtpFallback = true
  · rw [if_pos hfalls]
    exact fallbackRound_inv m p hl hlen hfalls
  · have hfallback : l.mtpFallback = false := Bool.eq_false_iff.2 hfalls
    rw [if_neg hfalls]
    split
    · exact singleRound_inv m head p hl hlen hfallback
    · rename_i hremaining
      have hposition := hl.position
      have hroom := hl.room
      have hmtp := hl.mtpPosition hfallback
      have hmtpRoom := hl.mtpRoom
      obtain ⟨drafts, hdrafts, hcount⟩ := draftLoop_ok head p
        (min mtpDraftMax (p.maxTokens - l.generated.length - 1)) l.rng l.generated l.next
        l.pendingTargetHidden l.mtpState [] (by omega)
      rw [List.length_nil, Nat.zero_add] at hcount
      simp only [hdrafts, ok_bind]
      cases drafts with
      | nil =>
        exact singleRound_inv m head p (l := { l with cycles := l.cycles + 1 })
          ⟨hl.begun, hl.le_max, hl.decodes, hl.position, hl.room, hl.mtpPosition, hl.mtpRoom,
            hl.counts⟩ hlen hfallback
      | cons first others =>
        rw [List.length_cons] at hcount
        have hl₁ : LoopInv m p promptLength result
            { l with
              cycles := l.cycles + 1
              draftedTotal := l.draftedTotal + (first :: others).length } :=
          ⟨hl.begun, hl.le_max, hl.decodes, hl.position, hl.room, hl.mtpPosition, hl.mtpRoom,
            Nat.le_trans hl.counts (Nat.le_add_right _ _)⟩
        obtain ⟨v, hverify, htotal, hcases⟩ := verify_cases m p first others
          (l := { l with
                  cycles := l.cycles + 1
                  draftedTotal := l.draftedTotal + (first :: others).length })
          hlen (by simp only; omega) hl₁.decodes
        have hcounts : v.acceptedTotal ≤ l.draftedTotal + (first :: others).length :=
          Nat.le_trans htotal (Nat.add_le_add_right hl.counts _)
        simp only [hverify, ok_bind]
        rcases hcases with hsettled | ⟨k, target, hstopped⟩ | haccepted
        · rw [if_pos hsettled.1]
          exact ⟨_, rfl, hsettled.2, hcounts⟩
        · obtain ⟨l', hcommit, hinv, hgrown⟩ :=
            commit_stopped m head p hl₁ hfallback hstopped hcounts
          rw [if_neg (by rw [hstopped.running]; exact nofun), hcommit]
          exact ⟨_, rfl, hinv, hgrown⟩
        · obtain ⟨l', hcommit, hinv, hgrown⟩ :=
            commit_accepted m head p hl₁ hfallback haccepted hcounts
          rw [if_neg (by rw [haccepted.running]; exact nofun), hcommit]
          exact ⟨_, rfl, hinv, hgrown⟩

/-! ### The whole run -/

/-- The main loop ends with the text; every round that goes on has put out a token, so there are
rounds enough. -/
theorem mtpLoop_inv (promptLength : ℕ) (result : List Token) (fuel : ℕ)
    (hl : LoopInv m p promptLength result l) (hfuel : p.maxTokens ≤ l.generated.length + fuel) :
    ∃ l', mtpLoop m head p fuel l = .ok l' ∧ l'.generated = result ∧
      l'.acceptedTotal ≤ l'.draftedTotal := by
  induction fuel generalizing l with
  | zero =>
    have hfull : p.maxTokens - l.generated.length = 0 := by omega
    refine ⟨l, rfl, ?_, hl.counts⟩
    rw [← hl.decodes, hfull]
    rfl
  | succ fuel ih =>
    rw [mtpLoop]
    split
    · rename_i hlen
      obtain ⟨flow, hround, hflow⟩ := round_inv m head p hl hlen
      rw [hround, ok_bind]
      cases flow with
      | done l' => exact ⟨l', rfl, hflow⟩
      | again l' => exact ih hflow.1 (by have := hflow.2; omega)
    · have hfull : p.maxTokens - l.generated.length = 0 := by omega
      refine ⟨l, rfl, ?_, hl.counts⟩
      rw [← hl.decodes, hfull]
      rfl

theorem plainLoop_ok (n : ℕ) (generated : List Token) (rng : R) (next : Token)
    (state : ForwardState S) (hroom : state.position + n ≤ state.maxContext) :
    plainLoop m p n generated rng next state =
      .ok (decode m p n generated rng next state.layers) := by
  induction n generalizing generated rng next state with
  | zero => rfl
  | succ n ih =>
    rw [plainLoop, forwardTokenLogits_ok m (by omega), decode, draw]
    simp only [ok_bind]
    cases p.sampleToken (rowLogits m next state.layers) generated rng with
    | mk token rng =>
      cases token with
      | none => rfl
      | some token =>
        cases hstop : p.isStop token with
        | true =>
          simp only [hstop, if_true]
          rfl
        | false =>
          simp only [hstop, Bool.false_eq_true, if_false]
          exact ih _ _ _ (state.advance m [next]) (by
            simp only [ForwardState.advance, List.length_singleton]
            omega)

theorem prefillChunks_ok {size : ℕ} (hsize : 0 < size) (fuel : ℕ) (tokens : List Token)
    (state : ForwardState S) (hfuel : tokens.length ≤ fuel)
    (hroom : state.position + tokens.length ≤ state.maxContext) :
    prefillChunks m (chunksFrom size fuel tokens) state =
      .ok ((m.runAll tokens state.layers).1, state.advance m tokens) := by
  induction fuel generalizing tokens state with
  | zero =>
    obtain rfl := List.length_eq_zero_iff.1 (Nat.le_zero.1 hfuel)
    rfl
  | succ fuel ih =>
    rw [chunksFrom]
    split
    · rename_i hnil
      rw [hnil]
      rfl
    · rename_i hne
      have hpos := List.length_pos_of_ne_nil hne
      have htake : (tokens.take size).length + (tokens.drop size).length = tokens.length := by
        rw [← List.length_append, List.take_append_drop]
      have hdrop : (tokens.drop size).length ≤ fuel := by
        rw [List.length_drop]
        omega
      have hrest := ih (tokens.drop size) (state.advance m (tokens.take size)) hdrop (by
        simp only [ForwardState.advance]
        omega)
      rw [prefillChunks, prefillTokensHidden_ok m (by omega)]
      simp only [ok_bind, hrest, advance_advance, List.take_append_drop]
      have hsplit := runAll_append m (tokens.take size) (tokens.drop size) state.layers
      rw [List.take_append_drop] at hsplit
      rw [hsplit]
      rfl

theorem mtpPrefillChunks_ok (size : ℕ) (hsize : 0 < size) (fuel : ℕ) (rows : List (Token × H))
    (state : MtpState M) (hfuel : rows.length ≤ fuel)
    (hroom : state.position + rows.length ≤ state.maxContext) :
    ∃ state', mtpPrefillChunks m head (chunksFrom size fuel rows) state = .ok state' ∧
      state'.position = state.position + rows.length ∧ state'.maxContext = state.maxContext := by
  induction fuel generalizing rows state with
  | zero =>
    obtain rfl := List.length_eq_zero_iff.1 (Nat.le_zero.1 hfuel)
    exact ⟨state, rfl, rfl, rfl⟩
  | succ fuel ih =>
    rw [chunksFrom]
    split
    · rename_i hnil
      rw [hnil]
      exact ⟨state, rfl, rfl, rfl⟩
    · rename_i hne
      have hpos := List.length_pos_of_ne_nil hne
      have htake : (rows.take size).length + (rows.drop size).length = rows.length := by
        rw [← List.length_append, List.take_append_drop]
      have hdrop : (rows.drop size).length ≤ fuel := by
        rw [List.length_drop]
        omega
      obtain ⟨middle, hfirst, hplace, hmax⟩ := mtpPrefillTokens_ok m head
        ((rows.take size).map Prod.fst) ((rows.take size).map Prod.snd)
        state (by rw [List.length_map, List.length_map])
        (by rw [List.length_map]; omega)
      rw [List.length_map] at hplace
      obtain ⟨state', hrest, hplace', hmax'⟩ := ih (rows.drop size) middle hdrop (by omega)
      rw [mtpPrefillChunks, hfirst, ok_bind]
      exact ⟨state', hrest, by omega, hmax'.trans hmax⟩

theorem maxContextFor_eq {maxTokens : ℕ} (h : promptLength + maxTokens + 1 ≤ m.contextLength) :
    maxContextFor m promptLength maxTokens = promptLength + maxTokens + 1 := by
  have hlt := m.contextLength_lt
  rw [maxContextFor, usizeSaturatingAdd, usizeSaturatingAdd]
  omega

section Prompt

-- the prompt without its last token, and that token
variable (before : List Token) (last : Token)

/-- The state of the layers before the last token of the prompt. -/
def beforeLast : S := (m.runAll before m.initial).2

/-- The loop state before the first round, when the target has sampled a token behind the prompt. -/
def firstLoopState (first : Token) (rng : R) (mtpState : MtpState M) : LoopState S M H R where
  generated := [first]
  rng := rng
  next := first
  pendingTargetHidden := m.outputNorm (m.run last (beforeLast m before)).1
  targetState := (newState m (before.length + 1 + p.maxTokens + 1)).advance m (before ++ [last])
  mtpState := mtpState
  draftedTotal := 0
  acceptedTotal := 0
  cycles := 0
  mtpFallback := false

variable {before last}

theorem generateWithoutMtp_concat
    (hcontext : before.length + 1 + p.maxTokens + 1 ≤ m.contextLength) :
    generateWithoutMtp m p (before ++ [last]) =
      .ok (decode m p p.maxTokens [] p.seeded last (beforeLast m before)) := by
  have hroom : (newState m (before.length + 1 + p.maxTokens + 1)).position + before.length ≤
      (newState m (before.length + 1 + p.maxTokens + 1)).maxContext := by
    simp only [newState]
    omega
  rw [generateWithoutMtp, List.dropLast_concat, List.getLast?_concat, List.length_append,
    List.length_singleton, maxContextFor_eq m hcontext, chunks,
    prefillChunks_ok m (by decide) before.length before _ (Nat.le_refl _) hroom]
  simp only [ok_bind]
  exact plainLoop_ok m p _ _ _ _ _ (by
    simp only [ForwardState.advance, newState]
    omega)

/-- So does decoding with drafts, and the draft head has then seen every token of the prompt with the
hidden row of the one before. -/
theorem generateWithMtp_concat
    (hcontext : before.length + 1 + p.maxTokens + 1 ≤ m.contextLength) :
    ∃ mtpState : MtpState M, mtpState.position = before.length ∧
      mtpState.maxContext = before.length + 1 + p.maxTokens + 1 ∧
      generateWithMtp m head p (before ++ [last]) =
        match p.sampleToken (rowLogits m last (beforeLast m before)) [] p.seeded with
        | (none, _) => .ok ⟨[], 0, 0, 0, false⟩
        | (some first, rng) =>
          if p.isStop first then .ok ⟨[], 0, 0, 0, false⟩
          else do
            let l ← mtpLoop m head p p.maxTokens (firstLoopState m p before last first rng mtpState)
            return ⟨l.generated, l.cycles, l.draftedTotal, l.acceptedTotal, l.mtpFallback⟩ := by
  have hroom : (newState m (before.length + 1 + p.maxTokens + 1)).position +
      (before ++ [last]).length ≤ (newState m (before.length + 1 + p.maxTokens + 1)).maxContext := by
    simp only [newState, List.length_append, List.length_singleton]
    omega
  have hrows : (m.runAll (before ++ [last]) m.initial).1 =
      (m.runAll before m.initial).1 ++ [(m.run last (m.runAll before m.initial).2).1] := by
    rw [runAll_append]
    rfl
  have hpairs : ((before ++ [last]).tail.zip ((m.runAll (before ++ [last]) m.initial).1.map
      m.outputNorm)).length = before.length := by
    rw [List.length_zip, List.length_tail, List.length_map, length_runAll, List.length_append,
      List.length_singleton]
    omega
  obtain ⟨mtpState, hprefill, hplace, hmtpMax⟩ := mtpPrefillChunks_ok m head 512
    (by decide) before.length
    ((before ++ [last]).tail.zip ((m.runAll (before ++ [last]) m.initial).1.map m.outputNorm))
    (newMtpState head (before.length + 1 + p.maxTokens + 1)) (Nat.le_of_eq hpairs) (by
      rw [hpairs]
      simp only [newMtpState]
      omega)
  have htokens : prefillChunks m (chunks 512 (before ++ [last]))
      (newState m (before.length + 1 + p.maxTokens + 1)) =
        .ok ((m.runAll (before ++ [last]) m.initial).1,
          (newState m (before.length + 1 + p.maxTokens + 1)).advance m (before ++ [last])) :=
    prefillChunks_ok m (by decide) _ _ _ (Nat.le_refl _) hroom
  have hlast : targetFromPrefilledHidden m (m.runAll (before ++ [last]) m.initial).1
      (before.length + 1) = .ok (rowOutput m last (m.runAll before m.initial).2) := by
    rw [targetFromPrefilledHidden, hrows, lastHiddenRow_concat m _ _ (by rw [length_runAll])]
    rfl
  refine ⟨mtpState, ?_, hmtpMax, ?_⟩
  · rw [hpairs] at hplace
    simpa only [newMtpState, Nat.zero_add] using hplace
  · rw [generateWithMtp, List.length_append, List.length_singleton, maxContextFor_eq m hcontext]
    simp only [htokens, ok_bind, hlast]
    rw [chunks, hpairs, hprefill]
    rfl

theorem loopInv_firstLoopState {first : Token} {rng : R} {mtpState : MtpState M}
    (hmax : 1 ≤ p.maxTokens)
    (hdraw : draw p (rowLogits m last (beforeLast m before)) [] p.seeded = some (first, rng))
    (hposition : mtpState.position = before.length)
    (hroom : mtpState.maxContext = before.length + 1 + p.maxTokens + 1) :
    LoopInv m p (before.length + 1) (decode m p p.maxTokens [] p.seeded last (beforeLast m before))
      (firstLoopState m p before last first rng mtpState) where
  begun := Nat.le_refl 1
  le_max := hmax
  decodes := by
    rw [decode_some m p hdraw (by omega)]
    simp only [firstLoopState, beforeLast, ForwardState.advance, newState, runAll_append]
    rfl
  position := by
    simp only [firstLoopState, ForwardState.advance, newState, List.length_append,
      List.length_singleton]
    omega
  room := rfl
  mtpPosition := by
    intro _
    simp only [firstLoopState, hposition, List.length_singleton]
  mtpRoom := hroom
  counts := Nat.le_refl 0

end Prompt

/-- **Drafts do not change what is generated.**  Whatever the draft head proposes, decoding with
drafts returns the text that plain decoding returns, no longer than it may be, and it never counts
more accepted drafts than there were. -/
theorem generateWithMtp_eq (prompt : List Token) (hprompt : 1 ≤ prompt.length)
    (hmax : 1 ≤ p.maxTokens) (hcontext : prompt.length + p.maxTokens + 1 ≤ m.contextLength) :
    ∃ out, generateWithMtp m head p prompt = .ok out ∧
      generateWithoutMtp m p prompt = .ok out.tokenIds ∧
      out.tokenIds.length ≤ p.maxTokens ∧ out.accepted ≤ out.drafted := by
  obtain ⟨before, last, rfl⟩ : ∃ before last, prompt = before ++ [last] :=
    ⟨_, _, (List.dropLast_concat_getLast (List.ne_nil_of_length_pos hprompt)).symm⟩
  rw [List.length_append, List.length_singleton] at hcontext
  obtain ⟨mtpState, hposition, hroom, hmtp⟩ := generateWithMtp_concat m head p hcontext
  rw [generateWithoutMtp_concat m p hcontext, hmtp]
  have hbound := length_decode_le m p p.maxTokens [] p.seeded last (beforeLast m before)
  rw [List.length_nil, Nat.zero_add] at hbound
  cases hsample : p.sampleToken (rowLogits m last (beforeLast m before)) [] p.seeded with
  | mk token rng =>
    cases token with
    | none =>
      have hdraw : draw p (rowLogits m last (beforeLast m before)) [] p.seeded = none := by
        rw [draw, hsample]
      rw [decode_none m p hdraw]
      exact ⟨_, rfl, rfl, Nat.zero_le _, Nat.le_refl _⟩
    | some first =>
      cases hstop : p.isStop first with
      | true =>
        have hdraw : draw p (rowLogits m last (beforeLast m before)) [] p.seeded = none := by
          rw [draw, hsample]
          simp only [hstop, if_true]
        rw [decode_none m p hdraw]
        simp only [hstop, if_true]
        exact ⟨_, rfl, rfl, Nat.zero_le _, Nat.le_refl _⟩
      | false =>
        have hdraw : draw p (rowLogits m last (beforeLast m before)) [] p.seeded =
            some (first, rng) := by
          rw [draw, hsample]
          simp only [hstop, Bool.false_eq_true, if_false]
        obtain ⟨l, hloop, hgenerated, hcounts⟩ := mtpLoop_inv m head p (before.length + 1)
          (decode m p p.maxTokens [] p.seeded last (beforeLast m before)) p.maxTokens
          (loopInv_firstLoopState m p hmax hdraw hposition hroom) (Nat.le_add_left _ _)
        simp only [hstop, Bool.false_eq_true, if_false, hloop, ok_bind]
        refine ⟨_, rfl, ?_, ?_, hcounts⟩
        · rw [hgenerated]
        · rw [hgenerated]
          exact hbound

end Generate

/-- A network on numbers: the row of a token depends on it and on how many came before. -/
def countingTarget : TargetModel ℕ ℕ ℕ where
  hiddenSize := 1
  contextLength := 64
  contextLength_lt := by decide
  initial := 0
  run := fun token s => (token + s, s + 1)
  outputNorm := fun h => h
  logits := fun h => h

/-- A draft head that is right about every row but those divisible by three. -/
def nearlyCountingHead : MtpHead ℕ ℕ ℕ where
  initial := 1
  forward := fun token _ s => (if (token + s) % 3 = 0 then 0 else token + s, s + 1)
  prefill := fun tokens _ s => s + tokens.length
  logits := fun h => h

def walkingSampler : Sampling ℕ ℕ where
  sampleToken := fun logits _ rng => (some ((logits + rng) % 7), rng + 1)
  seeded := 1
  maxTokens := 12
  eosTokenId := 6
  stopOnEos := false

theorem generateWithMtp_eq_counting :
    ∃ out, generateWithMtp countingTarget nearlyCountingHead walkingSampler [5, 2] = .ok out ∧
      generateWithoutMtp countingTarget walkingSampler [5, 2] = .ok out.tokenIds ∧
      out.tokenIds.length ≤ 12 ∧ out.accepted ≤ out.drafted :=
  generateWithMtp_eq countingTarget nearlyCountingHead walkingSampler [5, 2] (by decide) (by decide)
    (by decide)

end Qwen
