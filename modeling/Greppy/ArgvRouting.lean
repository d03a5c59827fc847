/-
**Which invocations go to real grep.**

`run_os` looks at the raw argument vector before the command line parser sees it.  Three scanners
walk over greppy's own options at its front: `is_grep_passthrough` decides whether the invocation is
an ordinary grep call, `grep_passthrough_args` cuts off what grep is to receive, and
`is_trial_invocation` decides whether the cache maintenance of structured commands is skipped.  Each
has its own list of the options it steps over, so each has its own step function here; the loop
around them is the same.

Arguments are byte sequences: a comparison with a literal compares bytes, `starts_with` is applied to
the lossily decoded text and a subcommand name is looked up in the strictly decoded one.

Main results:

* `Argv.exists_longestRun`, `Argv.LongestRun.unique` — every argument vector has one longest run;
* `Argv.scan_longestRun` — a scanner that steps over exactly these options stops behind the run;
* `Argv.argv_routing` — where the routing goes, and with which arguments.
-/

import Greppy.Utf8

set_option autoImplicit false

namespace Argv

/-! ### Arguments -/

/-- An argument: on Unix an `OsString` is its bytes. -/
abbrev OsString : Type := List UInt8

def osStr (s : String) : OsString := Utf8.encode s.toList

/-- `to_str`: the text, if the bytes are valid UTF-8. -/
def toStr (arg : OsString) : Option String := (Utf8.decode arg).map String.ofList

/-- `to_string_lossy().starts_with(lead)`. -/
def lossyStartsWith (arg : OsString) (lead : String) : Bool :=
  lead.toList.isPrefixOf (Utf8.lossy arg)

def subcommands : List String :=
  ["grep", "index", "cache", "trial", "stats", "diagnostics", "doctor", "search-graph", "trace",
    "impact", "brief", "expand", "who-calls", "callees", "find-usages", "references", "fan-in",
    "fan-out", "graph-locate", "path", "search-code", "search-symbols", "plus", "semantic-search",
    "semantic", "context", "install", "uninstall", "update", "upgrade", "config", "embed-daemon",
    "summarize-daemon"]

/-! ### The scanners -/

/-- `while i < argv.len() { … }`: the index at which the loop stops, where `step` says by how much a
token that is stepped over advances it.  Every step advances, so the condition is tested at most
`argv.len() + 1` times. -/
def scanLoop (step : OsString → Option ℕ) (argv : List OsString) : ℕ → ℕ → ℕ
  | 0, i => i
  | fuel + 1, i =>
    match argv[i]? with
    | none => i
    | some token =>
      match step token with
      | none => i
      | some k => scanLoop step argv fuel (i + k)

/-- The scan from `argv[1]` on. -/
def scan (step : OsString → Option ℕ) (argv : List OsString) : ℕ :=
  scanLoop step argv (argv.length + 1) 1

/-- A help or version request; `-h` is one only when it is the only argument. -/
def isHelpRequest (argv : List OsString) (token : OsString) : Bool :=
  token == osStr "--help" || token == osStr "--version" || token == osStr "-V" ||
    (token == osStr "-h" && argv.length == 2)

/-- What `is_grep_passthrough` steps over: it returns at a help request before it looks for one of
the options. -/
def passthroughStep (argv : List OsString) (token : OsString) : Option ℕ :=
  if isHelpRequest argv token then none
  else if token == osStr "--root" then some 2
  else if lossyStartsWith token "--root=" then some 1
  else if token == osStr "--device" then some 2
  else if lossyStartsWith token "--device=" || token == osStr "--no-gpu" then some 1
  else none

/-- `is_grep_passthrough`: the first token that is not stepped over is neither a help request nor
the name of a subcommand. -/
def isGrepPassthrough (argv : List OsString) : Bool :=
  match argv[scan (passthroughStep argv) argv]? with
  | none => false
  | some token =>
    if isHelpRequest argv token then false
    else
      match toStr token with
      | some s => !subcommands.contains s
      | none => true

/-- What `grep_passthrough_args` steps over. -/
def argsStep (token : OsString) : Option ℕ :=
  if token == osStr "--root" || token == osStr "--device" then some 2
  else if lossyStartsWith token "--root=" || lossyStartsWith token "--device=" ||
      token == osStr "--no-gpu" || token == osStr "--no-summaries" then some 1
  else none

/-- `grep_passthrough_args`: the arguments from the first token that is not stepped over on.  (The
index is cut to `argv.len()`; dropping from a list needs no such cut.) -/
def grepPassthroughArgs (argv : List OsString) : List OsString :=
  argv.drop (scan argsStep argv)

/-- What `is_trial_invocation` steps over. -/
def trialStep (token : OsString) : Option ℕ :=
  if token == osStr "--root" || token == osStr "--device" then some 2
  else if lossyStartsWith token "--root=" || lossyStartsWith token "--device=" ||
      token == osStr "--no-gpu" then some 1
  else none

/-- `is_trial_invocation`: the first token that is not stepped over is `trial`. -/
def isTrialInvocation (argv : List OsString) : Bool :=
  match argv[scan trialStep argv]? with
  | none => false
  | some token => token == osStr "trial"

/-! ### The router -/

/-- `peek_root_arg`: the value of the first `--root` among the arguments, if all before it are valid
UTF-8; it says which store the cache maintenance must leave alone. -/
def peekRootFrom : List OsString → Option String
  | [] => none
  | arg :: rest =>
    match toStr arg with
    | none => none
    | some s =>
      if "--root=".toList.isPrefixOf s.toList then
        if s.toList.drop 7 = [] then none else some (String.ofList (s.toList.drop 7))
      else if s = "--root" then rest.head?.bind toStr
      else peekRootFrom rest

def peekRootArg (argv : List OsString) : Option String := peekRootFrom argv.tail

/-- `run_grep_os`: real grep is run with `argv[1..]`. -/
def runGrepOs (argv : List OsString) : List OsString := argv.drop 1

/-- `dispatch_grep_os`: the arguments real grep is run with, once it has been found.  A leading name
of the grep family is taken for a placeholder and cut off. -/
def dispatchGrepOs (full : List OsString) : List OsString :=
  let args := full.drop 1
  let stripped :=
    match args.head?.bind toStr with
    | some "grep" | some "egrep" | some "fgrep" | some "rgrep" => args.drop 1
    | _ => args
  runGrepOs (osStr "greppy" :: stripped)

/-- Where an invocation goes: to real grep with its arguments, or to the command line parser, before
which the cache maintenance runs (with the root it peeked at) unless the command is `trial`. -/
inductive Route
  | grep (args : List OsString)
  | structured (cleanup : Option (Option String))
deriving DecidableEq

/-- `run_os`, up to the hand-over. -/
def runOs (argv : List OsString) : Route :=
  if isGrepPassthrough argv then
    .grep (dispatchGrepOs (osStr "greppy" :: grepPassthroughArgs argv))
  else
    .structured (if isTrialInvocation argv then none else some (peekRootArg argv))

/-- The invocation is forwarded to real grep. -/
def Route.Forwards : Route → Prop
  | .grep _ => True
  | .structured _ => False

instance (r : Route) : Decidable r.Forwards :=
  match r with
  | .grep _ => .isTrue trivial
  | .structured _ => .isFalse id

/-! ### Greppy's own options -/

/-- Greppy's own global options, as an argument vector spells them. -/
inductive GlobalOption
  | root (value : OsString)
  | rootEq (value : OsString)
  | device (value : OsString)
  | deviceEq (value : OsString)
  | noGpu

def GlobalOption.first : GlobalOption → OsString
  | .root _ => osStr "--root"
  | .rootEq value => osStr "--root=" ++ value
  | .device _ => osStr "--device"
  | .deviceEq value => osStr "--device=" ++ value
  | .noGpu => osStr "--no-gpu"

def GlobalOption.tokens (o : GlobalOption) : List OsString :=
  match o with
  | .root value | .device value => [o.first, value]
  | .rootEq _ | .deviceEq _ | .noGpu => [o.first]

def BeginsWithOption (args : List OsString) : Prop := ∃ o : GlobalOption, o.tokens <+: args

/-- `opts` is the longest run of own options at the front of `args`, and `rest` what follows it. -/
structure LongestRun (args : List OsString) (opts : List GlobalOption) (rest : List OsString) :
    Prop where
  eq : args = opts.flatMap GlobalOption.tokens ++ rest
  stop : ¬ BeginsWithOption rest

/-- `--root` or `--device` as the last argument, without a value. -/
def DanglingOption (rest : List OsString) : Prop :=
  rest = [osStr "--root"] ∨ rest = [osStr "--device"]

instance (rest : List OsString) : Decidable (DanglingOption rest) :=
  inferInstanceAs (Decidable (_ ∨ _))

/-! ### One token -/

variable {arg token : OsString} {argv rest args : List OsString} {opts : List GlobalOption}
  {step : OsString → Option ℕ}

/-- Whether the shown text begins with an option name is a matter of the bytes. -/
theorem lossyStartsWith_iff {lead : String} (h : Utf8.replacement ∉ lead.toList) :
    lossyStartsWith arg lead = true ↔ osStr lead <+: arg := by
  rw [lossyStartsWith, List.isPrefixOf_iff_prefix, Utf8.isPrefix_lossy_iff h]
  rfl

theorem startsWith_root_iff :
    lossyStartsWith arg "--root=" = true ↔ ∃ value, arg = osStr "--root=" ++ value := by
  rw [lossyStartsWith_iff (by decide)]
  exact ⟨fun ⟨v, h⟩ => ⟨v, h.symm⟩, fun ⟨v, h⟩ => ⟨v, h.symm⟩⟩

theorem startsWith_device_iff :
    lossyStartsWith arg "--device=" = true ↔ ∃ value, arg = osStr "--device=" ++ value := by
  rw [lossyStartsWith_iff (by decide)]
  exact ⟨fun ⟨v, h⟩ => ⟨v, h.symm⟩, fun ⟨v, h⟩ => ⟨v, h.symm⟩⟩

/-- The token is stepped over together with a value. -/
def TakesValue (token : OsString) : Prop := token = osStr "--root" ∨ token = osStr "--device"

/-- The token is an option of its own. -/
def StandsAlone (token : OsString) : Prop :=
  (∃ value, token = osStr "--root=" ++ value) ∨ (∃ value, token = osStr "--device=" ++ value) ∨
    token = osStr "--no-gpu"

theorem not_takesValue_of_standsAlone (h : StandsAlone token) : ¬ TakesValue token := by
  -- the byte after `--root` or `--device` tells them apart
  rintro (rfl | rfl) <;> rcases h with ⟨v, h⟩ | ⟨v, h⟩ | h
  all_goals
    simp [osStr, Utf8.encode, String.utf8EncodeChar] at h

theorem trialStep_takesValue (h : TakesValue token) : trialStep token = some 2 := by
  have hb : (token == osStr "--root" || token == osStr "--device") = true := by
    simpa [TakesValue] using h
  rw [trialStep, if_pos hb]

theorem trialStep_standsAlone (h : StandsAlone token) : trialStep token = some 1 := by
  have hb : ¬ (token == osStr "--root" || token == osStr "--device") = true := by
    simpa [TakesValue] using not_takesValue_of_standsAlone h
  rw [trialStep, if_neg hb, if_pos]
  simp only [Bool.or_eq_true, startsWith_root_iff, startsWith_device_iff, beq_iff_eq, or_assoc]
  exact h

theorem trialStep_other (hv : ¬ TakesValue token) (ha : ¬ StandsAlone token) :
    trialStep token = none := by
  rw [trialStep, if_neg, if_neg]
  · simp only [Bool.or_eq_true, startsWith_root_iff, startsWith_device_iff, beq_iff_eq, or_assoc]
    exact ha
  · simpa [TakesValue] using hv

theorem trialStep_isHelpRequest (h : isHelpRequest argv token = true) : trialStep token = none := by
  have hcases : token = osStr "--help" ∨ token = osStr "--version" ∨ token = osStr "-V" ∨
      token = osStr "-h" := by
    simp only [isHelpRequest, Bool.or_eq_true, Bool.and_eq_true, beq_iff_eq] at h
    tauto
  rcases hcases with rfl | rfl | rfl | rfl <;> decide

/-- The scanner of the router steps over the same tokens as that of the trial check. -/
theorem passthroughStep_eq (argv : List OsString) : passthroughStep argv = trialStep := by
  funext token
  by_cases hhelp : isHelpRequest argv token = true
  · rw [passthroughStep, if_pos hhelp, trialStep_isHelpRequest hhelp]
  rw [passthroughStep, if_neg hhelp]
  by_cases hdevice : token = osStr "--device"
  · rw [hdevice]
    decide
  · have hne : (token == osStr "--device") = false := beq_eq_false_iff_ne.2 hdevice
    rw [trialStep, hne]
    cases token == osStr "--root" <;> cases lossyStartsWith token "--root=" <;> rfl

/-- The scanner that cuts off grep's arguments has one more token on its list. -/
theorem argsStep_eq (h : token ≠ osStr "--no-summaries") : argsStep token = trialStep token := by
  have hne : (token == osStr "--no-summaries") = false := beq_eq_false_iff_ne.2 h
  rw [argsStep, trialStep, hne, Bool.or_false]

theorem GlobalOption.trialStep_first (o : GlobalOption) :
    trialStep o.first = some o.tokens.length := by
  cases o with
  | root value => exact trialStep_takesValue (Or.inl rfl)
  | rootEq value => exact trialStep_standsAlone (Or.inl ⟨value, rfl⟩)
  | device value => exact trialStep_takesValue (Or.inr rfl)
  | deviceEq value => exact trialStep_standsAlone (Or.inr (Or.inl ⟨value, rfl⟩))
  | noGpu => exact trialStep_standsAlone (Or.inr (Or.inr rfl))

theorem GlobalOption.tokens_eq (o : GlobalOption) : ∃ values, o.tokens = o.first :: values := by
  cases o with
  | root value => exact ⟨[value], rfl⟩
  | rootEq value => exact ⟨[], rfl⟩
  | device value => exact ⟨[value], rfl⟩
  | deviceEq value => exact ⟨[], rfl⟩
  | noGpu => exact ⟨[], rfl⟩

theorem GlobalOption.first_ne_noSummaries (o : GlobalOption) : o.first ≠ osStr "--no-summaries" := by
  intro h
  have hstep := o.trialStep_first
  rw [h] at hstep
  revert hstep
  rw [show trialStep (osStr "--no-summaries") = none by decide]
  exact nofun

/-- Where no option begins, a token is stepped over only when its value is missing. -/
theorem trialStep_of_stop (h : ¬ BeginsWithOption (token :: rest))
    (hd : ¬ DanglingOption (token :: rest)) : trialStep token = none := by
  apply trialStep_other
  · rintro (rfl | rfl)
    · cases rest with
      | nil => exact hd (Or.inl rfl)
      | cons value rest => exact h ⟨.root value, ⟨rest, rfl⟩⟩
    · cases rest with
      | nil => exact hd (Or.inr rfl)
      | cons value rest => exact h ⟨.device value, ⟨rest, rfl⟩⟩
  · rintro (⟨value, rfl⟩ | ⟨value, rfl⟩ | rfl)
    · exact h ⟨.rootEq value, ⟨rest, rfl⟩⟩
    · exact h ⟨.deviceEq value, ⟨rest, rfl⟩⟩
    · exact h ⟨.noGpu, ⟨rest, rfl⟩⟩

/-! ### The longest run -/

theorem exists_longestRun (args : List OsString) : ∃ opts rest, LongestRun args opts rest := by
  induction hlen : args.length using Nat.strongRecOn generalizing args with
  | _ n ih =>
    by_cases h : BeginsWithOption args
    · obtain ⟨o, tail, rfl⟩ := h
      obtain ⟨values, ho⟩ := o.tokens_eq
      have hlt : tail.length < n := by
        rw [← hlen, List.length_append, ho, List.length_cons]
        omega
      obtain ⟨opts, rest, heq, hstop⟩ := ih _ hlt tail rfl
      refine ⟨o :: opts, rest, ?_, hstop⟩
      rw [List.flatMap_cons, List.append_assoc, ← heq]
    · exact ⟨[], args, rfl, h⟩

theorem GlobalOption.eq_of_tokens {o o' : GlobalOption} {tail tail' : List OsString}
    (h : o.tokens ++ tail = o'.tokens ++ tail') : o.tokens = o'.tokens ∧ tail = tail' := by
  have hlen : o.tokens.length = o'.tokens.length := by
    obtain ⟨values, ho⟩ := o.tokens_eq
    obtain ⟨values', ho'⟩ := o'.tokens_eq
    have hfirst : o.first = o'.first := by
      rw [ho, ho'] at h
      exact (List.cons.inj h).1
    have hstep := o.trialStep_first
    rw [hfirst, o'.trialStep_first] at hstep
    exact (Option.some.inj hstep).symm
  exact List.append_inj h hlen

/-- **The longest run is unique**, as is what follows it, and no run of options is longer. -/
theorem LongestRun.unique {opts' : List GlobalOption} {rest' : List OsString}
    (h : LongestRun args opts rest) (h' : args = opts'.flatMap GlobalOption.tokens ++ rest') :
    opts'.flatMap GlobalOption.tokens <+: opts.flatMap GlobalOption.tokens ∧
      (¬ BeginsWithOption rest' → rest = rest') := by
  induction opts' generalizing args opts with
  | nil =>
    refine ⟨List.nil_prefix, ?_⟩
    intro hstop
    cases opts with
    | nil =>
      rw [h.eq] at h'
      exact h'
    | cons o opts =>
      refine absurd ⟨o, opts.flatMap GlobalOption.tokens ++ rest, ?_⟩ hstop
      rw [← List.append_assoc, ← List.flatMap_cons, ← h.eq, h']
      rfl
  | cons o' opts' ih =>
    rw [List.flatMap_cons, List.append_assoc] at h'
    cases opts with
    | nil =>
      refine absurd ⟨o', opts'.flatMap GlobalOption.tokens ++ rest', ?_⟩ h.stop
      rw [← h', h.eq]
      rfl
    | cons o opts =>
      have heq := h.eq
      rw [h', List.flatMap_cons, List.append_assoc] at heq
      obtain ⟨hsame, htail⟩ := GlobalOption.eq_of_tokens heq
      obtain ⟨hle, hrest⟩ := ih ⟨htail, h.stop⟩ rfl
      rw [List.flatMap_cons, List.flatMap_cons, hsame, List.prefix_append_right_inj]
      exact ⟨hle, hrest⟩

/-! ### Where the scanners stop -/

theorem scanLoop_run (hstep : ∀ o : GlobalOption, step o.first = some o.tokens.length)
    (opts : List GlobalOption) (rest : List OsString) :
    ∀ (fuel i : ℕ), argv.drop i = opts.flatMap GlobalOption.tokens ++ rest →
      scanLoop step argv (opts.length + fuel) i =
        scanLoop step argv fuel (i + (opts.flatMap GlobalOption.tokens).length) := by
  induction opts with
  | nil =>
    intro fuel i _
    rw [List.length_nil, Nat.zero_add]
    rfl
  | cons o opts ih =>
    intro fuel i hdrop
    obtain ⟨values, ho⟩ := o.tokens_eq
    rw [List.flatMap_cons, List.append_assoc] at hdrop
    have htoken : argv[i]? = some o.first := by
      rw [← List.head?_drop, hdrop, ho]
      rfl
    have hnext : argv.drop (i + o.tokens.length) = opts.flatMap GlobalOption.tokens ++ rest := by
      rw [← List.drop_drop, hdrop, List.drop_left]
    have hround : scanLoop step argv (opts.length + fuel + 1) i =
        scanLoop step argv (opts.length + fuel) (i + o.tokens.length) := by
      rw [scanLoop, htoken]
      simp only [hstep o]
    rw [List.length_cons, Nat.add_right_comm, hround, ih fuel _ hnext, List.flatMap_cons,
      List.length_append, Nat.add_assoc]

/-- The loop stops where nothing is left or the token is not stepped over. -/
theorem scanLoop_stop {i : ℕ} (h : ∀ token, argv[i]? = some token → step token = none) (fuel : ℕ) :
    scanLoop step argv fuel i = i := by
  cases fuel with
  | zero => rfl
  | succ fuel =>
    rw [scanLoop]
    cases htoken : argv[i]? with
    | none => rfl
    | some token => simp only [h token htoken]

theorem length_le_tokens (opts : List GlobalOption) :
    opts.length ≤ (opts.flatMap GlobalOption.tokens).length := by
  induction opts with
  | nil => exact Nat.le_refl 0
  | cons o opts ih =>
    obtain ⟨values, ho⟩ := o.tokens_eq
    rw [List.flatMap_cons, List.length_append, ho, List.length_cons, List.length_cons]
    omega

/-- What is left of the arguments where a scanner stops. -/
def stopTail (step : OsString → Option ℕ) (argv : List OsString) : List OsString :=
  argv.drop (scan step argv)

theorem getElem?_scan (step : OsString → Option ℕ) (argv : List OsString) :
    argv[scan step argv]? = (stopTail step argv).head? := List.head?_drop.symm

/-- **A scanner that steps over greppy's own options gets through the longest run of them**; what it
does there depends on the token it meets. -/
theorem scan_longestRun (hstep : ∀ o : GlobalOption, step o.first = some o.tokens.length)
    (h : LongestRun argv.tail opts rest) :
    ∃ fuel i, argv.drop i = rest ∧ scan step argv = scanLoop step argv (fuel + 1) i := by
  have hdrop : argv.drop 1 = opts.flatMap GlobalOption.tokens ++ rest := by
    rw [List.drop_one, h.eq]
  have hlen : opts.length ≤ argv.length := by
    have htail := congrArg List.length h.eq
    rw [List.length_tail, List.length_append] at htail
    have := length_le_tokens opts
    omega
  refine ⟨argv.length - opts.length, 1 + (opts.flatMap GlobalOption.tokens).length, ?_, ?_⟩
  · rw [← List.drop_drop, hdrop, List.drop_left]
  · rw [← scanLoop_run hstep opts rest _ 1 hdrop, scan]
    congr 1
    omega

theorem stopTail_of_stop (hstep : ∀ o : GlobalOption, step o.first = some o.tokens.length)
    (h : LongestRun argv.tail opts rest)
    (hstop : ∀ token, rest.head? = some token → step token = none) : stopTail step argv = rest := by
  obtain ⟨fuel, i, hdrop, hscan⟩ := scan_longestRun hstep h
  rw [stopTail, hscan, scanLoop_stop _ (fuel + 1), hdrop]
  intro token htoken
  apply hstop
  rw [← hdrop, List.head?_drop, htoken]

/-- An option whose value is missing is stepped over all the same, past the end. -/
theorem stopTail_of_dangling (hstep : ∀ o : GlobalOption, step o.first = some o.tokens.length)
    (h : LongestRun argv.tail opts rest) (hd : DanglingOption rest) : stopTail step argv = [] := by
  obtain ⟨fuel, i, hdrop, hscan⟩ := scan_longestRun hstep h
  obtain ⟨token, rfl, htwo⟩ : ∃ token, rest = [token] ∧ step token = some 2 := by
    rcases hd with rfl | rfl
    · exact ⟨_, rfl, hstep (.root [])⟩
    · exact ⟨_, rfl, hstep (.device [])⟩
  have htoken : argv[i]? = some token := by
    rw [← List.head?_drop, hdrop]
    rfl
  have hlen : argv.length ≤ i + 2 := by
    have := congrArg List.length hdrop
    rw [List.length_drop, List.length_singleton] at this
    omega
  rw [stopTail, hscan, scanLoop, htoken]
  simp only [htwo]
  have hend : ∀ t, argv[i + 2]? = some t → step t = none := by
    intro t ht
    rw [List.getElem?_eq_none hlen] at ht
    cases ht
  rw [scanLoop_stop hend, List.drop_eq_nil_of_le hlen]

/-- The scanners of the router and of the trial check stop at the token behind the options, or at
the end when a value is missing. -/
theorem stopTail_trialStep (h : LongestRun argv.tail opts rest) :
    stopTail trialStep argv = if DanglingOption rest then [] else rest := by
  split
  · rename_i hd
    exact stopTail_of_dangling GlobalOption.trialStep_first h hd
  · rename_i hd
    apply stopTail_of_stop GlobalOption.trialStep_first h
    intro token htoken
    obtain ⟨tail, rfl⟩ : ∃ tail, rest = token :: tail := List.head?_eq_some_iff.1 htoken
    exact trialStep_of_stop h.stop hd

/-- The scanner that cuts off grep's arguments stops there too, unless it meets the token that only
its own list has. -/
theorem stopTail_argsStep (h : LongestRun argv.tail opts rest) (hd : ¬ DanglingOption rest)
    (hno : rest.head? ≠ some (osStr "--no-summaries")) : stopTail argsStep argv = rest := by
  have hstep : ∀ o : GlobalOption, argsStep o.first = some o.tokens.length := by
    intro o
    rw [argsStep_eq o.first_ne_noSummaries, o.trialStep_first]
  apply stopTail_of_stop hstep h
  intro token htoken
  have hne : token ≠ osStr "--no-summaries" := by
    rintro rfl
    exact hno htoken
  obtain ⟨tail, rfl⟩ : ∃ tail, rest = token :: tail := List.head?_eq_some_iff.1 htoken
  rw [argsStep_eq hne]
  exact trialStep_of_stop h.stop hd

/-! ### The routing -/

theorem toStr_eq_some_iff {s : String} : toStr arg = some s ↔ arg = osStr s := by
  rw [toStr, Option.map_eq_some_iff]
  constructor
  · rintro ⟨text, hdecode, rfl⟩
    rw [osStr, String.toList_ofList]
    exact Utf8.decode_eq_some_iff.1 hdecode
  · rintro rfl
    exact ⟨s.toList, Utf8.decode_eq_some_iff.2 rfl, String.ofList_toList⟩

theorem lookup_subcommand (token : OsString) :
    (match toStr token with
      | some s => !subcommands.contains s
      | none => true) = true ↔ token ∉ subcommands.map osStr := by
  cases hstr : toStr token with
  | none =>
    refine iff_of_true rfl ?_
    intro hmem
    obtain ⟨s, -, rfl⟩ := List.mem_map.1 hmem
    rw [toStr_eq_some_iff.2 rfl] at hstr
    cases hstr
  | some s =>
    obtain rfl := toStr_eq_some_iff.1 hstr
    simp only [Bool.not_eq_true', List.contains_eq_mem, decide_eq_false_iff_not, List.mem_map,
      not_exists, not_and]
    constructor
    · intro hs s' hs' heq
      have : some s' = some s := by rw [← hstr, ← heq, toStr_eq_some_iff.2 rfl]
      exact hs (Option.some.inj this ▸ hs')
    · intro hall hs
      exact hall s hs rfl

theorem isGrepPassthrough_iff (h : LongestRun argv.tail opts rest) :
    isGrepPassthrough argv = true ↔ ∃ t, rest.head? = some t ∧ t ∉ subcommands.map osStr ∧
      isHelpRequest argv t = false ∧ ¬ DanglingOption rest := by
  rw [isGrepPassthrough, passthroughStep_eq, getElem?_scan, stopTail_trialStep h]
  by_cases hd : DanglingOption rest
  · rw [if_pos hd]
    refine iff_of_false nofun ?_
    rintro ⟨t, -, -, -, hnot⟩
    exact hnot hd
  rw [if_neg hd]
  cases hhead : rest.head? with
  | none =>
    refine iff_of_false nofun ?_
    rintro ⟨t, ht, -⟩
    cases ht
  | some token =>
    simp only [Option.some.injEq, exists_eq_left', hd, not_false_eq_true, and_true]
    cases hhelp : isHelpRequest argv token with
    | true => simp
    | false =>
      simp only [Bool.false_eq_true, if_false, and_true]
      exact lookup_subcommand token

theorem isTrialInvocation_iff (h : LongestRun argv.tail opts rest) :
    isTrialInvocation argv = true ↔ rest.head? = some (osStr "trial") := by
  rw [isTrialInvocation, getElem?_scan, stopTail_trialStep h]
  by_cases hd : DanglingOption rest
  · rw [if_pos hd]
    refine iff_of_false nofun ?_
    rcases hd with rfl | rfl <;> decide
  rw [if_neg hd]
  cases rest.head? with
  | none => exact iff_of_false nofun nofun
  | some token => simp only [beq_iff_eq, Option.some.injEq]

/-- The arguments without a leading name of the grep family. -/
def withoutPlaceholder (args : List OsString) : List OsString :=
  if args.head? ∈ ["egrep", "fgrep", "rgrep"].map (some ∘ osStr) then args.tail else args

/-- What `dispatch_grep_os` does to arguments that do not begin with the subcommand `grep`. -/
theorem dispatchGrepOs_eq {program : OsString} (h : args.head? ≠ some (osStr "grep")) :
    dispatchGrepOs (program :: args) = withoutPlaceholder args := by
  -- the names are compared as decoded texts there and as bytes here
  have hname : ∀ s : String, args.head?.bind toStr = some s ↔ args.head? = some (osStr s) := by
    intro s
    cases args.head? with
    | none => exact iff_of_false nofun nofun
    | some arg =>
      rw [Option.bind_some, toStr_eq_some_iff, Option.some.injEq]
  have hmem : args.head? ∈ ["egrep", "fgrep", "rgrep"].map (some ∘ osStr) ↔
      args.head?.bind toStr = some "egrep" ∨ args.head?.bind toStr = some "fgrep" ∨
        args.head?.bind toStr = some "rgrep" := by
    simp [hname]
  have hgrep : args.head?.bind toStr ≠ some "grep" := fun hs => h ((hname "grep").1 hs)
  simp only [dispatchGrepOs, runGrepOs, withoutPlaceholder, List.drop_succ_cons, List.drop_zero,
    List.drop_one]
  split
  · rename_i hs
    exact absurd hs hgrep
  · rename_i hs
    rw [if_pos (hmem.2 (Or.inl hs))]
  · rename_i hs
    rw [if_pos (hmem.2 (Or.inr (Or.inl hs)))]
  · rename_i hs
    rw [if_pos (hmem.2 (Or.inr (Or.inr hs)))]
  · rename_i h₁ h₂ h₃ h₄
    rw [if_neg]
    rw [hmem]
    rintro (hs | hs | hs)
    · exact h₂ hs
    · exact h₃ hs
    · exact h₄ hs

theorem forwards_runOs_iff (argv : List OsString) :
    (runOs argv).Forwards ↔ isGrepPassthrough argv = true := by
  rw [runOs]
  cases isGrepPassthrough argv with
  | true => exact iff_of_true trivial rfl
  | false => exact iff_of_false id nofun

/-- **The routing is by the first token behind greppy's own options.**  An invocation goes to real
grep exactly when there is such a token and it is no subcommand, no help or version request and no
`--root` or `--device` that lacks its value; real grep then receives the arguments from that token on
(a name of the grep family in its place is cut off, and nothing is said of a call that begins with
`--no-summaries`); and a trial is recognised by the same token. -/
theorem argv_routing (argv : List OsString) (opts : List GlobalOption) (rest : List OsString)
    (h : LongestRun argv.tail opts rest) :
    ((runOs argv).Forwards ↔ ∃ t, rest.head? = some t ∧ t ∉ subcommands.map osStr ∧
      isHelpRequest argv t = false ∧ ¬ DanglingOption rest) ∧
    ((runOs argv).Forwards → rest.head? ≠ some (osStr "--no-summaries") →
      runOs argv = .grep (withoutPlaceholder rest)) ∧
    (isTrialInvocation argv = true ↔ rest.head? = some (osStr "trial")) := by
  refine ⟨?_, ?_, isTrialInvocation_iff h⟩
  · rw [forwards_runOs_iff, isGrepPassthrough_iff h]
  · intro hforward hno
    rw [forwards_runOs_iff] at hforward
    obtain ⟨t, ht, hsub, -, hd⟩ := (isGrepPassthrough_iff h).1 hforward
    have hgrep : rest.head? ≠ some (osStr "grep") := by
      intro hg
      obtain rfl : t = osStr "grep" := Option.some.inj (ht.symm.trans hg)
      exact hsub (List.mem_map.2 ⟨"grep", List.mem_cons_self, rfl⟩)
    have hargs : grepPassthroughArgs argv = rest := stopTail_argsStep h hd hno
    rw [runOs, if_pos hforward, hargs, dispatchGrepOs_eq hgrep]

theorem longestRun_nil (h : ∀ token, args.head? = some token → trialStep token = none) :
    LongestRun args [] args := by
  refine ⟨rfl, ?_⟩
  rintro ⟨o, tail, rfl⟩
  obtain ⟨values, ho⟩ := o.tokens_eq
  have hnone := h o.first (by rw [ho]; rfl)
  rw [o.trialStep_first] at hnone
  cases hnone

/-- `greppy --no-gpu -R foo .` runs `grep -R foo .`. -/
theorem argv_routing_noGpu :
    runOs (["greppy", "--no-gpu", "-R", "foo", "."].map osStr) =
      .grep (["-R", "foo", "."].map osStr) :=
  (argv_routing (["greppy", "--no-gpu", "-R", "foo", "."].map osStr) [.noGpu]
    (["-R", "foo", "."].map osStr)
    ⟨by decide, (longestRun_nil (by rintro token ⟨⟩; decide)).stop⟩).2.1
    (by decide +kernel) (by decide)

/-- `greppy egrep foo` is forwarded, but real grep does not see `egrep`. -/
theorem forwards_without_egrep :
    LongestRun (["egrep", "foo"].map osStr) [] (["egrep", "foo"].map osStr) ∧
      osStr "egrep" ∉ subcommands.map osStr ∧
      runOs (["greppy", "egrep", "foo"].map osStr) = .grep (["foo"].map osStr) ∧
      runOs (["greppy", "egrep", "foo"].map osStr) ≠ .grep (["egrep", "foo"].map osStr) :=
  ⟨longestRun_nil (by rintro token ⟨⟩; decide), by decide, by decide +kernel, by decide +kernel⟩

end Argv
