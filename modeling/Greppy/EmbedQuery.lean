/-
**Queries are embedded through the cache.**

`embed_query_cached` (`crates/cli/src/lib.rs`) looks a query up in the cache, asks the model where the cache
has nothing, and puts what the model returns into the cache.  Commands that run at the same time share the
cache.  Each of them goes through a few statements, which may fall between those of the others in any order:
the look-up, the note that the row was used, the model's answer, the insertion, and the deletion of old rows.

Whatever can go wrong with the cache makes a look-up a miss, so that only the model fails a search.

Main results:

* `truthful_step` — a statement keeps the rows of the cache true to the model;
* `embedRun_transparent` — **every answer is the model's, and every query gets one answer**, in every run.
-/

import Greppy.QueryCache

set_option autoImplicit false

namespace Greppy

/-- The commands that share a cache: those that wait for the model, the vectors that are still to be put,
and the answers so far. -/
structure EmbedQueries where
  cache : QueryCache
  waiting : List (String × List Char)
  unsaved : List ((String × List Char) × List UInt32)
  answers : List ((String × List Char) × Except String (List UInt32))

/-- The statements of `embed_query_cached`, and of the `get` and `put` of the cache. -/
inductive EmbedStep where
  /-- The look-up, unless the cache does not open. -/
  | look (modelKey : String) (q : List Char) (opens : Bool)
  | touch (key : String × List Char) (now : ℕ)
  /-- The answer of the daemon or the model to one of the commands that wait. -/
  | embed (i : ℕ) (failure : Option String)
  | insert (i : ℕ) (created now : ℕ)
  /-- The deletion of `prune_to_budget`, of as many rows as were too many when they were counted. -/
  | delete (n : ℕ) (budget : CacheBudget)

namespace EmbedQueries

def empty : EmbedQueries := ⟨QueryCache.empty, [], [], []⟩

/-- `cache.get(&model_key, &normalized)`, of which an error is a miss. -/
def hit (s : EmbedQueries) (key : String × List Char) : Option (List UInt32) :=
  (s.cache.find? key).bind fun r => (QueryCache.decode r).toOption

/-- One statement, for a model whose vectors are `f`. -/
def step (f : String → List Char → List UInt32) (s : EmbedQueries) : EmbedStep → EmbedQueries
  | .look modelKey q opens =>
    let normalized := normalizeQueryText q
    match if opens then s.hit (modelKey, normalized) else none with
    | some vector => { s with answers := s.answers ++ [((modelKey, normalized), .ok vector)] }
    | none => { s with waiting := s.waiting ++ [(modelKey, normalized)] }
  | .touch key now => { s with cache := s.cache.touch key now }
  | .embed i failure =>
    match s.waiting[i]?, failure with
    | none, _ => s
    | some key, some e =>
      { s with waiting := s.waiting.eraseIdx i, answers := s.answers ++ [(key, .error e)] }
    | some key, none =>
      { s with
        waiting := s.waiting.eraseIdx i
        unsaved := s.unsaved ++ [(key, f key.1 key.2)]
        answers := s.answers ++ [(key, .ok (f key.1 key.2))] }
  | .insert i created now =>
    match s.unsaved[i]? with
    | none => s
    | some (key, vector) => { s with cache := s.cache.insert key.1 key.2 vector (nowIso8601 created) now }
  | .delete n budget => { s with cache := s.cache.delete n budget }

end EmbedQueries

/-- The statements of any number of commands, from the empty cache on. -/
def embedRun (f : String → List Char → List UInt32) (steps : List EmbedStep) : EmbedQueries :=
  steps.foldl (EmbedQueries.step f) EmbedQueries.empty

def EmbedStep.asked : EmbedStep → Option (String × List Char)
  | .look modelKey q _ => some (modelKey, normalizeQueryText q)
  | _ => none

section Truthful

variable (f : String → List Char → List UInt32)

/-- What the statements so far leave. -/
structure Truthful (steps : List EmbedStep) (s : EmbedQueries) : Prop where
  cached : ∀ key r, s.cache.find? key = some r → QueryCache.decode r = .ok (f key.1 key.2)
  unsaved : ∀ u ∈ s.unsaved, u.2 = f u.1.1 u.1.2
  answered : ∀ a ∈ s.answers, a.2 = .ok (f a.1.1 a.1.2) ∨ ∃ i e, .embed i (some e) ∈ steps ∧ a.2 = .error e
  asked : (s.answers.map Prod.fst ++ s.waiting).Perm (steps.filterMap EmbedStep.asked)

variable {f} {steps : List EmbedStep} {s : EmbedQueries}

theorem Truthful.hit_eq (h : Truthful f steps s) {key : String × List Char} {v : List UInt32}
    (hv : s.hit key = some v) : v = f key.1 key.2 := by
  obtain ⟨r, hr, hdecode⟩ := Option.bind_eq_some_iff.1 hv
  rw [h.cached key r hr] at hdecode
  exact (Option.some.inj hdecode).symm

theorem filterMap_asked_concat {step : EmbedStep} (hstep : step.asked = none) :
    (steps ++ [step]).filterMap EmbedStep.asked = steps.filterMap EmbedStep.asked := by
  simp [List.filterMap_append, hstep]

/-- A command that waits gets its answer. -/
theorem Truthful.asked_answer (h : Truthful f steps s) {i : ℕ} {key : String × List Char}
    (hkey : s.waiting[i]? = some key) :
    (s.answers.map Prod.fst ++ key :: s.waiting.eraseIdx i).Perm (steps.filterMap EmbedStep.asked) := by
  obtain ⟨hi, rfl⟩ := List.getElem?_eq_some_iff.1 hkey
  exact ((List.getElem_cons_eraseIdx_perm hi).append_left _).trans h.asked

/-- A statement that changes the cache only. -/
theorem Truthful.setCache (h : Truthful f steps s) {cache : QueryCache} {step : EmbedStep}
    (hstep : step.asked = none) (hcache : ∀ key r, cache.find? key = some r →
      QueryCache.decode r = .ok (f key.1 key.2)) : Truthful f (steps ++ [step]) { s with cache := cache } where
  cached := hcache
  unsaved := h.unsaved
  answered a ha := (h.answered a ha).imp_right fun ⟨i, e, hmem, he⟩ => ⟨i, e, List.mem_append_left _ hmem, he⟩
  asked := (filterMap_asked_concat hstep).symm ▸ h.asked

/-- **A statement keeps the rows of the cache true to the model.** -/
theorem truthful_step (h : Truthful f steps s) (step : EmbedStep) :
    Truthful f (steps ++ [step]) (s.step f step) := by
  have hmore : ∀ a ∈ s.answers, a.2 = .ok (f a.1.1 a.1.2) ∨
      ∃ i e, .embed i (some e) ∈ steps ++ [step] ∧ a.2 = .error e := fun a ha =>
    (h.answered a ha).imp_right fun ⟨i, e, hmem, he⟩ => ⟨i, e, List.mem_append_left _ hmem, he⟩
  cases step with
  | look modelKey q opens =>
    simp only [EmbedQueries.step]
    split
    · rename_i vector hhit
      have hvector : s.hit (modelKey, normalizeQueryText q) = some vector := by
        cases opens with
        | true => exact hhit
        | false => cases hhit
      refine ⟨h.cached, h.unsaved, fun a ha => ?_, ?_⟩
      · rcases List.mem_append.1 ha with ha | ha
        · exact hmore a ha
        · rw [List.mem_singleton.1 ha]
          exact .inl (congrArg Except.ok (h.hit_eq hvector))
      · rw [List.filterMap_append, List.map_append, List.append_assoc]
        refine (List.perm_append_comm.append_left _).trans ?_
        rw [← List.append_assoc]
        exact h.asked.append_right _
    · refine ⟨h.cached, h.unsaved, hmore, ?_⟩
      rw [List.filterMap_append, ← List.append_assoc]
      exact h.asked.append_right _
  | touch key now =>
    refine h.setCache rfl fun key' r hr => ?_
    rw [QueryCache.touch, QueryCache.find?, KeyedTable.find?_mapRows] at hr
    obtain ⟨r', hr', rfl⟩ := Option.map_eq_some_iff.1 hr
    exact h.cached key' r' hr'
  | embed i failure =>
    simp only [EmbedQueries.step]
    split
    · exact h.setCache rfl h.cached
    · rename_i key e hkey
      refine ⟨h.cached, h.unsaved, fun a ha => ?_, ?_⟩
      · rcases List.mem_append.1 ha with ha | ha
        · exact hmore a ha
        · rw [List.mem_singleton.1 ha]
          exact .inr ⟨i, e, List.mem_append_right _ (List.mem_singleton_self _), rfl⟩
      · rw [filterMap_asked_concat rfl, List.map_append, List.append_assoc]
        exact h.asked_answer hkey
    · rename_i key hkey
      refine ⟨h.cached, fun u hu => ?_, fun a ha => ?_, ?_⟩
      · rcases List.mem_append.1 hu with hu | hu
        · exact h.unsaved u hu
        · rw [List.mem_singleton.1 hu]
      · rcases List.mem_append.1 ha with ha | ha
        · exact hmore a ha
        · rw [List.mem_singleton.1 ha]
          exact .inl rfl
      · rw [filterMap_asked_concat rfl, List.map_append, List.append_assoc]
        exact h.asked_answer hkey
  | insert i created now =>
    simp only [EmbedQueries.step]
    split
    · exact h.setCache rfl h.cached
    · rename_i key vector hkey
      refine h.setCache rfl fun key' r hr => ?_
      rw [find?_insert] at hr
      split_ifs at hr with heq
      · obtain rfl := Option.some.inj hr
        rw [QueryCache.decode_floatBytes rfl rfl, ← heq]
        exact congrArg Except.ok (h.unsaved _ (List.mem_of_getElem? hkey))
      · exact h.cached key' r hr
  | delete n budget =>
    refine h.setCache rfl fun key r hr => ?_
    rw [QueryCache.find?_delete] at hr
    obtain ⟨r', hr', rfl⟩ := Option.map_eq_some_iff.1 hr
    exact h.cached key r' (Option.filter_eq_some_iff.1 hr').1

end Truthful

/-- **Every answer is the model's, or that of a failure of the model; and every query gets one answer or
waits for it**, whatever statements of whatever commands fall between those of a query. -/
theorem embedRun_transparent (f : String → List Char → List UInt32) (steps : List EmbedStep) :
    (∀ a ∈ (embedRun f steps).answers,
      a.2 = .ok (f a.1.1 a.1.2) ∨ ∃ i e, .embed i (some e) ∈ steps ∧ a.2 = .error e) ∧
    ((embedRun f steps).answers.map Prod.fst ++ (embedRun f steps).waiting).Perm
      (steps.filterMap EmbedStep.asked) := by
  have hrun : Truthful f steps (embedRun f steps) := by
    induction steps using List.reverseRecOn with
    | nil =>
      refine ⟨fun key r hr => ?_, fun u hu => ?_, fun a ha => ?_, .nil⟩
      · cases hr
      · cases hu
      · cases ha
    | append_singleton steps step ih =>
      rw [embedRun, List.foldl_append]
      exact truthful_step ih step
  exact ⟨hrun.answered, hrun.asked⟩

end Greppy
