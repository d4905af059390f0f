import MeterMatch.Proofs.RuleFeed

/-! # Reconciling the registry with a listing

`Registry.resync` visits each listed definition, then deletes every rule whose key the listing
lacks. When the listed keys are distinct, each definition meets the registry as it was before
the pass, except for the limiter, whose buckets the earlier writes of the pass have drawn on. So
each listed definition has a verdict of its own (`Registry.verdicts`): it has no key; a rule of
its key with its generation is registered; it does not compile; the limiter refuses it; or it is
admitted, as an addition when its key is not registered and as an update otherwise.

* `Registry.Keyed`: every rule is stored under the key its definition derives, in every registry
  a run of calls reaches (`Registry.keyed_run`).
* `Registry.submit_open`: on an open queue a rule write fails to compile, is refused by the
  limiter, or stores the rule.
* `Registry.Records`: what a part of the pass records, and `Registry.visit_records`,
  `Registry.visits_record`: each visit, and so the first phase, records its verdicts.
* `Registry.foldl_place`: storing rules of distinct keys one after another refreshes the
  registered ones in place and appends the others.
* `Registry.resync_reconciles`: the rules after the pass are the registered rules whose keys are
  listed, each refreshed by its admission, then the additions in listing order; the report
  counts the verdicts and the deleted rules; and the pass fails with the first failure in
  listing order, if there is one.
-/

namespace MeterMatch

namespace Registry

/-- What reconciling does with one listed definition. -/
inductive Verdict where
  /-- The definition has no key. -/
  | keyFailed (e : KeyError)
  /-- A rule of its key with its generation is registered, and stays. -/
  | current
  /-- The definition does not compile. -/
  | compileFailed (e : EngineError)
  /-- The limiter refuses the write. -/
  | rateLimited
  /-- The rule is stored; `added` when its key was not registered. -/
  | admitted (rule : Rule) (added : Bool)

namespace Verdict

/-- The error of a failed definition. -/
def failure? : Verdict → Option EngineError
  | .keyFailed e => some (.key e)
  | .compileFailed e => some e
  | _ => none

/-- The rule an admission stores. -/
def rule? : Verdict → Option Rule
  | .admitted ρ _ => some ρ
  | _ => none

/-- The rule an admission adds under a key that was not registered. -/
def added? : Verdict → Option Rule
  | .admitted ρ true => some ρ
  | _ => none

/-- Whether the verdict is an update of a registered key. -/
def isUpdate : Verdict → Bool
  | .admitted _ false => true
  | _ => false

/-- Whether the limiter refused the write. -/
def isRateLimited : Verdict → Bool
  | .rateLimited => true
  | _ => false

theorem rule?_eq_some {v : Verdict} {ρ : Rule} : v.rule? = some ρ ↔ ∃ added, v = .admitted ρ added := by
  cases v <;> simp [rule?]

/-- The rules once the verdict takes effect: an admitted rule is stored in its key's place. -/
def apply (rules : List Rule) (v : Verdict) : List Rule :=
  match v.rule? with
  | some ρ => place rules ρ
  | none => rules

/-- The report with the verdict counted in. -/
def count (report : ResyncReport) : Verdict → ResyncReport
  | .keyFailed _ | .compileFailed _ => { report with failed := report.failed + 1 }
  | .current => report
  | .rateLimited => { report with rateLimited := report.rateLimited + 1 }
  | .admitted _ true => { report with added := report.added + 1 }
  | .admitted _ false => { report with updated := report.updated + 1 }

end Verdict

/-- The verdict on a listed definition against a registry, and the limiter after it. -/
def verdict (r : Registry) (now : Nat) (d : Definition) : Verdict × Limiter Binary64 :=
  match d.key with
  | .error e => (.keyFailed e, r.limiter)
  | .ok key =>
    if (r.get? key).any (·.generation == d.generation) then (.current, r.limiter)
    else
      match r.compile key d with
      | .error e => (.compileFailed e, r.limiter)
      | .ok p =>
        let answer := r.limiter.allow (d.limiterId key) now
        (if answer.1 then .admitted ⟨key, d, p⟩ (r.get? key).isNone else .rateLimited, answer.2)

/-- The verdicts on a listing, each against the registry with the limiter as the writes before
it left it. -/
def verdicts (r : Registry) (now : Nat) : List Definition → List Verdict
  | [] => []
  | d :: rest => (r.verdict now d).1 :: verdicts { r with limiter := (r.verdict now d).2 } now rest

/-- The report of a pass with the given verdicts that deletes `deleted` rules. -/
def tally (vs : List Verdict) (deleted : Nat) : ResyncReport where
  added := vs.countP (·.added?.isSome)
  updated := vs.countP Verdict.isUpdate
  deleted := deleted
  rateLimited := vs.countP Verdict.isRateLimited
  failed := vs.countP (·.failure?.isSome)

/-- A registered rule refreshed by the rules a pass admitted: the admitted rule of its key, if
there is one. -/
def refresh (admitted : List Rule) (ρ : Rule) : Rule := (admitted.find? (·.key == ρ.key)).getD ρ

/-- Every rule is stored under the key its definition derives. -/
def Keyed (r : Registry) : Prop := ∀ ρ ∈ r.rules, ρ.definition.key = .ok ρ.key

/-! ## Every registry is keyed -/

section Keyed
variable {r : Registry}

theorem Keyed.submit (h : r.Keyed) (kind : DeltaKind) (d : Definition) (now : Nat) :
    (r.submit kind d now).2.Keyed := by
  rcases submit_cases r kind d now with he | ⟨key, p, q, hk, -, -, -, he⟩ <;> rw [he]
  · exact h
  · intro ρ hρ
    rcases mem_place hρ with hρ | rfl
    · exact h ρ hρ
    · exact hk

theorem Keyed.delete (h : r.Keyed) (d : Definition) : (r.delete d).2.Keyed := by
  rcases delete_cases r d with he | ⟨key, q, -, -, -, he⟩ <;> rw [he]
  · exact h
  · exact fun ρ hρ => h ρ (List.mem_filter.1 hρ).1

theorem Keyed.resync (h : r.Keyed) (listing : List Definition) (now : Nat) :
    (r.resync listing now).2.Keyed :=
  resync_induction Keyed listing now (fun _ _ d _ h => h.submit _ d now) (fun _ d h => h.delete d)
    (fun _ h => h) h

/-- Every registry that a run of calls reaches from one with no rules is keyed. -/
theorem keyed_run (compiler : Compiler) (switchOutcome : Outcome) (cache : MatchCache)
    (limiter : Limiter Binary64) (M : Mirror Definition) :
    ∀ calls : List Call, (calls.foldl serve (({ compiler, switchOutcome, cache, limiter } : Registry), M)).1.Keyed := by
  -- the calls change the rules by writes, deletes and reconciliations only
  have step : ∀ (x : Registry × Mirror Definition) (c : Call), x.1.Keyed → (serve x c).1.Keyed := by
    rintro ⟨r, M⟩ c h
    cases c with
    | add d now => exact h.submit _ d now
    | update d now => exact h.submit _ d now
    | delete d => exact h.delete d
    | resync listing now => exact h.resync listing now
    | pop handled => exact h
  have run : ∀ (calls : List Call) (x : Registry × Mirror Definition), x.1.Keyed →
      (calls.foldl serve x).1.Keyed := by
    intro calls
    induction calls with
    | nil => exact fun _ h => h
    | cons c calls ih => exact fun x h => ih _ (step x c h)
  exact fun calls => run calls _ fun ρ hρ => by simp at hρ

end Keyed

/-! ## One visit -/

/-- On an open queue, a rule write of a definition with a key fails to compile and changes
nothing, or is refused by the limiter and changes only the limiter, or is admitted: the limiter
takes its token, the change is queued on a queue that stays open, and the rule is stored in its
key's place. -/
theorem submit_open {r : Registry} (hopen : r.changes.closed = false) {d : Definition}
    {key : ObjectKey} (hk : d.key = .ok key) (kind : DeltaKind) (now : Nat) :
    (∃ e, r.compile key d = .error e ∧ r.submit kind d now = (.error e, r)) ∨
      ∃ p, r.compile key d = .ok p ∧
        ((r.limiter.allow (d.limiterId key) now).1 = false ∧
          r.submit kind d now =
            (.ok .rateLimited, { r with limiter := (r.limiter.allow (d.limiterId key) now).2 }) ∨
        (r.limiter.allow (d.limiterId key) now).1 = true ∧ ∃ q : ChangeQueue Definition,
          q.closed = false ∧ r.submit kind d now = (.ok .admitted, { r with
            limiter := (r.limiter.allow (d.limiterId key) now).2
            changes := q
            rules := place r.rules ⟨key, d, p⟩ })) := by
  unfold submit
  rw [hk]
  dsimp only
  split
  · rename_i e he
    exact .inl ⟨e, he, rfl⟩
  · rename_i p hp
    refine .inr ⟨p, hp, ?_⟩
    generalize r.limiter.allow (d.limiterId key) now = res
    obtain ⟨allowed, limiter⟩ := res
    cases allowed
    · exact .inl ⟨rfl, rfl⟩
    · obtain ⟨q, hq, hclosed⟩ := ChangeQueue.push_open hopen ⟨kind, key, d⟩
      refine .inr ⟨rfl, q, hclosed, ?_⟩
      simp [hq]

theorem get?_with_limiter (r : Registry) (l : Limiter Binary64) (k : ObjectKey) :
    ({ r with limiter := l } : Registry).get? k = r.get? k := rfl

theorem compile_with_limiter (r : Registry) (l : Limiter Binary64) (k : ObjectKey) (d : Definition) :
    ({ r with limiter := l } : Registry).compile k d = r.compile k d := rfl

/-- `s'` follows `s` by recording the verdicts `vs` on listed definitions whose keys are
`keys`: the rules take the verdicts' effect, the counts and the first failure take them in, the
keys are noted as listed, and the compiler stays and the queue is open. -/
structure Records (s s' : Reconciling) (vs : List Verdict) (keys : List ObjectKey) : Prop where
  rules : s'.registry.rules = vs.foldl Verdict.apply s.registry.rules
  report : s'.report = vs.foldl Verdict.count s.report
  firstError : s'.firstError = s.firstError.or (vs.findSome? Verdict.failure?)
  seen : s'.seen = s.seen ++ keys
  compiler : s'.registry.compiler = s.registry.compiler
  opened : s'.registry.changes.closed = false

theorem Records.trans {s s' s'' : Reconciling} {vs vs' : List Verdict} {keys keys' : List ObjectKey}
    (h₁ : Records s s' vs keys) (h₂ : Records s' s'' vs' keys') :
    Records s s'' (vs ++ vs') (keys ++ keys') where
  rules := by rw [h₂.rules, h₁.rules, List.foldl_append]
  report := by rw [h₂.report, h₁.report, List.foldl_append]
  firstError := by rw [h₂.firstError, h₁.firstError, List.findSome?_append, Option.or_assoc]
  seen := by rw [h₂.seen, h₁.seen, List.append_assoc]
  compiler := h₂.compiler.trans h₁.compiler
  opened := h₂.opened

/-- A visit records the verdict on its definition against `r`, when the pass's registry agrees
with `r` on the definition's key and on the compiler and its queue is open; the verdict is
taken with the pass's limiter, and the limiter after the visit is the verdict's. -/
theorem visit_records (r : Registry) (now : Nat) {s : Reconciling} {d : Definition}
    (hget : ∀ key, d.key = .ok key → s.registry.get? key = r.get? key)
    (hcomp : s.registry.compiler = r.compiler) (hopen : s.registry.changes.closed = false) :
    Records s (Reconciling.visit now s d)
        [({ r with limiter := s.registry.limiter } : Registry).verdict now d |>.1]
        d.key.toOption.toList ∧
      (Reconciling.visit now s d).registry.limiter =
        (({ r with limiter := s.registry.limiter } : Registry).verdict now d).2 := by
  unfold Reconciling.visit verdict
  cases hk : d.key with
  | error e =>
    -- the failure is counted and kept when it is the first
    exact ⟨⟨rfl, rfl, by simp [Reconciling.fail, Verdict.failure?], by simp [Reconciling.fail, Except.toOption],
      rfl, hopen⟩, rfl⟩
  | ok key =>
    have hc : s.registry.compile key d = r.compile key d := compile_congr hcomp key d
    simp only [get?_with_limiter, compile_with_limiter, Except.toOption, Option.toList]
    rw [hget key hk]
    -- the pass's registry writes as `r` would, on its own limiter and queue
    have hwrite : ∀ kind : DeltaKind, kind ≠ .deleted →
        (∃ e, r.compile key d = .error e ∧ s.registry.submit kind d now = (.error e, s.registry)) ∨
        ∃ p, r.compile key d = .ok p ∧
          ((s.registry.limiter.allow (d.limiterId key) now).1 = false ∧
            s.registry.submit kind d now = (.ok .rateLimited,
              { s.registry with limiter := (s.registry.limiter.allow (d.limiterId key) now).2 }) ∨
          (s.registry.limiter.allow (d.limiterId key) now).1 = true ∧ ∃ q : ChangeQueue Definition,
            q.closed = false ∧ s.registry.submit kind d now = (.ok .admitted, { s.registry with
              limiter := (s.registry.limiter.allow (d.limiterId key) now).2
              changes := q
              rules := place s.registry.rules ⟨key, d, p⟩ })) := fun kind _ => by
      rw [← hc]
      exact submit_open hopen hk kind now
    split
    · -- no rule of the key is registered: an addition
      rename_i hr
      rcases hwrite .added (by decide) with ⟨e, he, hsub⟩ | ⟨p, hp, ⟨hal, hsub⟩ | ⟨hal, q, hq, hsub⟩⟩
      · simp only [hr, hsub, he, Option.any_none, Bool.false_eq_true, ↓reduceIte]
        exact ⟨⟨rfl, rfl, by simp [Reconciling.fail, Verdict.failure?], rfl, rfl, hopen⟩, rfl⟩
      · simp only [hr, hsub, hp, hal, Option.any_none, Bool.false_eq_true, ↓reduceIte]
        exact ⟨⟨rfl, rfl, by simp [Verdict.failure?], rfl, rfl, hopen⟩, trivial⟩
      · simp only [hr, hsub, hp, hal, Option.any_none, Bool.false_eq_true, ↓reduceIte]
        exact ⟨⟨rfl, rfl, by simp [Verdict.failure?], rfl, rfl, hq⟩, rfl⟩
    · rename_i existing hr
      by_cases hgen : existing.generation = d.generation
      · -- the registered rule is current
        simp only [hr, hgen, Option.any_some, bne_self_eq_false, beq_self_eq_true, Bool.false_eq_true,
          ↓reduceIte]
        exact ⟨⟨rfl, rfl, by simp [Verdict.failure?], rfl, rfl, hopen⟩, trivial⟩
      · -- an update
        have hne : (existing.generation != d.generation) = true := by simpa using hgen
        have hne' : (existing.generation == d.generation) = false := by simpa using hgen
        rcases hwrite .updated (by decide) with ⟨e, he, hsub⟩ | ⟨p, hp, ⟨hal, hsub⟩ | ⟨hal, q, hq, hsub⟩⟩
        · simp only [hr, hne, hne', hsub, he, Option.any_some, Bool.false_eq_true, ↓reduceIte]
          exact ⟨⟨rfl, rfl, by simp [Reconciling.fail, Verdict.failure?], rfl, rfl, hopen⟩, rfl⟩
        · simp only [hr, hne, hne', hsub, hp, hal, Option.any_some, Bool.false_eq_true, ↓reduceIte]
          exact ⟨⟨rfl, rfl, by simp [Verdict.failure?], rfl, rfl, hopen⟩, trivial⟩
        · simp only [hr, hne, hne', hsub, hp, hal, Option.any_some, Option.isNone_some,
            Bool.false_eq_true, ↓reduceIte]
          exact ⟨⟨rfl, rfl, by simp [Verdict.failure?], rfl, rfl, hq⟩, rfl⟩

/-- An admission stores the listed definition under its own key, as an addition exactly when the
key is not registered. -/
theorem verdict_admitted {r : Registry} {now : Nat} {d : Definition} {ρ : Rule} {added : Bool}
    (h : (r.verdict now d).1 = .admitted ρ added) :
    d.key = .ok ρ.key ∧ ρ.definition = d ∧ added = (r.get? ρ.key).isNone := by
  unfold verdict at h
  split at h
  · cases h
  · rename_i key hk
    split at h
    · cases h
    · split at h
      · cases h
      · dsimp only at h
        split at h
        · cases h
          exact ⟨hk, rfl, rfl⟩
        · cases h

/-- The verdicts on a listing, against registries that differ in the limiter only. -/
theorem verdicts_cons (r : Registry) (now : Nat) (d : Definition) (rest : List Definition) :
    r.verdicts now (d :: rest) =
      (r.verdict now d).1 :: ({ r with limiter := (r.verdict now d).2 } : Registry).verdicts now rest :=
  rfl

/-- Each admission on a listing stores a listed definition under its own key, as an addition
exactly when the key is not registered. -/
theorem mem_verdicts_admitted (now : Nat) :
    ∀ (listing : List Definition) (r : Registry) {ρ : Rule} {added : Bool},
      .admitted ρ added ∈ r.verdicts now listing →
        ρ.definition ∈ listing ∧ ρ.definition.key = .ok ρ.key ∧ added = (r.get? ρ.key).isNone
  | [], _, _, _, h => by cases h
  | d :: rest, r, ρ, added, h => by
    rw [verdicts_cons] at h
    rcases List.mem_cons.1 h with h | h
    · obtain ⟨hk, rfl, hadd⟩ := verdict_admitted h.symm
      exact ⟨List.mem_cons_self, hk, hadd⟩
    · obtain ⟨hmem, hk, hadd⟩ := mem_verdicts_admitted now rest _ h
      exact ⟨List.mem_cons_of_mem d hmem, hk, hadd⟩

/-- The keys of the rules a listing's verdicts admit are among the listed keys, in order. -/
theorem admitted_keys_sublist (now : Nat) :
    ∀ (listing : List Definition) (r : Registry),
      (((r.verdicts now listing).filterMap Verdict.rule?).map (·.key)).Sublist
        (listing.filterMap (·.key.toOption))
  | [], _ => by simp [verdicts]
  | d :: rest, r => by
    rw [verdicts_cons]
    have ih := admitted_keys_sublist now rest { r with limiter := (r.verdict now d).2 }
    cases hv : (r.verdict now d).1 with
    | admitted ρ added =>
      obtain ⟨hk, -, -⟩ := verdict_admitted hv
      simp only [List.filterMap_cons, Verdict.rule?, List.map_cons, hk, Except.toOption]
      exact ih.cons_cons ρ.key
    | keyFailed e | current | compileFailed e | rateLimited =>
      simp only [List.filterMap_cons, Verdict.rule?]
      refine ih.trans ?_
      cases d.key <;> simp [Except.toOption]

/-- A verdict leaves what the other keys name. -/
theorem get?_apply {r r' : Registry} {v : Verdict} (hr : r'.rules = v.apply r.rules) {k : ObjectKey}
    (hk : ∀ ρ, v.rule? = some ρ → ρ.key ≠ k) : r'.get? k = r.get? k := by
  rw [get?_eq_find, get?_eq_find, hr]
  unfold Verdict.apply
  split
  · rename_i ρ hρ
    rw [find?_place, if_neg (Ne.symm (hk ρ hρ))]
  · rfl

/-- The first phase of a reconciliation records the verdicts on the listing against `r`, when
the listed keys are distinct, the pass's registry starts agreeing with `r` on the listed keys
and on the compiler, and its queue is open. -/
theorem visits_record (r : Registry) (now : Nat) :
    ∀ (listing : List Definition) (s : Reconciling), (listing.filterMap (·.key.toOption)).Nodup →
      (∀ d ∈ listing, ∀ key, d.key = .ok key → s.registry.get? key = r.get? key) →
      s.registry.compiler = r.compiler → s.registry.changes.closed = false →
      Records s (listing.foldl (Reconciling.visit now) s)
        (({ r with limiter := s.registry.limiter } : Registry).verdicts now listing)
        (listing.filterMap (·.key.toOption))
  | [], s, _, _, _, hopen => ⟨rfl, rfl, by simp [verdicts], by simp, rfl, hopen⟩
  | d :: rest, s, hnd, hget, hcomp, hopen => by
    obtain ⟨hstep, hlim⟩ := visit_records r now (hget d List.mem_cons_self) hcomp hopen
    have hkeys : (d :: rest).filterMap (·.key.toOption) =
        d.key.toOption.toList ++ rest.filterMap (·.key.toOption) := by
      rw [List.filterMap_cons]
      cases d.key <;> rfl
    rw [hkeys, List.nodup_append] at hnd
    -- the later definitions have other keys, so the visit leaves what they meet
    have hfree : ∀ d' ∈ rest, ∀ key, d'.key = .ok key →
        ∀ ρ, (({ r with limiter := s.registry.limiter } : Registry).verdict now d).1.rule? = some ρ →
          ρ.key ≠ key := by
      intro d' hd' key hk' ρ hρ hkey
      obtain ⟨added, hv⟩ := Verdict.rule?_eq_some.1 hρ
      obtain ⟨hk, -, -⟩ := verdict_admitted hv
      exact hnd.2.2 ρ.key (by simp [hk, Except.toOption]) key
        (List.mem_filterMap.2 ⟨d', hd', by simp [hk', Except.toOption]⟩) hkey
    have ih := visits_record r now rest (Reconciling.visit now s d) hnd.2.1
      (fun d' hd' key hk' => (get?_apply hstep.rules (hfree d' hd' key hk')).trans
        (hget d' (List.mem_cons_of_mem d hd') key hk'))
      (hstep.compiler.trans hcomp) hstep.opened
    rw [hlim] at ih
    rw [List.foldl_cons, verdicts_cons, hkeys]
    exact hstep.trans ih

/-! ## Deleting the rules the listing lacks -/

/-- On an open queue, deleting a definition with a key succeeds: the delete is queued on a
queue that stays open, and the rules of the key are dropped. -/
theorem delete_open {r : Registry} (hopen : r.changes.closed = false) {d : Definition}
    {key : ObjectKey} (hk : d.key = .ok key) :
    (r.delete d).1 = .ok () ∧ (r.delete d).2.rules = r.rules.filter (·.key != key) ∧
      (r.delete d).2.changes.closed = false := by
  obtain ⟨q, hq, hclosed⟩ := ChangeQueue.push_open hopen ⟨.deleted, key, d⟩
  unfold delete
  simp only [hk, hq, hclosed, and_self]

/-- Pruning a rule whose definition derives its key deletes the key and counts the deletion. -/
theorem prune_deletes {s : Reconciling} {ρ : Rule} (hk : ρ.definition.key = .ok ρ.key)
    (hopen : s.registry.changes.closed = false) :
    (Reconciling.prune s ρ).registry.rules = s.registry.rules.filter (·.key != ρ.key) ∧
      (Reconciling.prune s ρ).report = { s.report with deleted := s.report.deleted + 1 } ∧
      (Reconciling.prune s ρ).firstError = s.firstError ∧
      (Reconciling.prune s ρ).registry.changes.closed = false := by
  obtain ⟨hres, hrules, hclosed⟩ := delete_open hopen hk
  unfold Reconciling.prune
  generalize s.registry.delete ρ.definition = x at hres hrules hclosed
  obtain ⟨result, registry⟩ := x
  dsimp only at hres hrules hclosed
  subst hres
  exact ⟨hrules, rfl, rfl, hclosed⟩

/-- Pruning rules whose definitions derive their keys deletes their keys and counts them. -/
theorem prunes_delete :
    ∀ (stale : List Rule) (s : Reconciling), (∀ ρ ∈ stale, ρ.definition.key = .ok ρ.key) →
      s.registry.changes.closed = false →
      (stale.foldl Reconciling.prune s).registry.rules =
          s.registry.rules.filter (fun x => !stale.any (·.key == x.key)) ∧
        (stale.foldl Reconciling.prune s).report =
          { s.report with deleted := s.report.deleted + stale.length } ∧
        (stale.foldl Reconciling.prune s).firstError = s.firstError
  | [], s, _, _ => ⟨(List.filter_eq_self.2 fun _ _ => rfl).symm, by simp, rfl⟩
  | ρ :: rest, s, hk, hopen => by
    obtain ⟨hrules, hreport, herr, hclosed⟩ := prune_deletes (hk ρ List.mem_cons_self) hopen
    obtain ⟨hrules', hreport', herr'⟩ :=
      prunes_delete rest _ (fun ρ' h => hk ρ' (List.mem_cons_of_mem ρ h)) hclosed
    refine ⟨?_, ?_, herr'.trans herr⟩
    · rw [List.foldl_cons, hrules', hrules, List.filter_filter]
      refine List.filter_congr fun x _ => ?_
      by_cases hx : x.key = ρ.key
      · simp [hx]
      · have hne : (ρ.key == x.key) = false := beq_false_of_ne (Ne.symm hx)
        simp [hne, hx, Bool.and_comm]
    · rw [List.foldl_cons, hreport', hreport]
      simp only [List.length_cons, ResyncReport.mk.injEq, true_and, and_true]
      omega

/-! ## Storing rules one after another -/

theorem refresh_key (A : List Rule) (x : Rule) : (refresh A x).key = x.key := by
  unfold refresh
  cases h : A.find? (·.key == x.key) with
  | none => rfl
  | some y => simpa using List.find?_some h

theorem refresh_of_not_mem {A : List Rule} {x : Rule} (h : ∀ y ∈ A, y.key ≠ x.key) :
    refresh A x = x := by
  unfold refresh
  rw [List.find?_eq_none.2 fun y hy => by simpa using h y hy]
  rfl

theorem refresh_mem (A : List Rule) (x : Rule) : refresh A x = x ∨ refresh A x ∈ A := by
  unfold refresh
  cases h : A.find? (·.key == x.key) with
  | none => exact .inl rfl
  | some y => exact .inr (List.mem_of_find?_eq_some h)

theorem refresh_cons (a : Rule) (A : List Rule) (x : Rule) :
    refresh (a :: A) x = if a.key = x.key then a else refresh A x := by
  unfold refresh
  by_cases h : a.key = x.key <;> simp [h]

/-- Storing rules of distinct keys one after another refreshes the registered rules in their
places and appends the others, in order. -/
theorem foldl_place : ∀ (A B : List Rule), (A.map (·.key)).Nodup →
    A.foldl place B = B.map (refresh A) ++ A.filter fun ρ => !B.any (·.key == ρ.key)
  | [], B, _ => by
    have h : refresh [] = id := funext fun x => refresh_of_not_mem (by simp)
    simp [h]
  | a :: A, B, hnd => by
    rw [List.map_cons, List.nodup_cons] at hnd
    have hfree : ∀ y ∈ A, y.key ≠ a.key := fun y hy he => hnd.1 (he ▸ List.mem_map_of_mem hy)
    rw [List.foldl_cons, foldl_place A (place B a) hnd.2]
    unfold place
    split
    · -- the key is registered: the rule replaces it in place
      rename_i hany
      have hkeys : ∀ ρ : Rule, ((B.map fun x => if x.key == a.key then a else x).any (·.key == ρ.key)) =
          B.any (·.key == ρ.key) := by
        intro ρ
        simp only [List.any_map]
        congr 1
        funext x
        by_cases hx : x.key = a.key <;> simp [hx]
      rw [List.map_map, List.filter_cons_of_neg (by simpa using hany)]
      simp only [hkeys]
      congr 1
      refine List.map_congr_left fun x _ => ?_
      rw [Function.comp_apply, refresh_cons]
      by_cases hx : x.key = a.key
      · simp [hx, refresh_of_not_mem hfree]
      · simp [hx, Ne.symm hx]
    · -- a new key: the rule goes last
      rename_i hany
      have hnew : ∀ ρ ∈ A, ((B ++ [a]).any (·.key == ρ.key)) = B.any (·.key == ρ.key) := by
        intro ρ hρ
        simp [List.any_append, Ne.symm (hfree ρ hρ)]
      rw [List.map_append, List.filter_cons_of_pos (by simpa using hany),
        List.filter_congr fun ρ hρ => by rw [hnew ρ hρ], List.append_assoc]
      congr 1
      · refine List.map_congr_left fun x hx => ?_
        have hne : a.key ≠ x.key := fun he => hany (List.any_eq_true.2 ⟨x, hx, by simp [he]⟩)
        rw [refresh_cons, if_neg hne]
      · simp [refresh_of_not_mem hfree]

/-- Taking verdicts in order stores their admitted rules in order. -/
theorem foldl_apply : ∀ (vs : List Verdict) (B : List Rule),
    vs.foldl Verdict.apply B = (vs.filterMap Verdict.rule?).foldl place B
  | [], _ => rfl
  | v :: vs, B => by
    rw [List.foldl_cons, List.filterMap_cons]
    unfold Verdict.apply
    split <;> rename_i h <;> simp only [h, List.foldl_cons] <;> exact foldl_apply vs _

/-- Counting verdicts in adds their numbers of each kind. -/
theorem foldl_count : ∀ (vs : List Verdict) (R : ResyncReport),
    vs.foldl Verdict.count R =
      { added := R.added + vs.countP (·.added?.isSome)
        updated := R.updated + vs.countP Verdict.isUpdate
        deleted := R.deleted
        rateLimited := R.rateLimited + vs.countP Verdict.isRateLimited
        failed := R.failed + vs.countP (·.failure?.isSome) }
  | [], R => by simp
  | v :: vs, R => by
    rw [List.foldl_cons, foldl_count vs]
    cases v with
    | admitted ρ added =>
      cases added <;>
        simp [Verdict.count, Verdict.added?, Verdict.isUpdate, Verdict.isRateLimited,
          Verdict.failure?, List.countP_cons] <;> omega
    | _ =>
      simp [Verdict.count, Verdict.added?, Verdict.isUpdate, Verdict.isRateLimited,
        Verdict.failure?, List.countP_cons] <;> omega

/-- The additions among verdicts that add exactly the rules of keys not in `B` are the admitted
rules whose keys are not in `B`. -/
theorem filterMap_added {B : List Rule} :
    ∀ vs : List Verdict, (∀ ρ added, .admitted ρ added ∈ vs → added = !B.any (·.key == ρ.key)) →
      vs.filterMap Verdict.added? = (vs.filterMap Verdict.rule?).filter fun ρ => !B.any (·.key == ρ.key)
  | [], _ => rfl
  | v :: vs, h => by
    have ih := filterMap_added vs fun ρ added hv => h ρ added (List.mem_cons_of_mem v hv)
    cases v with
    | admitted ρ added =>
      have hadd := h ρ added List.mem_cons_self
      cases added
      · simp only [List.filterMap_cons, Verdict.added?, Verdict.rule?, ih]
        rw [List.filter_cons_of_neg (by simpa using hadd.symm)]
      · simp only [List.filterMap_cons, Verdict.added?, Verdict.rule?, ih]
        rw [List.filter_cons_of_pos (by simpa using hadd.symm)]
    | _ =>
      simp only [List.filterMap_cons, Verdict.added?, Verdict.rule?]
      exact ih

/-- A reconciliation, unfolded: the visits, then the pruning of the rules not listed, then noting
the initial listing; it fails with the first error kept. -/
theorem resync_eq (r : Registry) (listing : List Definition) (now : Nat) :
    r.resync listing now =
      let s := listing.foldl (Reconciling.visit now) { registry := r }
      let s' := (s.registry.rules.filter fun ρ => !s.seen.contains ρ.key).foldl Reconciling.prune s
      (s'.firstError.elim (.ok s'.report) .error,
        { s'.registry with changes := s'.registry.changes.markPopulated }) := by
  unfold resync
  dsimp only
  split <;> rename_i h <;> rw [h] <;> rfl

/-- A rule of a list is among the list's rules whose keys a test refuses exactly when the test
refuses its key. -/
theorem any_filter_key (l : List Rule) (p : ObjectKey → Bool) {x : Rule} (hx : x ∈ l) :
    (l.filter fun ρ => !p ρ.key).any (·.key == x.key) = !p x.key := by
  apply Bool.eq_iff_iff.2
  rw [List.any_eq_true]
  constructor
  · rintro ⟨y, hy, hyx⟩
    rw [← beq_iff_eq.1 hyx]
    exact (List.mem_filter.1 hy).2
  · exact fun hx' => ⟨x, List.mem_filter.2 ⟨hx, hx'⟩, beq_self_eq_true x.key⟩

/-- The visits of a listing of distinct keys refresh the registered rules in place by the
admitted rules and append the additions, which have listed keys; every rule then derives its
key. They count the verdicts, keep the first failure, note the listed keys and leave the queue
open. -/
theorem visits_reconcile (r : Registry) (hkeyed : r.Keyed) (hopen : r.changes.closed = false)
    (listing : List Definition) (hdistinct : (listing.filterMap (·.key.toOption)).Nodup)
    (now : Nat) {s : Reconciling} (hs : listing.foldl (Reconciling.visit now) { registry := r } = s) :
    let vs := r.verdicts now listing
    let listed := listing.filterMap (·.key.toOption)
    s.registry.rules = r.rules.map (refresh (vs.filterMap Verdict.rule?)) ++ vs.filterMap Verdict.added? ∧
      s.registry.Keyed ∧ s.registry.changes.closed = false ∧ s.seen = listed ∧
      s.report = vs.foldl Verdict.count {} ∧ s.firstError = vs.findSome? Verdict.failure? ∧
      ∀ ρ ∈ vs.filterMap Verdict.added?, listed.contains ρ.key = true := by
  intro vs listed
  obtain ⟨hr₁, hrep₁, herr₁, hseen₁, -, hopen₁⟩ :=
    visits_record r now listing { registry := r } hdistinct (fun _ _ _ _ => rfl) rfl hopen
  rw [hs] at hr₁ hrep₁ herr₁ hseen₁ hopen₁
  change s.registry.rules = vs.foldl Verdict.apply r.rules at hr₁
  change s.report = vs.foldl Verdict.count {} at hrep₁
  change s.firstError = none.or (vs.findSome? Verdict.failure?) at herr₁
  -- the admitted rules: listed, of distinct keys, each deriving its key
  have hadm : ∀ ρ ∈ vs.filterMap Verdict.rule?, ρ.definition.key = .ok ρ.key ∧
      listed.contains ρ.key = true := by
    intro ρ hρ
    obtain ⟨v, hv, hvρ⟩ := List.mem_filterMap.1 hρ
    obtain ⟨added, rfl⟩ := Verdict.rule?_eq_some.1 hvρ
    exact ⟨(mem_verdicts_admitted now listing r hv).2.1, List.contains_iff_mem.2
      ((admitted_keys_sublist now listing r).subset (List.mem_map_of_mem hρ))⟩
  have hnew : vs.filterMap Verdict.added? =
      (vs.filterMap Verdict.rule?).filter fun ρ => !r.rules.any (·.key == ρ.key) := by
    refine filterMap_added vs fun ρ added hv => ?_
    have hc := contains_eq_isSome r ρ.key
    unfold contains at hc
    rw [(mem_verdicts_admitted now listing r hv).2.2, hc]
    cases r.get? ρ.key <;> rfl
  have hrules : s.registry.rules =
      r.rules.map (refresh (vs.filterMap Verdict.rule?)) ++ vs.filterMap Verdict.added? := by
    rw [hr₁, foldl_apply, foldl_place _ _ ((admitted_keys_sublist now listing r).nodup hdistinct),
      hnew]
  have haddedA : ∀ ρ ∈ vs.filterMap Verdict.added?, ρ ∈ vs.filterMap Verdict.rule? := by
    intro ρ hρ
    rw [hnew] at hρ
    exact (List.mem_filter.1 hρ).1
  -- every rule after the visits derives its key: a kept one as before, an admitted one by its
  -- admission
  have hkeyed' : s.registry.Keyed := by
    rw [Keyed, hrules]
    intro x hx
    rcases List.mem_append.1 hx with hx | hx
    · obtain ⟨y, hy, rfl⟩ := List.mem_map.1 hx
      rcases refresh_mem (vs.filterMap Verdict.rule?) y with h | h
      · rw [h]
        exact hkeyed y hy
      · exact (hadm _ h).1
    · exact (hadm x (haddedA x hx)).1
  exact ⟨hrules, hkeyed', hopen₁, by rw [hseen₁, List.nil_append], hrep₁,
    by rw [herr₁, Option.none_or], fun ρ hρ => (hadm ρ (haddedA ρ hρ)).2⟩

/-- After its visits, a reconciliation whose rules derive their keys, on an open queue, deletes
the rules whose keys the listing lacks, counts them, and fails with the first error kept. -/
theorem resync_of_visits {r : Registry} {listing : List Definition} {now : Nat} {s : Reconciling}
    (hs : listing.foldl (Reconciling.visit now) { registry := r } = s)
    (hkeyed : s.registry.Keyed) (hopen : s.registry.changes.closed = false) :
    (r.resync listing now).2.rules = s.registry.rules.filter (fun x => s.seen.contains x.key) ∧
      (r.resync listing now).1 = s.firstError.elim
        (.ok { s.report with deleted := s.report.deleted +
          (s.registry.rules.filter fun x => !s.seen.contains x.key).length }) .error := by
  obtain ⟨hr₂, hrep₂, herr₂⟩ := prunes_delete (s.registry.rules.filter fun ρ => !s.seen.contains ρ.key)
    s (fun ρ hρ => hkeyed ρ (List.mem_filter.1 hρ).1) hopen
  rw [resync_eq]
  dsimp only
  rw [hs, hr₂, hrep₂, herr₂]
  exact ⟨List.filter_congr fun x hx => by rw [any_filter_key _ _ hx, Bool.not_not], rfl⟩

/-- Reconciling a registry whose rules are stored under the keys their definitions derive, as in
every registry (`keyed_run`), and whose change queue is open, with a listing of distinct keys,
whether it succeeds or fails: the registry is left with its rules whose keys are listed, in their
places, each replaced by the rule its listed definition admits if there is one, followed by the
rules admitted under keys that were not registered, in listing order; the rules whose keys are
not listed are deleted. A listed definition is admitted when it has a key, no rule of its key
with its generation is registered, it compiles and the limiter takes its write. The report counts
the additions, updates, refusals and failures among the verdicts and the deleted rules, and the
pass fails, with the first failure in listing order, exactly when there is a failure. -/
theorem resync_reconciles (r : Registry) (hkeyed : r.Keyed) (hopen : r.changes.closed = false)
    (listing : List Definition) (hdistinct : (listing.filterMap (·.key.toOption)).Nodup)
    (now : Nat) :
    let vs := r.verdicts now listing
    let listed := listing.filterMap (·.key.toOption)
    let report := tally vs (r.rules.filter fun ρ => !listed.contains ρ.key).length
    (r.resync listing now).2.rules =
        (r.rules.filter fun ρ => listed.contains ρ.key).map (refresh (vs.filterMap Verdict.rule?)) ++
          vs.filterMap Verdict.added? ∧
      (r.resync listing now).1 = (vs.findSome? Verdict.failure?).elim (.ok report) .error ∧
      ((∃ e, (r.resync listing now).1 = .error e) ↔ 0 < report.failed) := by
  intro vs listed report
  generalize hs : listing.foldl (Reconciling.visit now) { registry := r } = s
  obtain ⟨hrules, hkeyed', hopen', hseen, hrep, herr, haddedListed⟩ :=
    visits_reconcile r hkeyed hopen listing hdistinct now hs
  obtain ⟨hres, hout⟩ := resync_of_visits hs hkeyed' hopen'
  rw [hseen] at hres hout
  -- the rules the listing keeps and adds
  have hlisted : ∀ p : ObjectKey → Bool, (s.registry.rules.filter fun x => p x.key) =
      (r.rules.filter fun x => p x.key).map (refresh (vs.filterMap Verdict.rule?)) ++
        (vs.filterMap Verdict.added?).filter fun x => p x.key := by
    intro p
    rw [hrules, List.filter_append, List.filter_map]
    congr 2
    exact List.filter_congr fun x _ => by simp [refresh_key]
  have hadded : ((vs.filterMap Verdict.added?).filter fun x => listed.contains x.key) =
      vs.filterMap Verdict.added? :=
    List.filter_eq_self.2 fun x hx => haddedListed x hx
  have hstale : ((vs.filterMap Verdict.added?).filter fun x => !listed.contains x.key) = [] :=
    List.filter_eq_nil_iff.2 fun x hx => by rw [haddedListed x hx]; decide
  have hfirst : ∀ (o : Option EngineError) (R : ResyncReport),
      (∃ e, (o.elim (.ok R) .error : Except EngineError ResyncReport) = .error e) ↔ o.isSome := by
    intro o R
    cases o <;> simp [Option.elim]
  refine ⟨by rw [hres, hlisted listed.contains, hadded], ?_, ?_⟩
  · rw [hout, herr]
    congr 1
    have hstale' : (s.registry.rules.filter fun x => !listed.contains x.key) =
        (r.rules.filter fun x => !listed.contains x.key).map (refresh (vs.filterMap Verdict.rule?)) ++
          (vs.filterMap Verdict.added?).filter fun x => !listed.contains x.key :=
      hlisted fun k => !listed.contains k
    rw [hrep, foldl_count, hstale', hstale]
    simp [report, tally, vs]
  · rw [hout, herr, hfirst, List.findSome?_isSome_iff]
    simp [report, tally, vs, List.countP_pos_iff]

/-- A registry holding `billing/r1`, `billing/r2` and `billing/r3`, reconciled with a listing of
`r1` as registered, `r2` at a new generation, a definition without a name and a new `r4`: `r1` is
kept, `r2` is updated where it stands, `r3` is deleted and `r4` appended; the nameless definition
fails, and the pass reports one of each. -/
theorem resync_reconciles_registered_rules :
    let rule (name : String) (generation : Int) : Definition :=
      { metadata := { ns := some "billing", name, uid := "uid-" ++ name, generation }
        spec := { filters := [{ namespaces := some ["ns"] }] } }
    let nameless : Definition :=
      { metadata := { name := "" }, spec := { filters := [{ namespaces := some ["ns"] }] } }
    let r := (((create .selector 10 1000 8).submit .added (rule "r1" 1) 0).2.submit .added
      (rule "r2" 1) 0).2.submit .added (rule "r3" 1) 0 |>.2
    let listing := [rule "r1" 1, rule "r2" 2, nameless, rule "r4" 1]
    let vs := r.verdicts 0 listing
    let listed := listing.filterMap (·.key.toOption)
    let report := tally vs (r.rules.filter fun ρ => !listed.contains ρ.key).length
    r.Keyed ∧ r.changes.closed = false ∧ listed.Nodup ∧
      ((r.resync listing 0).2.rules =
        (r.rules.filter fun ρ => listed.contains ρ.key).map (refresh (vs.filterMap Verdict.rule?)) ++
          vs.filterMap Verdict.added? ∧
      (r.resync listing 0).1 = (vs.findSome? Verdict.failure?).elim (.ok report) .error ∧
      ((∃ e, (r.resync listing 0).1 = .error e) ↔ 0 < report.failed)) ∧
      r.rules.map (·.definition) = [rule "r1" 1, rule "r2" 1, rule "r3" 1] ∧
      (r.resync listing 0).2.rules.map (·.definition) = [rule "r1" 1, rule "r2" 2, rule "r4" 1] ∧
      report = { added := 1, updated := 1, deleted := 1, failed := 1 } := by
  intro rule nameless r listing vs listed report
  -- the three submissions keep every rule under its own key
  have hcreated : (create .selector 10 1000 8).Keyed := fun ρ hρ => by simp [create] at hρ
  have hkeyed : r.Keyed :=
    ((hcreated.submit .added (rule "r1" 1) 0).submit .added (rule "r2" 1) 0).submit .added
      (rule "r3" 1) 0
  have hopen : r.changes.closed = false := by decide +kernel
  have hdistinct : listed.Nodup := by decide +kernel
  exact ⟨hkeyed, hopen, hdistinct, resync_reconciles r hkeyed hopen listing hdistinct 0,
    by decide +kernel, by decide +kernel, by decide +kernel⟩

end Registry

end MeterMatch
