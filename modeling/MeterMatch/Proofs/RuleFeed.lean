import MeterMatch.Proofs.Registry

/-! # The rule change queue never loses a delete

Rule writers and a consumer of the rule change queue take turns on a registry: additions,
updates, deletes and reconciliations, each admitted, dropped by the limiter or failing, and
pops whose handler succeeds or fails (`Registry.Call`, `Registry.serve`). The consumer keeps a
copy of the registry's definitions, storing each accepted addition or update and dropping the
key of each accepted delete.

Additions and updates queue their kind whether or not the key is registered, and a delete is
queued even for an unknown key. Under `retainDeletes` a merged delta has the effect of the later
one, so after every call each pending delta is a deletion exactly when its key is not
registered, and otherwise carries the registered definition (`Registry.FeedInv`). The main
statement, `rule_feed_tracks_registry`, follows for every run: whenever the queue is empty, the
consumer's copy is the registry's definitions.
-/

namespace MeterMatch

namespace Registry

/-- A call on the registry: a rule write at a time, or a pop by the consumer of its changes
whose handler succeeds (`handled`) or fails. -/
inductive Call where
  | add (d : Definition) (now : Nat)
  | update (d : Definition) (now : Nat)
  | delete (d : Definition)
  | resync (listing : List Definition) (now : Nat)
  | pop (handled : Bool)

/-- The registry and the consumer's copy of its definitions after a call. -/
def serve : Registry × Mirror Definition → Call → Registry × Mirror Definition
  | (r, M), .add d now => ((r.submit .added d now).2, M)
  | (r, M), .update d now => ((r.submit .updated d now).2, M)
  | (r, M), .delete d => ((r.delete d).2, M)
  | (r, M), .resync listing now => ((r.resync listing now).2, M)
  | (r, M), .pop handled =>
    ({ r with changes := (r.changes.popReady handled).2 }, M.accept (r.changes.popReady handled).1)

/-- The queue keeps deletes and is faithful to the registry's definitions for the consumer's
copy. -/
structure FeedInv (r : Registry) (M : Mirror Definition) : Prop where
  policy : r.changes.policy = .retainDeletes
  faithful : r.changes.Faithful M r.definitions

/-- Storing a rule changes the definition of its key only. -/
theorem definitions_of_place {r r' : Registry} {ρ : Rule} (h : r'.rules = place r.rules ρ) :
    r'.definitions = Function.update r.definitions ρ.key (some ρ.definition) := by
  funext k
  by_cases hk : k = ρ.key
  · subst hk
    simp [definitions, get?_eq_find, h, find?_place]
  · rw [Function.update_of_ne hk]
    simp [definitions, get?_eq_find, h, find?_place, hk]

theorem definitions_of_filter {r r' : Registry} {key : ObjectKey}
    (h : r'.rules = r.rules.filter (·.key != key)) :
    r'.definitions = Function.update r.definitions key none := by
  funext k
  simp only [definitions, get?_eq_find, h]
  rw [find?_filter_ne]
  by_cases hk : k = key
  · subst hk
    simp
  · rw [Function.update_of_ne hk]
    simp [hk, definitions, get?_eq_find]

section
variable {r : Registry} {M : Mirror Definition}

/-- The invariant reads only the pending changes, the queue's policy and the rules. -/
theorem FeedInv.of_eq {r' : Registry} (h : FeedInv r M)
    (hp : r'.changes.pending = r.changes.pending) (hpol : r'.changes.policy = r.changes.policy)
    (hr : r'.rules = r.rules) : FeedInv r' M := by
  have hd : r'.definitions = r.definitions := by
    funext k
    simp [definitions, get?_eq_find, hr]
  exact ⟨hpol.trans h.policy, hd ▸ h.faithful.of_pending_eq hp hpol⟩

theorem FeedInv.submit (h : FeedInv r M) {kind : DeltaKind} (hk : kind ≠ .deleted)
    (d : Definition) (now : Nat) : FeedInv (r.submit kind d now).2 M := by
  rcases submit_cases r kind d now with he | ⟨key, p, q, -, -, hq, -, he⟩
  · exact h.of_eq (by rw [he]) (by rw [he]) (by rw [he])
  · have hq' : (r.submit kind d now).2.changes = q := by rw [he]
    have hr' : (r.submit kind d now).2.rules = place r.rules ⟨key, d, p⟩ := by rw [he]
    refine ⟨hq' ▸ (ChangeQueue.push_cases hq).1.trans h.policy, ?_⟩
    rw [hq', definitions_of_place hr']
    simpa [Delta.effect, hk] using h.faithful.push_retain h.policy hq

theorem FeedInv.delete (h : FeedInv r M) (d : Definition) : FeedInv (r.delete d).2 M := by
  rcases delete_cases r d with he | ⟨key, q, -, hq, -, he⟩
  · rw [he]
    exact h
  · have hq' : (r.delete d).2.changes = q := by rw [he]
    have hr' : (r.delete d).2.rules = r.rules.filter (·.key != key) := by rw [he]
    refine ⟨hq' ▸ (ChangeQueue.push_cases hq).1.trans h.policy, ?_⟩
    rw [hq', definitions_of_filter hr']
    simpa [Delta.effect] using h.faithful.push_retain h.policy hq

theorem FeedInv.resync (h : FeedInv r M) (listing : List Definition) (now : Nat) :
    FeedInv (r.resync listing now).2 M :=
  resync_induction (fun r => FeedInv r M) listing now
    (fun _ _ d hk h => h.submit hk d now) (fun _ d h => h.delete d)
    (fun _ h => h.of_eq (by simp) (by simp) rfl) h

theorem FeedInv.call (h : FeedInv r M) :
    ∀ c : Call, FeedInv (serve (r, M) c).1 (serve (r, M) c).2
  | .add d now => h.submit (by decide) d now
  | .update d now => h.submit (by decide) d now
  | .delete d => h.delete d
  | .resync listing now => h.resync listing now
  | .pop handled =>
    ⟨(ChangeQueue.policy_popReady r.changes handled).trans h.policy, h.faithful.popReady handled⟩

end

/-- A registry with no rules and nothing queued is faithful to a consumer that holds nothing. -/
theorem FeedInv.start (compiler : Compiler) (switchOutcome : Outcome) (cache : MatchCache)
    (limiter : Limiter Binary64) :
    FeedInv { compiler, switchOutcome, cache, limiter } (fun _ => none) := by
  refine ⟨rfl, ⟨⟨by simp [ChangeQueue.empty, ChangeQueue.pending], by simp [ChangeQueue.empty, ChangeQueue.pending]⟩,
    by simp [ChangeQueue.empty, ChangeQueue.pending], fun k _ => ?_⟩⟩
  simp [definitions, get?]

theorem FeedInv.run {r : Registry} {M : Mirror Definition} (h : FeedInv r M) :
    ∀ calls : List Call, FeedInv (calls.foldl serve (r, M)).1 (calls.foldl serve (r, M)).2
  | [] => h
  | c :: calls => FeedInv.run (h.call c) calls

/-- Every run from a registry with no rules and an empty rule change queue, as the registry
starts, keeps each pending rule change a deletion exactly when its key is not registered and
otherwise the registered definition; so whenever the queue is empty, the consumer's copy holds
exactly the registry's definitions. -/
theorem rule_feed_tracks_registry (compiler : Compiler) (switchOutcome : Outcome)
    (cache : MatchCache) (limiter : Limiter Binary64) (calls : List Call) :
    let start : Registry := { compiler, switchOutcome, cache, limiter }
    let run := calls.foldl serve (start, fun _ => none)
    (∀ d ∈ run.1.changes.pending,
      (d.kind = .deleted ↔ run.1.contains d.key = false) ∧
      (d.kind ≠ .deleted → ∃ rule, run.1.get? d.key = some rule ∧ rule.definition = d.payload)) ∧
    (run.1.changes.pending = [] → run.2 = run.1.definitions) := by
  intro start run
  have h : FeedInv run.1 run.2 := (FeedInv.start compiler switchOutcome cache limiter).run calls
  refine ⟨fun d hd => ?_, h.faithful.eq_of_empty⟩
  have heff := h.faithful.effect d hd
  simp only [definitions, Delta.effect] at heff
  rw [contains_eq_isSome]
  by_cases hk : d.kind = .deleted
  · simp only [hk, if_true, Option.map_eq_none_iff] at heff
    simp [hk, heff]
  · simp only [hk, if_false, Option.map_eq_some_iff] at heff
    obtain ⟨rule, hrule, hdef⟩ := heff
    simp [hk, hrule, hdef]

end Registry

end MeterMatch
