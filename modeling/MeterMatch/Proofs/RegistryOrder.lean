import MeterMatch.Proofs.MemoisedMatches
import MeterMatch.Proofs.Reconciliation
import Mathlib.Data.List.Chain

/-! # Registry order and fresh matching

The registry keeps its rules in admission order: an admitted write of a registered key replaces
its rule in place, one of a new key appends it, and a delete drops the key and keeps the order of
the others. Read over the registries a run passes through (`Registry.history`, with each visit
and each pruning of a reconciliation), this says that a key listed earlier has been registered
without a break for longer (`Registry.tenure`).

* `Registry.Advances`: what one step may do to the listed keys, keep some of them in their order
  or append one that was not registered; every admission, delete, visit and pruning does one of
  the two (`Registry.advances_submit`, `Registry.advances_delete`), so the registries of a run
  form a chain of such steps (`Registry.history_isChain`).
* `Registry.Senior`: the rules listed by decreasing tenure; kept by every step
  (`Registry.Senior.extend`) and so along every chain (`Registry.Senior.chain`).
* `Registry.matchRules_skip_of_judges`, `Registry.matchRules_skip_of_error`: matching afresh
  judges the rules in order and stores each outcome (`Registry.storeFresh`); it finds the rules
  that accept the object, or stops at the first rule that cannot judge it, with that rule's
  outcome stored.
* `Registry.findMatches_ordered_filter`: in every run from a new registry the rules are listed by
  tenure, and matching an object afresh is the ordered filter of the rules or the first failure.
-/

namespace MeterMatch

namespace Registry

/-! ## The registries a run passes through -/

/-- The registries an action passes through, the last being the registry it leaves: a
reconciliation passes through the registry after each visit of its listing and after each pruning
of a rule it did not list, and then notes the listing. -/
def Action.trail (r : Registry) : Action → List Registry
  | .resync listing now =>
    let s := listing.foldl (Reconciling.visit now) { registry := r }
    ((listing.scanl (Reconciling.visit now) { registry := r }).tail ++
        ((s.registry.rules.filter fun ρ => !s.seen.contains ρ.key).scanl Reconciling.prune s).tail).map
      (·.registry) ++ [act r (.resync listing now)]
  | a => [act r a]

/-- The registries a run passes through after the one it starts from. -/
def passes (r : Registry) : List Action → List Registry
  | [] => []
  | a :: acts => a.trail r ++ passes (act r a) acts

/-- The registries a run passes through, from the one it starts from. -/
def history (start : Registry) (acts : List Action) : List Registry := start :: passes start acts

/-- For how many of the last registries of a history a key has been registered without a break:
those since the key was last admitted while absent. -/
def tenure (H : List Registry) (k : ObjectKey) : Nat := (H.reverse.takeWhile (·.contains k)).length

theorem tenure_snoc (H : List Registry) (r : Registry) (k : ObjectKey) :
    tenure (H ++ [r]) k = if r.contains k then tenure H k + 1 else 0 := by
  unfold tenure
  rw [List.reverse_append, List.reverse_singleton, List.singleton_append, List.takeWhile_cons]
  split <;> simp_all

theorem contains_iff_mem_keys (r : Registry) (k : ObjectKey) :
    r.contains k = true ↔ k ∈ r.rules.map (·.key) := by
  simp [contains, List.any_eq_true]

/-! ## Steps on the listed keys -/

/-- What one step may do to the listed keys: keep some of them in their order, or append a key
that was not registered. -/
def Advances (r r' : Registry) : Prop :=
  (r'.rules.map (·.key)).Sublist (r.rules.map (·.key)) ∨
    ∃ k, r.contains k = false ∧ r'.rules.map (·.key) = r.rules.map (·.key) ++ [k]

theorem Advances.of_rules {r r' : Registry} (h : r'.rules = r.rules) : Advances r r' :=
  .inl (h ▸ List.Sublist.refl _)

/-- Storing a rule keeps the keys when its key is registered and appends it otherwise. -/
theorem keys_place_cases (rules : List Rule) (ρ : Rule) :
    (place rules ρ).map (·.key) = rules.map (·.key) ∨
      rules.any (·.key == ρ.key) = false ∧
        (place rules ρ).map (·.key) = rules.map (·.key) ++ [ρ.key] := by
  unfold place
  split
  · left
    rw [List.map_map]
    have hkey : ((·.key) ∘ fun x : Rule => if x.key == ρ.key then ρ else x) = (·.key) := by
      funext x
      by_cases hx : x.key = ρ.key <;> simp [hx]
    rw [hkey]
  · rename_i hany
    exact .inr ⟨Bool.eq_false_iff.2 hany, by simp⟩

theorem advances_place {r r' : Registry} {ρ : Rule} (h : r'.rules = place r.rules ρ) :
    Advances r r' := by
  rw [Advances, h]
  rcases keys_place_cases r.rules ρ with hsame | ⟨hfresh, happ⟩
  · exact .inl (hsame ▸ List.Sublist.refl _)
  · exact .inr ⟨ρ.key, hfresh, happ⟩

theorem advances_submit (r : Registry) (kind : DeltaKind) (d : Definition) (now : Nat) :
    Advances r (r.submit kind d now).2 := by
  rcases submit_cases r kind d now with he | ⟨key, p, q, -, -, -, -, he⟩
  · exact .of_rules (by rw [he])
  · exact advances_place (by rw [he])

theorem advances_delete (r : Registry) (d : Definition) : Advances r (r.delete d).2 := by
  rcases delete_cases r d with he | ⟨key, q, -, -, -, he⟩
  · exact .of_rules (by rw [he])
  · refine .inl ?_
    rw [he]
    exact List.filter_sublist.map _

theorem advances_visit (now : Nat) (s : Reconciling) (d : Definition) :
    Advances s.registry (Reconciling.visit now s d).registry := by
  rcases visit_registry now s d with he | he | he <;> rw [he]
  · exact .of_rules rfl
  · exact advances_submit _ _ d now
  · exact advances_submit _ _ d now

theorem advances_prune (s : Reconciling) (ρ : Rule) :
    Advances s.registry (Reconciling.prune s ρ).registry := by
  rw [prune_registry]
  exact advances_delete _ _

/-- Steps that each advance the keys, threaded through a fold, advance them from the fold's start
through each state it passes to wherever the run goes on. -/
theorem isChain_scanl {σ β : Type} {f : σ → β → σ} {g : σ → Registry}
    (hf : ∀ s b, Advances (g s) (g (f s b))) :
    ∀ (l : List β) (s : σ) (L : List Registry), List.IsChain Advances (g (l.foldl f s) :: L) →
      List.IsChain Advances (g s :: ((l.scanl f s).tail.map g ++ L))
  | [], _, _, h => h
  | b :: l, s, L, h => by
    have hhead : l.scanl f (f s b) = f s b :: (l.scanl f (f s b)).tail := by
      cases l <;> simp only [List.scanl_nil, List.scanl_cons, List.tail_cons]
    rw [List.scanl_cons, List.tail_cons, hhead, List.map_cons, List.cons_append]
    exact List.IsChain.cons_cons (hf s b) (isChain_scanl hf l (f s b) L h)

/-- The registries an action passes through advance the keys step by step. -/
theorem Action.trail_isChain (r : Registry) (a : Action) {L : List Registry}
    (h : List.IsChain Advances (act r a :: L)) : List.IsChain Advances (r :: (a.trail r ++ L)) := by
  cases a with
  | add d now => exact .cons_cons (advances_submit r _ d now) h
  | update d now => exact .cons_cons (advances_submit r _ d now) h
  | delete d => exact .cons_cons (advances_delete r d) h
  | pop handled => exact .cons_cons (.of_rules rfl) h
  | findMatches o skip => exact .cons_cons (.of_rules (by rw [act, findMatches_eq])) h
  | resync listing now =>
    simp only [Action.trail, List.map_append, List.append_assoc]
    -- the visits, then the prunings, then noting the listing, which keeps the rules
    refine isChain_scanl (g := fun s : Reconciling => s.registry) (advances_visit now) listing
      ({ registry := r } : Reconciling) _ ?_
    refine isChain_scanl (g := fun s : Reconciling => s.registry) advances_prune _ _ _ ?_
    exact .cons_cons (.of_rules (by rw [act, resync_eq])) h

theorem Action.trail_eq (r : Registry) (a : Action) : ∃ T, a.trail r = T ++ [act r a] := by
  cases a with
  | resync listing now => exact ⟨_, rfl⟩
  | _ => exact ⟨[], rfl⟩

theorem passes_isChain : ∀ (r : Registry) (acts : List Action),
    List.IsChain Advances (r :: passes r acts)
  | _, [] => .singleton _
  | r, a :: acts => a.trail_isChain r (passes_isChain (act r a) acts)

/-- A run's history ends in the registry the run reaches. -/
theorem history_eq : ∀ (start : Registry) (acts : List Action),
    ∃ H, history start acts = H ++ [acts.foldl act start]
  | _, [] => ⟨[], rfl⟩
  | start, a :: acts => by
    obtain ⟨T, hT⟩ := a.trail_eq start
    obtain ⟨H, hH⟩ := history_eq (act start a) acts
    refine ⟨start :: T ++ H, ?_⟩
    rw [history, passes, hT, List.foldl_cons, List.append_assoc, List.singleton_append]
    rw [show act start a :: passes (act start a) acts = H ++ [acts.foldl act (act start a)] from hH]
    simp

theorem history_isChain (start : Registry) (acts : List Action) :
    List.IsChain Advances (history start acts) :=
  passes_isChain start acts

/-! ## Listing by tenure -/

/-- The rules of `r`, the registry after the history `H`, are listed by decreasing tenure. -/
def Senior (H : List Registry) (r : Registry) : Prop :=
  (r.rules.map (·.key)).Pairwise fun a b => tenure (H ++ [r]) b < tenure (H ++ [r]) a

section Senior
variable {H : List Registry} {r r' : Registry}

theorem tenure_of_mem_keys {k : ObjectKey} (hk : k ∈ r.rules.map (·.key)) :
    tenure (H ++ [r]) k = tenure H k + 1 := by
  rw [tenure_snoc, if_pos ((contains_iff_mem_keys r k).2 hk)]

/-- Every step keeps the rules listed by tenure: kept keys each gain one registry, and an appended
key has been registered for one registry only, fewer than any key already there. -/
theorem Senior.extend (h : Senior H r) (hstep : Advances r r') : Senior (H ++ [r]) r' := by
  unfold Senior at h ⊢
  rcases hstep with hsub | ⟨k, hfresh, happ⟩
  · refine (h.sublist hsub).imp_of_mem fun ha hb hlt => ?_
    rw [tenure_of_mem_keys ha, tenure_of_mem_keys hb]
    omega
  · have hkeys : ∀ x ∈ r.rules.map (·.key), x ∈ r'.rules.map (·.key) := fun x hx => by
      rw [happ]
      exact List.mem_append_left _ hx
    have hk : tenure (H ++ [r] ++ [r']) k = 1 := by
      rw [tenure_of_mem_keys (by rw [happ]; simp), tenure_snoc, hfresh]
      rfl
    rw [happ, List.pairwise_append]
    refine ⟨h.imp_of_mem fun ha hb hlt => ?_, List.pairwise_singleton _ _, ?_⟩
    · rw [tenure_of_mem_keys (hkeys _ ha), tenure_of_mem_keys (hkeys _ hb)]
      omega
    · intro a ha b hb
      rw [List.mem_singleton] at hb
      subst hb
      rw [hk, tenure_of_mem_keys (hkeys a ha), tenure_of_mem_keys ha]
      omega

/-- Along a chain of steps the rules stay listed by tenure. -/
theorem Senior.chain : ∀ (L H : List Registry) (r : Registry), List.IsChain Advances (r :: L) →
    Senior H r → ∀ H' z, H ++ r :: L = H' ++ [z] → Senior H' z
  | [], H, r, _, h, H', z, he => by
    obtain ⟨rfl, hz⟩ := List.append_inj' he rfl
    cases hz
    exact h
  | x :: L, H, r, hc, h, H', z, he => by
    rw [List.isChain_cons_cons] at hc
    exact Senior.chain L (H ++ [r]) x hc.2 (h.extend hc.1) H' z (by rw [← he]; simp)

end Senior

/-- In every run from a registry with no rules, the rules are listed by decreasing tenure. -/
theorem senior_run (start : Registry) (hstart : start.rules = []) (acts : List Action) :
    ((acts.foldl act start).rules.map (·.key)).Pairwise fun a b =>
      tenure (history start acts) b < tenure (history start acts) a := by
  obtain ⟨H, hH⟩ := history_eq start acts
  have hS : Senior H (acts.foldl act start) := by
    refine Senior.chain (passes start acts) [] start (history_isChain start acts) ?_ H _ hH
    simp [Senior, hstart]
  unfold Senior at hS
  rwa [← hH] at hS

/-! ## Matching afresh -/

/-- Whether a rule's predicate accepts an object. -/
def accepts (r : Registry) (o : CandidateObject) (ρ : Rule) : Bool :=
  match r.judge ρ.predicate o with
  | .ok true => true
  | _ => false

theorem accepts_iff (r : Registry) (o : CandidateObject) (ρ : Rule) :
    r.accepts o ρ = true ↔ r.judge ρ.predicate o = .ok true := by
  unfold accepts
  split <;> simp_all

/-- The cache after storing, in order, each rule's fresh outcome on an object of key `okey`. -/
def storeFresh (r : Registry) (o : CandidateObject) (okey : ObjectKey) (rules : List Rule)
    (cache : MatchCache) : MatchCache :=
  rules.foldl (fun c ρ => c.insert ⟨ρ.key, ρ.generation, okey, o.generation⟩
    (r.judge ρ.predicate o)) cache

section Fresh
variable {r : Registry} {o : CandidateObject} {okey : ObjectKey}

theorem consult_skip_cache (rule : Rule) (cache : MatchCache) :
    (r.consult o okey true rule cache).2 =
      cache.insert ⟨rule.key, rule.generation, okey, o.generation⟩ (r.judge rule.predicate o) :=
  rfl

/-- Matching afresh rules that all judge the object finds those that accept it, in order, and
stores every outcome. -/
theorem matchRules_skip_of_judges :
    ∀ (rules : List Rule) (cache : MatchCache), (∀ ρ ∈ rules, ∃ b, r.judge ρ.predicate o = .ok b) →
      r.matchRules o okey true rules cache =
        (.ok (rules.filter (r.accepts o)), r.storeFresh o okey rules cache)
  | [], _, _ => rfl
  | rule :: rest, cache, h => by
    obtain ⟨b, hb⟩ := h rule List.mem_cons_self
    have ih := matchRules_skip_of_judges rest
      (cache.insert ⟨rule.key, rule.generation, okey, o.generation⟩ (r.judge rule.predicate o))
      fun ρ hρ => h ρ (List.mem_cons_of_mem _ hρ)
    have hacc : r.accepts o rule = b := by cases b <;> simp [accepts, hb]
    rw [matchRules_cons, consult_skip, hb, List.filter_cons, hacc]
    cases b <;> simp only [ih, consult_skip_cache, storeFresh, List.foldl_cons, if_true,
      Bool.false_eq_true, if_false, Except.map]

/-- Matching afresh stops at the first rule that cannot judge the object, naming it and the
object's key, with the outcomes of the rules up to and including it stored. -/
theorem matchRules_skip_of_error {ρ : Rule} {e : String} (post : List Rule)
    (he : r.judge ρ.predicate o = .error e) :
    ∀ (pre : List Rule) (cache : MatchCache), (∀ σ ∈ pre, ∃ b, r.judge σ.predicate o = .ok b) →
      r.matchRules o okey true (pre ++ ρ :: post) cache =
        (.error (.evaluation ρ.key.display okey.display e), r.storeFresh o okey (pre ++ [ρ]) cache)
  | [], cache, _ => by
    rw [List.nil_append, matchRules_cons, consult_skip, he]
    rfl
  | σ :: pre, cache, h => by
    obtain ⟨b, hb⟩ := h σ List.mem_cons_self
    have ih := matchRules_skip_of_error post he pre
      (cache.insert ⟨σ.key, σ.generation, okey, o.generation⟩ (r.judge σ.predicate o))
      fun τ hτ => h τ (List.mem_cons_of_mem _ hτ)
    rw [List.cons_append, matchRules_cons, consult_skip, hb]
    cases b <;> simp only [ih, consult_skip_cache, storeFresh, List.cons_append, List.foldl_cons,
      Except.map]

/-- Matching an object afresh: an object without a key fails with its key error and changes
nothing; otherwise, when every rule judges it, the result is the rules that accept it in registry
order, and when some rule cannot, the first such rule is named. The rules judged have their
outcomes stored in the cache, and nothing else changes. -/
theorem findMatches_skip_spec (r : Registry) (o : CandidateObject) :
    (∀ e, o.key = .error e → r.findMatches o true = (.error (.key e), r)) ∧
    ∀ okey, o.key = .ok okey →
      ((∀ ρ ∈ r.rules, ∃ b, r.judge ρ.predicate o = .ok b) →
        r.findMatches o true =
          (.ok (r.rules.filter (r.accepts o)),
            { r with cache := r.storeFresh o okey r.rules r.cache })) ∧
      ∀ pre ρ post e, r.rules = pre ++ ρ :: post →
        (∀ σ ∈ pre, ∃ b, r.judge σ.predicate o = .ok b) → r.judge ρ.predicate o = .error e →
        r.findMatches o true = (.error (.evaluation ρ.key.display okey.display e),
          { r with cache := r.storeFresh o okey (pre ++ [ρ]) r.cache }) := by
  refine ⟨fun e hk => by rw [findMatches, hk], fun okey hk => ⟨fun h => ?_, ?_⟩⟩
  · rw [findMatches_of_key hk, matchRules_skip_of_judges r.rules r.cache h]
  · intro pre ρ post e hrules hpre he
    rw [findMatches_of_key hk, hrules, matchRules_skip_of_error post he pre r.cache hpre]

end Fresh

/-- In every run from a new registry, the rules are listed by how long their keys have been
registered without a break, counted over the registries the run passes through: a key admitted
earlier since it was last deleted comes first, an admitted overwrite keeps its key's place, and a
delete keeps the others' order. Matching an object afresh there gives, in that order, exactly the
rules whose predicates accept it, storing each outcome; unless some rule cannot judge it, when
the first such rule is named with the object's key, after the outcomes up to and including its
own are stored. -/
theorem findMatches_ordered_filter (compiler : Compiler) (capacity refillMs cacheCapacity : Nat)
    (acts : List Action) (o : CandidateObject) :
    let start := create compiler capacity refillMs cacheCapacity
    let reached := acts.foldl act start
    (reached.rules.map (·.key)).Pairwise
        (fun a b => tenure (history start acts) b < tenure (history start acts) a) ∧
      (∀ e, o.key = .error e → reached.findMatches o true = (.error (.key e), reached)) ∧
      ∀ okey, o.key = .ok okey →
        ((∀ ρ ∈ reached.rules, ∃ b, reached.judge ρ.predicate o = .ok b) →
          reached.findMatches o true =
            (.ok (reached.rules.filter (reached.accepts o)),
              { reached with cache := reached.storeFresh o okey reached.rules reached.cache })) ∧
        ∀ pre ρ post e, reached.rules = pre ++ ρ :: post →
          (∀ σ ∈ pre, ∃ b, reached.judge σ.predicate o = .ok b) →
          reached.judge ρ.predicate o = .error e →
          reached.findMatches o true = (.error (.evaluation ρ.key.display okey.display e),
            { reached with cache := reached.storeFresh o okey (pre ++ [ρ]) reached.cache }) := by
  intro start reached
  exact ⟨senior_run start rfl acts, findMatches_skip_spec reached o⟩

end Registry

end MeterMatch
