import MeterMatch.Engine.Registry
import MeterMatch.Proofs.ChangeQueue
import Mathlib.Control.Monad.Basic

/-! # What the registry's operations change

One lemma per operation, so that invariants about the registry are proved without unfolding it:

* `Registry.submit_cases`: a rule write is dropped, changing at most the writer's bucket, or
  admitted: the change is queued and the rule stored in its key's place.
* `Registry.delete_cases`: a delete changes nothing, or queues the delete and drops the rule,
  the bucket and the rule's cached outcomes.
* `Registry.resync_induction`: a reconciliation is a series of additions, updates and deletes,
  after which the queue notes its initial listing; what each of these keeps, it keeps
  (`Registry.resync_induction_listed` when only writes of the listed definitions keep it).
* `Registry.find?_place`, `Registry.find?_filter_ne`: what a key names after a rule is stored
  or dropped.
* `Registry.matchRules_cons`: one rule of a match, through `Registry.consult`, which gives the
  outcome the match uses and the cache after it; `Registry.matchRules_sublist`: the rules a
  match finds are among those it was given, in order, so a match finds registered rules only
  (`Registry.findMatches_sublist`).
-/

namespace MeterMatch

namespace Registry

/-- The definitions the registry holds, by key. -/
def definitions (r : Registry) (k : ObjectKey) : Option Definition := (r.get? k).map (·.definition)

theorem get?_eq_find (r : Registry) (k : ObjectKey) : r.get? k = r.rules.find? (·.key == k) := rfl

theorem contains_eq_isSome (r : Registry) (k : ObjectKey) : r.contains k = (r.get? k).isSome := by
  apply Bool.eq_iff_iff.2
  simp [contains, get?, List.find?_isSome, List.any_eq_true]

/-! ## Storing and dropping rules -/

/-- Replacing the rules of a key changes what that key names, and nothing else. -/
theorem find?_map_replace (ρ : Rule) (k : ObjectKey) :
    ∀ rules : List Rule,
      (rules.map fun x => if x.key == ρ.key then ρ else x).find? (·.key == k) =
        if k = ρ.key then (rules.find? (·.key == k)).map fun _ => ρ else rules.find? (·.key == k)
  | [] => by simp
  | x :: rest => by
    have ih := find?_map_replace ρ k rest
    rw [List.map_cons]
    by_cases hx : x.key = ρ.key
    · rw [if_pos (by simpa using hx)]
      by_cases hk : k = ρ.key
      · rw [List.find?_cons_of_pos (by simp [hk]), if_pos hk,
          List.find?_cons_of_pos (by simp [hx, hk])]
        rfl
      · rw [List.find?_cons_of_neg (by simpa using Ne.symm hk), ih, if_neg hk, if_neg hk,
          List.find?_cons_of_neg (by simpa [hx] using Ne.symm hk)]
    · rw [if_neg (by simpa using hx)]
      by_cases hk : x.key = k
      · have hk' : k ≠ ρ.key := fun h => hx (hk.trans h)
        rw [List.find?_cons_of_pos (by simp [hk]), if_neg hk', List.find?_cons_of_pos (by simp [hk])]
      · rw [List.find?_cons_of_neg (by simpa using hk), ih, List.find?_cons_of_neg (by simpa using hk)]

/-- After a rule is stored, its key names it and every other key names what it did. -/
theorem find?_place (rules : List Rule) (ρ : Rule) (k : ObjectKey) :
    (place rules ρ).find? (·.key == k) = if k = ρ.key then some ρ else rules.find? (·.key == k) := by
  unfold place
  split
  · rename_i hany
    rw [find?_map_replace]
    split
    · rename_i hk
      subst hk
      obtain ⟨x, hx⟩ := Option.isSome_iff_exists.1 (List.find?_isSome.2 (List.any_eq_true.1 hany))
      simp [hx]
    · rfl
  · rename_i hany
    rw [List.find?_append]
    split
    · rename_i hk
      subst hk
      have : rules.find? (·.key == ρ.key) = none := List.find?_eq_none.2 (by simpa using hany)
      simp [this]
    · rename_i hk
      simp [Ne.symm hk]

theorem keys_place {rules : List Rule} (h : (rules.map (·.key)).Nodup) (ρ : Rule) :
    ((place rules ρ).map (·.key)).Nodup := by
  unfold place
  split
  · rw [List.map_map]
    have : ((·.key) ∘ fun x : Rule => if x.key == ρ.key then ρ else x) = (·.key) := by
      funext x
      by_cases hx : x.key = ρ.key <;> simp [hx]
    rwa [this]
  · rename_i hany
    rw [List.map_append, List.nodup_append]
    refine ⟨h, by simp, fun a ha b hb => ?_⟩
    simp only [List.map_cons, List.map_nil, List.mem_singleton] at hb
    subst hb
    rintro rfl
    obtain ⟨x, hx, hxk⟩ := List.mem_map.1 ha
    exact hany (List.any_eq_true.2 ⟨x, hx, by simp [hxk]⟩)

/-- After the rules of a key are dropped, that key names nothing and every other key names what
it did. -/
theorem find?_filter_ne (rules : List Rule) (key k : ObjectKey) :
    (rules.filter (·.key != key)).find? (·.key == k) =
      if k = key then none else rules.find? (·.key == k) := by
  rw [List.find?_filter]
  split
  · rename_i hk
    subst hk
    exact List.find?_eq_none.2 fun x _ => by simp
  · rename_i hk
    congr 1
    funext x
    by_cases hx : x.key = k
    · simp [hx, hk]
    · simp [hx]

theorem contains_of_mem {r : Registry} {ρ : Rule} (h : ρ ∈ r.rules) : r.contains ρ.key = true :=
  List.any_eq_true.2 ⟨ρ, h, by simp⟩

theorem contains_of_place {r r' : Registry} {ρ : Rule} (h : r'.rules = place r.rules ρ)
    (k : ObjectKey) : r'.contains k = (k == ρ.key || r.contains k) := by
  rw [contains_eq_isSome, contains_eq_isSome, get?_eq_find, get?_eq_find, h, find?_place]
  by_cases hk : k = ρ.key <;> simp [hk]

theorem contains_of_filter {r r' : Registry} {key : ObjectKey}
    (h : r'.rules = r.rules.filter (·.key != key)) (k : ObjectKey) :
    r'.contains k = (k != key && r.contains k) := by
  rw [contains_eq_isSome, contains_eq_isSome, get?_eq_find, get?_eq_find, h, find?_filter_ne]
  by_cases hk : k = key <;> simp [hk]

/-- With one rule per key, a registered rule is the rule of its key. -/
theorem find?_key_of_mem : ∀ {rules : List Rule}, (rules.map (·.key)).Nodup → ∀ {ρ : Rule},
    ρ ∈ rules → rules.find? (·.key == ρ.key) = some ρ
  | [], _, _, h => by cases h
  | x :: rest, hnd, ρ, h => by
    rw [List.map_cons, List.nodup_cons] at hnd
    rcases List.mem_cons.1 h with rfl | h
    · simp
    · have hne : x.key ≠ ρ.key := fun he => hnd.1 (he ▸ List.mem_map_of_mem h)
      simp [hne, find?_key_of_mem hnd.2 h]

theorem get?_of_mem {r : Registry} (hnd : (r.rules.map (·.key)).Nodup) {ρ : Rule} (h : ρ ∈ r.rules) :
    r.get? ρ.key = some ρ :=
  find?_key_of_mem hnd h

theorem mem_place {rules : List Rule} {ρ x : Rule} (h : x ∈ place rules ρ) : x ∈ rules ∨ x = ρ := by
  unfold place at h
  split at h
  · obtain ⟨y, hy, rfl⟩ := List.mem_map.1 h
    by_cases hk : y.key = ρ.key
    · exact .inr (by simp [hk])
    · exact .inl (by simpa [hk] using hy)
  · rcases List.mem_append.1 h with h | h
    · exact .inl h
    · exact .inr (List.mem_singleton.1 h)

/-- Storing a rule leaves the rules of the other keys, in order. -/
theorem filter_place (rules : List Rule) (ρ : Rule) {Q : ObjectKey → Bool} (hQ : Q ρ.key = true) :
    (place rules ρ).filter (fun x => !Q x.key) = rules.filter fun x => !Q x.key := by
  -- the rule goes in its key's place or last, and the filter drops its key
  have hmap : ∀ l : List Rule, (l.map fun x => if x.key == ρ.key then ρ else x).filter
      (fun x => !Q x.key) = l.filter fun x => !Q x.key := by
    intro l
    induction l with
    | nil => rfl
    | cons x rest ih =>
      simp only [beq_iff_eq] at ih
      by_cases hx : x.key = ρ.key
      · simp [hx, hQ, ih]
      · by_cases hq : Q x.key = true <;> simp [hx, hq, ih]
  unfold place
  split
  · exact hmap rules
  · simp [hQ]

theorem compile_congr {r r' : Registry} (h : r'.compiler = r.compiler) (key : ObjectKey)
    (d : Definition) : r'.compile key d = r.compile key d := by
  unfold compile
  rw [h]

/-- The selector compiler makes a rule's predicate the matcher its definition compiles to. -/
theorem compile_selector {r : Registry} (h : r.compiler = .selector) {key : ObjectKey}
    {d : Definition} {p : Predicate} (hp : r.compile key d = .ok p) :
    ∃ m, d.compile = .ok m ∧ p = .selector m := by
  unfold compile at hp
  rw [h] at hp
  dsimp only at hp
  split at hp
  · rename_i m hm
    cases hp
    exact ⟨m, hm, rfl⟩
  · cases hp

/-! ## Writes -/

/-- A rule write either leaves everything but the limiter as it was, or is admitted: the change
is queued and the rule, compiled, stored in its key's place. -/
theorem submit_cases (r : Registry) (kind : DeltaKind) (d : Definition) (now : Nat) :
    (r.submit kind d now).2 = { r with limiter := (r.submit kind d now).2.limiter } ∨
      ∃ key p q, d.key = .ok key ∧ r.compile key d = .ok p ∧
        r.changes.push ⟨kind, key, d⟩ = .ok q ∧ (r.submit kind d now).1 = .ok .admitted ∧
        (r.submit kind d now).2 = { r with
          limiter := (r.submit kind d now).2.limiter
          changes := q
          rules := place r.rules ⟨key, d, p⟩ } := by
  unfold submit
  split
  · exact .inl rfl
  · rename_i key hkey
    split
    · exact .inl rfl
    · rename_i p hp
      obtain ⟨allowed, limiter⟩ := r.limiter.allow (d.limiterId key) now
      dsimp only
      split
      · exact .inl rfl
      · split
        · exact .inl rfl
        · rename_i q hq
          exact .inr ⟨key, p, q, hkey, hp, hq, rfl, rfl⟩

/-- A delete either changes nothing, or queues the delete and drops the rule, the limiter
bucket and the rule's cached outcomes. -/
theorem delete_cases (r : Registry) (d : Definition) :
    (r.delete d).2 = r ∨
      ∃ key q, d.key = .ok key ∧ r.changes.push ⟨.deleted, key, d⟩ = .ok q ∧
        (r.delete d).1 = .ok () ∧
        (r.delete d).2 = { r with
          changes := q
          rules := r.rules.filter (·.key != key)
          limiter := (r.delete d).2.limiter
          cache := (r.cache.forgetRule key).2 } := by
  unfold delete
  split
  · exact .inl rfl
  · rename_i key hkey
    split
    · exact .inl rfl
    · rename_i q hq
      exact .inr ⟨key, q, hkey, hq, rfl, rfl⟩

/-- Visiting a listed definition writes it as an addition or an update, or leaves the registry
alone. -/
theorem visit_registry (now : Nat) (s : Reconciling) (d : Definition) :
    (Reconciling.visit now s d).registry = s.registry ∨
      (Reconciling.visit now s d).registry = (s.registry.submit .added d now).2 ∨
      (Reconciling.visit now s d).registry = (s.registry.submit .updated d now).2 := by
  unfold Reconciling.visit
  split
  · exact .inl rfl
  · dsimp only
    split
    · refine .inr (.inl ?_)
      split <;> rfl
    · split
      · refine .inr (.inr ?_)
        split <;> rfl
      · exact .inl rfl

/-- Pruning a rule deletes it. -/
theorem prune_registry (s : Reconciling) (rule : Rule) :
    (Reconciling.prune s rule).registry = (s.registry.delete rule.definition).2 := by
  unfold Reconciling.prune
  split
  rename_i heq
  rw [heq]
  dsimp only
  split <;> rfl

/-- A reconciliation keeps whatever additions and updates of the listed definitions, deletes and
noting the initial listing keep. -/
theorem resync_induction_listed (P : Registry → Prop) (listing : List Definition) (now : Nat)
    (hsub : ∀ r kind d, d ∈ listing → kind ≠ .deleted → P r → P (r.submit kind d now).2)
    (hdel : ∀ r d, P r → P (r.delete d).2)
    (hmark : ∀ r, P r → P { r with changes := r.changes.markPopulated })
    {r : Registry} (h : P r) : P (r.resync listing now).2 := by
  -- the visits write only definitions of the listing, whatever is left of it
  have hfold1 : ∀ (l : List Definition), (∀ d ∈ l, d ∈ listing) → ∀ (s : Reconciling),
      P s.registry → P (l.foldl (Reconciling.visit now) s).registry := by
    intro l
    induction l with
    | nil => exact fun _ _ hs => hs
    | cons d l ih =>
      intro hl s hs
      refine ih (fun x hx => hl x (List.mem_cons_of_mem _ hx)) _ ?_
      have hd := hl d List.mem_cons_self
      rcases visit_registry now s d with he | he | he <;> rw [he]
      · exact hs
      · exact hsub _ _ _ hd (by decide) hs
      · exact hsub _ _ _ hd (by decide) hs
  have hfold2 : ∀ (l : List Rule) (s : Reconciling), P s.registry →
      P (l.foldl Reconciling.prune s).registry := by
    intro l
    induction l with
    | nil => exact fun _ hs => hs
    | cons rule l ih => exact fun s hs => ih _ (by rw [prune_registry]; exact hdel _ _ hs)
  unfold resync
  dsimp only
  split <;> exact hmark _ (hfold2 _ _ (hfold1 listing (fun _ hd => hd) _ h))

/-- A reconciliation keeps whatever additions, updates, deletes and noting the initial listing
keep. -/
theorem resync_induction (P : Registry → Prop) (listing : List Definition) (now : Nat)
    (hsub : ∀ r kind d, kind ≠ .deleted → P r → P (r.submit kind d now).2)
    (hdel : ∀ r d, P r → P (r.delete d).2)
    (hmark : ∀ r, P r → P { r with changes := r.changes.markPopulated })
    {r : Registry} (h : P r) : P (r.resync listing now).2 :=
  resync_induction_listed P listing now (fun r kind d _ => hsub r kind d) hdel hmark h

/-! ## Matching -/

/-- The outcome a match uses for one rule, and the cache after it: the memoised outcome unless
told to skip the cache, otherwise the predicate's answer, stored. -/
def consult (r : Registry) (o : CandidateObject) (okey : ObjectKey) (skip : Bool) (rule : Rule)
    (cache : MatchCache) : Outcome × MatchCache :=
  let mk : MatchKey := ⟨rule.key, rule.generation, okey, o.generation⟩
  let (cached, cache) := if skip then (none, cache) else cache.get? mk
  match cached with
  | some hit => (hit, cache)
  | none =>
    let fresh := r.judge rule.predicate o
    (fresh, cache.insert mk fresh)

theorem matchRules_cons (r : Registry) (o : CandidateObject) (okey : ObjectKey) (skip : Bool)
    (rule : Rule) (rest : List Rule) (cache : MatchCache) :
    r.matchRules o okey skip (rule :: rest) cache =
      match (r.consult o okey skip rule cache).1 with
      | .ok true =>
        ((r.matchRules o okey skip rest (r.consult o okey skip rule cache).2).1.map (rule :: ·),
          (r.matchRules o okey skip rest (r.consult o okey skip rule cache).2).2)
      | .ok false => r.matchRules o okey skip rest (r.consult o okey skip rule cache).2
      | .error reason => (.error (.evaluation rule.key.display okey.display reason),
          (r.consult o okey skip rule cache).2) := by
  rfl

/-- The rules a match finds are among those it was given, in their order. -/
theorem matchRules_sublist (r : Registry) (o : CandidateObject) (okey : ObjectKey) (skip : Bool) :
    ∀ (rules : List Rule) (cache : MatchCache) {found : List Rule},
      (r.matchRules o okey skip rules cache).1 = .ok found → found.Sublist rules
  | [], _, found, h => by
    simp only [matchRules, Except.ok.injEq] at h
    subst h
    exact List.Sublist.slnil
  | rule :: rest, cache, found, h => by
    rw [matchRules_cons] at h
    split at h
    · cases hm : (r.matchRules o okey skip rest (r.consult o okey skip rule cache).2).1 with
      | error e => simp [hm, Except.map] at h
      | ok more =>
        simp only [hm, Except.map, Except.ok.injEq] at h
        subst h
        exact (matchRules_sublist r o okey skip rest _ hm).cons_cons rule
    · exact (matchRules_sublist r o okey skip rest _ h).cons rule
    · cases h

/-- The rules found for an object are registered, in registry order. -/
theorem findMatches_sublist {r : Registry} {o : CandidateObject} {skip : Bool} {found : List Rule}
    (h : (r.findMatches o skip).1 = .ok found) : found.Sublist r.rules := by
  unfold findMatches at h
  split at h
  · cases h
  · exact matchRules_sublist r o _ skip r.rules r.cache h

/-- An object with a key is matched against every registered rule. -/
theorem findMatches_of_key {r : Registry} {o : CandidateObject} {okey : ObjectKey}
    (hk : o.key = .ok okey) (skip : Bool) :
    r.findMatches o skip = ((r.matchRules o okey skip r.rules r.cache).1,
      { r with cache := (r.matchRules o okey skip r.rules r.cache).2 }) := by
  unfold findMatches
  rw [hk]

theorem findMatches_eq (r : Registry) (o : CandidateObject) (skip : Bool) :
    (r.findMatches o skip).2 = { r with cache := (r.findMatches o skip).2.cache } := by
  unfold findMatches
  split <;> rfl

/-! ## Where the rules come from -/

/-- A rule registered under a key is a stored rule of that key. -/
theorem mem_of_get? {r : Registry} {k : ObjectKey} {ρ : Rule} (h : r.get? k = some ρ) :
    ρ ∈ r.rules ∧ ρ.key = k :=
  ⟨List.mem_of_find?_eq_some h, by simpa using List.find?_some h⟩

/-- Every registered rule is defined by one of `D`, which derives the rule's key. -/
def DefinedBy (D : List Definition) (r : Registry) : Prop :=
  ∀ ρ ∈ r.rules, ρ.definition ∈ D ∧ ρ.definition.key = .ok ρ.key

/-- The definitions of `D` of one key and one generation have one spec. -/
def OneSpecPerGeneration (D : List Definition) : Prop :=
  ∀ d₁ ∈ D, ∀ d₂ ∈ D, d₁.key = d₂.key → d₁.generation = d₂.generation → d₁.spec = d₂.spec

instance : DecidablePred OneSpecPerGeneration := fun D =>
  inferInstanceAs (Decidable (∀ d₁ ∈ D, ∀ d₂ ∈ D, d₁.key = d₂.key → d₁.generation = d₂.generation →
    d₁.spec = d₂.spec))

section DefinedBy
variable {D : List Definition} {r : Registry}

theorem DefinedBy.of_rules (hr : r.rules = []) : DefinedBy D r := by
  intro ρ hρ
  rw [hr] at hρ
  cases hρ

theorem DefinedBy.of_rules_eq {r' : Registry} (h : DefinedBy D r) (he : r'.rules = r.rules) :
    DefinedBy D r' :=
  fun ρ hρ => h ρ (he ▸ hρ)

theorem DefinedBy.mono {D' : List Definition} (h : DefinedBy D r) (hD : ∀ d ∈ D, d ∈ D') :
    DefinedBy D' r :=
  fun ρ hρ => ⟨hD _ (h ρ hρ).1, (h ρ hρ).2⟩

/-- An admitted write stores a rule of the written definition, under its key. -/
theorem DefinedBy.submit (h : DefinedBy D r) {d : Definition} (hd : d ∈ D) (kind : DeltaKind)
    (now : Nat) : DefinedBy D (r.submit kind d now).2 := by
  rcases submit_cases r kind d now with he | ⟨key, p, q, hkey, -, -, -, he⟩ <;> rw [he]
  · exact h
  · intro ρ hρ
    rcases mem_place hρ with hρ | rfl
    · exact h ρ hρ
    · exact ⟨hd, hkey⟩

theorem DefinedBy.delete (h : DefinedBy D r) (d : Definition) : DefinedBy D (r.delete d).2 := by
  rcases delete_cases r d with he | ⟨key, q, -, -, -, he⟩ <;> rw [he]
  · exact h
  · exact fun ρ hρ => h ρ (List.mem_filter.1 hρ).1

theorem DefinedBy.resync (h : DefinedBy D r) {listing : List Definition}
    (hl : ∀ d ∈ listing, d ∈ D) (now : Nat) : DefinedBy D (r.resync listing now).2 :=
  resync_induction_listed (DefinedBy D) listing now
    (fun _ kind d hd _ hr => hr.submit (hl d hd) kind now) (fun _ d hr => hr.delete d)
    (fun _ hr => hr) h

/-- Two registries whose rules are defined by `D`, where a key and a generation fix the spec,
give the rules of one key and one generation one spec. -/
theorem DefinedBy.spec_eq {r' : Registry} (hD : OneSpecPerGeneration D) (h : DefinedBy D r)
    (h' : DefinedBy D r') {x : ObjectKey} {ρ ρ' : Rule} (hρ : r.get? x = some ρ)
    (hρ' : r'.get? x = some ρ') (hgen : ρ.generation = ρ'.generation) :
    ρ.definition.spec = ρ'.definition.spec := by
  obtain ⟨hmem, rfl⟩ := mem_of_get? hρ
  obtain ⟨hmem', hkey'⟩ := mem_of_get? hρ'
  obtain ⟨hd, hk⟩ := h ρ hmem
  obtain ⟨hd', hk'⟩ := h' ρ' hmem'
  exact hD _ hd _ hd' (by rw [hk, hk', hkey']) hgen

end DefinedBy

end Registry

end MeterMatch
