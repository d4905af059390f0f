import MeterMatch.Proofs.Registry

/-! # Matching through the cache

A fresh match judges every rule by its predicate (`Registry.freshMatches`). A match that skips
the cache is a fresh match (`Registry.matchRules_skip`). A match through the cache is one too
when the cache holds right outcomes only: if every entry satisfies a property `W` that, for the
key of each rule on the object, holds of exactly the predicate's outcome, the match is fresh and
leaves a cache whose entries still satisfy `W` (`Registry.matchRules_of_every`,
`Registry.findMatches_of_every`).

* `MatchCache.get?_entries`, `MatchCache.insert_entries`, `MatchCache.forgetRule_entries`:
  what a lookup, a store and forgetting a rule keep of the entries.
* `Registry.freshMatches_filter`: a fresh match over fewer rules finds the same rules among them.
-/

namespace MeterMatch

namespace MatchCache

/-- Every entry of the cache satisfies `W`. -/
def Every (W : MatchKey × Outcome → Prop) (c : MatchCache) : Prop := ∀ x ∈ c.entries, W x

/-- A lookup hits an entry of the cache and keeps only entries of the cache. -/
theorem get?_entries (c : MatchCache) (k : MatchKey) :
    (∀ o, (c.get? k).1 = some o → (k, o) ∈ c.entries) ∧ ∀ x ∈ (c.get? k).2.entries, x ∈ c.entries := by
  unfold get?
  split
  · rename_i k' o hf
    have hk : k' = k := by simpa using List.find?_some hf
    subst hk
    have hmem := List.mem_of_find?_eq_some hf
    refine ⟨fun o' ho => ?_, fun x hx => ?_⟩
    · cases ho
      exact hmem
    · rcases List.mem_cons.1 hx with rfl | hx
      · exact hmem
      · exact (List.mem_filter.1 hx).1
  · exact ⟨fun _ ho => (nomatch ho), fun _ hx => hx⟩

theorem insert_entries (c : MatchCache) (k : MatchKey) (o : Outcome) :
    ∀ x ∈ (c.insert k o).entries, x = (k, o) ∨ x ∈ c.entries := by
  intro x hx
  rcases List.mem_cons.1 (List.mem_of_mem_take hx) with rfl | hx
  · exact .inl rfl
  · exact .inr (List.mem_filter.1 hx).1

theorem forgetRule_entries (c : MatchCache) (rule : ObjectKey) :
    ∀ x ∈ (c.forgetRule rule).2.entries, x ∈ c.entries ∧ x.1.rule ≠ rule := by
  intro x hx
  obtain ⟨hmem, hne⟩ := List.mem_filter.1 hx
  exact ⟨hmem, by simpa using hne⟩

section
variable {W : MatchKey × Outcome → Prop} {c : MatchCache}

theorem Every.get? (h : c.Every W) (k : MatchKey) : (c.get? k).2.Every W :=
  fun x hx => h x ((c.get?_entries k).2 x hx)

theorem Every.insert (h : c.Every W) {k : MatchKey} {o : Outcome} (hk : W (k, o)) :
    (c.insert k o).Every W := by
  intro x hx
  rcases c.insert_entries k o x hx with rfl | hx
  · exact hk
  · exact h x hx

theorem Every.forgetRule (h : c.Every W) (rule : ObjectKey) : (c.forgetRule rule).2.Every W :=
  fun x hx => h x (c.forgetRule_entries rule x hx).1

end

end MatchCache

namespace Registry

/-- The rules among `rules` that accept an object, whose key is `okey`, under fresh evaluation,
in order; or the error of the first rule that cannot judge it. -/
def freshMatches (r : Registry) (o : CandidateObject) (okey : ObjectKey) :
    List Rule → Except EngineError (List Rule)
  | [] => .ok []
  | rule :: rest =>
    match r.judge rule.predicate o with
    | .ok true => (r.freshMatches o okey rest).map (rule :: ·)
    | .ok false => r.freshMatches o okey rest
    | .error reason => .error (.evaluation rule.key.display okey.display reason)

variable {r : Registry} {o : CandidateObject} {okey : ObjectKey}

/-- Judging depends on the registry only through its switch outcome. -/
theorem judge_congr {r' : Registry} (h : r'.switchOutcome = r.switchOutcome) (p : Predicate) :
    r'.judge p o = r.judge p o := by
  cases p <;> simp [judge, h]

theorem freshMatches_congr {r' : Registry} (h : r'.switchOutcome = r.switchOutcome) :
    ∀ rules : List Rule, r'.freshMatches o okey rules = r.freshMatches o okey rules
  | [] => rfl
  | rule :: rest => by
    simp only [freshMatches, judge_congr h, freshMatches_congr h rest]

/-- A fresh match over the rules that pass a test finds the rules it found that pass it. -/
theorem freshMatches_filter (q : Rule → Bool) :
    ∀ {rules found : List Rule}, r.freshMatches o okey rules = .ok found →
      r.freshMatches o okey (rules.filter q) = .ok (found.filter q)
  | [], found, h => by
    cases h
    rfl
  | rule :: rest, found, h => by
    unfold freshMatches at h
    split at h
    · -- the rule accepts the object
      rename_i hj
      cases hm : r.freshMatches o okey rest with
      | error e => simp [hm, Except.map] at h
      | ok more =>
        simp only [hm, Except.map, Except.ok.injEq] at h
        subst h
        have ih := freshMatches_filter q hm
        by_cases hq : q rule = true
        · simp [hq, freshMatches, hj, ih, Except.map]
        · simp [hq, ih]
    · rename_i hj
      have ih := freshMatches_filter q h
      by_cases hq : q rule = true
      · simp [hq, freshMatches, hj, ih]
      · simp [hq, ih]
    · cases h

theorem consult_skip (rule : Rule) (cache : MatchCache) :
    (r.consult o okey true rule cache).1 = r.judge rule.predicate o := rfl

/-- A match that skips the cache is a fresh match. -/
theorem matchRules_skip :
    ∀ (rules : List Rule) (cache : MatchCache),
      (r.matchRules o okey true rules cache).1 = r.freshMatches o okey rules
  | [], _ => rfl
  | rule :: rest, cache => by
    rw [matchRules_cons, consult_skip, freshMatches]
    cases r.judge rule.predicate o with
    | error reason => rfl
    | ok b => cases b <;> simp only [matchRules_skip rest]

section Entries
variable {W : MatchKey × Outcome → Prop}

/-- For a cache of entries under `W`, where `W` holds under the rule's key of exactly the
predicate's outcome, a rule's outcome is its predicate's, and the entries stay under `W`. -/
theorem consult_of_every {rule : Rule}
    (hfit : ∀ out, W (⟨rule.key, rule.generation, okey, o.generation⟩, out) ↔
      out = r.judge rule.predicate o)
    (skip : Bool) {cache : MatchCache} (hc : cache.Every W) :
    (r.consult o okey skip rule cache).1 = r.judge rule.predicate o ∧
      (r.consult o okey skip rule cache).2.Every W := by
  cases skip with
  | true => exact ⟨rfl, hc.insert ((hfit _).2 rfl)⟩
  | false =>
    have hhit := (cache.get?_entries ⟨rule.key, rule.generation, okey, o.generation⟩).1
    have hrest := hc.get? ⟨rule.key, rule.generation, okey, o.generation⟩
    unfold consult
    dsimp only [Bool.false_eq_true, if_false]
    split
    · -- a hit is an entry, so it is the predicate's outcome
      rename_i hit hg
      exact ⟨(hfit hit).1 (hc _ (hhit hit hg)), hrest⟩
    · exact ⟨rfl, hrest.insert ((hfit _).2 rfl)⟩

/-- A match through a cache of entries under `W` is a fresh match, and keeps the entries under
`W`. -/
theorem matchRules_of_every (skip : Bool) :
    ∀ (rules : List Rule), (∀ rule ∈ rules, ∀ out,
        W (⟨rule.key, rule.generation, okey, o.generation⟩, out) ↔ out = r.judge rule.predicate o) →
      ∀ {cache : MatchCache}, cache.Every W →
        (r.matchRules o okey skip rules cache).1 = r.freshMatches o okey rules ∧
          (r.matchRules o okey skip rules cache).2.Every W
  | [], _, _, hc => ⟨rfl, hc⟩
  | rule :: rest, hfit, cache, hc => by
    obtain ⟨hout, hc₁⟩ := consult_of_every (hfit rule List.mem_cons_self) skip hc
    have ih := matchRules_of_every skip rest (fun ρ hρ => hfit ρ (List.mem_cons_of_mem _ hρ)) hc₁
    rw [matchRules_cons, hout, freshMatches]
    cases r.judge rule.predicate o with
    | error reason => exact ⟨rfl, hc₁⟩
    | ok b => cases b <;> simp only [ih, and_self]

/-- Finding the rules of an object through a cache of entries under `W`, where `W` holds under
the key of each registered rule of exactly the predicate's outcome, is a fresh match. -/
theorem findMatches_of_every (hk : o.key = .ok okey) (hc : r.cache.Every W)
    (hfit : ∀ rule ∈ r.rules, ∀ out,
      W (⟨rule.key, rule.generation, okey, o.generation⟩, out) ↔ out = r.judge rule.predicate o)
    (skip : Bool) :
    (r.findMatches o skip).1 = r.freshMatches o okey r.rules ∧ (r.findMatches o skip).2.cache.Every W := by
  rw [findMatches_of_key hk]
  exact matchRules_of_every skip r.rules hfit hc

end Entries

theorem findMatches_skip (hk : o.key = .ok okey) :
    (r.findMatches o true).1 = r.freshMatches o okey r.rules := by
  rw [findMatches_of_key hk]
  exact matchRules_skip r.rules r.cache

end Registry

end MeterMatch
