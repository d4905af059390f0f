import MeterMatch.Engine.Tracking
import MeterMatch.Proofs.Indexed
import MeterMatch.Proofs.Registry

/-! # What the engine's object writes change

One lemma per write of the association table, so that invariants are proved without unfolding
the engine:

* `Engine.untrack_cases`: untracking changes nothing, or queues the deletion of the association
  and drops just that key.
* `Engine.record_cases`: recording changes nothing, or queues an addition (a key with no
  association) or an update and stores just that key's new association.
* `Engine.apply_cases`: applying an object matches it, which changes only the cache, and then
  untracks or records its key.
* `Engine.apply_get?_self`, `Engine.apply_get?_of_ne`: what an apply leaves in the table: at its
  object's key, the association it had, none, or the object with the rules the match found;
  elsewhere, nothing new.
* `Engine.apply_keeps`, `Engine.rematch_keeps`: a property of what a key holds, true of nothing
  and of every association a write can store, is kept by the write; `Engine.apply_ok_at`: a
  write that succeeds leaves its key with nothing or such an association.
* `Engine.TableOk`: the table is well formed, indexed by each association's rules, and stores
  each association under its own key; every write keeps this.
* `Engine.reapply_induction` and the lemmas after it: the writes made of many applies and
  untracks keep what each apply and untrack keeps, and a run of them that succeeds leaves every
  key it wrote as a successful apply leaves it.
-/

namespace MeterMatch

theorem Association.dedup_of_nodup : ∀ {l : List ObjectKey}, l.Nodup → Association.dedup l = l
  | [], _ => rfl
  | k :: rest, h => by
    obtain ⟨hk, hrest⟩ := List.nodup_cons.1 h
    rw [Association.dedup, dedup_of_nodup hrest, List.filter_eq_self.2]
    intro x hx
    simpa using fun he : x = k => hk (he ▸ hx)

namespace Engine

variable {e : Engine}

/-- A table of associations as the engine keeps it: well formed, indexed by each association's
rules, and each association stored under its own key, which its object's metadata names. -/
structure TableOk (t : Indexed Association) : Prop where
  wf : t.WF
  indexOf : t.indexOf = Association.rules
  stored : ∀ k a, t.get? k = some a → a.key = k ∧ a.object.key = .ok k

/-! ## Matching, untracking and recording -/

theorem findMatches_eq (e : Engine) (o : CandidateObject) (skip : Bool) :
    e.findMatches o skip = ((e.registry.findMatches o skip).1,
      { e with registry := { e.registry with cache := (e.registry.findMatches o skip).2.cache } }) := by
  unfold findMatches
  rw [← Registry.findMatches_eq]

/-- Untracking a key changes nothing (and succeeds only for an untracked key), or queues the
deletion of its association and drops just that key from the table. -/
theorem untrack_cases (h : e.tracked.WF) (key : ObjectKey) :
    ((e.untrack key).2 = e ∧ ∀ c, (e.untrack key).1 = .ok c → e.tracked.get? key = none) ∨
      ∃ existing feed t, e.tracked.get? key = some existing ∧
        e.feed.push ⟨.deleted, key, existing⟩ = .ok feed ∧
        t.WF ∧ t.indexOf = e.tracked.indexOf ∧
        (∀ k', t.get? k' = if k' = key then none else e.tracked.get? k') ∧
        e.untrack key = (.ok .removed, { e with feed, tracked := t }) := by
  unfold untrack
  split
  · rename_i hk
    exact .inl ⟨rfl, fun _ _ => hk⟩
  · rename_i existing hk
    split
    · exact .inl ⟨rfl, fun _ h => by cases h⟩
    · rename_i feed hfeed
      obtain ⟨t, hrem, hwf, hix, hget⟩ := h.remove key
      rw [hrem]
      exact .inr ⟨existing, feed, t, hk, hfeed, hwf, hix, hget, rfl⟩

/-- The kind of the delta that records a key: an update of a tracked key, else an addition. -/
def recordKind (e : Engine) (key : ObjectKey) : DeltaKind :=
  if (e.tracked.get? key).isSome then .updated else .added

/-- Recording an association changes nothing (and succeeds only when the stored association
already has these rules and this object), or queues it and stores it under just that key. -/
theorem record_cases (h : e.tracked.WF) (key : ObjectKey) (o : CandidateObject)
    (rules : List ObjectKey) :
    ((e.record key o rules).2 = e ∧ ∀ c, (e.record key o rules).1 = .ok c →
        ∃ a, e.tracked.get? key = some a ∧ a.rules = rules ∧ a.object = o) ∨
      ∃ feed t, e.feed.push ⟨e.recordKind key, key, Association.make key o rules⟩ = .ok feed ∧
        t.WF ∧ t.indexOf = e.tracked.indexOf ∧
        (∀ k', t.get? k' = if k' = key then some (Association.make key o rules)
          else e.tracked.get? k') ∧
        (e.record key o rules).2 = { e with feed, tracked := t } := by
  unfold record
  dsimp only
  split
  · rename_i hsame
    refine .inl ⟨rfl, fun _ _ => ?_⟩
    obtain ⟨a, ha, hp⟩ := (Option.any_eq_true _ _).1 hsame
    simp only [Bool.and_eq_true, beq_iff_eq] at hp
    exact ⟨a, ha, hp.1, hp.2⟩
  · split
    · exact .inl ⟨rfl, fun _ h => by cases h⟩
    · rename_i feed hfeed
      obtain ⟨t, hup, hwf, hix, hget⟩ := h.upsert key (Association.make key o rules)
      refine .inr ⟨feed, t, ?_, hwf, hix, hget, ?_⟩
      · rw [← hfeed]
        unfold recordKind
        split <;> simp_all
      · rw [hup]

theorem untrack_registry (e : Engine) (key : ObjectKey) : (e.untrack key).2.registry = e.registry := by
  unfold untrack
  split
  · rfl
  · split
    · rfl
    · split <;> rfl

theorem record_registry (e : Engine) (key : ObjectKey) (o : CandidateObject)
    (rules : List ObjectKey) : (e.record key o rules).2.registry = e.registry := by
  unfold record
  dsimp only
  split
  · rfl
  · split
    · rfl
    · split <;> rfl

/-- Untracking writes only its key, which it leaves empty unless it fails. -/
theorem untrack_get? (h : e.tracked.WF) (key : ObjectKey) :
    (∀ k, k ≠ key → (e.untrack key).2.tracked.get? k = e.tracked.get? k) ∧
      ((e.untrack key).2.tracked.get? key = none ∨
        (e.untrack key).2.tracked.get? key = e.tracked.get? key ∧ ∀ c, (e.untrack key).1 ≠ .ok c) := by
  rcases untrack_cases h key with ⟨he, hok⟩ | ⟨existing, feed, t, -, -, -, -, hget, he⟩
  · refine ⟨fun k _ => by rw [he], ?_⟩
    cases hr : (e.untrack key).1 with
    | error err => exact .inr ⟨by rw [he], fun c h => by cases h⟩
    | ok c => exact .inl (by rw [he, hok c hr])
  · rw [he]
    exact ⟨fun k hk => by simp [hget, hk], .inl (by simp [hget])⟩

/-- Recording writes only its key; when it succeeds, the key holds the object with these rules. -/
theorem record_get? (h : TableOk e.tracked) (key : ObjectKey) (o : CandidateObject)
    {rules : List ObjectKey} (hnd : rules.Nodup) :
    (∀ k, k ≠ key → (e.record key o rules).2.tracked.get? k = e.tracked.get? k) ∧
      (((e.record key o rules).2.tracked.get? key = e.tracked.get? key ∧
          ∀ c, (e.record key o rules).1 ≠ .ok c) ∨
        (e.record key o rules).2.tracked.get? key = some ⟨key, o, rules⟩) := by
  rcases record_cases h.wf key o rules with ⟨he, hok⟩ | ⟨feed, t, -, -, -, hget, he⟩
  · refine ⟨fun k _ => by rw [he], ?_⟩
    cases hr : (e.record key o rules).1 with
    | error err => exact .inl ⟨by rw [he], fun c h => by cases h⟩
    | ok c =>
      obtain ⟨a, ha, hrules, hobj⟩ := hok c hr
      have hkey := (h.stored key a ha).1
      refine .inr ?_
      rw [he, ha, ← hkey, ← hobj, ← hrules]
  · rw [he]
    refine ⟨fun k hk => by simp [hget, hk], .inr ?_⟩
    simp [hget, Association.make, Association.dedup_of_nodup hnd]

/-- A table with one key dropped, or written with an association of that key whose object names
it, is as the engine keeps it. -/
theorem TableOk.write {t t' : Indexed Association} (h : TableOk t) (hwf : t'.WF)
    (hix : t'.indexOf = t.indexOf) (key : ObjectKey)
    (hget : ∀ k, k ≠ key → t'.get? k = t.get? k)
    (hkey : ∀ a, t'.get? key = some a → a.key = key ∧ a.object.key = .ok key) : TableOk t' := by
  refine ⟨hwf, hix.trans h.indexOf, fun k a ha => ?_⟩
  by_cases hk : k = key
  · subst hk
    exact hkey a ha
  · rw [hget k hk] at ha
    exact h.stored k a ha

theorem TableOk.untrack (h : TableOk e.tracked) (key : ObjectKey) :
    TableOk (e.untrack key).2.tracked := by
  rcases untrack_cases h.wf key with ⟨he, -⟩ | ⟨existing, feed, t, -, -, hwf, hix, hget, he⟩
  · rw [he]
    exact h
  · rw [he]
    exact h.write hwf hix key (fun k hk => by simp [hget, hk]) (fun a ha => by simp [hget] at ha)

theorem TableOk.record (h : TableOk e.tracked) {key : ObjectKey} {o : CandidateObject}
    (hk : o.key = .ok key) (rules : List ObjectKey) : TableOk (e.record key o rules).2.tracked := by
  rcases record_cases h.wf key o rules with ⟨he, -⟩ | ⟨feed, t, -, hwf, hix, hget, he⟩
  · rw [he]
    exact h
  · rw [he]
    refine h.write hwf hix key (fun k hk => by simp [hget, hk]) (fun a ha => ?_)
    simp only [hget, if_true, Option.some.injEq] at ha
    subst ha
    exact ⟨rfl, hk⟩

/-! ## Applying an object -/

/-- Applying an object: one without a key is an error that changes nothing; otherwise the match,
which changes only the cache, is followed by untracking the key when the match fails (if the key
is tracked) or finds nothing, and by recording the keys of the rules it found otherwise. -/
theorem apply_cases (e : Engine) (o : CandidateObject) (skip : Bool) :
    (∃ err, o.key = .error err ∧ e.apply o skip = (.error (.key err), e)) ∨
    ∃ key, o.key = .ok key ∧
      (((∀ c, (e.apply o skip).1 ≠ .ok c) ∧ (∃ err, (e.registry.findMatches o skip).1 = .error err) ∧
          ((e.apply o skip).2 = (e.findMatches o skip).2 ∨
            (e.apply o skip).2 = ((e.findMatches o skip).2.untrack key).2)) ∨
        ((e.registry.findMatches o skip).1 = .ok [] ∧
          e.apply o skip = (e.findMatches o skip).2.untrack key) ∨
        ∃ rules, (e.registry.findMatches o skip).1 = .ok rules ∧ rules ≠ [] ∧
          e.apply o skip = (e.findMatches o skip).2.record key o (rules.map (·.key))) := by
  unfold apply
  split
  · rename_i err hk
    exact .inl ⟨err, hk, rfl⟩
  · rename_i key hk
    refine .inr ⟨key, hk, ?_⟩
    simp only [findMatches]
    split
    · rename_i err hf
      refine .inl ⟨?_, ⟨err, hf⟩, ?_⟩ <;> by_cases hc : e.tracked.contains key = true <;>
        simp only [hc, ↓reduceIte]
      · intro c
        split <;> simp
      · intro c
        simp
      · split <;> simp_all
      · simp
    · rename_i hf
      exact .inr (.inl ⟨hf, rfl⟩)
    · rename_i rules hne hf
      exact .inr (.inr ⟨rules, hf, hne, rfl⟩)

@[simp] theorem findMatches_tracked (e : Engine) (o : CandidateObject) (skip : Bool) :
    (e.findMatches o skip).2.tracked = e.tracked := by
  rw [findMatches_eq]

@[simp] theorem findMatches_registry (e : Engine) (o : CandidateObject) (skip : Bool) :
    (e.findMatches o skip).2.registry =
      { e.registry with cache := (e.registry.findMatches o skip).2.cache } := by
  rw [findMatches_eq]

theorem apply_registry (e : Engine) (o : CandidateObject) (skip : Bool) :
    (e.apply o skip).2.registry = { e.registry with cache := (e.apply o skip).2.registry.cache } := by
  rcases apply_cases e o skip with ⟨_, -, he⟩ | ⟨key, -, ⟨-, -, he | he⟩ | ⟨-, he⟩ | ⟨rules, -, -, he⟩⟩ <;>
    simp [he, untrack_registry, record_registry]

/-- Applying an object with a key leaves the registry as its match leaves it. -/
theorem apply_registry_of_key (e : Engine) {o : CandidateObject} {key : ObjectKey}
    (hk : o.key = .ok key) (skip : Bool) :
    (e.apply o skip).2.registry = (e.registry.findMatches o skip).2 := by
  rw [Registry.findMatches_eq]
  rcases apply_cases e o skip with ⟨_, hk', -⟩ | ⟨_, -, ⟨-, -, he | he⟩ | ⟨-, he⟩ | ⟨rules, -, -, he⟩⟩
  · rw [hk] at hk'
    cases hk'
  all_goals simp [he, untrack_registry, record_registry]

theorem TableOk.apply (h : TableOk e.tracked) (o : CandidateObject) (skip : Bool) :
    TableOk (e.apply o skip).2.tracked := by
  have h₁ : TableOk (e.findMatches o skip).2.tracked := by simpa using h
  rcases apply_cases e o skip with ⟨_, -, he⟩ | ⟨key, hk, ⟨-, -, he | he⟩ | ⟨-, he⟩ | ⟨rules, -, -, he⟩⟩
  · rw [he]
    exact h
  · rw [he]
    exact h₁
  · rw [he]
    exact h₁.untrack key
  · rw [he]
    exact h₁.untrack key
  · rw [he]
    exact h₁.record hk _

theorem apply_get?_of_ne (h : e.tracked.WF) {o : CandidateObject} {key : ObjectKey}
    (hk : o.key = .ok key) (skip : Bool) {k : ObjectKey} (hne : k ≠ key) :
    (e.apply o skip).2.tracked.get? k = e.tracked.get? k := by
  have h₁ : (e.findMatches o skip).2.tracked.WF := by simpa using h
  rcases apply_cases e o skip with ⟨_, -, he⟩ | ⟨key', hk', hcase⟩
  · rw [he]
  · obtain rfl : key' = key := by simpa [hk] using hk'.symm
    rcases hcase with ⟨-, -, he | he⟩ | ⟨-, he⟩ | ⟨rules, -, -, he⟩ <;> rw [he]
    · simp
    · simpa using (untrack_get? h₁ key').1 k hne
    · simpa using (untrack_get? h₁ key').1 k hne
    · rcases record_cases h₁ key' o (rules.map (·.key)) with ⟨he', -⟩ | ⟨feed, t, -, -, -, hget, he'⟩
      · simp [he']
      · simp [he', hget, hne]

/-- What an apply leaves at its object's key: what was there (and the apply failed), nothing, or
the object with the keys of the rules its match found. -/
theorem apply_get?_self (h : TableOk e.tracked) (hnd : (e.registry.rules.map (·.key)).Nodup)
    {o : CandidateObject} {key : ObjectKey} (hk : o.key = .ok key) (skip : Bool) :
    ((e.apply o skip).2.tracked.get? key = e.tracked.get? key ∧ ∀ c, (e.apply o skip).1 ≠ .ok c) ∨
      (e.apply o skip).2.tracked.get? key = none ∨
      ∃ rules, (e.registry.findMatches o skip).1 = .ok rules ∧
        (e.apply o skip).2.tracked.get? key = some ⟨key, o, rules.map (·.key)⟩ := by
  have h₁ : TableOk (e.findMatches o skip).2.tracked := by simpa using h
  rcases apply_cases e o skip with ⟨err, hk', -⟩ | ⟨key', hk', hcase⟩
  · rw [hk] at hk'
    cases hk'
  obtain rfl : key' = key := by simpa [hk] using hk'.symm
  rcases hcase with ⟨hfail, -, he | he⟩ | ⟨-, he⟩ | ⟨rules, hf, -, he⟩
  · exact .inl ⟨by simp [he], hfail⟩
  · rcases (untrack_get? h₁.wf key').2 with hnone | ⟨hsame, -⟩
    · exact .inr (.inl (by rw [he, hnone]))
    · exact .inl ⟨by simpa [he] using hsame, hfail⟩
  · rw [he]
    rcases (untrack_get? h₁.wf key').2 with hnone | ⟨hsame, hfail⟩
    · exact .inr (.inl hnone)
    · exact .inl ⟨by simpa using hsame, hfail⟩
  · -- the rules found are registered, so their keys have no repeats
    have hnd' : (rules.map (·.key)).Nodup :=
      ((Registry.findMatches_sublist hf).map _).nodup hnd
    rw [he]
    rcases (record_get? h₁ key' o hnd').2 with ⟨hsame, hfail⟩ | hnew
    · exact .inl ⟨by simpa using hsame, hfail⟩
    · exact .inr (.inr ⟨rules, hf, hnew⟩)

/-! ## Properties of what a key holds -/

section Holdings

variable {Q : Option Association → Prop}

/-- Untracking keeps a property of what each key holds that is true of nothing. -/
theorem untrack_keeps (h : e.tracked.WF) (key : ObjectKey) (hnone : Q none) {k : ObjectKey}
    (hQ : Q (e.tracked.get? k)) : Q ((e.untrack key).2.tracked.get? k) := by
  by_cases hk : k = key
  · subst hk
    rcases (untrack_get? h k).2 with hn | ⟨hsame, -⟩
    · rwa [hn]
    · rwa [hsame]
  · rwa [(untrack_get? h key).1 k hk]

/-- An apply keeps a property of what each key holds that is true of nothing and of every
association the apply can write. -/
theorem apply_keeps (h : TableOk e.tracked) (hnd : (e.registry.rules.map (·.key)).Nodup)
    (o : CandidateObject) (skip : Bool) (hnone : Q none)
    (hnew : ∀ key rules, o.key = .ok key → (e.registry.findMatches o skip).1 = .ok rules →
      Q (some ⟨key, o, rules.map (·.key)⟩))
    {k : ObjectKey} (hQ : Q (e.tracked.get? k)) : Q ((e.apply o skip).2.tracked.get? k) := by
  cases hk : o.key with
  | error err =>
    rcases apply_cases e o skip with ⟨_, -, he⟩ | ⟨key, hk', -⟩
    · rwa [he]
    · rw [hk] at hk'
      cases hk'
  | ok key =>
    by_cases hne : k = key
    · subst hne
      rcases apply_get?_self h hnd hk skip with ⟨hsame, -⟩ | hn | ⟨rules, hf, hw⟩
      · rwa [hsame]
      · rwa [hn]
      · rw [hw]
        exact hnew k rules hk hf
    · rwa [apply_get?_of_ne h.wf hk skip hne]

/-- After an apply that succeeds, its object's key holds nothing or an association the apply
can write. -/
theorem apply_ok_at (h : TableOk e.tracked) (hnd : (e.registry.rules.map (·.key)).Nodup)
    {o : CandidateObject} {key : ObjectKey} (hk : o.key = .ok key) (skip : Bool) (hnone : Q none)
    (hnew : ∀ rules, (e.registry.findMatches o skip).1 = .ok rules →
      Q (some ⟨key, o, rules.map (·.key)⟩))
    {c : IndexChange} (hc : (e.apply o skip).1 = .ok c) : Q ((e.apply o skip).2.tracked.get? key) := by
  rcases apply_get?_self h hnd hk skip with ⟨-, hfail⟩ | hn | ⟨rules, hf, hw⟩
  · exact absurd hc (hfail c)
  · rwa [hn]
  · rw [hw]
    exact hnew rules hf

/-- A rematch keeps a property of what each key holds that is true of nothing and of every
association the rematch can write. -/
theorem rematch_keeps (h : TableOk e.tracked) (hnd : (e.registry.rules.map (·.key)).Nodup)
    (key : ObjectKey) (skip : Bool) (hnone : Q none)
    (hnew : ∀ a rules, e.tracked.get? key = some a →
      (e.registry.findMatches a.object skip).1 = .ok rules →
      Q (some ⟨key, a.object, rules.map (·.key)⟩))
    {k : ObjectKey} (hQ : Q (e.tracked.get? k)) : Q ((e.rematch key skip).2.tracked.get? k) := by
  unfold rematch
  split
  · rename_i a ha
    refine apply_keeps h hnd a.object skip hnone (fun key' rules hk hf => ?_) hQ
    -- the stored object names the key it is stored under
    obtain rfl : key' = key := by simpa [(h.stored key a ha).2] using hk.symm
    exact hnew a rules ha hf
  · exact hQ

/-- After a rematch that succeeds, its key holds nothing or an association the rematch can
write. -/
theorem rematch_ok_at (h : TableOk e.tracked) (hnd : (e.registry.rules.map (·.key)).Nodup)
    (key : ObjectKey) (skip : Bool) (hnone : Q none)
    (hnew : ∀ a rules, e.tracked.get? key = some a →
      (e.registry.findMatches a.object skip).1 = .ok rules →
      Q (some ⟨key, a.object, rules.map (·.key)⟩))
    {c : IndexChange} (hc : (e.rematch key skip).1 = .ok c) :
    Q ((e.rematch key skip).2.tracked.get? key) := by
  unfold rematch at hc ⊢
  split at hc
  · rename_i a ha
    exact apply_ok_at h hnd (h.stored key a ha).2 skip hnone (hnew a · ha) hc
  · rename_i ha
    rwa [ha]

end Holdings

/-! ## Writes made of many -/

section Composite

variable (P : Engine → Prop)

/-- Re-applying objects keeps what each of their applies keeps. -/
theorem reapply_induction {skip : Bool} :
    ∀ {os : List CandidateObject}, (∀ e, ∀ o ∈ os, P e → P (e.apply o skip).2) →
      ∀ {e : Engine} (n : Nat) (err : Option EngineError), P e → P (reapply skip os e n err).2.2
  | [], _, _, _, _, h => h
  | o :: rest, hP, e, n, err, h => by
    have hrest : ∀ e, ∀ o ∈ rest, P e → P (e.apply o skip).2 :=
      fun e o ho => hP e o (List.mem_cons_of_mem _ ho)
    have h₁ := hP e o List.mem_cons_self h
    unfold reapply
    split <;> rename_i he <;> rw [he] at h₁ <;> exact reapply_induction hrest _ _ h₁

/-- Once an error is kept, re-applying keeps it. -/
theorem reapply_error (skip : Bool) (err : EngineError) :
    ∀ (os : List CandidateObject) (e : Engine) (n : Nat), (reapply skip os e n (some err)).2.1 = some err
  | [], _, _ => rfl
  | o :: rest, e, n => by
    unfold reapply
    split <;> exact reapply_error skip err rest _ _

/-- A re-application that meets no error leaves each key it applied as a successful apply leaves
it, for a property of keys that every apply keeps. -/
theorem reapply_ok (G : Engine → ObjectKey → Prop) {skip : Bool} :
    ∀ {os : List CandidateObject}, (∀ e, ∀ o ∈ os, P e → P (e.apply o skip).2) →
      (∀ e, ∀ o ∈ os, ∀ k, P e → G e k → G (e.apply o skip).2 k) →
      (∀ e, ∀ o ∈ os, ∀ key c, P e → o.key = .ok key → (e.apply o skip).1 = .ok c →
        G (e.apply o skip).2 key) →
      ∀ {e : Engine} (n : Nat), P e → (reapply skip os e n none).2.1 = none →
        ∀ o ∈ os, ∀ key, o.key = .ok key → G (reapply skip os e n none).2.2 key
  | [], _, _, _, _, _, _, _, _, ho, _, _ => by simp at ho
  | o :: rest, hP, hG, hok, e, n, h, hnone, o', ho', key, hk => by
    have hPr : ∀ e, ∀ o ∈ rest, P e → P (e.apply o skip).2 :=
      fun e o ho => hP e o (List.mem_cons_of_mem _ ho)
    have hGr : ∀ e, ∀ o ∈ rest, ∀ k, P e → G e k → G (e.apply o skip).2 k :=
      fun e o ho => hG e o (List.mem_cons_of_mem _ ho)
    have hokr : ∀ e, ∀ o ∈ rest, ∀ key c, P e → o.key = .ok key → (e.apply o skip).1 = .ok c →
        G (e.apply o skip).2 key :=
      fun e o ho => hok e o (List.mem_cons_of_mem _ ho)
    have h₁ := hP e o List.mem_cons_self h
    unfold reapply at hnone ⊢
    split at hnone
    · rename_i c e' he
      rw [he] at h₁
      rcases List.mem_cons.1 ho' with rfl | ho'
      · -- the object's own key, written now and kept by the applies after it
        have hG₁ : G e' key := by simpa [he] using hok e o' List.mem_cons_self key c h hk (by rw [he])
        exact (reapply_induction (fun e => P e ∧ G e key)
          (fun e o ho hPG => ⟨hPr e o ho hPG.1, hGr e o ho key hPG.1 hPG.2⟩) _ _ ⟨h₁, hG₁⟩).2
      · exact reapply_ok G hPr hGr hokr _ h₁ hnone o' ho' key hk
    · simp [reapply_error] at hnone

variable {P}

/-- Re-applying the tracked object of a key keeps what its apply keeps. -/
theorem rematch_induction {e : Engine} {k : ObjectKey} {skip : Bool}
    (hP : ∀ a, e.tracked.get? k = some a → P (e.apply a.object skip).2) (h : P e) :
    P (e.rematch k skip).2 := by
  unfold rematch
  split
  · rename_i a ha
    exact hP a ha
  · exact h

/-- Re-applying every tracked object is re-applying the objects tracked at the start. -/
theorem rematchAll_eq (e : Engine) (skip : Bool) :
    (e.rematchAll skip).2 = (reapply skip (e.tracked.list.map (·.object)) e 0 none).2.2 ∧
      ∀ n, (e.rematchAll skip).1 = .ok n →
        (reapply skip (e.tracked.list.map (·.object)) e 0 none).2.1 = none := by
  unfold rematchAll
  split <;> rename_i he <;> rw [he] <;> simp

theorem rematchAll_induction {e : Engine} {skip : Bool}
    (hP : ∀ e', ∀ o ∈ e.tracked.list.map (·.object), P e' → P (e'.apply o skip).2) (h : P e) :
    P (e.rematchAll skip).2 := by
  rw [(rematchAll_eq e skip).1]
  exact reapply_induction P hP 0 none h

/-- A re-application of every tracked object that succeeds leaves the key of each as a
successful apply leaves it, for a property of keys that every apply keeps. -/
theorem rematchAll_ok (G : Engine → ObjectKey → Prop) {e : Engine} {skip : Bool}
    (hP : ∀ e', ∀ o ∈ e.tracked.list.map (·.object), P e' → P (e'.apply o skip).2)
    (hG : ∀ e', ∀ o ∈ e.tracked.list.map (·.object), ∀ k, P e' → G e' k → G (e'.apply o skip).2 k)
    (hok : ∀ e', ∀ o ∈ e.tracked.list.map (·.object), ∀ key c, P e' → o.key = .ok key →
      (e'.apply o skip).1 = .ok c → G (e'.apply o skip).2 key)
    (h : P e) {n : Nat} (hr : (e.rematchAll skip).1 = .ok n) :
    ∀ o ∈ e.tracked.list.map (·.object), ∀ key, o.key = .ok key → G (e.rematchAll skip).2 key := by
  rw [(rematchAll_eq e skip).1]
  exact reapply_ok P G hP hG hok 0 h ((rematchAll_eq e skip).2 n hr)

/-- Untracking unlisted keys keeps what each untrack keeps. -/
theorem dropUnlisted_induction (listed : List ObjectKey) (hP : ∀ e k, P e → P (e.untrack k).2) :
    ∀ (keys : List ObjectKey) (e : Engine) (err : Option EngineError), P e →
      P (dropUnlisted listed keys e err).2
  | [], _, _, h => h
  | k :: rest, e, err, h => by
    unfold dropUnlisted
    split
    · exact dropUnlisted_induction listed hP rest e err h
    · have h₁ := hP e k h
      split <;> rename_i he <;> rw [he] at h₁ <;> exact dropUnlisted_induction listed hP rest _ _ h₁

/-- The objects a replacement applies are objects of its listing. -/
theorem mem_of_mem_keyed {listing : List CandidateObject} {o : CandidateObject}
    (h : o ∈ (listing.filterMap fun o => (o.key.toOption).map (·, o)).map (·.2)) : o ∈ listing := by
  obtain ⟨⟨k, o'⟩, hm, rfl⟩ := List.mem_map.1 h
  obtain ⟨a, ha, hfa⟩ := List.mem_filterMap.1 hm
  obtain ⟨k', -, hk'⟩ := Option.map_eq_some_iff.1 hfa
  simp only [Prod.mk.injEq] at hk'
  exact hk'.2 ▸ ha

/-- A replacement keeps what each untrack, each apply of a listed object and the marking of the
association queue keep. -/
theorem replace_induction {e : Engine} {listing : List CandidateObject}
    (hU : ∀ e k, P e → P (e.untrack k).2)
    (hP : ∀ e, ∀ o ∈ listing, P e → P (e.apply o true).2)
    (hM : ∀ e, P e → P { e with feed := e.feed.markPopulated }) (h : P e) :
    P (e.replace listing).2 := by
  unfold replace
  dsimp only
  split <;> exact hM _ (reapply_induction P (fun e o ho => hP e o (mem_of_mem_keyed ho)) _ _
    (dropUnlisted_induction _ hU _ _ _ h))

end Composite

end Engine

end MeterMatch
