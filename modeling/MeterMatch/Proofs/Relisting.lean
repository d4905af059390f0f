import MeterMatch.Proofs.ListingIndex
import MeterMatch.Proofs.AssociationFeed
import MeterMatch.Proofs.Redelivery

/-! # Replacing the tracked objects by a listing

`Engine.replace` makes the tracked objects those of a listing: it drops the tracked keys the
listing lacks, then applies each listed object that has a key, in order and skipping the cache.
Whatever the table held, and however many objects the listing gives one key, the table it leaves
is given by the listing and the rules alone, as long as its writes succeed (the association queue
is open, as in every run): a key holds what a fresh match of its last listed object leaves.

* `Registry.freshEntry r k o`: what a match of `o` that skips the cache leaves at its key `k`.
* `keyFault`, `Registry.matchFault`: the first object of a listing without a key, and the first
  whose match fails.
* `Engine.Writable`: the table as the engine keeps it, the association queue open and the rule
  keys distinct. Every apply and untrack keeps it.
* `Engine.Writable.apply_get?`, `Engine.Writable.apply_error_iff`: a fresh apply leaves its key
  holding the fresh entry, and fails exactly when the match fails, with its error.
* `Engine.Writable.reapply`: applies in turn leave each key holding the fresh entry of its last
  object, and keep the first failed match's error.
* `Engine.Writable.replace`: the table a replace leaves, and its result.
* `Engine.Writable.replace_of_settled`: on a table that already holds the fresh entry of every
  listed object and no unlisted key, a replace changes neither the table nor the feed.
* `Engine.replace_rebuilds_from_listing`: in every run, what a replace leaves and answers; a
  repeated replace keeps every association, and changes nothing when no key is listed with two
  different objects. `Engine.replace_again_reorders` is a listing with such a key, where the
  repeat drops the key and adds it back last.
-/

namespace MeterMatch

/-! ## What a replace should leave -/

namespace Registry

/-- What a match of `o` that skips the cache leaves at its key `k`: its association with the keys
of the rules that match it, or nothing when no rule does or the match fails. -/
def freshEntry (r : Registry) (k : ObjectKey) (o : CandidateObject) : Option Association :=
  match (r.findMatches o true).1 with
  | .ok (ρ :: rest) => some ⟨k, o, (ρ :: rest).map (·.key)⟩
  | _ => none

/-- The error of a match of `o` that skips the cache, if it fails. -/
def matchError (r : Registry) (o : CandidateObject) : Option EngineError :=
  match (r.findMatches o true).1 with
  | .error err => some err
  | .ok _ => none

/-- The error of the first object of a listing whose match, skipping the cache, fails. -/
def matchFault (r : Registry) (listing : List CandidateObject) : Option EngineError :=
  listing.findSome? r.matchError

variable {r r' : Registry} {o : CandidateObject}

/-- A match that skips the cache reads only the rules and the switch outcome. -/
theorem findMatches_skip_congr (hr : r'.rules = r.rules) (hs : r'.switchOutcome = r.switchOutcome) :
    (r'.findMatches o true).1 = (r.findMatches o true).1 := by
  cases hk : o.key with
  | error err => simp [findMatches, hk]
  | ok okey => rw [findMatches_skip hk, findMatches_skip hk, hr, freshMatches_congr hs]

theorem freshEntry_congr (hr : r'.rules = r.rules) (hs : r'.switchOutcome = r.switchOutcome)
    (k : ObjectKey) (o : CandidateObject) : r'.freshEntry k o = r.freshEntry k o := by
  unfold freshEntry
  rw [findMatches_skip_congr hr hs]

theorem matchFault_congr (hr : r'.rules = r.rules) (hs : r'.switchOutcome = r.switchOutcome)
    (listing : List CandidateObject) : r'.matchFault listing = r.matchFault listing := by
  have herr : r'.matchError = r.matchError := by
    funext o
    unfold matchError
    rw [findMatches_skip_congr hr hs]
  unfold matchFault
  rw [herr]

theorem matchFault_cons (r : Registry) (o : CandidateObject) (rest : List CandidateObject) :
    r.matchFault (o :: rest) = (r.matchError o).or (r.matchFault rest) := by
  unfold matchFault
  rw [List.findSome?_cons]
  cases r.matchError o <;> rfl

theorem freshEntry_eq_some {k : ObjectKey} {a : Association} :
    r.freshEntry k o = some a ↔
      ∃ rules, (r.findMatches o true).1 = .ok rules ∧ rules ≠ [] ∧ a = ⟨k, o, rules.map (·.key)⟩ := by
  unfold freshEntry
  constructor
  · intro h
    split at h
    · rename_i ρ rest hf
      exact ⟨ρ :: rest, hf, List.cons_ne_nil _ _, (Option.some.inj h).symm⟩
    · cases h
  · rintro ⟨rules, hf, hne, rfl⟩
    obtain ⟨ρ, rest, rfl⟩ := List.exists_cons_of_ne_nil hne
    rw [hf]

theorem freshEntry_of_error {k : ObjectKey} {err : EngineError}
    (hf : (r.findMatches o true).1 = .error err) : r.freshEntry k o = none := by
  unfold freshEntry
  rw [hf]

theorem freshEntry_of_nil {k : ObjectKey} (hf : (r.findMatches o true).1 = .ok []) :
    r.freshEntry k o = none := by
  unfold freshEntry
  rw [hf]

end Registry

/-- The error of the first object of a listing without a key. -/
def keyFault (listing : List CandidateObject) : Option EngineError :=
  listing.findSome? fun o => match o.key with
    | .error err => some (.key err)
    | .ok _ => none

theorem keyFault_eq_none {listing : List CandidateObject} :
    keyFault listing = none ↔ ∀ o ∈ listing, ∃ k, o.key = .ok k := by
  unfold keyFault
  rw [List.findSome?_eq_none_iff]
  refine forall₂_congr fun o _ => ?_
  cases o.key <;> simp

theorem matchFault_eq_none {r : Registry} {listing : List CandidateObject} :
    r.matchFault listing = none ↔ ∀ o ∈ listing, ∃ rules, (r.findMatches o true).1 = .ok rules := by
  unfold Registry.matchFault
  rw [List.findSome?_eq_none_iff]
  refine forall₂_congr fun o _ => ?_
  unfold Registry.matchError
  cases (r.findMatches o true).1 <;> simp

theorem lastListed_cons (o : CandidateObject) (objects : List CandidateObject) (k : ObjectKey) :
    lastListed (o :: objects) k =
      (lastListed objects k).or (if o.key.toOption = some k then some o else none) := by
  unfold lastListed
  rw [List.filter_cons]
  by_cases hk : o.key.toOption = some k
  · simp only [hk, beq_self_eq_true, if_true, List.getLast?_cons]
    cases (objects.filter fun o => o.key.toOption == some k).getLast? <;> rfl
  · simp [hk]

theorem lastListed_eq_none {objects : List CandidateObject} {k : ObjectKey} :
    lastListed objects k = none ↔ ∀ o ∈ objects, o.key ≠ .ok k := by
  unfold lastListed
  rw [List.getLast?_eq_none_iff, List.filter_eq_nil_iff]
  refine forall₂_congr fun o _ => ?_
  cases o.key <;> simp [Except.toOption]

theorem lastListed_mem {objects : List CandidateObject} {k : ObjectKey} {o : CandidateObject}
    (h : lastListed objects k = some o) : o ∈ objects ∧ o.key = .ok k := by
  unfold lastListed at h
  have hmem := List.mem_of_getLast? h
  rw [List.mem_filter] at hmem
  refine ⟨hmem.1, ?_⟩
  cases hk : o.key <;> simp_all [Except.toOption]

namespace Engine

variable {e : Engine}

/-! ## Writes that succeed -/

/-- A fresh apply of an object whose fresh entry its key already holds changes neither the table
nor the feed. -/
theorem apply_of_fresh {o : CandidateObject} {key : ObjectKey} (hk : o.key = .ok key)
    (hheld : e.tracked.get? key = e.registry.freshEntry key o) :
    (e.apply o true).2.tracked = e.tracked ∧ (e.apply o true).2.feed = e.feed := by
  rcases apply_cases e o true with ⟨_, hk', -⟩ | ⟨key', hk', hcase⟩
  · rw [hk] at hk'
    cases hk'
  obtain rfl : key' = key := by simpa [hk] using hk'.symm
  rcases hcase with ⟨-, ⟨err, hf⟩, he | he⟩ | ⟨hf, -⟩ | ⟨rules, hf, hne, -⟩
  · rw [he]
    simp
  · rw [Registry.freshEntry_of_error hf] at hheld
    rw [he, untrack_of_none (by simpa using hheld)]
    simp
  · rw [Registry.freshEntry_of_nil hf] at hheld
    rw [apply_of_untracked hk hf hheld]
    simp
  · have hstored : e.tracked.get? key' = some ⟨key', o, rules.map (·.key)⟩ := by
      rw [hheld, Registry.freshEntry_eq_some]
      exact ⟨rules, hf, hne, rfl⟩
    rw [apply_of_stored hk hf hne hstored]
    simp

/-- An engine whose writes succeed: the table as the engine keeps it, the association queue open,
and the rule keys distinct. -/
structure Writable (e : Engine) : Prop where
  table : TableOk e.tracked
  feedOpen : e.feed.closed = false
  keys : (e.registry.rules.map (·.key)).Nodup

namespace Writable

theorem of_sound (hs : Sound e) (hopen : e.feed.closed = false) : Writable e :=
  ⟨hs.table, hopen, hs.registry.keys⟩

theorem untrack (h : Writable e) (key : ObjectKey) : Writable (e.untrack key).2 :=
  ⟨h.table.untrack key, (untrack_open h.table.wf h.feedOpen key).2.2, by
    rw [untrack_registry]; exact h.keys⟩

theorem apply (h : Writable e) (o : CandidateObject) (skip : Bool) : Writable (e.apply o skip).2 :=
  ⟨h.table.apply o skip, (apply_open h.table.wf h.feedOpen o skip).1, by
    rw [apply_registry]; exact h.keys⟩

theorem findMatches (h : Writable e) (o : CandidateObject) (skip : Bool) :
    Writable (e.findMatches o skip).2 :=
  ⟨by simpa using h.table, by simpa using h.feedOpen, by simpa using h.keys⟩

section Apply
variable (h : Writable e) {o : CandidateObject} {key : ObjectKey} (hk : o.key = .ok key)
include h hk

/-- An apply whose match fails answers the match's error: untracking the key first succeeds. -/
theorem apply_of_match_error {skip : Bool} {err : EngineError}
    (hf : (e.registry.findMatches o skip).1 = .error err) : (e.apply o skip).1 = .error err := by
  have h₁ := h.findMatches o skip
  obtain ⟨⟨c, hc⟩, -, -⟩ := untrack_open h₁.table.wf h₁.feedOpen key
  have hpair : (e.findMatches o skip).2.untrack key = (.ok c, ((e.findMatches o skip).2.untrack key).2) :=
    Prod.ext hc rfl
  rw [findMatches_eq] at hpair
  unfold Engine.apply
  rw [hk, findMatches_eq]
  dsimp only
  rw [hf]
  dsimp only
  split
  · rw [hpair]
  · rfl

/-- A fresh apply fails exactly when its match fails, with the match's error. -/
theorem apply_error_iff {skip : Bool} (err : EngineError) :
    (e.apply o skip).1 = .error err ↔ (e.registry.findMatches o skip).1 = .error err := by
  refine ⟨fun hres => ?_, h.apply_of_match_error hk⟩
  rcases apply_cases e o skip with ⟨_, hk', -⟩ | ⟨key', hk', hcase⟩
  · rw [hk] at hk'
    cases hk'
  have h₁ := h.findMatches o skip
  rcases hcase with ⟨-, ⟨err', hf⟩, -⟩ | ⟨-, he⟩ | ⟨rules, -, -, he⟩
  · rw [h.apply_of_match_error hk hf] at hres
    rw [hf, Except.error.inj hres]
  · obtain ⟨⟨c, hc⟩, -, -⟩ := untrack_open h₁.table.wf h₁.feedOpen key'
    rw [he, hc] at hres
    cases hres
  · obtain ⟨⟨c, hc⟩, -⟩ := record_open h₁.table.wf h₁.feedOpen key' o (rules.map (·.key))
    rw [he, hc] at hres
    cases hres

/-- A fresh apply leaves its key holding the fresh entry of its object. -/
theorem apply_get? : (e.apply o true).2.tracked.get? key = e.registry.freshEntry key o := by
  have h₁ := h.findMatches o true
  rcases apply_cases e o true with ⟨_, hk', -⟩ | ⟨key', hk', hcase⟩
  · rw [hk] at hk'
    cases hk'
  obtain rfl : key' = key := by simpa [hk] using hk'.symm
  rcases hcase with ⟨-, ⟨err, hf⟩, -⟩ | ⟨hf, he⟩ | ⟨rules, hf, hne, he⟩
  · -- a failed match leaves the key untracked
    rw [Registry.freshEntry_of_error hf]
    exact (apply_open h.table.wf h.feedOpen o true).2 key' err hk (h.apply_of_match_error hk hf)
  · rw [Registry.freshEntry_of_nil hf, he]
    exact (untrack_open h₁.table.wf h₁.feedOpen key').2.1
  · have hnd : (rules.map (·.key)).Nodup := ((Registry.findMatches_sublist hf).map _).nodup h.keys
    obtain ⟨⟨c, hc⟩, -⟩ := record_open h₁.table.wf h₁.feedOpen key' o (rules.map (·.key))
    have hstored := (record_get? h₁.table key' o hnd).2
    rw [he]
    rcases hstored with ⟨-, hfail⟩ | hs
    · exact absurd hc (hfail c)
    · rw [hs, eq_comm, Registry.freshEntry_eq_some]
      exact ⟨rules, hf, hne, rfl⟩

end Apply

/-- One fresh apply in a run of them: the error it meets, if any, is its match's. -/
theorem reapply_step (h : Writable e) {o : CandidateObject} {key : ObjectKey} (hk : o.key = .ok key)
    (rest : List CandidateObject) (n : Nat) (err : Option EngineError) :
    ∃ n', Engine.reapply true (o :: rest) e n err =
      Engine.reapply true rest (e.apply o true).2 n' (err.or (e.registry.matchError o)) := by
  have hiff : ∀ err, (e.apply o true).1 = .error err ↔ (e.registry.findMatches o true).1 = .error err :=
    h.apply_error_iff hk
  simp only [Engine.reapply]
  generalize e.apply o true = A at hiff ⊢
  obtain ⟨res, e₁⟩ := A
  cases res with
  | ok c =>
    -- the match did not fail
    have hnone : e.registry.matchError o = none := by
      unfold Registry.matchError
      split
      · rename_i x hx
        cases (hiff x).2 hx
      · rfl
    exact ⟨_, by rw [hnone, Option.or_none]⟩
  | error x =>
    have hsome : e.registry.matchError o = some x := by
      unfold Registry.matchError
      rw [(hiff x).1 rfl]
    refine ⟨n, ?_⟩
    rw [hsome]
    cases err <;> rfl

/-- Fresh applies of objects with keys, in turn, leave each key holding the fresh entry of its
last object, or what it held when no object has it, and keep the first error met, which is the
first failed match's. -/
theorem reapply (os : List CandidateObject) :
    ∀ {e : Engine} (n : Nat) (err : Option EngineError), Writable e → (∀ o ∈ os, ∃ k, o.key = .ok k) →
      Writable (Engine.reapply true os e n err).2.2 ∧
        (Engine.reapply true os e n err).2.2.registry.rules = e.registry.rules ∧
        (Engine.reapply true os e n err).2.2.registry.switchOutcome = e.registry.switchOutcome ∧
        (∀ k, (Engine.reapply true os e n err).2.2.tracked.get? k =
          (lastListed os k).elim (e.tracked.get? k) (e.registry.freshEntry k)) ∧
        (Engine.reapply true os e n err).2.1 = err.or (e.registry.matchFault os) := by
  induction os with
  | nil =>
    intro e n err h _
    exact ⟨h, rfl, rfl, fun k => rfl, by simp [Engine.reapply, Registry.matchFault]⟩
  | cons o rest ih =>
    intro e n err h hkeyed
    obtain ⟨key, hk⟩ := hkeyed o List.mem_cons_self
    obtain ⟨n', hstep⟩ := h.reapply_step hk rest n err
    have hreg := apply_registry e o true
    have hrules : (e.apply o true).2.registry.rules = e.registry.rules := by rw [hreg]
    have hsw : (e.apply o true).2.registry.switchOutcome = e.registry.switchOutcome := by rw [hreg]
    obtain ⟨hw, hr, hs, hget, herr⟩ :=
      ih n' _ (h.apply o true) fun o' ho' => hkeyed o' (List.mem_cons_of_mem _ ho')
    rw [hstep]
    refine ⟨hw, hr.trans hrules, hs.trans hsw, fun k => ?_, ?_⟩
    · have hfresh : (e.apply o true).2.registry.freshEntry k = e.registry.freshEntry k :=
        funext (Registry.freshEntry_congr hrules hsw k)
      rw [hget, hfresh, lastListed_cons]
      cases lastListed rest k with
      | some o' => rfl
      | none =>
        -- no later object has the key: the apply of `o` decides it
        by_cases hkk : key = k
        · subst hkk
          simp [hk, Except.toOption, h.apply_get? hk]
        · rw [apply_get?_of_ne h.table.wf hk true (Ne.symm hkk)]
          simp [hk, Except.toOption, hkk]
    · rw [herr, Registry.matchFault_congr hrules hsw, Registry.matchFault_cons, Option.or_assoc]

end Writable

/-- Dropping the unlisted keys on an open queue drops exactly them, meets no error, and leaves
the rules alone. -/
theorem Writable.dropUnlisted (listed : List ObjectKey) :
    ∀ (keys : List ObjectKey) {e : Engine} (err : Option EngineError), Writable e →
      (Engine.dropUnlisted listed keys e err).1 = err ∧ Writable (Engine.dropUnlisted listed keys e err).2 ∧
        (Engine.dropUnlisted listed keys e err).2.registry = e.registry ∧
        ∀ k, (Engine.dropUnlisted listed keys e err).2.tracked.get? k =
          if k ∈ keys ∧ k ∉ listed then none else e.tracked.get? k
  | [], _, _, h => ⟨rfl, h, rfl, fun k => by simp [Engine.dropUnlisted]⟩
  | key :: rest, e, err, h => by
    unfold Engine.dropUnlisted
    split
    · -- a listed key stays
      rename_i hc
      have hmem : key ∈ listed := by simpa using hc
      obtain ⟨h₁, h₂, h₃, h₄⟩ := Writable.dropUnlisted listed rest err h
      refine ⟨h₁, h₂, h₃, fun k => ?_⟩
      rw [h₄]
      by_cases hkk : k = key
      · subst hkk
        simp [hmem]
      · simp [hkk]
    · -- an unlisted key is untracked, which succeeds on an open queue
      rename_i hc
      have hnot : key ∉ listed := by simpa using hc
      obtain ⟨⟨c, hc⟩, hnone, -⟩ := untrack_open h.table.wf h.feedOpen key
      have hpair : e.untrack key = (.ok c, (e.untrack key).2) := Prod.ext hc rfl
      rw [hpair]
      dsimp only
      obtain ⟨h₁, h₂, h₃, h₄⟩ := Writable.dropUnlisted listed rest err (h.untrack key)
      refine ⟨h₁, h₂, h₃.trans (untrack_registry e key), fun k => ?_⟩
      rw [h₄]
      by_cases hkk : k = key
      · subst hkk
        simp [hnone, hnot]
      · rw [(untrack_get? h.table.wf key).1 k hkk]
        simp [hkk]

/-- Dropping keys that are all listed changes nothing. -/
theorem dropUnlisted_of_listed {listed : List ObjectKey} :
    ∀ {keys : List ObjectKey}, (∀ k ∈ keys, k ∈ listed) →
      ∀ (e : Engine) (err : Option EngineError), Engine.dropUnlisted listed keys e err = (err, e)
  | [], _, _, _ => rfl
  | key :: rest, h, e, err => by
    have hc : listed.contains key = true := by simpa using h key List.mem_cons_self
    simp only [Engine.dropUnlisted, hc, if_true]
    exact dropUnlisted_of_listed (fun k hk => h k (List.mem_cons_of_mem _ hk)) e err

/-! ## The replace -/

section Listing
variable (listing : List CandidateObject)

theorem replace_eq (e : Engine) :
    e.replace listing =
      let keyed := listing.filterMap fun o => (o.key.toOption).map (·, o)
      let D := Engine.dropUnlisted (keyed.map (·.1)) e.tracked.keys e (keyFault listing)
      let R := Engine.reapply true (keyed.map (·.2)) D.2 0 D.1
      let e' := { R.2.2 with feed := R.2.2.feed.markPopulated }
      match R.2.1 with
      | some err => (.error err, e')
      | none => (.ok e'.tracked.size, e') := rfl

theorem replace_snd (e : Engine) :
    (e.replace listing).2 =
      let keyed := listing.filterMap fun o => (o.key.toOption).map (·, o)
      let D := Engine.dropUnlisted (keyed.map (·.1)) e.tracked.keys e (keyFault listing)
      let R := Engine.reapply true (keyed.map (·.2)) D.2 0 D.1
      { R.2.2 with feed := R.2.2.feed.markPopulated } := by
  rw [replace_eq]
  dsimp only
  split <;> rfl

theorem replace_fst (e : Engine) :
    (e.replace listing).1 =
      let keyed := listing.filterMap fun o => (o.key.toOption).map (·, o)
      let D := Engine.dropUnlisted (keyed.map (·.1)) e.tracked.keys e (keyFault listing)
      let R := Engine.reapply true (keyed.map (·.2)) D.2 0 D.1
      match R.2.1 with
      | some err => .error err
      | none => .ok R.2.2.tracked.size := by
  rw [replace_eq]
  dsimp only
  split <;> rfl

/-- The listed objects that have a key are the objects of the keyed pairs. -/
theorem keyed_objects :
    (listing.filterMap fun o => (o.key.toOption).map (·, o)).map (·.2) =
      listing.filter fun o => o.key.toOption.isSome := by
  induction listing with
  | nil => rfl
  | cons o rest ih =>
    rw [List.filterMap_cons, List.filter_cons]
    cases o.key.toOption with
    | none => simpa using ih
    | some k => simpa using ih

theorem mem_keyed {x : ObjectKey × CandidateObject} :
    x ∈ (listing.filterMap fun o => (o.key.toOption).map (·, o)) ↔ x.2 ∈ listing ∧ x.2.key = .ok x.1 := by
  rw [List.mem_filterMap]
  constructor
  · rintro ⟨o, ho, hx⟩
    cases hk : o.key with
    | error err => simp [hk, Except.toOption] at hx
    | ok k =>
      simp only [hk, Except.toOption, Option.map_some, Option.some.injEq] at hx
      subst hx
      exact ⟨ho, hk⟩
  · rintro ⟨ho, hk⟩
    exact ⟨x.2, ho, by simp [hk, Except.toOption]⟩

theorem mem_keyed_keys {k : ObjectKey} :
    k ∈ (listing.filterMap fun o => (o.key.toOption).map (·, o)).map (·.1) ↔
      ∃ o ∈ listing, o.key = .ok k := by
  rw [List.mem_map]
  constructor
  · rintro ⟨x, hx, rfl⟩
    exact ⟨x.2, (mem_keyed listing).1 hx⟩
  · rintro ⟨o, ho, hk⟩
    exact ⟨(k, o), (mem_keyed listing).2 ⟨ho, hk⟩, rfl⟩

/-- Objects without a key never decide a key. -/
theorem lastListed_keyed (k : ObjectKey) :
    lastListed ((listing.filterMap fun o => (o.key.toOption).map (·, o)).map (·.2)) k =
      lastListed listing k := by
  rw [keyed_objects]
  unfold lastListed
  rw [List.filter_filter]
  congr 2
  funext o
  cases o.key.toOption <;> simp

/-- The first error of a replace: the first object without a key, else the first failed
match. -/
theorem keyFault_or_keyed (r : Registry) :
    (keyFault listing).or
        (r.matchFault ((listing.filterMap fun o => (o.key.toOption).map (·, o)).map (·.2))) =
      (keyFault listing).or (r.matchFault listing) := by
  cases hkf : keyFault listing with
  | some err => rfl
  | none =>
    rw [keyed_objects, List.filter_eq_self.2]
    intro o ho
    obtain ⟨k, hk⟩ := keyFault_eq_none.1 hkf o ho
    simp [hk, Except.toOption]

end Listing

theorem ChangeQueue.markPopulated_closed {α : Type} (q : ChangeQueue α) :
    q.markPopulated.closed = q.closed := by
  unfold ChangeQueue.markPopulated
  split <;> rfl

theorem ChangeQueue.markPopulated_markPopulated {α : Type} (q : ChangeQueue α) :
    q.markPopulated.markPopulated = q.markPopulated := by
  unfold ChangeQueue.markPopulated
  split <;> simp_all

namespace Writable

variable {e : Engine}

/-- A replace on an open queue leaves each key holding the fresh entry of its last listed object,
nothing for the keys it does not list, and the rules as they were; it answers the error of the
first object without a key, else of the first failed match, else the number tracked. -/
theorem replace (h : Writable e) (listing : List CandidateObject) :
    Writable (e.replace listing).2 ∧ (e.replace listing).2.registry.rules = e.registry.rules ∧
      (e.replace listing).2.registry.switchOutcome = e.registry.switchOutcome ∧
      (∀ k, (e.replace listing).2.tracked.get? k = (lastListed listing k).bind (e.registry.freshEntry k)) ∧
      (e.replace listing).1 = match (keyFault listing).or (e.registry.matchFault listing) with
        | some err => .error err
        | none => .ok (e.replace listing).2.tracked.size := by
  -- the pass drops the unlisted keys, then applies the listed objects that have keys
  obtain ⟨hD₁, hDw, hDreg, hDget⟩ := h.dropUnlisted
    ((listing.filterMap fun o => (o.key.toOption).map (·, o)).map (·.1)) e.tracked.keys
    (keyFault listing)
  obtain ⟨hRw, hRr, hRs, hRget, hRerr⟩ := Writable.reapply
    ((listing.filterMap fun o => (o.key.toOption).map (·, o)).map (·.2)) 0 _ hDw
    fun o ho => by
      obtain ⟨x, hx, rfl⟩ := List.mem_map.1 ho
      exact ⟨x.1, ((mem_keyed listing).1 hx).2⟩
  rw [replace_fst, replace_snd]
  dsimp only
  rw [hDreg] at hRr hRs hRget hRerr
  refine ⟨⟨hRw.table, by rw [ChangeQueue.markPopulated_closed]; exact hRw.feedOpen, hRw.keys⟩,
    hRr, hRs, fun k => ?_, ?_⟩
  · rw [hRget, lastListed_keyed]
    cases hl : lastListed listing k with
    | some o => rfl
    | none =>
      -- an unlisted key was dropped, or never tracked
      have hunlisted : k ∉ (listing.filterMap fun o => (o.key.toOption).map (·, o)).map (·.1) := by
        rw [mem_keyed_keys]
        rintro ⟨o, ho, hk⟩
        exact lastListed_eq_none.1 hl o ho hk
      show (Engine.dropUnlisted _ e.tracked.keys e _).2.tracked.get? k = none
      rw [hDget]
      by_cases hkey : k ∈ e.tracked.keys
      · simp [hkey, hunlisted]
      · simp only [hkey, false_and, if_false]
        exact Indexed.lookupAt_eq_none.2 hkey
  · rw [hRerr, hD₁, keyFault_or_keyed]

end Writable

/-- A replace on a table that already holds the fresh entry of every listed object, and no key
the listing lacks, changes neither the table nor the feed but for noting the listing. -/
theorem replace_of_settled {e : Engine} {listing : List CandidateObject}
    (hlisted : ∀ k, e.tracked.get? k ≠ none → ∃ o ∈ listing, o.key = .ok k)
    (hheld : ∀ o ∈ listing, ∀ k, o.key = .ok k → e.tracked.get? k = e.registry.freshEntry k o) :
    (e.replace listing).2.tracked = e.tracked ∧ (e.replace listing).2.feed = e.feed.markPopulated := by
  -- nothing is dropped
  have hall : ∀ k ∈ e.tracked.keys,
      k ∈ (listing.filterMap fun o => (o.key.toOption).map (·, o)).map (·.1) := fun k hk => by
    rw [mem_keyed_keys]
    exact hlisted k (Indexed.lookupAt_eq_none.not.2 (not_not.2 hk))
  rw [replace_snd]
  dsimp only
  rw [dropUnlisted_of_listed hall e (keyFault listing)]
  dsimp only
  -- and every apply finds its key holding what it would write
  have hstep : ∀ e' : Engine, ∀ o ∈ (listing.filterMap fun o => (o.key.toOption).map (·, o)).map (·.2),
      (e'.tracked = e.tracked ∧ e'.feed = e.feed ∧ e'.registry.rules = e.registry.rules ∧
        e'.registry.switchOutcome = e.registry.switchOutcome) →
      ((e'.apply o true).2.tracked = e.tracked ∧ (e'.apply o true).2.feed = e.feed ∧
        (e'.apply o true).2.registry.rules = e.registry.rules ∧
        (e'.apply o true).2.registry.switchOutcome = e.registry.switchOutcome) := by
    rintro e' o ho ⟨ht, hf, hr, hs⟩
    obtain ⟨x, hx, rfl⟩ := List.mem_map.1 ho
    obtain ⟨hmem, hk⟩ := (mem_keyed listing).1 hx
    have hheld' : e'.tracked.get? x.1 = e'.registry.freshEntry x.1 x.2 := by
      rw [ht, Registry.freshEntry_congr hr hs]
      exact hheld x.2 hmem x.1 hk
    obtain ⟨ht', hf'⟩ := apply_of_fresh hk hheld'
    have hreg := apply_registry e' x.2 true
    exact ⟨ht'.trans ht, hf'.trans hf, by rw [hreg]; exact hr, by rw [hreg]; exact hs⟩
  have hkeep := reapply_induction
    (fun e' => e'.tracked = e.tracked ∧ e'.feed = e.feed ∧ e'.registry.rules = e.registry.rules ∧
      e'.registry.switchOutcome = e.registry.switchOutcome) hstep 0 (keyFault listing) ⟨rfl, rfl, rfl, rfl⟩
  exact ⟨hkeep.1, by rw [hkeep.2.1]⟩

theorem replace_feed_markPopulated (e : Engine) (listing : List CandidateObject) :
    (e.replace listing).2.feed.markPopulated = (e.replace listing).2.feed := by
  rw [replace_snd]
  exact ChangeQueue.markPopulated_markPopulated _

/-! ## Every run -/

/-- In every run from the engine as created, a replace by a listing leaves each key holding the
association of its last listed object with the rules that a match of it skipping the cache finds,
in registry order, when that match succeeds and finds some; no other key is tracked, and the
association change queue stays faithful to the table, so each dropped key reaches a consumer as a
deletion. The replace answers the number tracked exactly when every listed object has a key and a
match that succeeds. Repeated at once, a replace leaves every association as it was; when no key
is listed with two different objects it answers the same and changes neither the table nor the
association change queue. -/
theorem replace_rebuilds_from_listing (compiler : Compiler)
    (capacity refillMs cacheCapacity retryBackoffMs : Nat) (ops : List Op)
    (listing : List CandidateObject) :
    let e := ops.foldl step
      (create (Registry.create compiler capacity refillMs cacheCapacity) retryBackoffMs)
    let e' := (e.replace listing).2
    (∀ k a, e'.association? k = some a ↔ ∃ o rules, lastListed listing k = some o ∧
      (e.registry.findMatches o true).1 = .ok rules ∧ rules ≠ [] ∧ a = ⟨k, o, rules.map (·.key)⟩) ∧
    (∀ M, FeedOk e M → FeedOk e' M) ∧
    ((∃ n, (e.replace listing).1 = .ok n) ↔
      ∀ o ∈ listing, ∃ k, o.key = .ok k ∧ ∃ rules, (e.registry.findMatches o true).1 = .ok rules) ∧
    (∀ n, (e.replace listing).1 = .ok n → n = e'.tracked.size) ∧
    (∀ k, (e'.replace listing).2.association? k = e'.association? k) ∧
    ((∀ o₁ ∈ listing, ∀ o₂ ∈ listing, ∀ k, o₁.key = .ok k → o₂.key = .ok k → o₁ = o₂) →
      (e'.replace listing).1 = (e.replace listing).1 ∧ (e'.replace listing).2.tracked = e'.tracked ∧
        (e'.replace listing).2.feed = e'.feed) := by
  intro e e'
  obtain ⟨hs, hr⟩ := Sound.steps Retryable (fun e op hs h => h.step hs op) ops _
    (Sound.start compiler capacity refillMs cacheCapacity retryBackoffMs)
    (Retryable.start compiler capacity refillMs cacheCapacity retryBackoffMs)
  have h : Writable e := .of_sound hs hr.feedOpen
  obtain ⟨hw', hrules, hsw, hget, hres⟩ := h.replace listing
  obtain ⟨-, -, -, hget', hres'⟩ := hw'.replace listing
  have hfresh : ∀ k, e'.registry.freshEntry k = e.registry.freshEntry k :=
    fun k => funext (Registry.freshEntry_congr hrules hsw k)
  refine ⟨fun k a => ?_, fun M hM => hM.step hs (.replace listing) (fun _ hop => nomatch hop), ?_,
    fun n hn => ?_, fun k => ?_, fun hone => ?_⟩
  · -- the associations left
    show e'.tracked.get? k = some a ↔ _
    rw [hget, Option.bind_eq_some_iff]
    simp only [Registry.freshEntry_eq_some]
    constructor
    · rintro ⟨o, ho, rules, hf, hne, rfl⟩
      exact ⟨o, rules, ho, hf, hne, rfl⟩
    · rintro ⟨o, rules, ho, hf, hne, rfl⟩
      exact ⟨o, ho, rules, hf, hne, rfl⟩
  · -- the answer
    have hnone : (keyFault listing).or (e.registry.matchFault listing) = none ↔
        ∀ o ∈ listing, ∃ k, o.key = .ok k ∧ ∃ rules, (e.registry.findMatches o true).1 = .ok rules := by
      rw [Option.or_eq_none_iff, keyFault_eq_none, matchFault_eq_none]
      constructor
      · rintro ⟨hk, hm⟩ o ho
        obtain ⟨k, hk'⟩ := hk o ho
        exact ⟨k, hk', hm o ho⟩
      · intro hall
        exact ⟨fun o ho => (hall o ho).imp fun _ h => h.1, fun o ho => (hall o ho).elim fun _ h => h.2⟩
    rw [← hnone, hres]
    cases (keyFault listing).or (e.registry.matchFault listing) with
    | some err => simp
    | none => simp
  · rw [hres] at hn
    split at hn
    · cases hn
    · exact (Except.ok.inj hn).symm
  · -- the repeat keeps every association
    show (e'.replace listing).2.tracked.get? k = e'.tracked.get? k
    rw [hget', hget, hfresh]
  · -- with one object per key, the repeat finds every key as it should be
    have hlisted : ∀ k, e'.tracked.get? k ≠ none → ∃ o ∈ listing, o.key = .ok k := by
      intro k hk
      rw [hget] at hk
      cases hl : lastListed listing k with
      | none => exact absurd (by rw [hl]; rfl) hk
      | some o => exact ⟨o, lastListed_mem hl⟩
    have hheld : ∀ o ∈ listing, ∀ k, o.key = .ok k →
        e'.tracked.get? k = e'.registry.freshEntry k o := by
      intro o ho k hk
      rw [hget, hfresh]
      cases hl : lastListed listing k with
      | none => exact absurd hk (lastListed_eq_none.1 hl o ho)
      | some o' =>
        obtain ⟨ho', hk'⟩ := lastListed_mem hl
        rw [hone o' ho' o ho k hk' hk]
        rfl
    obtain ⟨ht, hf⟩ := replace_of_settled hlisted hheld
    refine ⟨?_, ht, hf.trans (replace_feed_markPopulated e listing)⟩
    rw [hres', hres, Registry.matchFault_congr hrules hsw, ht]

/-- A replace on an engine whose one rule meters pods. Listed first as a service and then as a
pod, the key `billing/x` holds the pod, its last listed object, with the rule. Listed twice as
the same pod, next to the pod `billing/y`, both keys are tracked, and a repeated replace answers
the same and changes neither the table nor the queued deltas. -/
theorem replace_rebuilds_last_listed :
    let d : Definition :=
      { metadata := { ns := some "billing", name := "r1", uid := "uid-r1", generation := 1 }
        spec := { kind := some "Pod", filters := [{ kind := some "Pod" }] } }
    let x₁ : CandidateObject :=
      { apiVersion := "v1", kind := "Service"
        metadata := { ns := some "billing", name := "x", generation := 1 } }
    let x₂ : CandidateObject :=
      { apiVersion := "v1", kind := "Pod", metadata := { ns := some "billing", name := "x", generation := 2 } }
    let y : CandidateObject :=
      { apiVersion := "v1", kind := "Pod", metadata := { ns := some "billing", name := "y", generation := 1 } }
    let e := [Op.addRule d].foldl step (create (Registry.create .selector 10 5000 65536) 0)
    (e.replace [x₁, y, x₂]).2.association? (.inNamespace "billing" "x") =
        some ⟨.inNamespace "billing" "x", x₂, [.inNamespace "billing" "r1"]⟩ ∧
      (∀ o₁ ∈ [x₂, y, x₂], ∀ o₂ ∈ [x₂, y, x₂], ∀ k, o₁.key = .ok k → o₂.key = .ok k → o₁ = o₂) ∧
      (e.replace [x₂, y, x₂]).2.tracked.keys = [.inNamespace "billing" "x", .inNamespace "billing" "y"] ∧
      ((e.replace [x₂, y, x₂]).2.replace [x₂, y, x₂]).1 = (e.replace [x₂, y, x₂]).1 ∧
      ((e.replace [x₂, y, x₂]).2.replace [x₂, y, x₂]).2.tracked = (e.replace [x₂, y, x₂]).2.tracked ∧
      ((e.replace [x₂, y, x₂]).2.replace [x₂, y, x₂]).2.feed = (e.replace [x₂, y, x₂]).2.feed := by
  -- the engine stays a `let` of the goal, so that the theorem's run and the goal's match as terms
  intro d x₁ x₂ y
  have hrun₁ := replace_rebuilds_from_listing .selector 10 5000 65536 0 [.addRule d] [x₁, y, x₂]
  have hrun₂ := replace_rebuilds_from_listing .selector 10 5000 65536 0 [.addRule d] [x₂, y, x₂]
  have hlast : lastListed [x₁, y, x₂] (.inNamespace "billing" "x") = some x₂ := by decide +kernel
  have hfound : ((([Op.addRule d].foldl step (create (Registry.create .selector 10 5000 65536) 0)).registry.findMatches
      x₂ true).1.toOption.map fun rules => rules.map (·.key)) = some [.inNamespace "billing" "r1"] := by
    decide +kernel
  have hxy : x₂.key.toOption ≠ y.key.toOption := by decide +kernel
  have hone : ∀ o₁ ∈ [x₂, y, x₂], ∀ o₂ ∈ [x₂, y, x₂], ∀ k, o₁.key = .ok k → o₂.key = .ok k → o₁ = o₂ := by
    intro o₁ h₁ o₂ h₂ k hk₁ hk₂
    simp only [List.mem_cons, List.not_mem_nil, or_false] at h₁ h₂
    rcases h₁ with rfl | rfl | rfl <;> rcases h₂ with rfl | rfl | rfl <;>
      first | rfl | exact absurd (by rw [hk₁, hk₂]) hxy
  have hx : (([Op.addRule d].foldl step (create (Registry.create .selector 10 5000 65536) 0)).replace
      [x₁, y, x₂]).2.association? (.inNamespace "billing" "x") =
        some ⟨.inNamespace "billing" "x", x₂, [.inNamespace "billing" "r1"]⟩ := by
    cases hf : (([Op.addRule d].foldl step (create (Registry.create .selector 10 5000 65536) 0)).registry.findMatches
        x₂ true).1 with
    | error err =>
      rw [hf] at hfound
      cases hfound
    | ok rules =>
      rw [hf] at hfound
      have hkeys : rules.map (·.key) = [.inNamespace "billing" "r1"] := Option.some.inj hfound
      have hne : rules ≠ [] := by
        rintro rfl
        cases hkeys
      exact (hrun₁.1 _ _).2 ⟨x₂, rules, hlast, hf, hne, by rw [hkeys]⟩
  exact ⟨hx, hone, by decide +kernel, hrun₂.2.2.2.2.2 hone⟩

/-- A listing that gives a key first an object no rule meters, then one a rule meters: a repeated
replace drops the key and tracks it again, last, so the table's order and the queued deltas
change. -/
theorem replace_again_reorders :
    let d : Definition :=
      { metadata := { ns := some "billing", name := "r1", uid := "uid-r1", generation := 1 }
        spec := { kind := some "Pod", filters := [{ kind := some "Pod" }] } }
    let e := [Op.addRule d].foldl step (create (Registry.create .selector 10 5000 65536) 0)
    let x₁ : CandidateObject :=
      { apiVersion := "v1", kind := "Service"
        metadata := { ns := some "billing", name := "x", generation := 1 } }
    let x₂ : CandidateObject :=
      { apiVersion := "v1", kind := "Pod", metadata := { ns := some "billing", name := "x", generation := 2 } }
    let y : CandidateObject :=
      { apiVersion := "v1", kind := "Pod", metadata := { ns := some "billing", name := "y", generation := 1 } }
    let e₁ := (e.replace [x₁, x₂, y]).2
    e₁.tracked.keys = [.inNamespace "billing" "x", .inNamespace "billing" "y"] ∧
      e₁.feed.keys = [.inNamespace "billing" "x", .inNamespace "billing" "y"] ∧
      (e₁.replace [x₁, x₂, y]).2.tracked.keys = [.inNamespace "billing" "y", .inNamespace "billing" "x"] ∧
      (e₁.replace [x₁, x₂, y]).2.feed.keys = [.inNamespace "billing" "y", .inNamespace "billing" "x"] := by
  decide +kernel

end Engine

end MeterMatch
