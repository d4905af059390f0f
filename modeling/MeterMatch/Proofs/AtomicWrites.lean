import MeterMatch.Proofs.TableIntegrity

/-! # Writes on a corrupt index change nothing

A write of a stored key first takes the key off the sets of the old item's values, and checks each
of those sets before it changes any (`Indexed.unindex`). On a table whose index has lost an
entry, so that some value of the old item no longer lists the key, the write fails, whatever the
new item, and hands back the table it was given. The fault names the first such value.

* `Indexed.MissingEntry t k f`: `k` holds an item and `f` names the first of the item's values whose
  set lacks `k`; that is, the item's values cannot all be unlisted (`Indexed.missingEntry_iff`).
* `Indexed.upsert_fst_eq_error_iff`, `Indexed.remove_fst_eq_error_iff`: on any table, well formed
  or not, storing and dropping fail exactly on a missing entry of the old item, with that fault;
  storing fails exactly when dropping does.
* `Indexed.upsert_snd_of_error`, `Indexed.remove_snd_of_error`: a failed write hands back the
  table unchanged, because the check runs over every value before any set is touched.
* `Engine.untrack_of_fault`, `Engine.record_of_fault`, `Engine.apply_of_fault`: an engine call that
  reports a corrupt index leaves its table, items, their order and the index, as it was. Every
  write of one object goes through these: adding, updating and rematching apply the object,
  deleting untracks its key.
* `Indexed.failed_writes_keep_table`: the two together.
-/

namespace MeterMatch

namespace Indexed

variable {α : Type} {t : Indexed α} {k : ObjectKey} {f : IndexFault}

/-- `k` holds an item and `f` names `v`, the first of the item's values whose set lacks `k`. -/
def MissingEntry (t : Indexed α) (k : ObjectKey) (f : IndexFault) : Prop :=
  ∃ prev pre v post, t.get? k = some prev ∧ t.indexOf prev = pre ++ v :: post ∧
    (∀ u ∈ pre, k ∈ t.keysUnder u) ∧ k ∉ t.keysUnder v ∧ f = .missingEntry k v

/-- Taking a key off an item's values fails exactly at the first value whose set lacks it. -/
theorem unindex_fst_eq_error_iff {a : α} :
    (t.unindex k a).1 = .error f ↔ ∃ pre v post, t.indexOf a = pre ++ v :: post ∧
      (∀ u ∈ pre, k ∈ t.keysUnder u) ∧ k ∉ t.keysUnder v ∧ f = .missingEntry k v := by
  unfold unindex
  split
  · rename_i v hv
    obtain ⟨hvk, pre, post, hsplit, hpre⟩ := List.find?_eq_some_iff_append.1 hv
    constructor
    · rintro ⟨⟩
      exact ⟨pre, v, post, hsplit, fun u hu => by simpa using hpre u hu, by simpa using hvk, rfl⟩
    · -- the first value whose set lacks the key is the one `find?` gives
      rintro ⟨pre', v', post', hsplit', hpre', hv', rfl⟩
      have hfind : (t.indexOf a).find? (fun v => !(t.keysUnder v).contains k) = some v' :=
        List.find?_eq_some_iff_append.2
          ⟨by simpa using hv', pre', post', hsplit', fun u hu => by simpa using hpre' u hu⟩
      rw [hv] at hfind
      cases hfind
      rfl
  · rename_i hnone
    refine ⟨nofun, ?_⟩
    rintro ⟨pre, v, post, hsplit, -, hv, -⟩
    have hmem : v ∈ t.indexOf a := by simp [hsplit]
    exact (hv (by simpa using List.find?_eq_none.1 hnone v hmem)).elim

/-- A failed unlisting hands back the table it was given: the check covers every value before the
first set changes. -/
theorem unindex_snd_of_error {a : α} (h : (t.unindex k a).1 = .error f) : (t.unindex k a).2 = t := by
  unfold unindex at h ⊢
  split
  · rfl
  · rename_i hnone
    rw [hnone] at h
    simp at h

/-- A missing entry is a stored item whose values cannot all be unlisted. -/
theorem missingEntry_iff :
    t.MissingEntry k f ↔ ∃ prev, t.get? k = some prev ∧ (t.unindex k prev).1 = .error f := by
  constructor
  · rintro ⟨prev, pre, v, post, hk, hsplit, hpre, hv, hf⟩
    exact ⟨prev, hk, unindex_fst_eq_error_iff.2 ⟨pre, v, post, hsplit, hpre, hv, hf⟩⟩
  · rintro ⟨prev, hk, hu⟩
    obtain ⟨pre, v, post, hsplit, hpre, hv, hf⟩ := unindex_fst_eq_error_iff.1 hu
    exact ⟨prev, pre, v, post, hk, hsplit, hpre, hv, hf⟩

/-- Dropping a key fails exactly on a missing entry of its item. -/
theorem remove_fst_eq_error_iff : (t.remove k).1 = .error f ↔ t.MissingEntry k f := by
  rw [missingEntry_iff]
  unfold remove
  cases hk : t.get? k with
  | none => simp
  | some prev =>
    rcases hu : t.unindex k prev with ⟨_ | _, t'⟩ <;> simp [hu]

/-- A failed drop hands back the table it was given. -/
theorem remove_snd_of_error (h : (t.remove k).1 = .error f) : (t.remove k).2 = t := by
  unfold remove at h ⊢
  cases hk : t.get? k with
  | none => rfl
  | some prev =>
    have hkeep := unindex_snd_of_error (t := t) (k := k) (a := prev) (f := f)
    rcases hu : t.unindex k prev with ⟨_ | _, t'⟩
    · simp only [hk, hu, Except.error.injEq] at h hkeep ⊢
      exact hkeep h
    · simp [hk, hu] at h

/-- Storing an item fails exactly when dropping its key does, whatever the new item: the old item
is taken off the index before the new one is listed. -/
theorem upsert_fst_eq_error_iff (item : α) :
    (t.upsert k item).1 = .error f ↔ (t.remove k).1 = .error f := by
  unfold upsert remove
  cases hk : t.get? k with
  | none => simp
  | some prev =>
    rcases hu : t.unindex k prev with ⟨_ | _, t'⟩ <;> simp [hu]

/-- A failed store hands back the table it was given. -/
theorem upsert_snd_of_error {item : α} (h : (t.upsert k item).1 = .error f) :
    (t.upsert k item).2 = t := by
  unfold upsert at h ⊢
  cases hk : t.get? k with
  | none => simp [hk] at h
  | some prev =>
    have hkeep := unindex_snd_of_error (t := t) (k := k) (a := prev) (f := f)
    rcases hu : t.unindex k prev with ⟨_ | _, t'⟩
    · simp only [hk, hu, Except.error.injEq] at h hkeep ⊢
      exact hkeep h
    · simp [hk, hu] at h

end Indexed

namespace Engine

variable {e : Engine} {f : IndexFault}

/-- Untracking that reports a corrupt index leaves the table as it was; dropping the key from the
table failed with that fault. -/
theorem untrack_of_fault {key : ObjectKey} (h : (e.untrack key).1 = .error (.invariant f)) :
    (e.untrack key).2.tracked = e.tracked ∧ (e.tracked.remove key).1 = .error f := by
  unfold untrack at h ⊢
  cases hk : e.tracked.get? key with
  | none => simp [hk] at h
  | some existing =>
    cases hp : e.feed.push ⟨.deleted, key, existing⟩ with
    | error err => simp [hk, hp] at h
    | ok feed =>
      have hkeep := Indexed.remove_snd_of_error (t := e.tracked) (k := key) (f := f)
      rcases hr : e.tracked.remove key with ⟨_ | _, tracked⟩
      · simp only [hk, hp, hr, Except.error.injEq, EngineError.invariant.injEq] at h hkeep ⊢
        subst h
        exact ⟨hkeep rfl, rfl⟩
      · simp [hk, hp, hr] at h

/-- Recording that reports a corrupt index leaves the table as it was; storing the association
failed with that fault. -/
theorem record_of_fault {key : ObjectKey} {o : CandidateObject} {rules : List ObjectKey}
    (h : (e.record key o rules).1 = .error (.invariant f)) :
    (e.record key o rules).2.tracked = e.tracked ∧
      (e.tracked.upsert key (Association.make key o rules)).1 = .error f := by
  unfold record at h ⊢
  dsimp only at h ⊢
  split at h
  · cases h
  · rename_i hsame
    rw [if_neg hsame]
    generalize hkind : (if (e.tracked.get? key).isSome then
      ((DeltaKind.updated, IndexChange.updated) : DeltaKind × IndexChange)
      else (.added, .added)) = kc at h ⊢
    obtain ⟨kind, change⟩ := kc
    dsimp only at h ⊢
    cases hp : e.feed.push ⟨kind, key, Association.make key o rules⟩ with
    | error err => simp [hp] at h
    | ok feed =>
      have hkeep : (e.tracked.upsert key (Association.make key o rules)).1 = .error f →
          (e.tracked.upsert key (Association.make key o rules)).2 = e.tracked :=
        Indexed.upsert_snd_of_error
      rcases hu : e.tracked.upsert key (Association.make key o rules) with ⟨_ | _, tracked⟩
      · simp only [hp, hu, Except.error.injEq, EngineError.invariant.injEq] at h hkeep ⊢
        subst h
        exact ⟨hkeep rfl, rfl⟩
      · simp [hp, hu] at h

/-- Applying an object that reports a corrupt index leaves the table as it was: the object has a
key, and the table misses an entry of that key's association. A failed match is never such a
report, so the report comes from the untracking or the recording that followed the match. -/
theorem apply_of_fault {o : CandidateObject} {skip : Bool}
    (h : (e.apply o skip).1 = .error (.invariant f)) :
    (e.apply o skip).2.tracked = e.tracked ∧ ∃ key, o.key = .ok key ∧ e.tracked.MissingEntry key f := by
  unfold apply at h ⊢
  cases hk : o.key with
  | error err => simp [hk] at h
  | ok key =>
    simp only [hk] at h ⊢
    have ht := findMatches_tracked e o skip
    have hf : Faultless (e.findMatches o skip).1 := by
      rw [findMatches_eq]
      exact Registry.findMatches_faultless e.registry o skip
    generalize e.findMatches o skip = p at h ht hf ⊢
    obtain ⟨found, e₁⟩ := p
    dsimp only at h ht hf ⊢
    rw [← ht]
    -- the three ways on from the match each write the table at most once
    have hmiss : ∀ {f'}, (e₁.tracked.remove key).1 = .error f' ∨
        (∃ item, (e₁.tracked.upsert key item).1 = .error f') → e₁.tracked.MissingEntry key f' := by
      rintro f' (hr | ⟨item, hu⟩)
      · exact Indexed.remove_fst_eq_error_iff.1 hr
      · exact Indexed.remove_fst_eq_error_iff.1 ((Indexed.upsert_fst_eq_error_iff item).1 hu)
    cases found with
    | error err =>
      dsimp only at h ⊢
      by_cases hc : e₁.tracked.contains key = true
      · -- a tracked key is untracked, and a failed untracking is what is reported
        rw [if_pos hc] at h ⊢
        have hkeep := @untrack_of_fault e₁ f key
        generalize e₁.untrack key = q at h hkeep ⊢
        obtain ⟨res, e₂⟩ := q
        cases res with
        | error err' =>
          dsimp only at h hkeep ⊢
          cases h
          obtain ⟨hkeep, hr⟩ := hkeep rfl
          exact ⟨hkeep, key, rfl, hmiss (.inl hr)⟩
        | ok c =>
          dsimp only at h
          exact (hf.carry rfl f h).elim
      · rw [if_neg hc] at h
        dsimp only at h
        exact (hf.carry rfl f h).elim
    | ok rules =>
      cases rules with
      | nil =>
        obtain ⟨hkeep, hr⟩ := untrack_of_fault h
        exact ⟨hkeep, key, rfl, hmiss (.inl hr)⟩
      | cons ρ rest =>
        obtain ⟨hkeep, hu⟩ := record_of_fault h
        exact ⟨hkeep, key, rfl, hmiss (.inr ⟨_, hu⟩)⟩

end Engine

namespace Indexed

/-- Writes are all or nothing, also on a corrupt index: on every table, whatever its index holds,
storing or dropping a key fails exactly when the index misses an entry of the key's stored item,
with the first such entry as the fault, whatever item is stored, and a failed write hands back the
table, its items in their order and its index, exactly as it was given; an engine call that writes
one object and reports a corrupt index leaves its table exactly as it was too. -/
theorem failed_writes_keep_table (f : IndexFault) :
    (∀ (α : Type) (t : Indexed α) (k : ObjectKey) (item : α),
      ((t.upsert k item).1 = .error f ↔ t.MissingEntry k f) ∧
      ((t.upsert k item).1 = .error f → (t.upsert k item).2 = t) ∧
      ((t.remove k).1 = .error f ↔ t.MissingEntry k f) ∧
      ((t.remove k).1 = .error f → (t.remove k).2 = t)) ∧
    ∀ e : Engine,
      (∀ o skip, (e.apply o skip).1 = .error (.invariant f) → (e.apply o skip).2.tracked = e.tracked) ∧
      ∀ key, (e.untrack key).1 = .error (.invariant f) → (e.untrack key).2.tracked = e.tracked :=
  ⟨fun _ _ _ item => ⟨(upsert_fst_eq_error_iff item).trans remove_fst_eq_error_iff,
      upsert_snd_of_error, remove_fst_eq_error_iff, remove_snd_of_error⟩,
    fun _ => ⟨fun _ _ h => (Engine.apply_of_fault h).1, fun _ h => (Engine.untrack_of_fault h).1⟩⟩

end Indexed

end MeterMatch
