import MeterMatch.Proofs.Run
import MeterMatch.Proofs.QueueModel
import Mathlib.Data.Finset.Card

/-! # Retries of the coordinator make progress

A drain stops at the first rule change that fails and hands the change back to the head of the
queue, so the length of the queue does not measure progress across retries. The number of
tracked objects does:

* on an open association queue an apply fails only when its match fails, and then it leaves
  the object's key untracked (`Engine.apply_open`);
* the writes of the coordinator track no key that was not tracked when they began
  (`Engine.Narrowed`), and when they fail they have dropped one (`Engine.Drops`): the key of the
  object that could not be judged;
* handling a change never queues a rule change, so a drain that succeeds has emptied the queue
  (`Engine.drainFrom_progress`).

`Engine.Retryable`: the association queue is open and each pending rule change carries a
definition that derives the change's key; every run keeps it. The main statement,
`Engine.drains_succeed_within_tracked`, follows for every run: drained again and again with
nothing in between, the engine fails at most as many times as it tracked objects, each failure
dropping one, and the first drain that succeeds leaves the rule change queue empty.
-/

namespace MeterMatch

theorem Indexed.get?_eq_none_of_contains {α : Type} {t : Indexed α} {k : ObjectKey}
    (h : t.contains k = false) : t.get? k = none := by
  have h' : ∀ x ∈ t.items, x.1 ≠ k := by simpa [Indexed.contains] using h
  rw [Indexed.get?_eq, Indexed.lookupAt_eq_none, List.mem_map]
  rintro ⟨x, hx, rfl⟩
  exact h' x hx rfl

namespace Registry

/-- Every pending rule change carries a definition that derives the change's key. -/
def ChangesKeyed (r : Registry) : Prop := r.changes.Carries fun key d => d.key = .ok key

section
variable {r : Registry}

theorem ChangesKeyed.submit (h : r.ChangesKeyed) (kind : DeltaKind) (d : Definition) (now : Nat) :
    (r.submit kind d now).2.ChangesKeyed := by
  rcases submit_cases r kind d now with he | ⟨key, p, q, hk, -, hq, -, he⟩
  · exact ChangeQueue.Carries.of_pending_eq h (by rw [he])
  · have hq' : (r.submit kind d now).2.changes = q := by rw [he]
    show (r.submit kind d now).2.changes.Carries _
    rw [hq']
    exact ChangeQueue.Carries.push h hk hq

theorem ChangesKeyed.delete (h : r.ChangesKeyed) (d : Definition) : (r.delete d).2.ChangesKeyed := by
  rcases delete_cases r d with he | ⟨key, q, hk, hq, -, he⟩
  · rw [he]
    exact h
  · have hq' : (r.delete d).2.changes = q := by rw [he]
    show (r.delete d).2.changes.Carries _
    rw [hq']
    exact ChangeQueue.Carries.push h hk hq

theorem ChangesKeyed.resync (h : r.ChangesKeyed) (listing : List Definition) (now : Nat) :
    (r.resync listing now).2.ChangesKeyed :=
  resync_induction ChangesKeyed listing now (fun _ kind d _ h => h.submit kind d now)
    (fun _ d h => h.delete d)
    (fun _ h => ChangeQueue.Carries.of_pending_eq h (ChangeQueue.pending_markPopulated _)) h

end

end Registry

namespace Engine

variable {e₀ e : Engine}

/-! ## Tracked keys -/

/-- A key tracked at `e` is no longer tracked at `e'`. -/
def Drops (e e' : Engine) : Prop := ∃ k, e.tracked.get? k ≠ none ∧ e'.tracked.get? k = none

/-- A point of the coordinator's writes begun at `e₀`: the table as the engine keeps it, the
association queue open, and no key tracked that `e₀` did not track. -/
structure Narrowed (e₀ e : Engine) : Prop where
  table : TableOk e.tracked
  feedOpen : e.feed.closed = false
  keys : ∀ k, e.tracked.get? k ≠ none → e₀.tracked.get? k ≠ none

theorem Narrowed.start (h : TableOk e.tracked) (hopen : e.feed.closed = false) : Narrowed e e :=
  ⟨h, hopen, fun _ hk => hk⟩

theorem Narrowed.trans {e' : Engine} (h : Narrowed e₀ e) (h' : Narrowed e e') : Narrowed e₀ e' :=
  ⟨h'.table, h'.feedOpen, fun k hk => h.keys k (h'.keys k hk)⟩

theorem Narrowed.drops {e' : Engine} (h : Narrowed e₀ e) (hd : Drops e e') : Drops e₀ e' := by
  obtain ⟨k, hk, hk'⟩ := hd
  exact ⟨k, h.keys k hk, hk'⟩

/-- The keys of a table, without repeats, are those it holds something for. -/
theorem mem_tracked_keys {t : Indexed Association} {k : ObjectKey} :
    k ∈ t.items.map (·.1) ↔ t.get? k ≠ none := by
  rw [Indexed.get?_eq, Ne, Indexed.lookupAt_eq_none, not_not]

/-- A narrowed table is no larger, and smaller when it dropped a key. -/
theorem Narrowed.size_le (h₀ : TableOk e₀.tracked) (h : Narrowed e₀ e) :
    e.tracked.size ≤ e₀.tracked.size ∧ (Drops e₀ e → e.tracked.size < e₀.tracked.size) := by
  have hsub : (e.tracked.items.map (·.1)).toFinset ⊆ (e₀.tracked.items.map (·.1)).toFinset := by
    intro k hk
    rw [List.mem_toFinset, mem_tracked_keys] at hk ⊢
    exact h.keys k hk
  have hcard : ∀ t : Indexed Association, t.WF → (t.items.map (·.1)).toFinset.card = t.size := by
    intro t ht
    rw [List.toFinset_card_of_nodup ht.keys, List.length_map]
    rfl
  rw [← hcard _ h.table.wf, ← hcard _ h₀.wf]
  refine ⟨Finset.card_le_card hsub, fun ⟨k, hk, hk'⟩ => Finset.card_lt_card ?_⟩
  refine (Finset.ssubset_iff_of_subset hsub).2 ⟨k, ?_, ?_⟩
  · rw [List.mem_toFinset, mem_tracked_keys]
    exact hk
  · rw [List.mem_toFinset, mem_tracked_keys, not_not]
    exact hk'

/-! ## Writes on an open association queue -/

/-- On an open association queue an untrack succeeds, leaves its key untracked and the queue
open. -/
theorem untrack_open (h : e.tracked.WF) (hopen : e.feed.closed = false) (key : ObjectKey) :
    (∃ c, (e.untrack key).1 = .ok c) ∧ (e.untrack key).2.tracked.get? key = none ∧
      (e.untrack key).2.feed.closed = false := by
  unfold untrack
  split
  · rename_i hk
    exact ⟨⟨_, rfl⟩, hk, hopen⟩
  · rename_i existing _
    obtain ⟨feed, hfeed, hclosed⟩ := ChangeQueue.push_open hopen ⟨.deleted, key, existing⟩
    obtain ⟨t, hrem, -, -, hget⟩ := h.remove key
    simp only [hfeed, hrem]
    exact ⟨⟨_, rfl⟩, by simp [hget], hclosed⟩

/-- On an open association queue a record succeeds and leaves the queue open. -/
theorem record_open (h : e.tracked.WF) (hopen : e.feed.closed = false) (key : ObjectKey)
    (o : CandidateObject) (rules : List ObjectKey) :
    (∃ c, (e.record key o rules).1 = .ok c) ∧ (e.record key o rules).2.feed.closed = false := by
  unfold record
  dsimp only
  split
  · exact ⟨⟨_, rfl⟩, hopen⟩
  · split
    · rename_i err herr
      obtain ⟨q, hq, -⟩ := ChangeQueue.push_open hopen _
      rw [hq] at herr
      cases herr
    · rename_i feed hfeed
      obtain ⟨q, hq, hclosed⟩ := ChangeQueue.push_open hopen _
      rw [hq] at hfeed
      cases hfeed
      obtain ⟨t, hup, -⟩ := h.upsert key (Association.make key o rules)
      rw [hup]
      exact ⟨⟨_, rfl⟩, hclosed⟩

/-- On an open association queue an apply leaves the queue open, and one that fails on an object
with a key leaves the key untracked: a failed match untracks a tracked key, and the writes after
a match succeed. -/
theorem apply_open (h : e.tracked.WF) (hopen : e.feed.closed = false) (o : CandidateObject)
    (skip : Bool) :
    (e.apply o skip).2.feed.closed = false ∧
      ∀ key err, o.key = .ok key → (e.apply o skip).1 = .error err →
        (e.apply o skip).2.tracked.get? key = none := by
  unfold apply
  split
  · rename_i hk
    exact ⟨hopen, fun key _ hk' => by rw [hk] at hk'; cases hk'⟩
  · rename_i key hk
    -- the match writes the cache only
    have ht : (e.findMatches o skip).2.tracked = e.tracked := findMatches_tracked e o skip
    have hf : (e.findMatches o skip).2.feed = e.feed := by rw [findMatches_eq]
    generalize e.findMatches o skip = p at ht hf ⊢
    obtain ⟨found, e'⟩ := p
    dsimp only at ht hf ⊢
    have h' : e'.tracked.WF := ht ▸ h
    have hopen' : e'.feed.closed = false := hf ▸ hopen
    have hsame : ∀ key', o.key = .ok key' → key' = key := fun key' hk' => by
      rw [hk] at hk'
      cases hk'
      rfl
    split
    · split
      · -- a tracked key whose match failed is untracked
        obtain ⟨⟨c, hc⟩, hnone, hclosed⟩ := untrack_open h' hopen' key
        generalize e'.untrack key = u at hc hnone hclosed ⊢
        obtain ⟨result, e''⟩ := u
        dsimp only at hc hnone hclosed
        subst hc
        exact ⟨hclosed, fun key' _ hk' _ => hsame key' hk' ▸ hnone⟩
      · rename_i hc
        exact ⟨hopen', fun key' _ hk' _ =>
          hsame key' hk' ▸ Indexed.get?_eq_none_of_contains (by simpa using hc)⟩
    · obtain ⟨⟨c, hc⟩, -, hclosed⟩ := untrack_open h' hopen' key
      exact ⟨hclosed, fun _ _ _ herr => by rw [hc] at herr; cases herr⟩
    · obtain ⟨⟨c, hc⟩, hclosed⟩ := record_open h' hopen' key o _
      exact ⟨hclosed, fun _ _ _ herr => by rw [hc] at herr; cases herr⟩

/-! ## The writes of the coordinator -/

/-- An apply of an object whose key `e₀` tracked stays narrowed, and one that fails drops the
key. -/
theorem Narrowed.apply (h : Narrowed e₀ e) {o : CandidateObject} {key : ObjectKey}
    (hk : o.key = .ok key) (hkey : e₀.tracked.get? key ≠ none) (skip : Bool) :
    Narrowed e₀ (e.apply o skip).2 ∧
      ∀ err, (e.apply o skip).1 = .error err → (e.apply o skip).2.tracked.get? key = none := by
  obtain ⟨hopen, hfail⟩ := apply_open h.table.wf h.feedOpen o skip
  refine ⟨⟨h.table.apply o skip, hopen, fun k hk' => ?_⟩, fun err herr => hfail key err hk herr⟩
  by_cases hne : k = key
  · subst hne
    exact hkey
  · rw [apply_get?_of_ne h.table.wf hk skip hne] at hk'
    exact h.keys k hk'

/-- A rematch stays narrowed, and one that fails drops its key. -/
theorem Narrowed.rematch (h : Narrowed e₀ e) (k : ObjectKey) (skip : Bool) :
    Narrowed e₀ (e.rematch k skip).2 ∧
      ∀ err, (e.rematch k skip).1 = .error err → Drops e₀ (e.rematch k skip).2 := by
  unfold Engine.rematch
  split
  · rename_i a ha
    have hkey : e₀.tracked.get? k ≠ none := h.keys k (by simp [ha])
    obtain ⟨hn, hfail⟩ := h.apply (h.table.stored k a ha).2 hkey skip
    exact ⟨hn, fun err herr => ⟨k, hkey, hfail err herr⟩⟩
  · exact ⟨h, fun _ herr => by cases herr⟩

/-- A cascade stays narrowed, and one that fails has dropped a key: the rematch that failed
dropped its own and ended the cascade. -/
theorem Narrowed.cascade :
    ∀ (as : List Association) {e : Engine}, Narrowed e₀ e →
      Narrowed e₀ (Engine.cascade as e).2 ∧
        ∀ err, (Engine.cascade as e).1 = .error err → Drops e₀ (Engine.cascade as e).2
  | [], _, h => ⟨h, fun _ herr => by cases herr⟩
  | a :: rest, e, h => by
    obtain ⟨hn, hfail⟩ := h.rematch a.key false
    unfold Engine.cascade
    split
    · rename_i e' he
      rw [he] at hn
      exact Narrowed.cascade rest hn
    · rename_i err e' he
      rw [he] at hn hfail
      exact ⟨hn, fun _ _ => hfail err rfl⟩

/-- Re-applying objects of distinct keys that `e₀` tracked stays narrowed, and once an error is
kept a key stays dropped: the key of the object that failed, which no later object has. -/
theorem Narrowed.reapply (skip : Bool) :
    ∀ {os : List CandidateObject} {e : Engine} (n : Nat) {err : Option EngineError},
      (os.map (·.key)).Nodup → (∀ o ∈ os, ∃ k, o.key = .ok k ∧ e₀.tracked.get? k ≠ none) →
      Narrowed e₀ e →
      (err ≠ none → ∃ k, e₀.tracked.get? k ≠ none ∧ e.tracked.get? k = none ∧
        ∀ o ∈ os, o.key ≠ .ok k) →
      Narrowed e₀ (reapply skip os e n err).2.2 ∧
        ((reapply skip os e n err).2.1 ≠ none → Drops e₀ (reapply skip os e n err).2.2)
  | [], _, _, _, _, _, h, hdrop => ⟨h, fun herr => by
      obtain ⟨k, hk, hk', -⟩ := hdrop herr
      exact ⟨k, hk, hk'⟩⟩
  | o :: rest, e, n, err, hnd, hkeys, h, hdrop => by
    obtain ⟨key, hk, hkey⟩ := hkeys o List.mem_cons_self
    have hfresh : ∀ o' ∈ rest, o'.key ≠ .ok key := by
      intro o' ho' he
      have hmem : o.key ∈ rest.map (·.key) := by
        rw [hk, ← he]
        exact List.mem_map_of_mem ho'
      exact (List.nodup_cons.1 hnd).1 hmem
    have hnd' := (List.nodup_cons.1 hnd).2
    have hkeys' := fun o' ho' => hkeys o' (List.mem_cons_of_mem _ ho')
    obtain ⟨hn, hfail⟩ := h.apply hk hkey skip
    -- a dropped key other than this object's stays dropped
    have hkept : (err ≠ none → ∃ k, e₀.tracked.get? k ≠ none ∧
        (e.apply o skip).2.tracked.get? k = none ∧ ∀ o' ∈ rest, o'.key ≠ .ok k) := by
      intro herr
      obtain ⟨k, hk₀, hk', hothers⟩ := hdrop herr
      have hne : k ≠ key := fun he => hothers o List.mem_cons_self (he ▸ hk)
      refine ⟨k, hk₀, ?_, fun o' ho' => hothers o' (List.mem_cons_of_mem _ ho')⟩
      rw [apply_get?_of_ne h.table.wf hk skip hne]
      exact hk'
    unfold Engine.reapply
    split
    · rename_i c e' he
      rw [he] at hn hkept
      exact Narrowed.reapply skip _ hnd' hkeys' hn hkept
    · rename_i x e' he
      rw [he] at hn hfail
      exact Narrowed.reapply skip _ hnd' hkeys' hn fun _ => ⟨key, hkey, hfail x rfl, hfresh⟩

/-- Re-applying every tracked object stays narrowed, and one that fails has dropped a key. -/
theorem Narrowed.rematchAll (h : Narrowed e₀ e) (skip : Bool) :
    Narrowed e₀ (e.rematchAll skip).2 ∧
      ∀ err, (e.rematchAll skip).1 = .error err → Drops e₀ (e.rematchAll skip).2 := by
  -- the tracked objects are those of the stored associations, one per key
  have hstored : ∀ x ∈ e.tracked.items, x.2.object.key = .ok x.1 := by
    intro x hx
    have hget : e.tracked.get? x.1 = some x.2 :=
      (Indexed.lookupAt_eq_some_iff h.table.wf.keys).2 hx
    exact (h.table.stored x.1 x.2 hget).2
  have hnd : ((e.tracked.list.map (·.object)).map (·.key)).Nodup := by
    have hmap : (e.tracked.list.map (·.object)).map (·.key) =
        (e.tracked.items.map (·.1)).map Except.ok := by
      simp only [Indexed.list, List.map_map]
      exact List.map_congr_left fun x hx => hstored x hx
    rw [hmap]
    exact h.table.wf.keys.map fun _ _ he => by cases he; rfl
  have hkeys : ∀ o ∈ e.tracked.list.map (·.object), ∃ k, o.key = .ok k ∧ e₀.tracked.get? k ≠ none := by
    intro o ho
    obtain ⟨a, ha, rfl⟩ := List.mem_map.1 ho
    obtain ⟨x, hx, rfl⟩ := List.mem_map.1 ha
    refine ⟨x.1, hstored x hx, h.keys x.1 ?_⟩
    rw [Indexed.get?_eq, (Indexed.lookupAt_eq_some_iff h.table.wf.keys).2 hx]
    simp
  obtain ⟨hn, hdrop⟩ := h.reapply skip 0 hnd hkeys (fun herr => absurd rfl herr)
  unfold Engine.rematchAll
  split
  · rename_i err' e' he
    rw [he] at hn hdrop
    exact ⟨hn, fun _ _ => hdrop (by simp)⟩
  · rename_i e' he
    rw [he] at hn
    exact ⟨hn, fun _ herr => by cases herr⟩

/-- Handling a change whose definition derives its key stays narrowed, and a handling that
fails has dropped a key. -/
theorem Narrowed.handle (h : Narrowed e₀ e) {d : Delta Definition}
    (hd : d.payload.key = .ok d.key) :
    Narrowed e₀ (e.handle d).2 ∧ ∀ err, (e.handle d).1 = .error err → Drops e₀ (e.handle d).2 := by
  unfold Engine.handle
  simp only [hd, bne_self_eq_false, Bool.false_eq_true, ↓reduceIte]
  split
  · obtain ⟨hn, hfail⟩ := h.rematchAll false
    split <;> rename_i he <;> rw [he] at hn hfail
    · exact ⟨hn, fun _ herr => by cases herr⟩
    · exact ⟨hn, fun err herr => hfail err (by cases herr; rfl)⟩
  · obtain ⟨hn, hfail⟩ := h.rematchAll false
    split <;> rename_i he <;> rw [he] at hn hfail
    · exact ⟨hn, fun _ herr => by cases herr⟩
    · exact ⟨hn, fun err herr => hfail err (by cases herr; rfl)⟩
  · obtain ⟨affected, hread, -⟩ := byIndex_ok h.table d.key
    rw [hread]
    exact Narrowed.cascade affected h

/-! ## The coordinator -/

/-- A step of the coordinator that takes a change gives the change's key when its handling
succeeds, and the handling's error otherwise. -/
theorem processNext_result {d : Delta Definition} {rest : ChangeQueue Definition}
    (ht : e.registry.changes.take = some (d, rest)) :
    e.processNext.1 =
      (({ e with registry := { e.registry with changes := rest } } : Engine).handle d).1.map
        fun _ => some d.key := by
  unfold processNext
  simp only [ht]
  generalize Engine.handle _ d = p
  obtain ⟨result, e'⟩ := p
  cases result <;> rfl

/-- What lets the coordinator make progress, beside `Sound`: the association queue is open, and
each pending rule change carries a definition that derives the change's key. -/
structure Retryable (e : Engine) : Prop where
  feedOpen : e.feed.closed = false
  keyed : e.registry.ChangesKeyed

/-- A step of the coordinator stays narrowed; one that fails has dropped a key, one that handles
a change leaves one change fewer, and one that finds nothing to do finds the queue empty. -/
theorem processNext_progress (hs : Sound e) (hr : Retryable e) :
    Narrowed e e.processNext.2 ∧
      (∀ err, e.processNext.1 = .error err → Drops e e.processNext.2) ∧
      (∀ k, e.processNext.1 = .ok (some k) →
        e.processNext.2.registry.changes.size + 1 = e.registry.changes.size) ∧
      (e.processNext.1 = .ok none → e.registry.changes.pending = [] ∧ e.processNext.2 = e) := by
  rcases processNext_cases e with ⟨hnil, he⟩ | ⟨d, rest, ht, he⟩
  · rw [he]
    exact ⟨Narrowed.start hs.table hr.feedOpen, (fun _ h => by cases h), (fun _ h => by cases h),
      fun _ => ⟨hnil, rfl⟩⟩
  · -- the change is handled against the rest of the queue, and handling leaves the queue as is
    have hres := processNext_result ht
    generalize hE : ({ e with registry := { e.registry with changes := rest } } : Engine) = e'
      at he hres
    have htr : e'.tracked = e.tracked := by rw [← hE]
    have hstart : Narrowed e' e' := by
      rw [← hE]
      exact Narrowed.start hs.table hr.feedOpen
    obtain ⟨hn, hfail⟩ := hstart.handle (ChangeQueue.Carries.take hr.keyed ht).1
    have hnarrow : Narrowed e e.processNext.2 := by
      rw [he]
      exact ⟨hn.table, hn.feedOpen, fun k hk => htr ▸ hn.keys k hk⟩
    cases hh : (e'.handle d).1 with
    | error x =>
      simp only [hh, Except.map] at hres
      refine ⟨hnarrow, fun err herr => ?_, fun k hk => ?_, fun hnone => ?_⟩ <;>
        rw [hres] at *
      · cases herr
        obtain ⟨k, hk, hk'⟩ := hfail x hh
        rw [he]
        exact ⟨k, htr ▸ hk, hk'⟩
      · cases hk
      · cases hnone
    | ok u =>
      simp only [hh, Except.map] at hres
      refine ⟨hnarrow, fun err herr => ?_, fun k _ => ?_, fun hnone => ?_⟩
      · rw [hres] at herr
        cases herr
      · -- a handled change is confirmed, which leaves the rest of the queue
        rw [he, hh]
        simp [ChangeQueue.size_eq, ChangeQueue.settle, Except.isOk, Except.toBool,
          (ChangeQueue.take_eq_some ht).1]
      · rw [hres] at hnone
        cases hnone

theorem Retryable.processNext (hs : Sound e) (hr : Retryable e) : Retryable e.processNext.2 := by
  refine ⟨(processNext_progress hs hr).1.feedOpen, ?_⟩
  rcases processNext_cases e with ⟨-, he⟩ | ⟨d, rest, ht, he⟩
  · rw [he]
    exact hr.keyed
  · rw [he]
    obtain ⟨hd, hrest⟩ := ChangeQueue.Carries.take hr.keyed ht
    exact hrest.settle hd _

/-- Draining with more rounds than there are pending changes stays narrowed; it fails only
having dropped a key, and it succeeds only having emptied the queue, each handled change having
left it for good. -/
theorem drainFrom_progress :
    ∀ (fuel handled : Nat) {e : Engine}, Sound e → Retryable e → e.registry.changes.size < fuel →
      Narrowed e (drainFrom fuel handled e).2 ∧
        (∀ err, (drainFrom fuel handled e).1 = .error err → Drops e (drainFrom fuel handled e).2) ∧
        (∀ n, (drainFrom fuel handled e).1 = .ok n →
          (drainFrom fuel handled e).2.registry.changes.pending = [])
  | 0, _, _, _, _, hlt => absurd hlt (Nat.not_lt_zero _)
  | fuel + 1, handled, e, hs, hr, hlt => by
    obtain ⟨hn, hfail, hsize, hnone⟩ := processNext_progress hs hr
    have hs' := hs.processNext
    have hr' := hr.processNext hs
    unfold drainFrom
    split <;> rename_i e' he <;> rw [he] at hn hfail hsize hnone hs' hr' <;>
      dsimp only at hn hfail hsize hnone hs' hr'
    · -- nothing was pending
      obtain ⟨hnil, rfl⟩ := hnone rfl
      exact ⟨hn, (fun _ h => by cases h), fun _ _ => hnil⟩
    · -- a change was handled, so one fewer is pending
      have hlt' : e'.registry.changes.size < fuel := by
        have := hsize _ rfl
        omega
      obtain ⟨hn', hfail', hok'⟩ := drainFrom_progress fuel (handled + 1) hs' hr' hlt'
      exact ⟨hn.trans hn', fun err h => hn.drops (hfail' err h), hok'⟩
    · exact ⟨hn, (fun _ h => by cases h; exact hfail _ rfl), fun _ h => by cases h⟩

theorem drain_progress (hs : Sound e) (hr : Retryable e) :
    Narrowed e e.drain.2 ∧ (∀ err, e.drain.1 = .error err → Drops e e.drain.2) ∧
      ∀ n, e.drain.1 = .ok n → e.drain.2.registry.changes.pending = [] :=
  drainFrom_progress _ 0 hs hr (Nat.lt_succ_self _)

theorem Retryable.drain (hs : Sound e) (hr : Retryable e) : Sound e.drain.2 ∧ Retryable e.drain.2 :=
  drain_induction (fun e => Sound e ∧ Retryable e) (fun _ h => ⟨h.1.processNext, h.2.processNext h.1⟩)
    ⟨hs, hr⟩

/-- Drained again and again with nothing in between, an engine that can retry fails at most as
many times as it tracks objects, each failure dropping one, and the first drain that succeeds
leaves the rule change queue empty. -/
theorem drains_settle (hs : Sound e) (hr : Retryable e) :
    ∃ k ≤ e.tracked.size,
      (∀ j < k, (∃ err, ((List.replicate j Op.drain).foldl step e).drain.1 = .error err) ∧
        ((List.replicate (j + 1) Op.drain).foldl step e).tracked.size <
          ((List.replicate j Op.drain).foldl step e).tracked.size) ∧
      (∃ n, ((List.replicate k Op.drain).foldl step e).drain.1 = .ok n) ∧
      ((List.replicate (k + 1) Op.drain).foldl step e).registry.changes.pending = [] := by
  -- by strong induction on the number of tracked objects, which every failed drain lowers
  induction hN : e.tracked.size using Nat.strong_induction_on generalizing e with
  | _ N ih =>
    obtain ⟨hn, hfail, hok⟩ := drain_progress hs hr
    cases hres : e.drain.1 with
    | ok n => exact ⟨0, Nat.zero_le _, fun j hj => absurd hj (Nat.not_lt_zero j), ⟨n, hres⟩, hok n hres⟩
    | error err =>
      have hlt : e.drain.2.tracked.size < e.tracked.size := (hn.size_le hs.table).2 (hfail err hres)
      obtain ⟨hs', hr'⟩ := hr.drain hs
      obtain ⟨k, hk, hfails, hsucc, hempty⟩ := ih _ (hN ▸ hlt) hs' hr' rfl
      refine ⟨k + 1, by omega, fun j hj => ?_, hsucc, hempty⟩
      cases j with
      | zero => exact ⟨⟨err, hres⟩, hlt⟩
      | succ j => exact hfails j (by omega)

/-! ## Every run -/

/-- Every call keeps the association queue open and queues only rule changes whose definitions
derive their keys. -/
theorem Retryable.step (hs : Sound e) (hr : Retryable e) (op : Op) : Retryable (e.step op) :=
  (Sound.step_induction Retryable (fun _ => True) op
    (fun e kind d _ _ h => ⟨h.feedOpen, h.keyed.submit kind d e.clock⟩)
    (fun e d _ h => ⟨h.feedOpen, h.keyed.delete d⟩)
    (fun e listing _ h => ⟨h.feedOpen, h.keyed.resync listing e.clock⟩)
    (fun e o skip _ hs h => ⟨(apply_open hs.table.wf h.feedOpen o skip).1,
      ChangeQueue.Carries.of_pending_eq h.keyed (by rw [apply_registry])⟩)
    (fun _ _ _ _ _ => trivial)
    (fun e k hs h => ⟨(untrack_open hs.table.wf h.feedOpen k).2.2,
      ChangeQueue.Carries.of_pending_eq h.keyed (by rw [untrack_registry])⟩)
    (fun _ hs h => h.processNext hs)
    (fun _ _ h => ⟨h.feedOpen, h.keyed⟩)
    (fun _ h => ⟨by simp [h.feedOpen], h.keyed⟩)
    (fun _ _ _ h => ⟨by simp [h.feedOpen], h.keyed⟩)
    (fun _ _ => trivial) hs hr).2

theorem Retryable.start (compiler : Compiler) (capacity refillMs cacheCapacity retryBackoffMs : Nat) :
    Retryable (create (Registry.create compiler capacity refillMs cacheCapacity) retryBackoffMs) :=
  ⟨rfl, fun d hd => by simp [create, Registry.create, ChangeQueue.empty, ChangeQueue.pending] at hd⟩

/-- In every run from the engine as it is created, draining again and again with nothing in
between fails at most as many times as there are tracked objects when the draining begins, each
failure leaving fewer of them; the first drain that succeeds leaves no rule change pending. -/
theorem drains_succeed_within_tracked (compiler : Compiler)
    (capacity refillMs cacheCapacity retryBackoffMs : Nat) (ops : List Op) :
    let e := ops.foldl step
      (create (Registry.create compiler capacity refillMs cacheCapacity) retryBackoffMs)
    ∃ k ≤ e.tracked.size,
      (∀ j < k, (∃ err, ((List.replicate j Op.drain).foldl step e).drain.1 = .error err) ∧
        ((List.replicate (j + 1) Op.drain).foldl step e).tracked.size <
          ((List.replicate j Op.drain).foldl step e).tracked.size) ∧
      (∃ n, ((List.replicate k Op.drain).foldl step e).drain.1 = .ok n) ∧
      ((List.replicate (k + 1) Op.drain).foldl step e).registry.changes.pending = [] := by
  intro e
  obtain ⟨hs, hr⟩ := Sound.steps Retryable (fun e op hs h => h.step hs op) ops _
    (Sound.start compiler capacity refillMs cacheCapacity retryBackoffMs)
    (Retryable.start compiler capacity refillMs cacheCapacity retryBackoffMs)
  exact drains_settle hs hr

end Engine

end MeterMatch
