import MeterMatch.Proofs.QueueModel

/-! # Pushes while a failing handler runs

A pop takes the head delta and runs the handler, which may itself push. When the handler fails
the taken delta is handed back: merged, as the earlier, into a newer delta of its key, or put
back at the head (`ChangeQueue.popFailing`). Compared with the queue that the same pushes give
when the delta is never taken:

* `ChangeQueue.Agree`: two queues agree off a key when they hold the same deltas of every other
  key in the same order; the pushes keep this (`ChangeQueue.Agree.pushAll`).
* `ChangeQueue.Above`: a queue is another with one more delta at the head; pushes of other keys
  keep this (`ChangeQueue.Above.pushAll`).
* `ChangeQueue.popFailing_off_key`: every other key is left as the queue that never let the
  delta go leaves it, the delta's own key holds it merged with what the pushes left, and with no
  push of its key the two queues are the same.
* `ChangeQueue.popFailing_not_unpopped`: coalescing is not associative, so the kind of the
  delta's key can differ: an addition, then a deletion and an update, is an addition when the
  addition was taken and an update when it stayed.
-/

namespace MeterMatch

namespace ChangeQueue

variable {α : Type}

/-- A pop whose handler pushes `ds` and then fails. An empty queue runs no handler. -/
def popFailing (q : ChangeQueue α) (ds : List (Delta α)) : ChangeQueue α :=
  match q.take with
  | none => q
  | some (d, rest) => (ds.foldl pushed rest).settle d false

/-! ## The deltas of other keys -/

section
variable {key : ObjectKey} {f : Delta α → Option (Delta α)}

/-- Revising the delta of a key leaves the deltas of the other keys as they were. -/
theorem filter_reviseAt_self (hf : ∀ d d', d.key = key → f d = some d' → d'.key = key) :
    ∀ l : List (Delta α), (reviseAt key f l).filter (·.key != key) = l.filter (·.key != key)
  | [] => rfl
  | d :: rest => by
    unfold reviseAt
    split
    case isTrue hd =>
      split
      case h_1 d' hd' => simp [hd, hf d d' hd hd']
      case h_2 => simp [hd]
    case isFalse hd => simp [hd, filter_reviseAt_self hf rest]

/-- Revising the delta of one key commutes with dropping the deltas of another. -/
theorem filter_reviseAt_of_ne {other : ObjectKey} (hne : key ≠ other)
    (hf : ∀ d d', d.key = key → f d = some d' → d'.key = key) :
    ∀ l : List (Delta α),
      (reviseAt key f l).filter (·.key != other) = reviseAt key f (l.filter (·.key != other))
  | [] => rfl
  | d :: rest => by
    by_cases hd : d.key = key
    · have hdo : d.key ≠ other := hd ▸ hne
      rw [List.filter_cons_of_pos (by simpa using hdo)]
      unfold reviseAt
      rw [if_pos hd, if_pos hd]
      cases hfd : f d with
      | none => rfl
      | some d' =>
        have hko : d'.key ≠ other := hf d d' hd hfd ▸ hne
        simp [hko]
    · rw [reviseAt, if_neg hd]
      by_cases hdo : d.key = other
      · simp [hdo, filter_reviseAt_of_ne hne hf rest]
      · rw [List.filter_cons_of_pos (by simpa using hdo), List.filter_cons_of_pos (by simpa using hdo),
          filter_reviseAt_of_ne hne hf rest, reviseAt, if_neg hd]

end

theorem merge_keeps_key {p : Policy} {e : Delta α} :
    ∀ d d' : Delta α, d.key = e.key → Delta.merge p d e = some d' → d'.key = e.key :=
  fun _ _ _ hm => Delta.key_of_merge hm

theorem merge_into_keeps_key (p : Policy) (e : Delta α) :
    ∀ d d' : Delta α, d.key = e.key → Delta.merge p e d = some d' → d'.key = e.key :=
  fun _ _ hd hm => (Delta.key_of_merge hm).trans hd

/-- Whether a key other than `other` is pending is read off the deltas of the keys but `other`. -/
theorem holds_eq_of_filter {q q' : ChangeQueue α} {other k : ObjectKey} (hk : k ≠ other)
    (h : q.pending.filter (·.key != other) = q'.pending.filter (·.key != other)) :
    q.holds k = q'.holds k := by
  have hread : ∀ r : ChangeQueue α,
      r.holds k = (r.pending.filter (·.key != other)).any (·.key == k) := by
    intro r
    rw [holds_eq_any]
    apply Bool.eq_iff_iff.2
    simp only [List.any_eq_true, List.mem_filter, beq_iff_eq, bne_iff_ne, ne_eq]
    constructor
    · rintro ⟨d, hd, rfl⟩
      exact ⟨d, ⟨hd, hk⟩, rfl⟩
    · rintro ⟨d, ⟨hd, -⟩, rfl⟩
      exact ⟨d, hd, rfl⟩
  rw [hread, hread, h]

/-- Two queues agree off `other`: the same deltas of every other key in the same order, the same
policy, and both closed or both open. -/
structure Agree (other : ObjectKey) (q q' : ChangeQueue α) : Prop where
  pending : q.pending.filter (·.key != other) = q'.pending.filter (·.key != other)
  policy : q.policy = q'.policy
  closed : q.closed = q'.closed

/-- A push keeps the deltas of other keys than its own as they were. -/
theorem filter_pushed_self (q : ChangeQueue α) (e : Delta α) :
    (q.pushed e).pending.filter (·.key != e.key) = q.pending.filter (·.key != e.key) := by
  rw [pending_pushed]
  cases q.closed
  · cases q.holds e.key
    · simp
    · rw [if_neg Bool.false_ne_true, if_pos rfl, filter_reviseAt_self merge_keeps_key]
  · rfl

/-- A push of another key than `other` acts on the deltas of the keys but `other` alone. -/
theorem filter_pushed_of_ne (q : ChangeQueue α) {e : Delta α} {other : ObjectKey}
    (hne : e.key ≠ other) :
    (q.pushed e).pending.filter (·.key != other) =
      if q.closed then q.pending.filter (·.key != other)
      else if q.holds e.key then
        reviseAt e.key (Delta.merge q.policy · e) (q.pending.filter (·.key != other))
      else q.pending.filter (·.key != other) ++ [e] := by
  rw [pending_pushed]
  cases q.closed
  · cases q.holds e.key
    · simp [hne]
    · simp only [Bool.false_eq_true, if_false, if_true]
      rw [filter_reviseAt_of_ne hne merge_keeps_key]
  · rfl

@[simp] theorem policy_pushed (q : ChangeQueue α) (e : Delta α) : (q.pushed e).policy = q.policy :=
  (pushed_fields q e).2.1

@[simp] theorem closed_pushed (q : ChangeQueue α) (e : Delta α) : (q.pushed e).closed = q.closed :=
  (pushed_fields q e).2.2.1

/-- A push leaves other keys pending or not as they were. -/
theorem holds_pushed_of_ne (q : ChangeQueue α) {e : Delta α} {k : ObjectKey} (hk : k ≠ e.key) :
    (q.pushed e).holds k = q.holds k := by
  cases hc : q.closed
  · obtain ⟨q', hq, -⟩ := push_open hc e
    rw [pushed_of_push hq]
    exact holds_push_of_ne (nodup_pending q) hq hk
  · rw [pushed_closed hc]

theorem Agree.pushed {other : ObjectKey} {q q' : ChangeQueue α} (h : Agree other q q') (e : Delta α) :
    Agree other (q.pushed e) (q'.pushed e) := by
  refine ⟨?_, by simp [h.policy], by simp [h.closed]⟩
  by_cases he : e.key = other
  · subst he
    rw [filter_pushed_self, filter_pushed_self, h.pending]
  · rw [filter_pushed_of_ne q he, filter_pushed_of_ne q' he, h.closed, h.policy,
      holds_eq_of_filter he h.pending, h.pending]

theorem Agree.pushAll {other : ObjectKey} :
    ∀ (ds : List (Delta α)) {q q' : ChangeQueue α}, Agree other q q' →
      Agree other (ds.foldl ChangeQueue.pushed q) (ds.foldl ChangeQueue.pushed q')
  | [], _, _, h => h
  | e :: ds, _, _, h => Agree.pushAll ds (h.pushed e)

/-! ## One more delta at the head -/

/-- Whether a key other than the head's is pending does not see the head. -/
theorem holds_of_pending_cons {q q' : ChangeQueue α} {d : Delta α} {k : ObjectKey}
    (h : q'.pending = d :: q.pending) (hk : d.key ≠ k) : q'.holds k = q.holds k := by
  rw [holds_eq_any, holds_eq_any, h, List.any_cons]
  simp [hk]

/-- A push of another key commutes with putting a delta back at the head. -/
theorem pushed_requeue {d e : Delta α} (hne : e.key ≠ d.key) {q : ChangeQueue α}
    (hfree : q.holds d.key = false) : (q.requeue d).pushed e = (q.pushed e).requeue d := by
  have hfree' : (q.pushed e).holds d.key = false := by
    rw [holds_pushed_of_ne q (Ne.symm hne), hfree]
  obtain ⟨hpend₁, hpol₁⟩ := requeue_of_not_holds hfree
  obtain ⟨hpend₂, hpol₂⟩ := requeue_of_not_holds hfree'
  obtain ⟨hname₁, hclosed₁, hpop₁, hinit₁⟩ := requeue_fields q d
  obtain ⟨hname₂, hclosed₂, hpop₂, hinit₂⟩ := requeue_fields (q.pushed e) d
  have hheld₁ : (q.requeue d).holds d.key = true := holds_iff.2 ⟨d, by simp [hpend₁], rfl⟩
  have hheld₂ : ((q.pushed e).requeue d).holds d.key = true := holds_iff.2 ⟨d, by simp [hpend₂], rfl⟩
  rw [if_pos hheld₁] at hinit₁
  rw [if_pos hheld₂] at hinit₂
  -- the head stays where it is, and the push revises or extends what follows it
  have hpend : ((q.requeue d).pushed e).pending = d :: (q.pushed e).pending := by
    rw [pending_pushed, pending_pushed, hpend₁, hclosed₁, hpol₁,
      holds_of_pending_cons hpend₁ (Ne.symm hne)]
    cases q.closed
    · cases q.holds e.key
      · simp
      · simp only [Bool.false_eq_true, if_false, if_true]
        rw [reviseAt, if_neg (Ne.symm hne)]
    · rfl
  obtain ⟨hnameA, hpolA, hclosedA, hpopA, hinitA⟩ := pushed_fields (q.requeue d) e
  obtain ⟨hnameB, hpolB, hclosedB, hpopB, hinitB⟩ := pushed_fields q e
  have hafter : ((q.requeue d).pushed e).holds e.key = (q.pushed e).holds e.key :=
    holds_of_pending_cons hpend (Ne.symm hne)
  refine ext_pending ?_ ?_ (hpend.trans hpend₂.symm) ?_ ?_ ?_
  · rw [hnameA, hname₁, hname₂, hnameB]
  · rw [hpolA, hpol₁, hpol₂, hpolB]
  · rw [hclosedA, hclosed₁, hclosed₂, hclosedB]
  · rw [hpopA, hpop₁, hpop₂, hpopB]
  · rw [hinitA, hinit₁, hinit₂, hinitB, hclosed₁, hafter]

/-- `q'` is `q` with `d` put back at its head, and `q` holds nothing of `d`'s key. -/
structure Above (d : Delta α) (q q' : ChangeQueue α) : Prop where
  eq : q' = q.requeue d
  free : q.holds d.key = false

theorem Above.pushed {d : Delta α} {q q' : ChangeQueue α} (h : Above d q q') {e : Delta α}
    (he : e.key ≠ d.key) : Above d (q.pushed e) (q'.pushed e) := by
  obtain ⟨rfl, hfree⟩ := h
  exact ⟨pushed_requeue he hfree, by rw [holds_pushed_of_ne q (Ne.symm he), hfree]⟩

theorem Above.pushAll {d : Delta α} :
    ∀ (ds : List (Delta α)) {q q' : ChangeQueue α}, (∀ e ∈ ds, e.key ≠ d.key) → Above d q q' →
      Above d (ds.foldl ChangeQueue.pushed q) (ds.foldl ChangeQueue.pushed q')
  | [], _, _, _, h => h
  | e :: ds, _, _, hds, h =>
    Above.pushAll ds (fun e' he' => hds e' (List.mem_cons_of_mem _ he'))
      (h.pushed (hds e List.mem_cons_self))

@[simp] theorem policy_pushAll (ds : List (Delta α)) (q : ChangeQueue α) :
    (ds.foldl pushed q).policy = q.policy := by
  induction ds generalizing q with
  | nil => rfl
  | cons e ds ih => rw [List.foldl_cons, ih, policy_pushed]

/-! ## Handing the delta back -/

theorem filter_requeue (q : ChangeQueue α) (d : Delta α) :
    (q.requeue d).pending.filter (·.key != d.key) = q.pending.filter (·.key != d.key) := by
  cases hh : q.holds d.key
  · rw [(requeue_of_not_holds hh).1]
    simp
  · rw [(requeue_of_holds hh).1, filter_reviseAt_self (merge_into_keeps_key q.policy d)]

/-- A delta handed back is merged, as the earlier, into a newer delta of its key, or is the
delta of its key. -/
theorem get?_requeue (q : ChangeQueue α) (d : Delta α) :
    (q.requeue d).get? d.key = (q.get? d.key).elim (some d) (Delta.merge q.policy d) := by
  generalize hr : q.requeue d = r
  unfold requeue at hr
  split at hr
  · rename_i newer hn
    split at hr
    · rename_i merged hm
      subst hr
      simp [get?, setItem, hn, hm]
    · rename_i hm
      subst hr
      simp [get?, removeKey, dropItem, hn, hm]
  · rename_i hn
    subst hr
    simp [get?, setItem, hn]

/-! ## A failed pop against the queue that kept its head -/

/-- A pop whose handler pushes `ds` and fails leaves every other key as the queue that never let
the delta go, with the same pushes, leaves it: the same deltas in the same order. The delta's own
key holds it merged, as the earlier, into what the pushes left pending for the key, or the delta
at the head when they left nothing; and when no push is for its key the two queues are the same. -/
theorem popFailing_off_key {q : ChangeQueue α} (hq : q.keys.Nodup) {d : Delta α} {rest : ChangeQueue α}
    (ht : q.take = some (d, rest)) (ds : List (Delta α)) :
    (q.popFailing ds).pending.filter (·.key != d.key) =
        (ds.foldl pushed q).pending.filter (·.key != d.key) ∧
      (q.popFailing ds).get? d.key =
        ((ds.foldl pushed rest).get? d.key).elim (some d) (Delta.merge q.policy d) ∧
      ((ds.foldl pushed rest).holds d.key = false →
        (q.popFailing ds).pending = d :: (ds.foldl pushed rest).pending) ∧
      ((∀ e ∈ ds, e.key ≠ d.key) → q.popFailing ds = ds.foldl pushed q) := by
  have hpop : q.popFailing ds = (ds.foldl pushed rest).requeue d := by
    simp [popFailing, ht, settle]
  have hq' := requeue_take ht
  have hfree : rest.holds d.key = false :=
    not_holds_iff.2 (ne_key_of_take (by simpa [keys_eq] using hq) ht)
  -- the rest agrees with the queue off the delta's key, and is it with the delta put back
  have hagree : Agree d.key rest q := by
    refine ⟨?_, ?_, ?_⟩
    · rw [← hq', (requeue_of_not_holds hfree).1]
      simp
    · rw [← hq', (requeue_of_not_holds hfree).2]
    · rw [← hq', (requeue_fields rest d).2.1]
  have hpol : rest.policy = q.policy := (take_eq_some ht).2
  obtain ⟨hpend, -, -⟩ := hagree.pushAll ds
  refine ⟨?_, ?_, ?_, fun hds => ?_⟩
  · rw [hpop, filter_requeue, hpend]
  · rw [hpop, get?_requeue, policy_pushAll, hpol]
  · intro hnone
    rw [hpop]
    exact (requeue_of_not_holds hnone).1
  · obtain ⟨heq, -⟩ := Above.pushAll ds hds ⟨hq'.symm, hfree⟩
    rw [hpop, heq]

theorem popFailing_off_key_two_keys :
    let a := ObjectKey.inNamespace "ns" "a"
    let b := ObjectKey.inNamespace "ns" "b"
    let q : ChangeQueue Int :=
      ((empty "test" .retainDeletes).pushed ⟨.added, a, 1⟩).pushed ⟨.added, b, 2⟩
    let ds : List (Delta Int) := [⟨.deleted, a, 3⟩, ⟨.updated, b, 4⟩, ⟨.updated, a, 5⟩]
    ∃ rest, q.keys.Nodup ∧ q.take = some (⟨.added, a, 1⟩, rest) ∧
      (q.popFailing ds).pending.filter (·.key != a) = (ds.foldl pushed q).pending.filter (·.key != a) ∧
      (q.popFailing ds).get? a = ((ds.foldl pushed rest).get? a).elim (some ⟨.added, a, 1⟩)
        (Delta.merge q.policy ⟨.added, a, 1⟩) ∧
      ((ds.foldl pushed rest).holds a = false →
        (q.popFailing ds).pending = ⟨.added, a, 1⟩ :: (ds.foldl pushed rest).pending) ∧
      ((∀ e ∈ ds, e.key ≠ a) → q.popFailing ds = ds.foldl pushed q) := by
  intro a b q ds
  have hq : q.keys.Nodup := by decide +kernel
  obtain ⟨rest, ht⟩ : ∃ rest, q.take = some (⟨.added, a, 1⟩, rest) := ⟨_, rfl⟩
  exact ⟨rest, hq, ht, popFailing_off_key hq ht ds⟩

/-- Coalescing is not associative: under `retainDeletes` an addition handed back after its key
was deleted and then updated stays an addition, where the queue that kept the addition at its
head holds an update. -/
theorem popFailing_not_unpopped :
    let a := ObjectKey.inNamespace "ns" "a"
    let q : ChangeQueue Int := (empty "test" .retainDeletes).pushed ⟨.added, a, 1⟩
    let ds : List (Delta Int) := [⟨.deleted, a, 2⟩, ⟨.updated, a, 3⟩]
    (q.popFailing ds).pending.map (·.kind) = [.added] ∧
      (ds.foldl pushed q).pending.map (·.kind) = [.updated] := by
  decide +kernel

end ChangeQueue

end MeterMatch
