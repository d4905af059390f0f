import MeterMatch.Proofs.ChangeQueue
import Mathlib.Data.List.Nodup

/-! # Change queues as lists

Seen from outside, a change queue is a list of pending deltas with distinct keys, in the order
they will be taken, and a flag for being closed. The queue keeps that list in two parts, the
order of its keys and the map from each key to its delta, and every queue reached from an empty
one by pushes, pops, closing and marking behaves as the list says:

* `ChangeQueue.pending_pushed`: a push to an open queue revises the pending delta of its key
  where it stands, or appends; a push to a closed queue changes nothing.
* `ChangeQueue.push_in_place`, `ChangeQueue.push_fresh`: the revision replaces the pending delta
  by the coalesced kind with the pushed payload, or drops it when the two cancel out.
* `ChangeQueue.requeue_take`: a delta taken and handed back untouched is the queue it came from,
  so a pop whose handler fails leaves the queue exactly as it was (`ChangeQueue.popReady_failed`).
* `ChangeQueue.ListingPending`: every key of the initial listing is pending. Every call keeps it
  (`ChangeQueue.ListingPending.perform`).
* `ChangeQueue.refines_list_model`: every reachable queue is in step with itself and behaves as
  the list model.
-/

namespace MeterMatch

namespace ChangeQueue

/-- A call on a change queue. -/
inductive Call (α : Type) where
  | push (d : Delta α)
  | pop (handled : Bool)
  | close
  | markPopulated

variable {α : Type}

/-- The queue after a push; a refused push leaves it as it was. -/
def pushed (q : ChangeQueue α) (d : Delta α) : ChangeQueue α :=
  match q.push d with
  | .ok q' => q'
  | .error _ => q

/-- The queue after a call. -/
def perform (q : ChangeQueue α) : Call α → ChangeQueue α
  | .push d => q.pushed d
  | .pop handled => (q.popReady handled).2
  | .close => q.close
  | .markPopulated => q.markPopulated

/-- What the list model says of a queue: the order lists each key of the map once, and each
delta is stored under its own key; the pending deltas have distinct keys and are read by key,
counted and listed in order; and each call changes the list as follows. -/
structure ListModel (q : ChangeQueue α) : Prop where
  orderNodup : q.order.Nodup
  orderKeys : ∀ k, k ∈ q.order ↔ (q.items k).isSome
  itemKeys : ∀ k d, q.items k = some d → d.key = k
  distinct : q.keys.Nodup
  keys : q.keys = q.pending.map (·.key)
  get : ∀ k d, q.get? k = some d ↔ d ∈ q.pending ∧ d.key = k
  size : q.size = q.pending.length
  initial : ∀ k ∈ q.initial, k ∈ q.keys
  closed : q.closed = true → ∀ d, q.push d = .error (.closed q.name)
  inPlace : q.closed = false → ∀ d pre x post, q.pending = pre ++ x :: post → x.key = d.key →
    ∃ q', q.push d = .ok q' ∧ q'.closed = q.closed ∧
      q'.pending = pre ++
        ((q.policy.coalesce x.kind d.kind).map fun kind => ⟨kind, d.key, d.payload⟩).toList ++ post
  fresh : q.closed = false → ∀ d, d.key ∉ q.keys →
    ∃ q', q.push d = .ok q' ∧ q'.closed = q.closed ∧ q'.pending = q.pending ++ [d]
  popEmpty : q.pending = [] → q.popReady true = (none, q)
  popFailed : q.popReady false = (none, q)
  popHandled : ∀ x rest, q.pending = x :: rest →
    (q.popReady true).1 = some x ∧ (q.popReady true).2.pending = rest ∧
      (q.popReady true).2.closed = q.closed ∧
      (q.popReady true).2.initial = q.initial.filter (· != x.key)
  close : q.close.pending = q.pending ∧ q.close.closed = true
  markPopulated : q.markPopulated.pending = q.pending ∧ q.markPopulated.closed = q.closed

/-! ## Reading the pending list -/

theorem mem_keys {q : ChangeQueue α} {k : ObjectKey} :
    k ∈ q.keys ↔ ∃ d ∈ q.pending, d.key = k := by
  rw [keys_eq, List.mem_map]

theorem holds_eq_true_iff {q : ChangeQueue α} {k : ObjectKey} : q.holds k = true ↔ k ∈ q.keys :=
  holds_iff.trans mem_keys.symm

/-! ## Pushes -/

@[simp] theorem closed_markPopulated (q : ChangeQueue α) : q.markPopulated.closed = q.closed := by
  unfold markPopulated; split <;> rfl

/-- A pop, whether its handler succeeds or fails, leaves a queue open or closed as it was. -/
@[simp] theorem closed_popReady (q : ChangeQueue α) (handled : Bool) :
    (q.popReady handled).2.closed = q.closed := by
  unfold popReady
  split
  · rfl
  · rename_i d rest ht
    have hc : rest.closed = q.closed := (take_fields ht).2.1
    cases handled
    · simp [settle, (requeue_fields rest d).2.1, hc]
    · simp [settle, confirm, hc]

/-- Revising the delta of a key, where it stands, changes that delta alone. -/
theorem reviseAt_append_cons {key : ObjectKey} {f : Delta α → Option (Delta α)} {x : Delta α}
    (post : List (Delta α)) (hx : x.key = key) :
    ∀ {pre : List (Delta α)}, (∀ y ∈ pre, y.key ≠ key) →
      reviseAt key f (pre ++ x :: post) = pre ++ (f x).toList ++ post
  | [], _ => by
    unfold reviseAt
    cases hfx : f x <;> simp [hx, hfx]
  | y :: pre, hpre => by
    have hy : y.key ≠ key := hpre y List.mem_cons_self
    rw [List.cons_append, reviseAt, if_neg hy,
      reviseAt_append_cons post hx fun z hz => hpre z (List.mem_cons_of_mem _ hz)]
    rfl

theorem push_fresh {q : ChangeQueue α} (h : q.closed = false) {d : Delta α} (hk : d.key ∉ q.keys) :
    ∃ q', q.push d = .ok q' ∧ q'.closed = q.closed ∧ q'.pending = q.pending ++ [d] := by
  have hfree : q.holds d.key = false := by
    simpa [← Bool.not_eq_true, holds_eq_true_iff] using hk
  obtain ⟨q', hq, hc⟩ := push_open h d
  obtain ⟨-, ⟨hheld, -⟩ | ⟨-, hpend⟩⟩ := push_cases hq
  · simp [hfree] at hheld
  · exact ⟨q', hq, hc.trans h.symm, hpend⟩

/-- A push of a pending key replaces its delta where it stands, by the coalesced kind with the
pushed payload, or drops it when the two cancel out. -/
theorem push_in_place {q : ChangeQueue α} (h : q.closed = false) {d : Delta α}
    {pre post : List (Delta α)} {x : Delta α} (hsplit : q.pending = pre ++ x :: post)
    (hx : x.key = d.key) :
    ∃ q', q.push d = .ok q' ∧ q'.closed = q.closed ∧
      q'.pending = pre ++
        ((q.policy.coalesce x.kind d.kind).map fun kind => ⟨kind, d.key, d.payload⟩).toList ++
          post := by
  -- the keys before `x` differ from its own, the keys being distinct
  have hpre : ∀ y ∈ pre, y.key ≠ d.key := by
    intro y hy hyk
    have hnd : (pre.map (·.key) ++ x.key :: post.map (·.key)).Nodup := by
      simpa [hsplit] using nodup_pending q
    exact List.disjoint_of_nodup_append hnd (List.mem_map_of_mem hy) (by simp [hyk, hx])
  have hheld : q.holds d.key = true := holds_iff.2 ⟨x, by simp [hsplit], hx⟩
  obtain ⟨q', hq, hc⟩ := push_open h d
  obtain ⟨-, ⟨-, hpend⟩ | ⟨hfree, -⟩⟩ := push_cases hq
  · refine ⟨q', hq, hc.trans h.symm, ?_⟩
    rw [hpend, hsplit, reviseAt_append_cons post hx hpre]
    rfl
  · simp [hheld] at hfree

/-! ## Pops -/

/-- A delta taken and handed back, with nothing of its key pushed meanwhile, restores the queue:
its key returns to the front of the order and its delta to the map. -/
theorem requeue_take {q rest : ChangeQueue α} {d : Delta α} (h : q.take = some (d, rest)) :
    rest.requeue d = q := by
  obtain ⟨hpend, hpol⟩ := take_eq_some h
  obtain ⟨hname, hclosed, hpop, hinit⟩ := take_fields h
  have hfree : rest.holds d.key = false :=
    not_holds_iff.2 (ne_key_of_take (nodup_pending q) h)
  obtain ⟨hpend', hpol'⟩ := requeue_of_not_holds hfree
  obtain ⟨hname', hclosed', hpop', hinit'⟩ := requeue_fields rest d
  have hheld : (rest.requeue d).holds d.key = true := holds_iff.2 ⟨d, by simp [hpend'], rfl⟩
  rw [if_pos hheld] at hinit'
  exact ext_pending (hname'.trans hname) (hpol'.trans hpol) (hpend'.trans hpend.symm)
    (hclosed'.trans hclosed) (hpop'.trans hpop) (hinit'.trans hinit)

theorem popReady_empty {q : ChangeQueue α} (h : q.pending = []) (handled : Bool) :
    q.popReady handled = (none, q) := by
  simp [popReady, take_eq_none.2 h]

/-- A pop whose handler fails puts the head back where it was: the queue is as before. -/
theorem popReady_failed (q : ChangeQueue α) : q.popReady false = (none, q) := by
  cases ht : q.take with
  | none => simp [popReady, ht]
  | some p =>
    obtain ⟨d, rest⟩ := p
    rw [popReady_of_take ht]
    simp [settle, requeue_take ht]

theorem popReady_handled {q : ChangeQueue α} {x : Delta α} {rest : List (Delta α)}
    (hp : q.pending = x :: rest) :
    (q.popReady true).1 = some x ∧ (q.popReady true).2.pending = rest ∧
      (q.popReady true).2.closed = q.closed ∧
      (q.popReady true).2.initial = q.initial.filter (· != x.key) := by
  cases ht : q.take with
  | none => simp [take_eq_none.1 ht] at hp
  | some p =>
    obtain ⟨d, q'⟩ := p
    obtain ⟨hpend, -⟩ := take_eq_some ht
    obtain ⟨-, hclosed, -, hinit⟩ := take_fields ht
    rw [hp, List.cons.injEq] at hpend
    obtain ⟨rfl, hrest⟩ := hpend
    rw [popReady_of_take ht]
    exact ⟨rfl, hrest.symm, hclosed, by simp [settle, confirm, hinit]⟩

/-! ## The invariant of every run -/

/-- Every key of the initial listing is pending. -/
def ListingPending (q : ChangeQueue α) : Prop := ∀ k ∈ q.initial, k ∈ q.keys

theorem ListingPending.start (name : String) (policy : Policy) :
    (empty name policy : ChangeQueue α).ListingPending := by
  simp [ListingPending, empty]

theorem pushed_of_push {q q' : ChangeQueue α} {d : Delta α} (h : q.push d = .ok q') : q.pushed d = q' := by
  simp [pushed, h]

theorem pushed_closed {q : ChangeQueue α} (h : q.closed = true) (d : Delta α) : q.pushed d = q := by
  simp [pushed, push_closed h]

/-- A push onto an open queue revises the pending delta of its key, or appends; onto a closed one
it changes nothing. -/
theorem pending_pushed (q : ChangeQueue α) (d : Delta α) :
    (q.pushed d).pending = if q.closed then q.pending
      else if q.holds d.key then reviseAt d.key (Delta.merge q.policy · d) q.pending
      else q.pending ++ [d] := by
  cases hc : q.closed
  case true => rw [pushed_closed hc, if_pos rfl]
  obtain ⟨q', hq, -⟩ := push_open hc d
  rw [pushed_of_push hq, if_neg Bool.false_ne_true]
  obtain ⟨-, ⟨hheld, hpend⟩ | ⟨hfree, hpend⟩⟩ := push_cases hq
  · rw [if_pos hheld, hpend]
  · rw [if_neg (by simp [hfree]), hpend]

/-- What a push keeps: the name, the policy and the flags; the initial listing loses the pushed
key when the key leaves the queue. -/
theorem pushed_fields (q : ChangeQueue α) (d : Delta α) :
    (q.pushed d).name = q.name ∧ (q.pushed d).policy = q.policy ∧
      (q.pushed d).closed = q.closed ∧ (q.pushed d).populated = q.populated ∧
      (q.pushed d).initial = if q.closed || (q.pushed d).holds d.key then q.initial
        else q.initial.filter (· != d.key) := by
  cases hc : q.closed
  case true => simp [pushed_closed hc, hc]
  obtain ⟨q', hq, -⟩ := push_open hc d
  obtain ⟨hname, hpol, hclosed, hpop, hinit⟩ := push_fields hq
  rw [pushed_of_push hq, Bool.false_or]
  exact ⟨hname, hpol, hclosed.trans hc, hpop, hinit⟩

theorem ListingPending.pushed {q : ChangeQueue α} (h : q.ListingPending) (d : Delta α) :
    (q.pushed d).ListingPending := by
  cases hc : q.closed
  case true => rwa [pushed_closed hc]
  obtain ⟨q', hq, -⟩ := push_open hc d
  rw [pushed_of_push hq]
  intro k hk
  rw [(push_fields hq).2.2.2.2] at hk
  rw [← holds_eq_true_iff]
  by_cases hkd : k = d.key
  · -- the pushed key stayed pending, or it left the listing
    subst hkd
    split at hk
    · assumption
    · simp at hk
  · -- any other key of the listing was pending before and still is
    have hk' : k ∈ q.initial := by split at hk <;> simp_all
    rw [holds_push_of_ne (nodup_pending q) hq hkd]
    exact holds_eq_true_iff.2 (h k hk')

theorem ListingPending.popReady {q : ChangeQueue α} (h : q.ListingPending) (handled : Bool) :
    (q.popReady handled).2.ListingPending := by
  cases handled
  case false => rwa [popReady_failed]
  cases hp : q.pending with
  | nil => rwa [popReady_empty hp]
  | cons x rest =>
    obtain ⟨-, hpend, -, hinit⟩ := popReady_handled hp
    intro k hk
    rw [hinit] at hk
    -- a key of the initial listing other than the handled one is still pending
    obtain ⟨hk, hne⟩ := List.mem_filter.1 hk
    have hmem := h k hk
    rw [keys_eq, hp, List.map_cons] at hmem
    rw [keys_eq, hpend]
    rcases List.mem_cons.1 hmem with rfl | hmem
    · simp at hne
    · exact hmem

theorem ListingPending.close {q : ChangeQueue α} (h : q.ListingPending) : q.close.ListingPending := h

theorem ListingPending.markPopulated {q : ChangeQueue α} (h : q.ListingPending) :
    q.markPopulated.ListingPending := by
  unfold ChangeQueue.markPopulated
  split
  · exact h
  · intro k hk
    simpa [keys_eq] using hk

theorem ListingPending.perform {q : ChangeQueue α} (h : q.ListingPending) :
    ∀ c : Call α, (q.perform c).ListingPending
  | .push d => h.pushed d
  | .pop handled => h.popReady handled
  | .close => h.close
  | .markPopulated => h.markPopulated

theorem ListingPending.run : ∀ (calls : List (Call α)) {q : ChangeQueue α}, q.ListingPending →
    (calls.foldl ChangeQueue.perform q).ListingPending
  | [], _, h => h
  | c :: calls, _, h => ListingPending.run calls (h.perform c)

theorem ListingPending.listModel {q : ChangeQueue α} (h : q.ListingPending) : ListModel q where
  orderNodup := q.coherent.nodup
  orderKeys := q.coherent.mem_iff
  itemKeys := q.coherent.key_eq
  distinct := by rw [keys_eq]; exact nodup_pending q
  keys := keys_eq q
  get _ _ := get?_eq_some_iff
  size := size_eq q
  initial := h
  closed hc := push_closed hc
  inPlace hc _ _ _ _ hsplit hx := push_in_place hc hsplit hx
  fresh hc _ hk := push_fresh hc hk
  popEmpty hp := popReady_empty hp true
  popFailed := popReady_failed q
  popHandled _ _ hp := popReady_handled hp
  close := ⟨rfl, rfl⟩
  markPopulated := ⟨pending_markPopulated q, closed_markPopulated q⟩

/-- Every queue reached from an empty one, under either policy and by any calls, keeps its order
and its map in step (each key of the map listed once, each delta under its own key) and behaves
as the list model: distinct pending keys read by key, pushes that revise in place or append,
pops that take the head and, when the handler fails, leave the queue as it was. -/
theorem refines_list_model (name : String) (policy : Policy) (calls : List (Call α)) :
    ListModel (calls.foldl perform (empty name policy)) :=
  (ListingPending.run calls (ListingPending.start name policy)).listModel

end ChangeQueue

end MeterMatch
