import MeterMatch.Queue.Delta

/-! # Change queues

A change queue holds at most one pending delta per key, in the order their keys first became
pending. A push for a key that is already pending merges into the pending delta in place, by
the queue's policy; when the two cancel out the key leaves the queue. Consumers take the head
delta and, once done with it, either confirm it or hand it back: a delta handed back merges
with any newer delta of its key (as the earlier of the two), or returns to the head.

The state is kept in two parts, as the source keeps it: the keys in the order they will be taken
(`ChangeQueue.order`), and the pending delta of each key (`ChangeQueue.items`). Every write keeps
the two in step, and the queue carries the proof (`ChangeQueue.Coherent`): the order lists each
key of the map exactly once, and each delta is stored under its own key. Taking skips keys of the
order that hold no delta, as the source does; coherence means there are none. The list a
consumer sees is `ChangeQueue.pending`.

The queue also tracks its initial listing: `markPopulated` notes the keys pending at that
moment, and the queue `hasSynced` once each of them has been handled or cancelled. A closed
queue refuses pushes but still gives out what it holds.
-/

namespace MeterMatch

/-- A push to a closed queue. -/
inductive QueueError where
  | closed (name : String)
  deriving DecidableEq, Inhabited

/-- The error's text. -/
def QueueError.message : QueueError → String
  | .closed name => "change queue '" ++ name ++ "' is closed"

namespace ChangeQueue

variable {α : Type}

/-- The item map with `key` bound to `d`. -/
def setItem (items : ObjectKey → Option (Delta α)) (key : ObjectKey) (d : Delta α) :
    ObjectKey → Option (Delta α) :=
  fun k => if k = key then some d else items k

/-- The item map without `key`. -/
def dropItem (items : ObjectKey → Option (Delta α)) (key : ObjectKey) :
    ObjectKey → Option (Delta α) :=
  fun k => if k = key then none else items k

/-- Pops keys off the front of the order until one holds a delta, which is taken; a key that
holds none is skipped. Gives the delta and the order left. -/
def takeNext (items : ObjectKey → Option (Delta α)) :
    List ObjectKey → Option (Delta α) × List ObjectKey
  | [] => (none, [])
  | k :: rest =>
    match items k with
    | some d => (some d, rest)
    | none => takeNext items rest

/-- The order and the item map are in step: the order lists each key of the map once and no
other key, and each delta is stored under its own key. -/
structure Coherent (order : List ObjectKey) (items : ObjectKey → Option (Delta α)) : Prop where
  nodup : order.Nodup
  mem_iff : ∀ k, k ∈ order ↔ (items k).isSome
  key_eq : ∀ k d, items k = some d → d.key = k

namespace Coherent

variable {order : List ObjectKey} {items : ObjectKey → Option (Delta α)}

theorem empty : Coherent ([] : List ObjectKey) (fun _ => (none : Option (Delta α))) :=
  ⟨List.nodup_nil, fun _ => by simp, fun _ _ h => nomatch h⟩

theorem not_mem (h : Coherent order items) {k : ObjectKey} (hk : items k = none) : k ∉ order :=
  fun hm => by simpa [hk] using (h.mem_iff k).1 hm

/-- A key new to the map joins the order at its back. -/
theorem append (h : Coherent order items) {d : Delta α} (hd : items d.key = none) :
    Coherent (order ++ [d.key]) (setItem items d.key d) where
  nodup := List.nodup_append.2 ⟨h.nodup, List.nodup_cons.2 ⟨List.not_mem_nil, List.nodup_nil⟩,
    fun a ha b hb hab => by
      simp only [List.mem_singleton] at hb
      exact h.not_mem hd (hb ▸ hab ▸ ha)⟩
  mem_iff k := by by_cases hk : k = d.key <;> simp [setItem, hk, h.mem_iff]
  key_eq k e he := by
    unfold setItem at he
    split at he
    · rename_i hk
      cases he
      exact hk.symm
    · exact h.key_eq k e he

/-- A key new to the map joins the order at its front. -/
theorem cons (h : Coherent order items) {d : Delta α} (hd : items d.key = none) :
    Coherent (d.key :: order) (setItem items d.key d) where
  nodup := List.nodup_cons.2 ⟨h.not_mem hd, h.nodup⟩
  mem_iff k := by by_cases hk : k = d.key <;> simp [setItem, hk, h.mem_iff]
  key_eq k e he := by
    unfold setItem at he
    split at he
    · rename_i hk
      cases he
      exact hk.symm
    · exact h.key_eq k e he

/-- A key the map holds takes a new delta of that key where it stands. -/
theorem replace (h : Coherent order items) {key : ObjectKey} (hk : (items key).isSome)
    {d : Delta α} (hd : d.key = key) : Coherent order (setItem items key d) where
  nodup := h.nodup
  mem_iff k := by by_cases hkk : k = key <;> simp [setItem, hkk, h.mem_iff, hk]
  key_eq k e he := by
    unfold setItem at he
    split at he
    · cases he
      simp_all
    · exact h.key_eq k e he

/-- A key leaves the map and the order together. -/
theorem drop (h : Coherent order items) (key : ObjectKey) :
    Coherent (order.filter (· != key)) (dropItem items key) where
  nodup := h.nodup.sublist List.filter_sublist
  mem_iff k := by by_cases hk : k = key <;> simp [dropItem, hk, h.mem_iff]
  key_eq k e he := by
    unfold dropItem at he
    split at he
    · cases he
    · exact h.key_eq k e he

/-- The front key of a coherent order holds a delta, so taking finds it at once, and the rest of
the order is in step with the map without it. -/
theorem takeNext (h : Coherent order items) {d : Delta α} {rest : List ObjectKey}
    (ht : ChangeQueue.takeNext items order = (some d, rest)) :
    order = d.key :: rest ∧ items d.key = some d ∧ Coherent rest (dropItem items d.key) := by
  cases order with
  | nil => simp [ChangeQueue.takeNext] at ht
  | cons k ks =>
    obtain ⟨dk, hdk⟩ := Option.isSome_iff_exists.1 ((h.mem_iff k).1 List.mem_cons_self)
    simp only [ChangeQueue.takeNext, hdk, Prod.mk.injEq, Option.some.injEq] at ht
    obtain ⟨rfl, rfl⟩ := ht
    have hkey : dk.key = k := h.key_eq k dk hdk
    subst hkey
    have hout : dk.key ∉ ks := (List.nodup_cons.1 h.nodup).1
    refine ⟨rfl, hdk, (List.nodup_cons.1 h.nodup).2, fun k' => ?_, fun k' e he => ?_⟩
    · by_cases hk : k' = dk.key
      · subst hk
        simp [dropItem, hout]
      · simp [dropItem, hk, ← h.mem_iff]
    · unfold dropItem at he
      split at he
      · cases he
      · exact h.key_eq k' e he

end Coherent

end ChangeQueue

/-- A coalescing queue of deltas. -/
@[ext] structure ChangeQueue (α : Type) where
  name : String
  policy : Policy
  /-- The pending keys in the order they will be taken. -/
  order : List ObjectKey := []
  /-- The pending delta of each key. -/
  items : ObjectKey → Option (Delta α) := fun _ => none
  closed : Bool := false
  populated : Bool := false
  /-- Keys of the initial listing that have been neither handled nor cancelled. -/
  initial : List ObjectKey := []
  coherent : ChangeQueue.Coherent order items

namespace ChangeQueue

variable {α : Type}

/-- An empty open queue. -/
def empty (name : String) (policy : Policy := .cancelUnseen) : ChangeQueue α :=
  { name, policy, coherent := Coherent.empty }

instance : Inhabited (ChangeQueue α) := ⟨empty ""⟩

/-- The pending deltas in the order they will be taken. -/
def pending (q : ChangeQueue α) : List (Delta α) := q.order.filterMap q.items

/-- Whether a delta of `key` is pending. -/
def holds (q : ChangeQueue α) (key : ObjectKey) : Bool := (q.items key).isSome

/-- Drops a key: its delta, its place in the order, and its place in the initial listing. -/
def removeKey (q : ChangeQueue α) (key : ObjectKey) : ChangeQueue α :=
  { q with
    items := dropItem q.items key
    order := q.order.filter (· != key)
    initial := q.initial.filter (· != key)
    coherent := q.coherent.drop key }

/-- Queues a delta, merging it into a pending delta of its key. -/
def push (q : ChangeQueue α) (d : Delta α) : Except QueueError (ChangeQueue α) :=
  if q.closed then .error (.closed q.name)
  else
    match h : q.items d.key with
    | some queued =>
      match hm : queued.merge q.policy d with
      | some merged =>
        .ok { q with
          items := setItem q.items d.key merged
          coherent := q.coherent.replace (by simp [h]) (Delta.key_of_merge hm) }
      | none => .ok (q.removeKey d.key)
    | none =>
      .ok { q with
        order := q.order ++ [d.key]
        items := setItem q.items d.key d
        coherent := q.coherent.append h }

/-- The pending delta of a key. -/
def get? (q : ChangeQueue α) (key : ObjectKey) : Option (Delta α) := q.items key

/-- The pending keys in the order they will be taken. -/
def keys (q : ChangeQueue α) : List ObjectKey := q.order.filter fun k => (q.items k).isSome

/-- The number of pending deltas: the keys of the map, each of which the order lists once. -/
def size (q : ChangeQueue α) : Nat := q.keys.length

/-- Notes the initial listing, once: the keys pending now. -/
def markPopulated (q : ChangeQueue α) : ChangeQueue α :=
  if q.populated then q else { q with populated := true, initial := q.order }

/-- The initial listing has been noted and fully handled. -/
def hasSynced (q : ChangeQueue α) : Bool := q.populated && q.initial.isEmpty

/-- Refuses all later pushes. -/
def close (q : ChangeQueue α) : ChangeQueue α := { q with closed := true }

/-- Takes the head delta. When nothing is left to take the source has emptied the order, which
a coherent queue has already. -/
def take (q : ChangeQueue α) : Option (Delta α × ChangeQueue α) :=
  match h : takeNext q.items q.order with
  | (some d, order) =>
    some (d, { q with
      order
      items := dropItem q.items d.key
      coherent := (q.coherent.takeNext h).2.2 })
  | (none, _) => none

/-- Confirms a taken delta as handled. -/
def confirm (q : ChangeQueue α) (key : ObjectKey) : ChangeQueue α :=
  { q with initial := q.initial.filter (· != key) }

/-- Hands a taken delta back: merged, as the earlier, into a newer delta of its key, or put
back at the head. -/
def requeue (q : ChangeQueue α) (failed : Delta α) : ChangeQueue α :=
  match h : q.items failed.key with
  | some newer =>
    match hm : failed.merge q.policy newer with
    | some merged =>
      { q with
        items := setItem q.items failed.key merged
        coherent := q.coherent.replace (by simp [h])
          ((Delta.key_of_merge hm).trans (q.coherent.key_eq _ _ h)) }
    | none => q.removeKey failed.key
  | none =>
    { q with
      order := failed.key :: q.order
      items := setItem q.items failed.key failed
      coherent := q.coherent.cons h }

/-- Ends the handling of a taken delta: confirmed if handled, otherwise handed back. -/
def settle (q : ChangeQueue α) (d : Delta α) (handled : Bool) : ChangeQueue α :=
  if handled then q.confirm d.key else q.requeue d

/-- `pop_ready` with a handler that succeeds (`handled`) or fails: the head delta is taken and
settled. Gives the delta the handler accepted. -/
def popReady (q : ChangeQueue α) (handled : Bool) : Option (Delta α) × ChangeQueue α :=
  match q.take with
  | none => (none, q)
  | some (d, rest) => (if handled then some d else none, rest.settle d handled)

end ChangeQueue

end MeterMatch
