import MeterMatch.Queue.ChangeQueue
import Mathlib.Logic.Function.Basic
import Mathlib.Data.List.Basic

/-! # What a consumer of a change queue sees

A queue keeps its pending deltas in two parts, the order of their keys and the map from each key
to its delta; a consumer sees one list, `ChangeQueue.pending`. The first part of this module reads
each operation on the two parts as an operation on that list:

* `ChangeQueue.ext_pending`: a queue is determined by its list and its flags.
* `ChangeQueue.push_cases`: a push revises the delta of its key where it stands
  (`ChangeQueue.reviseAt`), or appends a new key.
* `ChangeQueue.take_eq_some`, `ChangeQueue.requeue_of_not_holds`,
  `ChangeQueue.requeue_of_holds`: a take removes the head; a hand-back puts it back at the head,
  or merges it into a newer delta of its key.

A consumer keeps a copy of the producer's table (`Mirror`): each delta it handles stores its
payload under its key, or drops the key after a deletion (`Delta.effect`). A queue is faithful
to the producer's table `T` when the consumer's copy, with the pending deltas applied in order,
is `T`. Faithfulness is kept one key at a time:

* `ChangeQueue.Agrees q T`: the pending keys are distinct and each pending delta has the effect
  that `T` shows for its key.
* `ChangeQueue.Faithful q M T`: moreover every key with nothing pending is already right in `M`,
  and under `cancelUnseen` a pending addition is of a key that `M` lacks.
* `Faithful.view`: the pending deltas applied to `M` in order give `T`.
* `Agrees.push_retain`, `Faithful.push_retain`: under `retainDeletes` a push of any kind keeps
  the queue faithful to the table it describes, since the merged delta has the effect of the
  later one.
* `Faithful.push_cancel`: under `cancelUnseen` a push keeps it when the kind is honest (an
  addition only of a key the table lacks); an addition and a deletion that cancel out leave a
  key the consumer never saw.
* `Faithful.popReady`: a pop whose handler succeeds or fails keeps it, the consumer's copy
  taking the delta it accepted.
-/

namespace MeterMatch

variable {α : Type}

namespace Delta

/-- What a delta leaves under its key: its payload, or nothing after a deletion. -/
def effect (d : Delta α) : Option α := if d.kind = .deleted then none else some d.payload

theorem key_mem_keys {l : List (Delta α)} {d : Delta α} (h : d ∈ l) : d.key ∈ l.map (·.key) :=
  List.mem_map_of_mem h

theorem effect_eq_none {d : Delta α} : d.effect = none ↔ d.kind = .deleted := by
  unfold effect; split <;> simp_all

theorem payload_of_merge {p : Policy} {a b m : Delta α} (h : merge p a b = some m) :
    m.payload = b.payload := by
  unfold merge at h
  obtain ⟨k, -, rfl⟩ := Option.map_eq_some_iff.1 h
  rfl

/-- Under `retainDeletes` two deltas always merge, into one with the key and the effect of the
later. -/
theorem merge_retain (a b : Delta α) :
    ∃ m, merge .retainDeletes a b = some m ∧ m.key = b.key ∧ m.effect = b.effect := by
  obtain ⟨ka, _, _⟩ := a
  obtain ⟨kb, key, payload⟩ := b
  cases ka <;> cases kb <;> simp [merge, Policy.coalesce, DeltaKind.coalesce, effect]

/-- Under `cancelUnseen` a merge has the key and the effect of the later delta, and is an
addition only when the earlier one was. -/
theorem merge_cancel {a b m : Delta α} (h : merge .cancelUnseen a b = some m) :
    m.key = b.key ∧ m.effect = b.effect ∧ (m.kind = .added → a.kind = .added) := by
  obtain ⟨ka, _, _⟩ := a
  obtain ⟨kb, key, payload⟩ := b
  cases ka <;> cases kb <;>
    simp only [merge, Policy.coalesce, DeltaKind.coalesce, Option.map_some, Option.map_none,
      reduceCtorEq, Option.some.injEq] at h <;> subst h <;> simp [effect]

/-- Under `cancelUnseen` only an addition followed by a deletion cancels out. -/
theorem merge_cancel_eq_none {a b : Delta α} :
    merge .cancelUnseen a b = none ↔ a.kind = .added ∧ b.kind = .deleted := by
  obtain ⟨ka, _, _⟩ := a
  obtain ⟨kb, _, _⟩ := b
  cases ka <;> cases kb <;> simp [merge, Policy.coalesce, DeltaKind.coalesce]

end Delta

/-- A consumer's copy of a producer's table. -/
abbrev Mirror (α : Type) := ObjectKey → Option α

namespace Mirror

/-- The copy after handling a delta. -/
def apply (M : Mirror α) (d : Delta α) : Mirror α := Function.update M d.key d.effect

/-- The copy after a pop: changed only by a delta the handler accepted. -/
def accept (M : Mirror α) : Option (Delta α) → Mirror α
  | none => M
  | some d => M.apply d

/-- With distinct keys, deltas applied in order leave each key as its own delta says. -/
theorem foldl_apply (M : Mirror α) (k : ObjectKey) :
    ∀ {l : List (Delta α)}, (l.map (·.key)).Nodup →
      l.foldl apply M k = match l.find? (·.key == k) with
        | some d => d.effect
        | none => M k
  | [], _ => rfl
  | x :: xs, h => by
    have hx : x.key ∉ xs.map (·.key) := (List.nodup_cons.1 h).1
    rw [List.foldl_cons, foldl_apply (M.apply x) k (List.nodup_cons.1 h).2]
    by_cases hk : x.key = k
    · subst hk
      have hnone : xs.find? (·.key == x.key) = none :=
        List.find?_eq_none.2 fun y hy hyk => hx (by simpa [beq_iff_eq.1 hyk] using Delta.key_mem_keys hy)
      rw [hnone, List.find?_cons_of_pos (by simp)]
      simp [apply]
    · rw [List.find?_cons_of_neg (by simpa using hk)]
      simp only [apply, Function.update_of_ne (Ne.symm hk)]

end Mirror

namespace ChangeQueue

/-! ## The list model

A consumer sees a queue as the list of its pending deltas (`ChangeQueue.pending`). A push or a
hand-back of a pending key revises that key's delta where it stands (`reviseAt`); a push of a new
key appends it, a hand-back of one puts it first, and a take removes the head. -/

/-- Applies `f` to the delta of `key`, dropping it when `f` gives `none`. -/
def reviseAt (key : ObjectKey) (f : Delta α → Option (Delta α)) :
    List (Delta α) → List (Delta α)
  | [] => []
  | d :: rest =>
    if d.key = key then
      match f d with
      | some d' => d' :: rest
      | none => rest
    else d :: reviseAt key f rest

section
variable {key : ObjectKey} {f : Delta α → Option (Delta α)}

/-- A revision that keeps keys leaves the pending keys distinct. -/
theorem keys_reviseAt_sublist (hf : ∀ d d', d.key = key → f d = some d' → d'.key = key) :
    ∀ l : List (Delta α), ((reviseAt key f l).map (·.key)).Sublist (l.map (·.key))
  | [] => by simp [reviseAt]
  | d :: rest => by
    unfold reviseAt
    split
    · rename_i hd
      split
      · rename_i d' hd'
        simp only [List.map_cons, hd, hf d d' hd hd']
        exact (List.Sublist.refl _).cons_cons _
      · simp
    · simpa using (keys_reviseAt_sublist hf rest).cons_cons d.key

/-- What a revised list holds: deltas of other keys as they were, and the revision of the one
delta of `key`. -/
theorem mem_reviseAt {l : List (Delta α)} (hl : (l.map (·.key)).Nodup) {y : Delta α}
    (hy : y ∈ reviseAt key f l) :
    (y ∈ l ∧ y.key ≠ key) ∨ ∃ x ∈ l, x.key = key ∧ f x = some y := by
  induction l with
  | nil => simp [reviseAt] at hy
  | cons d rest ih =>
    have hrest : ∀ z ∈ rest, z.key ≠ d.key := fun z hz he =>
      (List.nodup_cons.1 hl).1 (by simpa [he] using Delta.key_mem_keys hz)
    unfold reviseAt at hy
    split at hy
    · rename_i hd
      subst hd
      split at hy
      · rename_i d' hd'
        rcases List.mem_cons.1 hy with rfl | hy
        · exact .inr ⟨d, List.mem_cons_self, rfl, hd'⟩
        · exact .inl ⟨List.mem_cons_of_mem _ hy, hrest y hy⟩
      · exact .inl ⟨List.mem_cons_of_mem _ hy, hrest y hy⟩
    · rcases List.mem_cons.1 hy with rfl | hy
      · exact .inl ⟨List.mem_cons_self, by simpa using ‹¬_›⟩
      · rcases ih (List.nodup_cons.1 hl).2 hy with ⟨h1, h2⟩ | ⟨x, hx, h1, h2⟩
        · exact .inl ⟨List.mem_cons_of_mem _ h1, h2⟩
        · exact .inr ⟨x, List.mem_cons_of_mem _ hx, h1, h2⟩

theorem mem_reviseAt_of_ne {l : List (Delta α)} {y : Delta α} (hy : y ∈ l) (hk : y.key ≠ key) :
    y ∈ reviseAt key f l := by
  induction l with
  | nil => simp at hy
  | cons d rest ih =>
    unfold reviseAt
    rcases List.mem_cons.1 hy with rfl | hy
    · simp [hk]
    · split
      · split <;> simp [hy]
      · exact List.mem_cons_of_mem _ (ih hy)

/-- The revision of the delta of `key`, when there is one, is held. -/
theorem mem_reviseAt_self {l : List (Delta α)} {x y : Delta α} (hx : x ∈ l) (hk : x.key = key)
    (hl : (l.map (·.key)).Nodup) (hy : f x = some y) : y ∈ reviseAt key f l := by
  induction l with
  | nil => simp at hx
  | cons d rest ih =>
    unfold reviseAt
    rcases List.mem_cons.1 hx with rfl | hx
    · simp [hk, hy]
    · have hd : d.key ≠ key := fun he =>
        (List.nodup_cons.1 hl).1 (by simpa [he, hk] using Delta.key_mem_keys hx)
      simp only [hd, if_false]
      exact List.mem_cons_of_mem _ (ih hx (List.nodup_cons.1 hl).2)

/-- A delta of a revised list was there, or is the revision of one that was. -/
theorem mem_reviseAt_cases {l : List (Delta α)} {y : Delta α} (hy : y ∈ reviseAt key f l) :
    y ∈ l ∨ ∃ x ∈ l, f x = some y := by
  induction l with
  | nil => simp [reviseAt] at hy
  | cons d rest ih =>
    unfold reviseAt at hy
    split at hy
    · split at hy
      · rename_i d' hd'
        rcases List.mem_cons.1 hy with rfl | hy
        · exact .inr ⟨d, List.mem_cons_self, hd'⟩
        · exact .inl (List.mem_cons_of_mem _ hy)
      · exact .inl (List.mem_cons_of_mem _ hy)
    · rcases List.mem_cons.1 hy with rfl | hy
      · exact .inl List.mem_cons_self
      · rcases ih hy with hy | ⟨x, hx, hfx⟩
        · exact .inl (List.mem_cons_of_mem _ hy)
        · exact .inr ⟨x, List.mem_cons_of_mem _ hx, hfx⟩

end

/-! ## Reading the order and the item map as one list -/

section Reading

variable {items : ObjectKey → Option (Delta α)} {order : List ObjectKey}

theorem Coherent.exists_of_mem (h : Coherent order items) {k : ObjectKey} (hk : k ∈ order) :
    ∃ d, items k = some d ∧ d.key = k := by
  obtain ⟨d, hd⟩ := Option.isSome_iff_exists.1 ((h.mem_iff k).1 hk)
  exact ⟨d, hd, h.key_eq k d hd⟩

/-- Keys that each hold a delta of their own read back as the keys of those deltas. -/
theorem map_key_filterMap :
    ∀ {l : List ObjectKey}, (∀ k ∈ l, ∃ d, items k = some d ∧ d.key = k) →
      (l.filterMap items).map (·.key) = l
  | [], _ => rfl
  | k :: l, h => by
    obtain ⟨d, hd, hk⟩ := h k List.mem_cons_self
    rw [List.filterMap_cons_some hd, List.map_cons, hk,
      map_key_filterMap fun k' hk' => h k' (List.mem_cons_of_mem _ hk')]

theorem filterMap_setItem_of_not_mem {l : List ObjectKey} {key : ObjectKey} (d : Delta α)
    (hk : key ∉ l) : l.filterMap (setItem items key d) = l.filterMap items :=
  List.filterMap_congr fun k hkl => if_neg fun (he : k = key) => hk (he ▸ hkl)

theorem filterMap_dropItem_of_not_mem {l : List ObjectKey} {key : ObjectKey} (hk : key ∉ l) :
    l.filterMap (dropItem items key) = l.filterMap items :=
  List.filterMap_congr fun k hkl => if_neg fun (he : k = key) => hk (he ▸ hkl)

/-- Revising the delta of one key of a list read off the map is reading a map revised at that
key. -/
theorem reviseAt_filterMap {key : ObjectKey} {f : Delta α → Option (Delta α)} :
    ∀ {l : List ObjectKey}, l.Nodup → (∀ k ∈ l, ∃ d, items k = some d ∧ d.key = k) →
      reviseAt key f (l.filterMap items) =
        l.filterMap fun k => if k = key then (items k).bind f else items k
  | [], _, _ => rfl
  | k :: l, hnd, hcov => by
    obtain ⟨d, hd, rfl⟩ := hcov k List.mem_cons_self
    have hout : d.key ∉ l := (List.nodup_cons.1 hnd).1
    rw [List.filterMap_cons_some hd, reviseAt]
    by_cases hk : d.key = key
    · -- the rest of the list holds nothing of the key, so only the head is revised
      subst hk
      have hrest : (l.filterMap fun k => if k = d.key then (items k).bind f else items k) =
          l.filterMap items :=
        List.filterMap_congr fun k hkl => if_neg fun (he : k = d.key) => hout (he ▸ hkl)
      rw [if_pos rfl, List.filterMap_cons, if_pos rfl, hd, Option.bind_some, hrest]
      cases f d <;> rfl
    · rw [if_neg hk, reviseAt_filterMap (List.nodup_cons.1 hnd).2
        fun k' hk' => hcov k' (List.mem_cons_of_mem _ hk'), List.filterMap_cons, if_neg hk, hd]

end Reading

section Queue

variable {q : ChangeQueue α}

@[simp] theorem map_key_pending (q : ChangeQueue α) : q.pending.map (·.key) = q.order :=
  map_key_filterMap fun _ hk => q.coherent.exists_of_mem hk

/-- The pending keys are distinct: the order lists each key once. -/
theorem nodup_pending (q : ChangeQueue α) : (q.pending.map (·.key)).Nodup := by
  rw [map_key_pending]
  exact q.coherent.nodup

/-- A delta is pending exactly when the map holds it under its key. -/
theorem mem_pending {d : Delta α} : d ∈ q.pending ↔ q.items d.key = some d := by
  unfold pending
  rw [List.mem_filterMap]
  constructor
  · rintro ⟨k, -, hk⟩
    rwa [q.coherent.key_eq k d hk]
  · intro hd
    exact ⟨d.key, (q.coherent.mem_iff _).2 (by simp [hd]), hd⟩

/-- The keys in pop order are those of the pending list. -/
theorem keys_eq (q : ChangeQueue α) : q.keys = q.pending.map (·.key) := by
  rw [map_key_pending, keys, List.filter_eq_self]
  exact fun k hk => (q.coherent.mem_iff k).1 hk

/-- The size is the length of the pending list. -/
theorem size_eq (q : ChangeQueue α) : q.size = q.pending.length := by
  rw [size, keys_eq, List.length_map]

theorem holds_iff {k : ObjectKey} : q.holds k = true ↔ ∃ d ∈ q.pending, d.key = k := by
  simp only [holds, mem_pending, Option.isSome_iff_exists]
  constructor
  · rintro ⟨d, hd⟩
    have hk := q.coherent.key_eq k d hd
    exact ⟨d, by rwa [hk], hk⟩
  · rintro ⟨d, hd, rfl⟩
    exact ⟨d, hd⟩

theorem holds_eq_any (q : ChangeQueue α) (k : ObjectKey) : q.holds k = q.pending.any (·.key == k) := by
  apply Bool.eq_iff_iff.2
  rw [holds_iff]
  simp

theorem not_holds_iff {k : ObjectKey} : q.holds k = false ↔ ∀ d ∈ q.pending, d.key ≠ k := by
  rw [← Bool.not_eq_true, holds_iff]
  simp

/-- The delta read for a key is the one pending delta of that key. -/
theorem get?_eq_some_iff {k : ObjectKey} {d : Delta α} :
    q.get? k = some d ↔ d ∈ q.pending ∧ d.key = k := by
  rw [mem_pending]
  constructor
  · intro hd
    have hk := q.coherent.key_eq k d hd
    exact ⟨by rwa [hk], hk⟩
  · rintro ⟨hd, rfl⟩
    exact hd

/-- A queue is determined by its pending list and its flags: the order is the list's keys, and
the map holds each delta of the list under its key. -/
theorem ext_pending {q' : ChangeQueue α} (hname : q.name = q'.name) (hpolicy : q.policy = q'.policy)
    (hpending : q.pending = q'.pending) (hclosed : q.closed = q'.closed)
    (hpopulated : q.populated = q'.populated) (hinitial : q.initial = q'.initial) : q = q' := by
  have horder : q.order = q'.order := by rw [← map_key_pending, hpending, map_key_pending]
  have hitems : q.items = q'.items := by
    funext k
    cases hk : q.items k with
    | some d =>
      obtain ⟨hd, hdk⟩ := get?_eq_some_iff.1 hk
      have hd' : q'.get? k = some d := get?_eq_some_iff.2 ⟨hpending ▸ hd, hdk⟩
      exact hd'.symm
    | none =>
      cases hk' : q'.items k with
      | none => rfl
      | some d =>
        obtain ⟨hd, hdk⟩ := (get?_eq_some_iff (q := q')).1 hk'
        have hd' : q.get? k = some d := get?_eq_some_iff.2 ⟨hpending ▸ hd, hdk⟩
        simp [get?, hk] at hd'
  exact ChangeQueue.ext hname hpolicy horder hitems hclosed hpopulated hinitial

/-- Giving a pending key a new delta of that key, by a revision of the old one, revises the list
where the key stands. -/
theorem pending_setItem {key : ObjectKey} {x y : Delta α} {f : Delta α → Option (Delta α)}
    (hx : q.items key = some x) (hf : f x = some y) :
    q.order.filterMap (setItem q.items key y) = reviseAt key f q.pending := by
  rw [pending, reviseAt_filterMap q.coherent.nodup fun _ hk => q.coherent.exists_of_mem hk]
  refine List.filterMap_congr fun k _ => ?_
  by_cases hk : k = key
  · subst hk
    simp [setItem, hx, hf]
  · simp [setItem, hk]

/-- Dropping a pending key, when its revision gives nothing, revises the list where the key
stood. -/
theorem pending_removeKey {key : ObjectKey} {x : Delta α} {f : Delta α → Option (Delta α)}
    (hx : q.items key = some x) (hf : f x = none) :
    (q.removeKey key).pending = reviseAt key f q.pending := by
  unfold pending
  rw [reviseAt_filterMap q.coherent.nodup fun _ hk => q.coherent.exists_of_mem hk]
  simp only [removeKey, List.filterMap_filter]
  refine List.filterMap_congr fun k _ => ?_
  by_cases hk : k = key
  · subst hk
    simp [hx, hf]
  · simp [dropItem, hk]

@[simp] theorem pending_markPopulated (q : ChangeQueue α) : q.markPopulated.pending = q.pending := by
  unfold markPopulated; split <;> rfl

@[simp] theorem policy_markPopulated (q : ChangeQueue α) : q.markPopulated.policy = q.policy := by
  unfold markPopulated; split <;> rfl

@[simp] theorem pending_confirm (q : ChangeQueue α) (k : ObjectKey) : (q.confirm k).pending = q.pending :=
  rfl

@[simp] theorem policy_confirm (q : ChangeQueue α) (k : ObjectKey) : (q.confirm k).policy = q.policy :=
  rfl

@[simp] theorem policy_removeKey (q : ChangeQueue α) (k : ObjectKey) : (q.removeKey k).policy = q.policy :=
  rfl

/-- A push either fails on a closed queue or gives the pending list revised or extended. -/
theorem push_cases {q' : ChangeQueue α} {d : Delta α} (h : q.push d = .ok q') :
    q'.policy = q.policy ∧
      (q.holds d.key = true ∧ q'.pending = reviseAt d.key (Delta.merge q.policy · d) q.pending ∨
        q.holds d.key = false ∧ q'.pending = q.pending ++ [d]) := by
  unfold push at h
  split at h
  · cases h
  · split at h
    · rename_i queued hq
      have hheld : q.holds d.key = true := by simp [holds, hq]
      split at h
      · rename_i merged hm
        cases h
        exact ⟨rfl, .inl ⟨hheld, pending_setItem hq hm⟩⟩
      · rename_i hm
        cases h
        exact ⟨rfl, .inl ⟨hheld, pending_removeKey hq hm⟩⟩
    · rename_i hq
      cases h
      refine ⟨rfl, .inr ⟨by simp [holds, hq], ?_⟩⟩
      simp only [pending, List.filterMap_append,
        filterMap_setItem_of_not_mem d (q.coherent.not_mem hq)]
      simp [setItem]

/-- What a push keeps: the name, the policy and the flags; the initial listing loses the key when
the key leaves the queue. -/
theorem push_fields {q' : ChangeQueue α} {d : Delta α} (h : q.push d = .ok q') :
    q'.name = q.name ∧ q'.policy = q.policy ∧ q'.closed = q.closed ∧ q'.populated = q.populated ∧
      q'.initial = if q'.holds d.key then q.initial else q.initial.filter (· != d.key) := by
  unfold push at h
  split at h
  · cases h
  · split at h
    · split at h
      · cases h
        simp [holds, setItem]
      · cases h
        simp [holds, removeKey, dropItem]
    · cases h
      simp [holds, setItem]

/-- A push to an open queue succeeds and leaves it open. -/
theorem push_open (h : q.closed = false) (d : Delta α) :
    ∃ q', q.push d = .ok q' ∧ q'.closed = false := by
  cases hp : q.push d with
  | error err => simp [push, h] at hp; split at hp <;> (try split at hp) <;> cases hp
  | ok q' => exact ⟨q', rfl, (push_fields hp).2.2.1.trans h⟩

theorem push_closed (h : q.closed = true) (d : Delta α) : q.push d = .error (.closed q.name) := by
  simp [push, h]

/-- A take gives the head delta; the rest of the queue is the rest of the list. -/
theorem take_eq_some {q' : ChangeQueue α} {d : Delta α} (h : q.take = some (d, q')) :
    q.pending = d :: q'.pending ∧ q'.policy = q.policy := by
  unfold take at h
  split at h
  · rename_i d' order ht
    cases h
    obtain ⟨horder, hd, hcoh⟩ := q.coherent.takeNext ht
    have hout : d.key ∉ order := (List.nodup_cons.1 (horder ▸ q.coherent.nodup)).1
    refine ⟨?_, rfl⟩
    simp only [pending, horder, List.filterMap_cons_some hd, filterMap_dropItem_of_not_mem hout]
  · cases h

/-- What a take keeps: everything but the order and the map. -/
theorem take_fields {q' : ChangeQueue α} {d : Delta α} (h : q.take = some (d, q')) :
    q'.name = q.name ∧ q'.closed = q.closed ∧ q'.populated = q.populated ∧ q'.initial = q.initial := by
  unfold take at h
  split at h
  · cases h
    exact ⟨rfl, rfl, rfl, rfl⟩
  · cases h

/-- Nothing is taken from a queue exactly when nothing is pending. -/
theorem take_eq_none : q.take = none ↔ q.pending = [] := by
  constructor
  · intro h
    cases ho : q.order with
    | nil => simp [pending, ho]
    | cons k ks =>
      obtain ⟨d, hd, -⟩ := q.coherent.exists_of_mem (ho ▸ List.mem_cons_self)
      unfold take at h
      split at h
      · cases h
      · rename_i hnone
        simp [ho, takeNext, hd] at hnone
  · intro h
    have ho : q.order = [] := by rw [← map_key_pending, h, List.map_nil]
    unfold take
    split
    · rename_i ht
      simp [ho, takeNext] at ht
    · rfl

/-- With distinct pending keys, no delta left after a take has the taken delta's key. -/
theorem ne_key_of_take {rest : ChangeQueue α} {d : Delta α} (hd : (q.pending.map (·.key)).Nodup)
    (h : q.take = some (d, rest)) : ∀ y ∈ rest.pending, y.key ≠ d.key := by
  have hnd := hd
  rw [(take_eq_some h).1, List.map_cons, List.nodup_cons] at hnd
  exact fun y hy he => hnd.1 (by simpa [he] using Delta.key_mem_keys hy)

/-- A failed delta handed back when no newer delta of its key is pending goes back to the head. -/
theorem requeue_of_not_holds {d : Delta α} (h : q.holds d.key = false) :
    (q.requeue d).pending = d :: q.pending ∧ (q.requeue d).policy = q.policy := by
  have hnone : q.items d.key = none := by simpa [holds] using h
  unfold requeue
  split
  · rename_i newer hn
    simp [hn] at hnone
  · refine ⟨?_, rfl⟩
    simp only [pending, List.filterMap_cons,
      filterMap_setItem_of_not_mem d (q.coherent.not_mem hnone)]
    simp [setItem]

/-- A failed delta handed back while a newer delta of its key is pending merges into it, as the
earlier of the two, where the newer one stands. -/
theorem requeue_of_holds {d : Delta α} (h : q.holds d.key = true) :
    (q.requeue d).pending = reviseAt d.key (Delta.merge q.policy d ·) q.pending ∧
      (q.requeue d).policy = q.policy := by
  unfold requeue
  split
  · rename_i newer hn
    split
    · rename_i merged hm
      exact ⟨pending_setItem hn hm, rfl⟩
    · rename_i hm
      exact ⟨pending_removeKey hn hm, rfl⟩
  · rename_i hn
    simp [holds, hn] at h

/-- What a hand-back keeps: the name and the flags; the initial listing loses the key when the key
leaves the queue. -/
theorem requeue_fields (q : ChangeQueue α) (d : Delta α) :
    (q.requeue d).name = q.name ∧ (q.requeue d).closed = q.closed ∧
      (q.requeue d).populated = q.populated ∧
      (q.requeue d).initial =
        if (q.requeue d).holds d.key then q.initial else q.initial.filter (· != d.key) := by
  generalize hr : q.requeue d = r
  unfold requeue at hr
  split at hr
  · split at hr <;> (subst hr; simp [holds, setItem, removeKey, dropItem])
  · subst hr
    simp [holds, setItem]

@[simp] theorem policy_popReady (q : ChangeQueue α) (handled : Bool) :
    (q.popReady handled).2.policy = q.policy := by
  unfold popReady
  split
  · rfl
  · rename_i d rest ht
    have hpol := (take_eq_some ht).2
    cases handled
    · by_cases hheld : rest.holds d.key = true
      · simp [settle, (requeue_of_holds hheld).2, hpol]
      · simp [settle, (requeue_of_not_holds (by simpa using hheld)).2, hpol]
    · simp [settle, hpol]

/-- A pop of a nonempty queue takes and settles its head. -/
theorem popReady_of_take {rest : ChangeQueue α} {d : Delta α} (h : q.take = some (d, rest))
    (handled : Bool) : q.popReady handled = (if handled then some d else none, rest.settle d handled) := by
  simp [popReady, h]

end Queue

/-! ## Agreement and faithfulness -/

/-- The pending deltas have distinct keys, and each has the effect the table `T` shows for its
key. -/
structure Agrees (q : ChangeQueue α) (T : ObjectKey → Option α) : Prop where
  distinct : (q.pending.map (·.key)).Nodup
  effect : ∀ d ∈ q.pending, T d.key = d.effect

/-- A consumer's copy `M` with the pending deltas applied is the table `T`, one key at a time. -/
structure Faithful (q : ChangeQueue α) (M : Mirror α) (T : ObjectKey → Option α) : Prop
    extends Agrees q T where
  unseen : q.policy = .cancelUnseen → ∀ d ∈ q.pending, d.kind = .added → M d.key = none
  idle : ∀ k, q.holds k = false → M k = T k

/-- A faithful queue replays onto the consumer's copy as the table. -/
theorem Faithful.view {q : ChangeQueue α} {M : Mirror α} {T : ObjectKey → Option α}
    (h : Faithful q M T) : q.pending.foldl Mirror.apply M = T := by
  funext k
  rw [Mirror.foldl_apply M k h.distinct]
  split
  · rename_i d hd
    have hk : d.key = k := by simpa using List.find?_some hd
    rw [← hk, h.effect d (List.mem_of_find?_eq_some hd)]
  · rename_i hd
    refine h.idle k ?_
    simpa [holds_eq_any] using fun d hm hk => List.find?_eq_none.1 hd d hm (by simpa using hk)

/-- A faithful queue that is empty leaves the consumer's copy equal to the table. -/
theorem Faithful.eq_of_empty {q : ChangeQueue α} {M : Mirror α} {T : ObjectKey → Option α}
    (h : Faithful q M T) (he : q.pending = []) : M = T := by
  simpa [he] using h.view

theorem Agrees.of_pending_eq {q q' : ChangeQueue α} {T : ObjectKey → Option α} (h : Agrees q T)
    (he : q'.pending = q.pending) : Agrees q' T :=
  ⟨he ▸ h.distinct, he ▸ h.effect⟩

theorem Faithful.of_pending_eq {q q' : ChangeQueue α} {M : Mirror α} {T : ObjectKey → Option α}
    (h : Faithful q M T) (he : q'.pending = q.pending) (hp : q'.policy = q.policy) :
    Faithful q' M T where
  toAgrees := h.toAgrees.of_pending_eq he
  unseen := hp ▸ he ▸ h.unseen
  idle k hk := h.idle k (by simpa [holds_eq_any, he] using hk)

/-- A delta of a key with nothing pending, put last, keeps the agreement of the rest. -/
theorem Agrees.append_of_free {q q' : ChangeQueue α} {T : ObjectKey → Option α} {d : Delta α}
    (h : Agrees q T) (hpend : q'.pending = q.pending ++ [d]) (hne : ∀ y ∈ q.pending, y.key ≠ d.key) :
    Agrees q' (Function.update T d.key d.effect) := by
  refine ⟨?_, fun y hy => ?_⟩
  · rw [hpend, List.map_append, List.nodup_append]
    refine ⟨h.distinct, by simp, fun a ha b hb hab => ?_⟩
    obtain ⟨y, hy, rfl⟩ := List.mem_map.1 ha
    simp only [List.map_cons, List.map_nil, List.mem_singleton] at hb
    exact hne y hy (hab.trans hb)
  · rw [hpend] at hy
    rcases List.mem_append.1 hy with hy | hy
    · rw [Function.update_of_ne (hne y hy)]
      exact h.effect y hy
    · rw [List.mem_singleton.1 hy, Function.update_self]

/-- Under `retainDeletes` a push of any kind keeps the queue in agreement with the table it
describes. -/
theorem Agrees.push_retain {q q' : ChangeQueue α} {T : ObjectKey → Option α} {d : Delta α}
    (h : Agrees q T) (hp : q.policy = .retainDeletes) (hq : q.push d = .ok q') :
    Agrees q' (Function.update T d.key d.effect) := by
  obtain ⟨-, ⟨-, hpend⟩ | ⟨hfree, hpend⟩⟩ := push_cases hq
  · rw [hp] at hpend
    refine ⟨hpend ▸ h.distinct.sublist
      (keys_reviseAt_sublist (fun _ _ _ hm => Delta.key_of_merge hm) _), fun y hy => ?_⟩
    rw [hpend] at hy
    rcases mem_reviseAt h.distinct hy with ⟨hy, hne⟩ | ⟨x, -, -, hm⟩
    · rw [Function.update_of_ne hne]
      exact h.effect y hy
    · obtain ⟨m, hm', hk, he⟩ := Delta.merge_retain x d
      rw [hm] at hm'
      cases hm'
      rw [hk, Function.update_self, he]
  · exact h.append_of_free hpend (not_holds_iff.1 hfree)

theorem mem_push_of_ne {q q' : ChangeQueue α} {d x : Delta α} (hq : q.push d = .ok q')
    (hx : x ∈ q.pending) (hk : x.key ≠ d.key) : x ∈ q'.pending := by
  obtain ⟨-, ⟨-, hpend⟩ | ⟨-, hpend⟩⟩ := push_cases hq <;> rw [hpend]
  · exact mem_reviseAt_of_ne hx hk
  · exact List.mem_append_left _ hx

/-- Under `retainDeletes` a push leaves its key pending with the pushed delta's effect. -/
theorem push_retain_effect {q q' : ChangeQueue α} {d : Delta α}
    (hnd : (q.pending.map (·.key)).Nodup) (hp : q.policy = .retainDeletes)
    (hq : q.push d = .ok q') : ∃ m ∈ q'.pending, m.key = d.key ∧ m.effect = d.effect := by
  obtain ⟨-, ⟨hheld, hpend⟩ | ⟨-, hpend⟩⟩ := push_cases hq
  · obtain ⟨x, hx, hxk⟩ := holds_iff.1 hheld
    obtain ⟨m, hm, hmk, hme⟩ := Delta.merge_retain x d
    rw [hp] at hpend
    exact ⟨m, hpend ▸ mem_reviseAt_self hx hxk hnd hm, hmk, hme⟩
  · exact ⟨d, by simp [hpend], rfl, rfl⟩

/-- After a push the pushed key is pending, unless it cancelled out. -/
theorem holds_of_push {q q' : ChangeQueue α} {d x : Delta α} (h : (q.pending.map (·.key)).Nodup)
    (hq : q.push d = .ok q') (hx : x ∈ q.pending) (hxk : x.key = d.key)
    (hm : (Delta.merge q.policy x d).isSome) : q'.holds d.key = true := by
  obtain ⟨-, ⟨-, hpend⟩ | ⟨hfree, -⟩⟩ := push_cases hq
  · obtain ⟨m, hm⟩ := Option.isSome_iff_exists.1 hm
    exact holds_iff.2 ⟨m, hpend ▸ mem_reviseAt_self hx hxk h hm, Delta.key_of_merge hm⟩
  · exact absurd hxk (not_holds_iff.1 hfree x hx)

theorem holds_push_of_ne {q q' : ChangeQueue α} {d : Delta α} {k : ObjectKey}
    (h : (q.pending.map (·.key)).Nodup) (hq : q.push d = .ok q') (hk : k ≠ d.key) :
    q'.holds k = q.holds k := by
  obtain ⟨-, ⟨-, hpend⟩ | ⟨-, hpend⟩⟩ := push_cases hq
  · apply Bool.eq_iff_iff.2
    rw [holds_iff, holds_iff, hpend]
    constructor
    · rintro ⟨y, hy, rfl⟩
      rcases mem_reviseAt h hy with ⟨hy, -⟩ | ⟨x, -, hxk, hm⟩
      · exact ⟨y, hy, rfl⟩
      · exact absurd (Delta.key_of_merge hm) hk
    · rintro ⟨y, hy, rfl⟩
      exact ⟨y, mem_reviseAt_of_ne hy hk, rfl⟩
  · simp [holds_eq_any, hpend, Ne.symm hk]

/-- Under `retainDeletes` a push leaves pending the keys pending before it and its own. -/
theorem holds_push_retain {q q' : ChangeQueue α} {d : Delta α} (h : (q.pending.map (·.key)).Nodup)
    (hp : q.policy = .retainDeletes) (hq : q.push d = .ok q') (k : ObjectKey) :
    q'.holds k = (k == d.key || q.holds k) := by
  by_cases hk : k = d.key
  · subst hk
    obtain ⟨m, hm, hmk, -⟩ := push_retain_effect h hp hq
    simpa using holds_iff.2 ⟨m, hm, hmk⟩
  · simp [hk, holds_push_of_ne h hq hk]

/-- After a taken delta is settled, the pending keys are those of the rest, and the delta's own
when it is handed back. -/
theorem holds_settle {rest : ChangeQueue α} {d : Delta α} (hfree : rest.holds d.key = false)
    (handled : Bool) (k : ObjectKey) :
    (rest.settle d handled).holds k = (!handled && d.key == k || rest.holds k) := by
  cases handled
  · simp [settle, holds_eq_any, (requeue_of_not_holds hfree).1]
  · simp [settle, holds_eq_any]

/-- Under `retainDeletes` a push of any kind keeps the queue faithful to the table it
describes: the pushed key stays pending, so the consumer's copy has nothing to match yet. -/
theorem Faithful.push_retain {q q' : ChangeQueue α} {M : Mirror α} {T : ObjectKey → Option α}
    {d : Delta α} (h : Faithful q M T) (hp : q.policy = .retainDeletes) (hq : q.push d = .ok q') :
    Faithful q' M (Function.update T d.key d.effect) where
  toAgrees := h.toAgrees.push_retain hp hq
  unseen hc := by simp [(push_cases hq).1, hp] at hc
  idle k hk := by
    have hne : k ≠ d.key := by
      rintro rfl
      obtain ⟨-, ⟨hheld, -⟩ | ⟨-, hpend⟩⟩ := push_cases hq
      · obtain ⟨x, hx, hxk⟩ := holds_iff.1 hheld
        obtain ⟨m, hm, -⟩ := Delta.merge_retain x d
        have := holds_of_push h.distinct hq hx hxk (by simp [hp, hm])
        simp_all
      · simp [holds_eq_any, hpend] at hk
    rw [Function.update_of_ne hne]
    exact h.idle k (by rwa [← holds_push_of_ne h.distinct hq hne])

/-- Under `cancelUnseen` a push keeps the queue faithful when its kind is honest: an addition
exactly when the table lacks the key. An addition and a deletion that cancel out leave a key
the consumer never saw. -/
theorem Faithful.push_cancel {q q' : ChangeQueue α} {M : Mirror α} {T : ObjectKey → Option α}
    {d : Delta α} (h : Faithful q M T) (hp : q.policy = .cancelUnseen)
    (hd : d.kind = .added ↔ T d.key = none) (hq : q.push d = .ok q') :
    Faithful q' M (Function.update T d.key d.effect) := by
  obtain ⟨hp', ⟨hheld, hpend⟩ | ⟨hfree, hpend⟩⟩ := push_cases hq
  · rw [hp] at hpend
    obtain ⟨x, hx, hxk⟩ := holds_iff.1 hheld
    refine ⟨⟨?_, fun y hy => ?_⟩, fun _ y hy hya => ?_, fun k hk => ?_⟩
    · exact hpend ▸ h.distinct.sublist
        (keys_reviseAt_sublist (fun _ _ _ hm => Delta.key_of_merge hm) _)
    · rw [hpend] at hy
      rcases mem_reviseAt h.distinct hy with ⟨hy, hne⟩ | ⟨x', -, -, hm⟩
      · rw [Function.update_of_ne hne]
        exact h.effect y hy
      · obtain ⟨hk, he, -⟩ := Delta.merge_cancel hm
        rw [hk, Function.update_self, he]
    · rw [hpend] at hy
      rcases mem_reviseAt h.distinct hy with ⟨hy, -⟩ | ⟨x', hx', hxk', hm⟩
      · exact h.unseen hp y hy hya
      · obtain ⟨hk, -, hadd⟩ := Delta.merge_cancel hm
        rw [hk, ← hxk']
        exact h.unseen hp x' hx' (hadd hya)
    · by_cases hne : k = d.key
      · subst hne
        -- the key left the queue, so its pending addition met a deletion
        have hnone : Delta.merge .cancelUnseen x d = none := by
          cases hm : Delta.merge .cancelUnseen x d
          · rfl
          · have := holds_of_push h.distinct hq hx hxk (by simp [hp, hm])
            simp_all
        obtain ⟨hxa, hdd⟩ := Delta.merge_cancel_eq_none.1 hnone
        rw [Function.update_self, Delta.effect_eq_none.2 hdd, ← hxk]
        exact h.unseen hp x hx hxa
      · rw [Function.update_of_ne hne]
        exact h.idle k (by rwa [← holds_push_of_ne h.distinct hq hne])
  · have hne := not_holds_iff.1 hfree
    refine ⟨h.toAgrees.append_of_free hpend hne, fun _ y hy hya => ?_, fun k hk => ?_⟩
    · rw [hpend] at hy
      rcases List.mem_append.1 hy with hy | hy
      · exact h.unseen hp y hy hya
      · rw [List.mem_singleton.1 hy] at hya ⊢
        rw [h.idle d.key hfree]
        exact hd.1 hya
    · have hk' : k ≠ d.key := fun he => by simp [holds_eq_any, hpend, he] at hk
      rw [Function.update_of_ne hk']
      exact h.idle k (by rwa [← holds_push_of_ne h.distinct hq hk'])

/-- A pop keeps the queue faithful; the consumer's copy takes the delta its handler accepted,
and a delta handed back returns to the head. -/
theorem Faithful.popReady {q : ChangeQueue α} {M : Mirror α} {T : ObjectKey → Option α}
    (h : Faithful q M T) (handled : Bool) :
    Faithful (q.popReady handled).2 (M.accept (q.popReady handled).1) T := by
  unfold ChangeQueue.popReady
  split
  · exact h
  · rename_i d rest ht
    obtain ⟨hpend, hpol⟩ := take_eq_some ht
    have hne := ne_key_of_take h.distinct ht
    cases handled
    · have hfree : rest.holds d.key = false := not_holds_iff.2 hne
      obtain ⟨hpend', hpol'⟩ := requeue_of_not_holds hfree
      exact h.of_pending_eq (by simp [settle, hpend', hpend]) (by simp [settle, hpol', hpol])
    · have hmem : ∀ y ∈ rest.pending, y ∈ q.pending := fun y hy => by simp [hpend, hy]
      refine ⟨⟨?_, fun y hy => h.effect y (hmem y hy)⟩, fun hc y hy hya => ?_, fun k hk => ?_⟩
      · have := h.distinct
        rw [hpend, List.map_cons, List.nodup_cons] at this
        simpa [settle] using this.2
      · simp only [settle, if_true, policy_confirm, pending_confirm] at hc hy
        simp only [Mirror.accept, if_true, Mirror.apply, Function.update_of_ne (hne y hy)]
        exact h.unseen (hpol ▸ hc) y (hmem y hy) hya
      · simp only [Mirror.accept, if_true, Mirror.apply]
        by_cases hkd : k = d.key
        · subst hkd
          rw [Function.update_self]
          exact (h.effect d (by simp [hpend])).symm
        · rw [Function.update_of_ne hkd]
          refine h.idle k (not_holds_iff.2 fun y hy hyk => ?_)
          rw [hpend] at hy
          rcases List.mem_cons.1 hy with rfl | hy
          · exact hkd hyk.symm
          · exact absurd hyk (not_holds_iff.1 hk y (by simpa [settle] using hy))

/-! ## What the pending deltas carry -/

/-- Every pending delta's key and payload satisfy `Q`. -/
def Carries (Q : ObjectKey → α → Prop) (q : ChangeQueue α) : Prop :=
  ∀ d ∈ q.pending, Q d.key d.payload

section
variable {Q : ObjectKey → α → Prop} {q : ChangeQueue α}

theorem Carries.of_pending_eq {q' : ChangeQueue α} (h : q.Carries Q) (he : q'.pending = q.pending) :
    q'.Carries Q :=
  fun d hd => h d (he ▸ hd)

/-- A push keeps what the pushed delta carries: a merged delta carries the later key and
payload. -/
theorem Carries.push (h : q.Carries Q) {d : Delta α} (hd : Q d.key d.payload) {q' : ChangeQueue α}
    (hq : q.push d = .ok q') : q'.Carries Q := by
  intro y hy
  obtain ⟨-, ⟨-, hpend⟩ | ⟨-, hpend⟩⟩ := push_cases hq <;> rw [hpend] at hy
  · rcases mem_reviseAt_cases hy with hy | ⟨x, -, hm⟩
    · exact h y hy
    · rw [Delta.key_of_merge hm, Delta.payload_of_merge hm]
      exact hd
  · rcases List.mem_append.1 hy with hy | hy
    · exact h y hy
    · rw [List.mem_singleton.1 hy]
      exact hd

/-- The head delta and the rest of the queue carry what the queue carries. -/
theorem Carries.take (h : q.Carries Q) {d : Delta α} {rest : ChangeQueue α}
    (ht : q.take = some (d, rest)) : Q d.key d.payload ∧ rest.Carries Q := by
  have hpend := (take_eq_some ht).1
  exact ⟨h d (by simp [hpend]), fun y hy => h y (by simp [hpend, hy])⟩

/-- Settling a taken delta keeps what it carries: handed back, it merges as the earlier into a
newer delta of its key, which keeps the newer key and payload. -/
theorem Carries.settle (h : q.Carries Q) {d : Delta α} (hd : Q d.key d.payload) (handled : Bool) :
    (q.settle d handled).Carries Q := by
  cases handled with
  -- inside `Carries.settle`, the plain name would be this theorem
  | true => exact h.of_pending_eq (by simp [ChangeQueue.settle])
  | false =>
    intro y hy
    simp only [ChangeQueue.settle, Bool.false_eq_true, if_false] at hy
    cases hheld : q.holds d.key
    · rw [(requeue_of_not_holds hheld).1] at hy
      rcases List.mem_cons.1 hy with rfl | hy
      · exact hd
      · exact h y hy
    · rw [(requeue_of_holds hheld).1] at hy
      rcases mem_reviseAt_cases hy with hy | ⟨x, hx, hm⟩
      · exact h y hy
      · rw [Delta.key_of_merge hm, Delta.payload_of_merge hm]
        exact h x hx

end

end ChangeQueue

end MeterMatch
