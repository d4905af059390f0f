import MeterMatch.Proofs.IndexRebuild

/-! # Runs of writes on an indexed table

Seen from outside, a table with an inverted index is an association list in insertion order
(`Indexed.Write.onList`): an upsert stores its item in its key's place, or last for a new key, a
remove drops the key and the others keep their order, and each gives the key's previous item.
From an empty table, every run of upserts and removes is that run on the list, whatever the
index function gives (repeated values included), and the index stays exact
(`Indexed.replay_refines_list`):

* `Indexed.Exact`: the table is well formed and its sets are ascending. A write on an exact
  table succeeds as the list says and leaves it exact (`Indexed.Exact.run`); so does a run of
  writes (`Indexed.Exact.replay`).
* `Indexed.Exact.index_eq_rebuild`: the index is, value by value, the one built afresh from the
  items; so the check passes (`Indexed.WF.verify`).
* `Indexed.Exact.byIndex`: the items under a value are those of an ascending list of exactly the
  keys whose items name the value.
* `Indexed.Exact.indexValues`: the indexed values are ascending, and are the values some item
  names.
-/

namespace MeterMatch

namespace ObjectKey

theorem rank_injective : Function.Injective rank := by
  intro a b h
  obtain ⟨ns, n⟩ := a
  obtain ⟨ns', n'⟩ := b
  obtain ⟨hns, hn⟩ := Prod.mk.inj (toLex.injective h)
  simp only at hns hn
  rw [hns, hn]

theorem le_iff_rank {a b : ObjectKey} : ObjectKey.le a b = true ↔ a.rank ≤ b.rank := by
  rw [ObjectKey.le, bne_iff_ne, ne_eq, compare_eq_gt_iff, not_lt]

/-- Sorting keys without repeats lists them ascending. -/
theorem ascending_sort {l : List ObjectKey} (h : l.Nodup) : Ascending (sort l) := by
  -- the sort orders by `le`, a total preorder on ranks
  have htrans : ∀ a b c, ObjectKey.le a b = true → ObjectKey.le b c = true →
      ObjectKey.le a c = true := fun _ _ _ hab hbc =>
    le_iff_rank.2 ((le_iff_rank.1 hab).trans (le_iff_rank.1 hbc))
  have htotal : ∀ a b, (ObjectKey.le a b || ObjectKey.le b a) = true := fun a b => by
    rw [Bool.or_eq_true, le_iff_rank, le_iff_rank]
    exact le_total a.rank b.rank
  have hsorted := List.pairwise_mergeSort htrans htotal l
  have hnd : (sort l).Nodup := (List.mergeSort_perm l _).nodup_iff.2 h
  exact (hsorted.and (List.nodup_iff_pairwise_ne.1 hnd)).imp fun ⟨hle, hne⟩ =>
    lt_of_le_of_ne (le_iff_rank.1 hle) fun he => hne (rank_injective he)

end ObjectKey

namespace Indexed

variable {α : Type}

/-- An index that lists each value once with a non-empty set gives a value its set, or nothing
when it lists no key under it. -/
theorem IndexOk.lookupAt_eq {ix : List (ObjectKey × List ObjectKey)} (h : IndexOk ix)
    (v : ObjectKey) : lookupAt ix v = if keysAt ix v = [] then none else some (keysAt ix v) := by
  cases hl : lookupAt ix v with
  | none => simp [keysAt, hl]
  | some ks =>
    have hne : ks ≠ [] := h.nonempty _ (mem_of_lookupAt_eq_some hl)
    simp [keysAt, hl, hne]

/-! ## Writes and their list model -/

/-- A write to a table: an item stored under a key, or a key dropped. -/
inductive Write (α : Type) where
  | upsert (k : ObjectKey) (item : α)
  | remove (k : ObjectKey)

namespace Write

/-- The write on a table: the key's previous item or a fault, and the table after it. -/
def run (t : Indexed α) : Write α → Except IndexFault (Option α) × Indexed α
  | upsert k item => t.upsert k item
  | remove k => t.remove k

/-- The write on an association list in insertion order: the key's previous item, and the list
with the item in its key's place (last for a new key), or without the key. -/
def onList (l : List (ObjectKey × α)) : Write α → Option α × List (ObjectKey × α)
  | upsert k item => (lookupAt l k, putAt l k item)
  | remove k => (lookupAt l k, l.filter (·.1 != k))

end Write

/-- Writes made in turn, giving what each returned; the first fault stops them. -/
def replay (t : Indexed α) : List (Write α) → Except IndexFault (List (Option α) × Indexed α)
  | [] => .ok ([], t)
  | w :: ws =>
    match w.run t with
    | (.error f, _) => .error f
    | (.ok p, t') => do
      let s ← replay t' ws
      return (p :: s.1, s.2)

/-- Writes made in turn on an association list, giving what each returned. -/
def replayList (l : List (ObjectKey × α)) :
    List (Write α) → List (Option α) × List (ObjectKey × α)
  | [] => ([], l)
  | w :: ws =>
    let s := replayList (w.onList l).2 ws
    ((w.onList l).1 :: s.1, s.2)

/-! ## Exact tables -/

/-- A table whose index is exactly what its items give, each set ascending. -/
structure Exact (t : Indexed α) : Prop where
  wf : t.WF
  ascending : SetsAscending t.index

theorem Exact.empty (f : α → List ObjectKey) : Exact ({ indexOf := f } : Indexed α) :=
  ⟨⟨by simp, ⟨by simp, by simp⟩, fun k v => by simp [keysUnder, get?]⟩, by simp [SetsAscending]⟩

variable {t : Indexed α}

/-- A write on an exact table succeeds as on its list of items, and leaves the table exact. -/
theorem Exact.run (h : t.Exact) (w : Write α) :
    ∃ t', w.run t = (.ok (w.onList t.items).1, t') ∧ t'.items = (w.onList t.items).2 ∧
      t'.indexOf = t.indexOf ∧ t'.Exact := by
  cases w with
  | upsert k item =>
    obtain ⟨t', hup, hwf, hix, -⟩ := h.wf.upsert k item
    exact ⟨t', hup, upsert_items hup, hix, hwf, h.ascending.upsert hup⟩
  | remove k =>
    obtain ⟨t', hrem, hwf, hix, -⟩ := h.wf.remove k
    exact ⟨t', hrem, remove_items hrem, hix, hwf, h.ascending.remove hrem⟩

/-- Writes made in turn on an exact table succeed as on its list of items, and leave it exact. -/
theorem Exact.replay (h : t.Exact) (ws : List (Write α)) :
    ∃ t', t.replay ws = .ok ((replayList t.items ws).1, t') ∧
      t'.items = (replayList t.items ws).2 ∧ t'.indexOf = t.indexOf ∧ t'.Exact := by
  induction ws generalizing t with
  | nil => exact ⟨t, rfl, rfl, rfl, h⟩
  | cons w ws ih =>
    obtain ⟨t₁, hrun, hitems, hix, h₁⟩ := h.run w
    obtain ⟨t₂, hrest, hitems₂, hix₂, h₂⟩ := ih h₁
    rw [hitems] at hrest hitems₂
    refine ⟨t₂, ?_, hitems₂, hix₂.trans hix, h₂⟩
    simp only [Indexed.replay, hrun, bind, Except.bind, hrest]
    rfl

/-- The index of an exact table is, value by value, the one built afresh from its items. -/
theorem Exact.index_eq_rebuild (h : t.Exact) (v : ObjectKey) :
    lookupAt t.index v = lookupAt t.rebuild v := by
  rw [h.wf.index.lookupAt_eq, (rebuild_ok t).1.lookupAt_eq, h.wf.keysAt_rebuild h.ascending,
    keysUnder_eq]

/-- The items under a value of an exact table are those of an ascending list of exactly the keys
whose items name the value. -/
theorem Exact.byIndex (h : t.Exact) (v : ObjectKey) :
    ∃ ks, ObjectKey.Ascending ks ∧ (∀ k, k ∈ ks ↔ ∃ a, t.get? k = some a ∧ v ∈ t.indexOf a) ∧
      t.byIndex v = .ok (ks.filterMap t.get?) :=
  ⟨t.keysUnder v, keysUnder_eq t v ▸ h.ascending.keysAt v, fun k => h.wf.listed k v,
    h.wf.byIndex_eq v⟩

/-- The indexed values of an exact table are ascending, and are the values some item names. -/
theorem Exact.indexValues (h : t.Exact) :
    ObjectKey.Ascending t.indexValues ∧
      ∀ v, v ∈ t.indexValues ↔ ∃ k a, t.get? k = some a ∧ v ∈ t.indexOf a :=
  ⟨ObjectKey.ascending_sort h.wf.index.values, fun _ => h.wf.mem_indexValues⟩

/-! ## Runs from an empty table -/

/-- From an empty table, every run of upserts and removes succeeds write by write as on an
association list in insertion order, each write giving its key's previous item, and the index
stays exact: value by value it is the one built afresh from the items, no set of it is empty,
and the check passes; the items under a value are those of the keys whose items name it, each
once, in key order; the indexed values are the values some item names, ascending. -/
theorem replay_refines_list (f : α → List ObjectKey) (ws : List (Write α)) :
    ∃ t : Indexed α, ({ indexOf := f } : Indexed α).replay ws = .ok ((replayList [] ws).1, t) ∧
      t.items = (replayList [] ws).2 ∧
      (∀ v, lookupAt t.index v = lookupAt t.rebuild v) ∧ (∀ e ∈ t.index, e.2 ≠ []) ∧
      (∀ v k, k ∈ t.keysUnder v ↔ ∃ a, t.get? k = some a ∧ v ∈ f a) ∧ t.verify = .ok () ∧
      (∀ v, ∃ ks, ObjectKey.Ascending ks ∧ (∀ k, k ∈ ks ↔ ∃ a, t.get? k = some a ∧ v ∈ f a) ∧
        t.byIndex v = .ok (ks.filterMap t.get?)) ∧
      ObjectKey.Ascending t.indexValues ∧
      ∀ v, v ∈ t.indexValues ↔ ∃ k a, t.get? k = some a ∧ v ∈ f a := by
  obtain ⟨t, hrun, hitems, hix, h⟩ := (Exact.empty f).replay ws
  have hf : t.indexOf = f := hix
  obtain ⟨hasc, hvalues⟩ := h.indexValues
  rw [hf] at hvalues
  refine ⟨t, hrun, hitems, h.index_eq_rebuild, h.wf.index.nonempty, fun v k => ?_,
    h.wf.verify h.ascending, fun v => ?_, hasc, hvalues⟩
  · rw [h.wf.listed, hf]
  · rw [← hf]
    exact h.byIndex v

end Indexed

end MeterMatch
