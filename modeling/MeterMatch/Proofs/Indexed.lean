import MeterMatch.Indexed

/-! # Well-formed indexed tables

`Indexed.WF t`: every key is stored once, every value is indexed once with a non-empty set,
and a key is listed under a value exactly when its item names that value. Writes keep it, and
under it they cannot fail:

* `keysAt_listUnder`, `keysAt_unlistUnder`: listing and unlisting one key change one set.
* `WF.upsert`, `WF.remove`: the writes succeed, keep the table well formed, and change what
  one key holds.
* `WF.byIndex_eq`, `WF.byIndex_ok`: reading the items under a value never meets a dangling
  key, and gives the items of the keys listed under it, exactly the items that name the value.
* `WF.mem_indexValues`: a value is indexed exactly when some item names it.
-/

namespace MeterMatch

namespace ObjectKey

theorem compare_eq_iff {a b : ObjectKey} : ObjectKey.compare a b = .eq ↔ a = b := by
  obtain ⟨ns, n⟩ := a
  obtain ⟨ns', n'⟩ := b
  cases ns <;> cases ns' <;> simp [ObjectKey.compare]

@[simp] theorem mem_insertSorted {k k' : ObjectKey} :
    ∀ {l : List ObjectKey}, k' ∈ k.insertSorted l ↔ k' = k ∨ k' ∈ l
  | [] => by simp [insertSorted]
  | x :: rest => by
    unfold insertSorted
    split
    · simp
    · rename_i h
      rw [compare_eq_iff.1 h]
      simp
    · rw [List.mem_cons, mem_insertSorted, List.mem_cons]
      exact or_left_comm

end ObjectKey

namespace Indexed

variable {α : Type}

/-! ## Keyed lists -/

section
variable {β : Type}

/-- What a keyed list holds for a key: the value of its first entry for the key. -/
def lookupAt (l : List (ObjectKey × β)) (k : ObjectKey) : Option β :=
  (l.find? (·.1 == k)).map (·.2)

@[simp] theorem lookupAt_nil (k : ObjectKey) : lookupAt ([] : List (ObjectKey × β)) k = none := rfl

theorem lookupAt_cons (e : ObjectKey × β) (l : List (ObjectKey × β)) (k : ObjectKey) :
    lookupAt (e :: l) k = if e.1 = k then some e.2 else lookupAt l k := by
  by_cases h : e.1 = k <;> simp [lookupAt, h]

theorem lookupAt_eq_none {l : List (ObjectKey × β)} {k : ObjectKey} :
    lookupAt l k = none ↔ k ∉ l.map (·.1) := by
  induction l with
  | nil => simp
  | cons e l ih =>
    rw [lookupAt_cons, List.map_cons, List.mem_cons]
    by_cases h : e.1 = k
    · simp [h]
    · simp [h, Ne.symm h, ih]

/-- In a list with distinct keys an entry is what its key looks up. -/
theorem lookupAt_eq_some_iff {l : List (ObjectKey × β)} (h : (l.map (·.1)).Nodup)
    {k : ObjectKey} {b : β} : lookupAt l k = some b ↔ (k, b) ∈ l := by
  induction l with
  | nil => simp
  | cons e l ih =>
    obtain ⟨hnot, hl⟩ := List.nodup_cons.1 h
    rw [lookupAt_cons, List.mem_cons]
    by_cases he : e.1 = k
    · subst he
      have : (e.1, b) ∉ l := fun hm => hnot (List.mem_map.2 ⟨_, hm, rfl⟩)
      obtain ⟨k, b'⟩ := e
      simp_all [eq_comm]
    · have : (k, b) ≠ e := fun h' => he (h' ▸ rfl)
      simp [he, ih hl, this]

theorem mem_of_lookupAt_eq_some {l : List (ObjectKey × β)} {k : ObjectKey} {b : β}
    (h : lookupAt l k = some b) : (k, b) ∈ l := by
  induction l with
  | nil => simp at h
  | cons e l ih =>
    rw [lookupAt_cons] at h
    split at h
    · rename_i he
      cases h
      subst he
      exact List.mem_cons_self
    · exact List.mem_cons_of_mem _ (ih h)

theorem lookupAt_append_of_not_mem {l : List (ObjectKey × β)} {k : ObjectKey}
    (h : k ∉ l.map (·.1)) (b : β) (w : ObjectKey) :
    lookupAt (l ++ [(k, b)]) w = if w = k then some b else lookupAt l w := by
  induction l with
  | nil =>
    by_cases hw : w = k
    · simp [lookupAt_cons, hw]
    · simp [lookupAt_cons, hw, Ne.symm hw]
  | cons e l ih =>
    simp only [List.map_cons, List.mem_cons, not_or] at h
    rw [List.cons_append, lookupAt_cons, ih h.2, lookupAt_cons]
    by_cases he : e.1 = w
    · subst he
      simp [Ne.symm h.1]
    · simp [he]

/-- Revising the entries of `k` in place changes what `k` looks up, and nothing else. -/
theorem lookupAt_map_revise (g : β → β) (k w : ObjectKey) :
    ∀ l : List (ObjectKey × β),
      lookupAt (l.map fun e => if e.1 == k then (k, g e.2) else e) w =
        if w = k then (lookupAt l k).map g else lookupAt l w
  | [] => by simp
  | e :: l => by
    rw [List.map_cons, lookupAt_cons, lookupAt_map_revise g k w l, lookupAt_cons, lookupAt_cons]
    by_cases he : e.1 = k
    · subst he
      by_cases hw : w = e.1
      · subst hw
        simp
      · simp [hw, Ne.symm hw]
    · by_cases hw : e.1 = w
      · subst hw
        simp [he]
      · simp [he, hw]

theorem keys_map_revise (g : β → β) (k : ObjectKey) (l : List (ObjectKey × β)) :
    (l.map fun e => if e.1 == k then (k, g e.2) else e).map (·.1) = l.map (·.1) := by
  rw [List.map_map]
  exact List.map_congr_left fun e _ => by by_cases he : e.1 = k <;> simp [he]

theorem lookupAt_filter_ne (k w : ObjectKey) (l : List (ObjectKey × β)) :
    lookupAt (l.filter (·.1 != k)) w = if w = k then none else lookupAt l w := by
  induction l with
  | nil => simp
  | cons e l ih =>
    rw [List.filter_cons, lookupAt_cons]
    by_cases he : e.1 = k
    · simp only [he, bne_self_eq_false, Bool.false_eq_true, if_false, ih]
      by_cases hw : w = k
      · simp [hw]
      · simp [hw, Ne.symm hw]
    · have hb : (e.1 != k) = true := by simpa using he
      rw [if_pos hb, lookupAt_cons, ih]
      by_cases hw : w = k
      · subst hw
        simp [he]
      · simp [hw]

/-- An entry stored in its key's place, or last when the key is new: what an upsert does to the
entries. -/
def putAt (l : List (ObjectKey × β)) (k : ObjectKey) (b : β) : List (ObjectKey × β) :=
  if l.any (·.1 == k) then l.map fun e => if e.1 == k then (k, b) else e else l ++ [(k, b)]

theorem any_key_iff {l : List (ObjectKey × β)} {k : ObjectKey} :
    l.any (·.1 == k) = true ↔ k ∈ l.map (·.1) := by
  simp [List.any_eq_true]

theorem keys_putAt (l : List (ObjectKey × β)) (k : ObjectKey) (b : β) :
    (putAt l k b).map (·.1) = if k ∈ l.map (·.1) then l.map (·.1) else l.map (·.1) ++ [k] := by
  unfold putAt
  by_cases hk : k ∈ l.map (·.1)
  · rw [if_pos (any_key_iff.2 hk), if_pos hk]
    exact keys_map_revise (fun _ => b) k l
  · rw [if_neg (mt any_key_iff.1 hk), if_neg hk, List.map_append]
    rfl

/-- The entries after a put: the new one, and the others of other keys. -/
theorem mem_putAt {l : List (ObjectKey × β)} {k : ObjectKey} {b : β} {x : ObjectKey × β} :
    x ∈ putAt l k b ↔ x = (k, b) ∨ (x ∈ l ∧ x.1 ≠ k) := by
  unfold putAt
  split
  · rename_i hany
    obtain ⟨e, he, hek⟩ := List.any_eq_true.1 hany
    simp only [List.mem_map]
    constructor
    · rintro ⟨y, hy, rfl⟩
      by_cases hyk : y.1 = k
      · simp [hyk]
      · simp [hyk, hy]
    · rintro (rfl | ⟨hx, hxk⟩)
      · exact ⟨e, he, by simp_all⟩
      · exact ⟨x, hx, by simp [hxk]⟩
  · rename_i hany
    simp only [List.mem_append, List.mem_singleton]
    constructor
    · rintro (hx | rfl)
      · exact .inr ⟨hx, fun hxk => hany (List.any_eq_true.2 ⟨x, hx, by simp [hxk]⟩)⟩
      · exact .inl rfl
    · rintro (rfl | ⟨hx, -⟩)
      · exact .inr rfl
      · exact .inl hx

/-- Putting what a key already holds changes nothing, when keys are distinct. -/
theorem putAt_of_lookupAt {l : List (ObjectKey × β)} (hnd : (l.map (·.1)).Nodup) {k : ObjectKey}
    {b : β} (h : lookupAt l k = some b) : putAt l k b = l := by
  have hmem := mem_of_lookupAt_eq_some h
  unfold putAt
  rw [if_pos (List.any_eq_true.2 ⟨_, hmem, by simp⟩)]
  refine (List.map_congr_left fun e he => ?_).trans (List.map_id _)
  by_cases hek : e.1 = k
  · -- the only entry of `k` is the one it looks up
    have hl : lookupAt l e.1 = some e.2 := (lookupAt_eq_some_iff hnd).2 he
    rw [hek, h, Option.some.injEq] at hl
    have : e = (k, b) := by
      obtain ⟨e1, e2⟩ := e
      simp_all
    simp [this]
  · simp [hek]

end

/-! ## Index lists -/

/-- The keys an index list gives a value. -/
def keysAt (ix : List (ObjectKey × List ObjectKey)) (v : ObjectKey) : List ObjectKey :=
  (lookupAt ix v).getD []

theorem keysUnder_eq (t : Indexed α) (v : ObjectKey) : t.keysUnder v = keysAt t.index v := rfl

theorem get?_eq (t : Indexed α) (k : ObjectKey) : t.get? k = lookupAt t.items k := rfl

theorem keysAt_cons (e : ObjectKey × List ObjectKey) (ix : List (ObjectKey × List ObjectKey))
    (v : ObjectKey) : keysAt (e :: ix) v = if e.1 = v then e.2 else keysAt ix v := by
  unfold keysAt
  rw [lookupAt_cons]
  split <;> rfl

theorem keysAt_eq_nil {ix : List (ObjectKey × List ObjectKey)} {v : ObjectKey}
    (h : v ∉ ix.map (·.1)) : keysAt ix v = [] := by
  simp [keysAt, lookupAt_eq_none.2 h]

/-- Each value is indexed once, with a non-empty set of keys. -/
structure IndexOk (ix : List (ObjectKey × List ObjectKey)) : Prop where
  values : (ix.map (·.1)).Nodup
  nonempty : ∀ e ∈ ix, e.2 ≠ []

theorem keysAt_listUnder (k v w : ObjectKey) (ix : List (ObjectKey × List ObjectKey)) :
    keysAt (listUnder k v ix) w = if w = v then k.insertSorted (keysAt ix v) else keysAt ix w := by
  unfold listUnder
  split
  · rename_i hany
    have hv : v ∈ ix.map (·.1) := by simpa using hany
    unfold keysAt
    rw [lookupAt_map_revise]
    split
    · cases hks : lookupAt ix v with
      | none => exact absurd (lookupAt_eq_none.1 hks) (not_not_intro hv)
      | some ks => rfl
    · rfl
  · rename_i hany
    have hv : v ∉ ix.map (·.1) := by simpa using hany
    unfold keysAt
    rw [lookupAt_append_of_not_mem hv, lookupAt_eq_none.2 hv]
    split <;> rfl

theorem IndexOk.listUnder {ix : List (ObjectKey × List ObjectKey)} (h : IndexOk ix)
    (k v : ObjectKey) : IndexOk (Indexed.listUnder k v ix) := by
  unfold Indexed.listUnder
  split
  · refine ⟨keys_map_revise (k.insertSorted ·) v ix ▸ h.values, fun e he => ?_⟩
    obtain ⟨e₀, he₀, rfl⟩ := List.mem_map.1 he
    by_cases hv : e₀.1 = v
    · simp [hv, List.ne_nil_of_mem (ObjectKey.mem_insertSorted.2 (Or.inl rfl))]
    · simpa [hv] using h.nonempty e₀ he₀
  · rename_i hany
    have hv : v ∉ ix.map (·.1) := by simpa using hany
    refine ⟨?_, fun e he => ?_⟩
    · rw [List.map_append, List.nodup_append]
      refine ⟨h.values, by simp, fun a ha b hb => ?_⟩
      simp only [List.map_cons, List.map_nil, List.mem_singleton] at hb
      subst hb
      rintro rfl
      exact hv ha
    · rcases List.mem_append.1 he with he | he
      · exact h.nonempty e he
      · simp [List.mem_singleton.1 he]

theorem unlistUnder_cons (k v : ObjectKey) (e : ObjectKey × List ObjectKey)
    (ix : List (ObjectKey × List ObjectKey)) :
    unlistUnder k v (e :: ix) =
      if e.1 = v then
        if (e.2.filter (· != k)).isEmpty then unlistUnder k v ix
        else (v, e.2.filter (· != k)) :: unlistUnder k v ix
      else e :: unlistUnder k v ix := by
  simp only [unlistUnder, List.filterMap_cons, beq_iff_eq]
  by_cases he : e.1 = v
  · by_cases hks : (e.2.filter (· != k)).isEmpty <;>
      simp only [he, hks, if_true, if_false, Bool.false_eq_true]
  · simp only [he, if_false]

/-- Unlisting keeps the values it does not drop, each in its place. -/
theorem values_unlistUnder_sublist (k v : ObjectKey) :
    ∀ ix : List (ObjectKey × List ObjectKey),
      ((unlistUnder k v ix).map (·.1)).Sublist (ix.map (·.1))
  | [] => List.Sublist.slnil
  | e :: ix => by
    have ih := values_unlistUnder_sublist k v ix
    rw [unlistUnder_cons]
    split
    · rename_i he
      split
      · exact ih.cons _
      · simp only [List.map_cons, he]
        exact ih.cons_cons v
    · exact ih.cons_cons _

theorem keysAt_unlistUnder {ix : List (ObjectKey × List ObjectKey)} (h : IndexOk ix)
    (k v w : ObjectKey) :
    keysAt (unlistUnder k v ix) w =
      if w = v then (keysAt ix v).filter (· != k) else keysAt ix w := by
  -- on the one entry of `v` the set is cut, and dropped if that empties it
  induction ix with
  | nil => split <;> rfl
  | cons e ix ih =>
    have hnd := List.nodup_cons.1 h.values
    have ih := ih ⟨hnd.2, fun e' he' => h.nonempty e' (List.mem_cons_of_mem _ he')⟩
    rw [unlistUnder_cons]
    by_cases he : e.1 = v
    · -- `v` is indexed nowhere else
      have hrest : keysAt ix v = [] := keysAt_eq_nil (he ▸ hnd.1)
      by_cases hks : (e.2.filter (· != k)).isEmpty
      · rw [if_pos he, if_pos hks, ih, hrest, keysAt_cons, keysAt_cons]
        by_cases hw : w = v
        · simp [hw, he, List.isEmpty_iff.1 hks]
        · simp [hw, he, Ne.symm hw]
      · rw [if_pos he, if_neg hks, keysAt_cons, ih, keysAt_cons, keysAt_cons]
        by_cases hw : w = v
        · simp [hw, he]
        · simp [hw, he, Ne.symm hw]
    · rw [if_neg he, keysAt_cons, ih, keysAt_cons, keysAt_cons]
      by_cases hw : w = v
      · subst hw
        simp [he]
      · simp [hw]

theorem IndexOk.unlistUnder {ix : List (ObjectKey × List ObjectKey)} (h : IndexOk ix)
    (k v : ObjectKey) : IndexOk (Indexed.unlistUnder k v ix) := by
  refine ⟨h.values.sublist (values_unlistUnder_sublist k v ix), ?_⟩
  induction ix with
  | nil => simp [Indexed.unlistUnder]
  | cons e ix ih =>
    have ih := ih ⟨(List.nodup_cons.1 h.values).2, fun e' he' => h.nonempty e' (List.mem_cons_of_mem _ he')⟩
    intro e' he'
    rw [unlistUnder_cons] at he'
    split at he'
    · split at he'
      · exact ih e' he'
      · rename_i hks
        rcases List.mem_cons.1 he' with rfl | he'
        · simpa using hks
        · exact ih e' he'
    · rcases List.mem_cons.1 he' with rfl | he'
      · exact h.nonempty _ List.mem_cons_self
      · exact ih e' he'

/-! ## Listing an item under its values -/

theorem IndexOk.foldl_listUnder (k : ObjectKey) :
    ∀ (vs : List ObjectKey) {ix : List (ObjectKey × List ObjectKey)}, IndexOk ix →
      IndexOk (vs.foldl (fun ix v => Indexed.listUnder k v ix) ix)
  | [], _, h => h
  | v :: vs, _, h => IndexOk.foldl_listUnder k vs (h.listUnder k v)

theorem IndexOk.foldl_unlistUnder (k : ObjectKey) :
    ∀ (vs : List ObjectKey) {ix : List (ObjectKey × List ObjectKey)}, IndexOk ix →
      IndexOk (vs.foldl (fun ix v => Indexed.unlistUnder k v ix) ix)
  | [], _, h => h
  | v :: vs, _, h => IndexOk.foldl_unlistUnder k vs (h.unlistUnder k v)

/-- Listing `k` under each of `vs` adds it to exactly those sets. -/
theorem mem_keysAt_foldl_listUnder (k k' w : ObjectKey) :
    ∀ (vs : List ObjectKey) (ix : List (ObjectKey × List ObjectKey)),
      k' ∈ keysAt (vs.foldl (fun ix v => listUnder k v ix) ix) w ↔
        k' ∈ keysAt ix w ∨ (w ∈ vs ∧ k' = k)
  | [], ix => by simp
  | v :: vs, ix => by
    rw [List.foldl_cons, mem_keysAt_foldl_listUnder k k' w vs, keysAt_listUnder]
    by_cases hw : w = v
    · subst hw
      simp only [if_true, ObjectKey.mem_insertSorted, List.mem_cons, true_or, true_and]
      constructor
      · rintro ((h | h) | ⟨-, h⟩) <;> simp [h]
      · rintro (h | h) <;> simp [h]
    · simp [hw]

/-- Unlisting `k` from each of `vs` takes it out of exactly those sets. -/
theorem mem_keysAt_foldl_unlistUnder (k k' w : ObjectKey) :
    ∀ (vs : List ObjectKey) {ix : List (ObjectKey × List ObjectKey)}, IndexOk ix →
      (k' ∈ keysAt (vs.foldl (fun ix v => unlistUnder k v ix) ix) w ↔
        k' ∈ keysAt ix w ∧ ¬(w ∈ vs ∧ k' = k))
  | [], _, _ => by simp
  | v :: vs, ix, h => by
    rw [List.foldl_cons, mem_keysAt_foldl_unlistUnder k k' w vs (h.unlistUnder k v),
      keysAt_unlistUnder h]
    by_cases hw : w = v
    · subst hw
      simp only [if_true, List.mem_filter, bne_iff_ne, ne_eq, List.mem_cons, true_or, true_and]
      constructor
      · rintro ⟨⟨h1, h2⟩, -⟩
        exact ⟨h1, h2⟩
      · rintro ⟨h1, h2⟩
        exact ⟨⟨h1, h2⟩, fun ⟨_, h3⟩ => h2 h3⟩
    · simp [hw]

/-! ## Well-formed tables -/

/-- A well-formed table: each key is stored once, each value is indexed once with a non-empty
set, and a key is listed under a value exactly when its item names the value. -/
structure WF (t : Indexed α) : Prop where
  keys : (t.items.map (·.1)).Nodup
  index : IndexOk t.index
  listed : ∀ k v, k ∈ t.keysUnder v ↔ ∃ a, t.get? k = some a ∧ v ∈ t.indexOf a

variable {t : Indexed α}

/-! ## Writes step by step -/

@[simp] theorem unindex_items (t : Indexed α) (k : ObjectKey) (a : α) :
    (t.unindex k a).2.items = t.items := by
  unfold unindex
  split <;> rfl

@[simp] theorem unindex_indexOf (t : Indexed α) (k : ObjectKey) (a : α) :
    (t.unindex k a).2.indexOf = t.indexOf := by
  unfold unindex
  split <;> rfl

/-- Unindexing a stored item finds it listed under each of its values. -/
theorem WF.unindex {k : ObjectKey} {prev : α} (h : t.WF) (hk : t.get? k = some prev) :
    t.unindex k prev =
      (.ok (), { t with index := (t.indexOf prev).foldl (fun ix v => unlistUnder k v ix) t.index }) := by
  have hnone : (t.indexOf prev).find? (fun v => !(t.keysUnder v).contains k) = none :=
    List.find?_eq_none.2 fun v hv => by simpa using (h.listed k v).2 ⟨prev, hk, hv⟩
  simp only [Indexed.unindex, hnone]

/-- Storing an item succeeds on a well-formed table, keeps it well formed, and stores just
that item. -/
theorem WF.upsert (h : t.WF) (k : ObjectKey) (item : α) :
    ∃ t', t.upsert k item = (.ok (t.get? k), t') ∧ t'.WF ∧ t'.indexOf = t.indexOf ∧
      ∀ k', t'.get? k' = if k' = k then some item else t.get? k' := by
  cases hk : t.get? k with
  | some prev =>
    have hget : ∀ k', lookupAt (t.items.map fun e => if e.1 == k then (k, item) else e) k' =
        if k' = k then some item else t.get? k' := fun k' => by
      rw [lookupAt_map_revise (fun _ => item), ← get?_eq, hk]
      rfl
    refine ⟨{ t with
        items := t.items.map fun e => if e.1 == k then (k, item) else e
        index := t.indexItem k item
          ((t.indexOf prev).foldl (fun ix v => unlistUnder k v ix) t.index) }, ?_, ?_, rfl, hget⟩
    · simp only [Indexed.upsert, hk, h.unindex hk, Option.isSome_some, if_true]
      rfl
    · refine ⟨keys_map_revise (fun _ => item) k t.items ▸ h.keys,
        IndexOk.foldl_listUnder k _ (IndexOk.foldl_unlistUnder k _ h.index), fun k' w => ?_⟩
      rw [get?_eq, hget, keysUnder_eq]
      simp only [indexItem]
      rw [mem_keysAt_foldl_listUnder, mem_keysAt_foldl_unlistUnder k k' w _ h.index,
        ← keysUnder_eq, h.listed]
      by_cases hk' : k' = k
      · subst hk'
        simp only [hk, Option.some.injEq, exists_eq_left', and_true, if_true]
        constructor
        · rintro (⟨h1, h2⟩ | h1)
          · exact absurd h1 h2
          · exact h1
        · exact Or.inr
      · simp [hk']
  | none =>
    refine ⟨{ t with
        items := t.items ++ [(k, item)]
        index := t.indexItem k item t.index }, by simp [Indexed.upsert, hk], ?_, rfl, ?_⟩
    · have hnot : k ∉ t.items.map (·.1) := lookupAt_eq_none.1 hk
      refine ⟨?_, IndexOk.foldl_listUnder k _ h.index, fun k' w => ?_⟩
      · rw [List.map_append, List.nodup_append]
        refine ⟨h.keys, by simp, fun a ha b hb => ?_⟩
        simp only [List.map_cons, List.map_nil, List.mem_singleton] at hb
        subst hb
        rintro rfl
        exact hnot ha
      · rw [get?_eq, lookupAt_append_of_not_mem hnot, keysUnder_eq]
        simp only [indexItem]
        rw [mem_keysAt_foldl_listUnder, ← keysUnder_eq, h.listed]
        by_cases hk' : k' = k
        · subst hk'
          simp [hk]
        · simp [hk', ← get?_eq]
    · intro k'
      rw [get?_eq, lookupAt_append_of_not_mem (lookupAt_eq_none.1 hk)]
      rfl

/-- Dropping an item succeeds on a well-formed table, keeps it well formed, and drops just
that key. -/
theorem WF.remove (h : t.WF) (k : ObjectKey) :
    ∃ t', t.remove k = (.ok (t.get? k), t') ∧ t'.WF ∧ t'.indexOf = t.indexOf ∧
      ∀ k', t'.get? k' = if k' = k then none else t.get? k' := by
  cases hk : t.get? k with
  | some prev =>
    refine ⟨{ t with
        items := t.items.filter (·.1 != k)
        index := (t.indexOf prev).foldl (fun ix v => unlistUnder k v ix) t.index }, ?_, ?_, rfl, ?_⟩
    · simp only [Indexed.remove, hk, h.unindex hk]
    · refine ⟨h.keys.sublist (List.filter_sublist.map _), IndexOk.foldl_unlistUnder k _ h.index,
        fun k' w => ?_⟩
      rw [get?_eq, lookupAt_filter_ne, keysUnder_eq, mem_keysAt_foldl_unlistUnder k k' w _ h.index,
        ← keysUnder_eq, h.listed]
      by_cases hk' : k' = k
      · subst hk'
        simp [hk]
      · simp [hk', ← get?_eq]
    · intro k'
      rw [get?_eq, lookupAt_filter_ne]
      rfl
  | none =>
    refine ⟨t, by simp [Indexed.remove, hk], h, rfl, fun k' => ?_⟩
    by_cases hk' : k' = k
    · simp [hk', hk]
    · simp [hk']

/-- Dropping the entries of a key that holds nothing drops nothing. -/
theorem filter_ne_of_get?_none {k : ObjectKey} (hk : t.get? k = none) :
    t.items.filter (·.1 != k) = t.items := by
  have hnot : k ∉ t.items.map (·.1) := lookupAt_eq_none.1 hk
  exact List.filter_eq_self.2 fun e he => by
    simpa using fun hek => hnot (List.mem_map.2 ⟨e, he, hek⟩)

/-- A successful upsert puts the item in its key's place, or last. -/
theorem upsert_items {k : ObjectKey} {item : α} {p : Option α} {t' : Indexed α}
    (h : t.upsert k item = (.ok p, t')) : t'.items = putAt t.items k item := by
  unfold Indexed.upsert at h
  cases hk : t.get? k with
  | some prev =>
    have hmem : k ∈ t.items.map (·.1) := Classical.byContradiction fun hn => by
      rw [← lookupAt_eq_none, ← get?_eq, hk] at hn
      cases hn
    simp only [hk, Option.isSome_some, if_true] at h
    generalize hu : t.unindex k prev = u at h
    obtain ⟨r, t₁⟩ := u
    have hitems : t₁.items = t.items := by
      rw [← unindex_items t k prev, hu]
    cases r with
    | error f => cases h
    | ok _ =>
      simp only [Prod.mk.injEq] at h
      rw [← h.2]
      show _ = putAt t.items k item
      rw [putAt, if_pos (any_key_iff.2 hmem), hitems]
  | none =>
    simp only [hk, Option.isSome_none, Bool.false_eq_true, if_false, Prod.mk.injEq] at h
    rw [← h.2]
    have hnot : k ∉ t.items.map (·.1) := lookupAt_eq_none.1 hk
    show _ = putAt t.items k item
    rw [putAt, if_neg (mt any_key_iff.1 hnot)]

/-- A successful remove drops the entries of its key. -/
theorem remove_items {k : ObjectKey} {p : Option α} {t' : Indexed α}
    (h : t.remove k = (.ok p, t')) : t'.items = t.items.filter (·.1 != k) := by
  unfold Indexed.remove at h
  cases hk : t.get? k with
  | some prev =>
    simp only [hk] at h
    generalize hu : t.unindex k prev = u at h
    obtain ⟨r, t₁⟩ := u
    have hitems : t₁.items = t.items := by
      rw [← unindex_items t k prev, hu]
    cases r with
    | error f => cases h
    | ok _ =>
      simp only [Prod.mk.injEq] at h
      rw [← h.2, hitems]
  | none =>
    simp only [hk, Prod.mk.injEq] at h
    rw [← h.2]
    exact (filter_ne_of_get?_none hk).symm

/-! ## Reading a well-formed table -/

theorem mem_list_of_get? {k : ObjectKey} {a : α} (h : t.get? k = some a) : a ∈ t.list :=
  List.mem_map.2 ⟨(k, a), mem_of_lookupAt_eq_some h, rfl⟩

theorem WF.get?_of_mem_list (h : t.WF) {a : α} (ha : a ∈ t.list) : ∃ k, t.get? k = some a := by
  obtain ⟨⟨k, a'⟩, hm, rfl⟩ := List.mem_map.1 ha
  exact ⟨k, (lookupAt_eq_some_iff h.keys).2 hm⟩

/-- The items under a value of a well-formed table are read without a dangling key: they are
the items of the keys listed under it, in the order they are listed. -/
theorem WF.byIndex_eq (h : t.WF) (v : ObjectKey) :
    t.byIndex v = .ok ((t.keysUnder v).filterMap t.get?) := by
  -- every listed key has an item, so the read is the items of the listed keys
  have hread : ∀ (f : ObjectKey → Except IndexFault α), (∀ k a, t.get? k = some a → f k = .ok a) →
      ∀ ks : List ObjectKey, (∀ k ∈ ks, (t.get? k).isSome) →
        ks.mapM f = .ok (ks.filterMap t.get?) := by
    intro f hf ks hks
    induction ks with
    | nil => rfl
    | cons k ks ih =>
      obtain ⟨a, ha⟩ := Option.isSome_iff_exists.1 (hks k List.mem_cons_self)
      rw [List.mapM_cons, ih fun k' hk' => hks k' (List.mem_cons_of_mem _ hk'), List.filterMap_cons,
        ha, hf k a ha]
      rfl
  unfold byIndex
  refine hread _ (fun k a ha => by simp [ha]) _ fun k hk => ?_
  obtain ⟨a, ha, -⟩ := (h.listed k v).1 hk
  simp [ha]

/-- The items under a value of a well-formed table are read without a dangling key: they are
the items that name the value. -/
theorem WF.byIndex_ok (h : t.WF) (v : ObjectKey) :
    ∃ as, t.byIndex v = .ok as ∧ ∀ a, a ∈ as ↔ ∃ k, t.get? k = some a ∧ v ∈ t.indexOf a := by
  refine ⟨(t.keysUnder v).filterMap t.get?, h.byIndex_eq v, fun a => ?_⟩
  rw [List.mem_filterMap]
  constructor
  · rintro ⟨k, hk, ha⟩
    obtain ⟨a', ha', hv⟩ := (h.listed k v).1 hk
    rw [ha] at ha'
    cases ha'
    exact ⟨k, ha, hv⟩
  · rintro ⟨k, ha, hv⟩
    exact ⟨k, (h.listed k v).2 ⟨a, ha, hv⟩, ha⟩

/-- A value is indexed exactly when some item of a well-formed table names it. -/
theorem WF.mem_indexValues (h : t.WF) {v : ObjectKey} :
    v ∈ t.indexValues ↔ ∃ k a, t.get? k = some a ∧ v ∈ t.indexOf a := by
  rw [indexValues, ObjectKey.sort, List.mem_mergeSort]
  constructor
  · intro hv
    obtain ⟨ks, hks⟩ := Option.ne_none_iff_exists'.1 (mt lookupAt_eq_none.1 (not_not_intro hv))
    have hne := h.index.nonempty _ ((lookupAt_eq_some_iff h.index.values).1 hks)
    obtain ⟨k, hk⟩ := List.exists_mem_of_ne_nil ks hne
    have hk' : k ∈ t.keysUnder v := by simp [keysUnder_eq, keysAt, hks, hk]
    obtain ⟨a, ha, hva⟩ := (h.listed k v).1 hk'
    exact ⟨k, a, ha, hva⟩
  · rintro ⟨k, a, ha, hva⟩
    have hk := (h.listed k v).2 ⟨a, ha, hva⟩
    rw [keysUnder_eq] at hk
    refine Classical.byContradiction fun hv => ?_
    rw [keysAt_eq_nil hv] at hk
    simp at hk

end Indexed

end MeterMatch
