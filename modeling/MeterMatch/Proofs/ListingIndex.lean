import MeterMatch.Proofs.RetryProgress
import MeterMatch.Proofs.FreshMatches

/-! # Indexing a listing into an empty table

`Engine.replace` makes the tracked objects those of a listing, matching each object afresh.
When the table starts empty and the rules are compiled from definitions `defs`, the table it
leaves is given by the listing and `defs` alone:

* `acceptors o defs`: the keys of the definitions whose selectors accept `o`, in order, or none
  when one of them cannot judge it; `accepts defs o` when that is a list with a key in it.
* `lastListed objects k`: the last object of the listing with key `k`.
* `entryOrder writes`: the keys of a table in the order they last entered it, when each write
  leaves its key in the table or takes it out (`entryStep`).

One fresh apply writes the entries as `settle` says (`Engine.apply_items`), and a run of them
as the fold of `settle` (`Engine.reapply_items`). That fold holds, in the order they last entered,
exactly the keys whose last listed object `defs` accept, each with that object and its acceptors
(`Settled`, by induction on the listing). `Engine.replace_settles` puts the two together.
-/

namespace MeterMatch

/-! ## What the table should hold -/

/-- The keys, in listing order, of the definitions whose compiled selectors accept an object;
none when one of them has no key, does not compile, or cannot judge the object. -/
def acceptors (o : CandidateObject) : List Definition → Option (List ObjectKey)
  | [] => some []
  | d :: rest =>
    match d.key, d.compile with
    | .ok key, .ok m =>
      match m.evaluate o with
      | .ok b => (acceptors o rest).map fun keys => if b then key :: keys else keys
      | .error _ => none
    | _, _ => none

/-- Every definition judges the object and at least one accepts it. -/
def accepts (defs : List Definition) (o : CandidateObject) : Bool :=
  (acceptors o defs).any fun keys => !keys.isEmpty

/-- The last object of a listing with a key. -/
def lastListed (objects : List CandidateObject) (k : ObjectKey) : Option CandidateObject :=
  (objects.filter fun o => o.key.toOption == some k).getLast?

/-- The keys of a table after a write that leaves its key in the table (`true`) or takes it
out: a key that stays keeps its place, one that enters comes last. -/
def entryStep (keys : List ObjectKey) (w : ObjectKey × Bool) : List ObjectKey :=
  if w.2 then (if w.1 ∈ keys then keys else keys ++ [w.1]) else keys.filter (· != w.1)

/-- The keys of a table, in the order they last entered it, after writes to an empty one. -/
def entryOrder (writes : List (ObjectKey × Bool)) : List ObjectKey := writes.foldl entryStep []

/-- The writes of a listing: each object with a key leaves its key in the table exactly when the
definitions accept it. -/
def listingWrites (defs : List Definition) (objects : List CandidateObject) :
    List (ObjectKey × Bool) :=
  objects.filterMap fun o => o.key.toOption.map fun k => (k, accepts defs o)

/-- The entries of a table after an object of key `k` is matched afresh: its association with
its acceptors when some accept it, and nothing under `k` otherwise. -/
def settle (defs : List Definition) (items : List (ObjectKey × Association)) (k : ObjectKey)
    (o : CandidateObject) : List (ObjectKey × Association) :=
  match acceptors o defs with
  | some (r :: rs) => Indexed.putAt items k ⟨k, o, r :: rs⟩
  | _ => items.filter (·.1 != k)

/-- The entries of a table that holds, in the order they last entered, exactly the keys of a
listing whose last object `defs` accept, each with that object and its acceptors. -/
structure Settled (defs : List Definition) (objects : List CandidateObject)
    (items : List (ObjectKey × Association)) : Prop where
  order : items.map (·.1) = entryOrder (listingWrites defs objects)
  entries : ∀ x ∈ items, x.2.key = x.1 ∧ lastListed objects x.1 = some x.2.object ∧
    acceptors x.2.object defs = some x.2.rules
  present : ∀ k, k ∈ items.map (·.1) ↔
    ∃ o, lastListed objects k = some o ∧ accepts defs o = true

/-! ## The listing, one object at a time -/

section Listing
variable {objects : List CandidateObject} {o : CandidateObject} {k : ObjectKey}

theorem listingWrites_snoc (defs : List Definition) (objects : List CandidateObject)
    (o : CandidateObject) :
    listingWrites defs (objects ++ [o]) =
      listingWrites defs objects ++ (o.key.toOption.map fun k => (k, accepts defs o)).toList := by
  unfold listingWrites
  rw [List.filterMap_append, List.filterMap_cons, List.filterMap_nil]
  cases o.key.toOption <;> rfl

theorem entryOrder_snoc (writes : List (ObjectKey × Bool)) (w : ObjectKey × Bool) :
    entryOrder (writes ++ [w]) = entryStep (entryOrder writes) w := by
  simp [entryOrder, List.foldl_append]

theorem lastListed_snoc_self (hk : o.key = .ok k) : lastListed (objects ++ [o]) k = some o := by
  simp [lastListed, List.filter_append, hk, Except.toOption]

theorem lastListed_snoc_of_ne {k' : ObjectKey} (hk : o.key.toOption ≠ some k') :
    lastListed (objects ++ [o]) k' = lastListed objects k' := by
  simp [lastListed, List.filter_append, hk]

/-- An entry that `settle` keeps: one of another key. -/
theorem mem_settle {defs : List Definition} {items : List (ObjectKey × Association)}
    {x : ObjectKey × Association} (hx : x ∈ settle defs items k o) :
    (x.1 = k ∧ ∃ r rs, acceptors o defs = some (r :: rs) ∧ x.2 = ⟨k, o, r :: rs⟩) ∨
      (x ∈ items ∧ x.1 ≠ k) := by
  unfold settle at hx
  split at hx
  · rename_i r rs hacc
    rcases Indexed.mem_putAt.1 hx with rfl | hx
    · exact .inl ⟨rfl, r, rs, hacc, rfl⟩
    · exact .inr hx
  · rw [List.mem_filter, bne_iff_ne] at hx
    exact .inr hx

theorem keys_settle (defs : List Definition) (items : List (ObjectKey × Association)) :
    (settle defs items k o).map (·.1) = entryStep (items.map (·.1)) (k, accepts defs o) := by
  unfold settle accepts entryStep
  split
  · rename_i r rs hacc
    simp [hacc, Indexed.keys_putAt]
  · rename_i hacc
    have hno : (acceptors o defs).any (fun keys => !keys.isEmpty) = false := by
      cases h : acceptors o defs with
      | none => rfl
      | some keys =>
        cases keys with
        | nil => rfl
        | cons r rs => exact absurd h (hacc r rs)
    simp only [hno, Bool.false_eq_true, ↓reduceIte]
    rw [List.filter_map]
    rfl

end Listing

namespace Settled

variable {defs : List Definition} {objects : List CandidateObject}
  {items : List (ObjectKey × Association)}

theorem nil (defs : List Definition) : Settled defs [] [] :=
  ⟨rfl, (fun _ h => nomatch h), fun _ => by simp [lastListed]⟩

/-- An object without a key changes nothing. -/
theorem snoc_keyless (h : Settled defs objects items) {o : CandidateObject}
    (hk : o.key.toOption = none) : Settled defs (objects ++ [o]) items := by
  have hlast : ∀ k', lastListed (objects ++ [o]) k' = lastListed objects k' :=
    fun k' => lastListed_snoc_of_ne (by simp [hk])
  refine ⟨?_, fun x hx => ?_, fun k' => ?_⟩
  · rw [h.order, listingWrites_snoc, hk]
    simp
  · rw [hlast]
    exact h.entries x hx
  · rw [hlast]
    exact h.present k'

/-- An object with a key settles its key: its association when it is accepted, else nothing. -/
theorem snoc_keyed (h : Settled defs objects items) {o : CandidateObject} {k : ObjectKey}
    (hk : o.key = .ok k) : Settled defs (objects ++ [o]) (settle defs items k o) := by
  have hok : o.key.toOption = some k := by simp [hk, Except.toOption]
  have hlast : ∀ k', k' ≠ k → lastListed (objects ++ [o]) k' = lastListed objects k' :=
    fun k' hne => lastListed_snoc_of_ne (by rw [hok]; simpa using Ne.symm hne)
  refine ⟨?_, fun x hx => ?_, fun k' => ?_⟩
  · rw [keys_settle, h.order, listingWrites_snoc, hok]
    simp [entryOrder_snoc]
  · rcases mem_settle hx with ⟨hx1, r, rs, hacc, hx2⟩ | ⟨hx, hne⟩
    · rw [hx2, hx1, lastListed_snoc_self hk]
      exact ⟨rfl, rfl, hacc⟩
    · rw [hlast _ hne]
      exact h.entries x hx
  · rw [keys_settle]
    by_cases hk' : k' = k
    · -- the key is in exactly when its object, now the last, is accepted
      subst hk'
      rw [lastListed_snoc_self hk]
      simp only [Option.some.injEq, exists_eq_left']
      unfold entryStep
      cases accepts defs o
      · simp
      · by_cases hin : k' ∈ items.map (·.1) <;> simp [hin]
    · rw [hlast _ hk', ← h.present k']
      unfold entryStep
      split
      · split
        · rfl
        · simp [hk']
      · simp [hk']

/-- The fold of `settle` over the keyed objects of a listing settles the listing. -/
theorem of_listing (defs : List Definition) (listing : List CandidateObject) :
    Settled defs listing ((listing.filterMap fun o => o.key.toOption.map (·, o)).foldl
      (fun items x => settle defs items x.1 x.2) []) := by
  induction listing using List.reverseRecOn with
  | nil => exact nil defs
  | append_singleton objects o ih =>
    rw [List.filterMap_append, List.foldl_append]
    cases hk : o.key with
    | error err =>
      have hnone : o.key.toOption = none := by simp [hk, Except.toOption]
      simpa [hk, Except.toOption] using ih.snoc_keyless hnone
    | ok k =>
      simpa [hk, Except.toOption] using ih.snoc_keyed hk

end Settled

/-! ## Fresh matches by compiled rules -/

/-- A fresh match by rules compiled from their definitions finds, by key, the definitions'
acceptors, and fails exactly when those are none. -/
theorem Registry.freshMatches_acceptors (r : Registry) (o : CandidateObject) (okey : ObjectKey) :
    ∀ rules : List Rule, (∀ ρ ∈ rules, ρ.definition.key = .ok ρ.key ∧ ρ.Compiled) →
      (r.freshMatches o okey rules).toOption.map (·.map (·.key)) =
        acceptors o (rules.map (·.definition))
  | [], _ => rfl
  | ρ :: rest, h => by
    obtain ⟨hkey, m, hm, hp⟩ := h ρ List.mem_cons_self
    have ih := freshMatches_acceptors r o okey rest fun x hx => h x (List.mem_cons_of_mem _ hx)
    rw [List.map_cons, acceptors, hkey, hm]
    simp only [freshMatches, hp, judge]
    cases m.evaluate o with
    | error reason => rfl
    | ok b =>
      cases b
      · simpa using ih
      · rw [← ih]
        cases r.freshMatches o okey rest <;> rfl

namespace Engine

/-! ## Fresh applies on an open queue -/

variable {e : Engine}

/-- An untrack on an open queue drops the entries of its key. -/
theorem untrack_items (h : e.tracked.WF) (hopen : e.feed.closed = false) (key : ObjectKey) :
    (e.untrack key).2.tracked.items = e.tracked.items.filter (·.1 != key) := by
  unfold untrack
  split
  · rename_i hk
    exact (Indexed.filter_ne_of_get?_none hk).symm
  · rename_i existing _
    obtain ⟨feed, hfeed, -⟩ := ChangeQueue.push_open hopen ⟨.deleted, key, existing⟩
    obtain ⟨t, hrem, -⟩ := h.remove key
    simp only [hfeed, hrem]
    exact Indexed.remove_items hrem

/-- A record on an open queue puts its association in its key's place, or last. -/
theorem record_items (h : TableOk e.tracked) (hopen : e.feed.closed = false) {key : ObjectKey}
    (o : CandidateObject) {rules : List ObjectKey} (hnd : rules.Nodup) :
    (e.record key o rules).2.tracked.items =
      Indexed.putAt e.tracked.items key ⟨key, o, rules⟩ := by
  unfold record
  dsimp only
  split
  · -- the key already holds this object with these rules
    rename_i hsame
    obtain ⟨a, ha, hp⟩ := (Option.any_eq_true _ _).1 hsame
    simp only [Bool.and_eq_true, beq_iff_eq] at hp
    have ha' : a = ⟨key, o, rules⟩ := by
      obtain ⟨k', o', r'⟩ := a
      obtain ⟨hk', -⟩ := h.stored key _ ha
      simp_all
    rw [ha'] at ha
    exact (Indexed.putAt_of_lookupAt h.wf.keys ha).symm
  · split
    · rename_i err herr
      obtain ⟨q, hq, -⟩ := ChangeQueue.push_open hopen _
      rw [hq] at herr
      cases herr
    · obtain ⟨t, hup, -⟩ := h.wf.upsert key (Association.make key o rules)
      rw [hup]
      dsimp only
      rw [Indexed.upsert_items hup, Association.make, Association.dedup_of_nodup hnd]

/-- An engine whose rules are compiled from `defs`, in order and of distinct keys, with its
table as the engine keeps it and its association queue open. -/
structure Ready (defs : List Definition) (e : Engine) : Prop where
  table : TableOk e.tracked
  feedOpen : e.feed.closed = false
  definitions : e.registry.rules.map (·.definition) = defs
  compiled : ∀ ρ ∈ e.registry.rules, ρ.definition.key = .ok ρ.key ∧ ρ.Compiled
  keys : (e.registry.rules.map (·.key)).Nodup

variable {defs : List Definition}

/-- A fresh apply of an object with a key settles its key, and keeps the engine ready. -/
theorem apply_items (h : Ready defs e) {o : CandidateObject} {k : ObjectKey}
    (hk : o.key = .ok k) :
    (e.apply o true).2.tracked.items = settle defs e.tracked.items k o ∧
      Ready defs (e.apply o true).2 := by
  have hacc : (e.registry.findMatches o true).1.toOption.map (·.map (·.key)) =
      acceptors o defs := by
    rw [Registry.findMatches_skip hk, Registry.freshMatches_acceptors _ _ _ _ h.compiled,
      h.definitions]
  have hreg := apply_registry_of_key e hk true
  have hready : Ready defs (e.apply o true).2 := by
    refine ⟨h.table.apply o true, (apply_open h.table.wf h.feedOpen o true).1, ?_, ?_, ?_⟩ <;>
      rw [hreg, Registry.findMatches_eq]
    exacts [h.definitions, h.compiled, h.keys]
  refine ⟨?_, hready⟩
  have h₁ : TableOk (e.findMatches o true).2.tracked := by simpa using h.table
  have hopen₁ : (e.findMatches o true).2.feed.closed = false := by
    rw [findMatches_eq]
    exact h.feedOpen
  rcases apply_cases e o true with ⟨_, hk', -⟩ | ⟨key, hk', hcase⟩
  · rw [hk] at hk'
    cases hk'
  obtain rfl : key = k := by simpa [hk] using hk'.symm
  unfold settle
  rcases hcase with ⟨hres, ⟨err, herr⟩, he | he⟩ | ⟨hnil, he⟩ | ⟨rules, hf, hne, he⟩
  · -- a failed match on an untracked key changes nothing there
    rw [herr] at hacc
    rw [← hacc]
    obtain ⟨-, hfail⟩ := apply_open h.table.wf h.feedOpen o true
    have hnone : (e.apply o true).2.tracked.get? key = none := by
      cases hr : (e.apply o true).1 with
      | error err' => exact hfail key err' hk hr
      | ok c => exact absurd hr (hres c)
    rw [he] at hnone ⊢
    simp only [findMatches_tracked] at hnone ⊢
    exact (Indexed.filter_ne_of_get?_none hnone).symm
  · rw [herr] at hacc
    rw [← hacc, he]
    simp only [Option.map_none, Except.toOption]
    rw [untrack_items h₁.wf hopen₁, findMatches_tracked]
  · rw [hnil] at hacc
    rw [← hacc, he]
    simp only [Except.toOption, Option.map_some, List.map_nil]
    rw [untrack_items h₁.wf hopen₁, findMatches_tracked]
  · rw [hf] at hacc
    rw [← hacc, he]
    obtain ⟨r, rs, rfl⟩ := List.exists_cons_of_ne_nil hne
    have hnd : (r.key :: rs.map (·.key)).Nodup := by
      rw [← List.map_cons]
      exact ((Registry.findMatches_sublist hf).map _).nodup h.keys
    simp only [Except.toOption, Option.map_some, List.map_cons]
    rw [record_items h₁ hopen₁ o hnd, findMatches_tracked]

theorem reapply_cons_snd (skip : Bool) (o : CandidateObject) (rest : List CandidateObject)
    (e : Engine) (n : Nat) (err : Option EngineError) :
    ∃ n' err', (reapply skip (o :: rest) e n err).2.2 =
      (reapply skip rest (e.apply o skip).2 n' err').2.2 := by
  simp only [reapply]
  split <;> rename_i he <;> exact ⟨_, _, by rw [he]⟩

/-- Fresh applies of keyed objects, in order, settle their keys one after another. -/
theorem reapply_items :
    ∀ (keyed : List (ObjectKey × CandidateObject)) {e : Engine} (n : Nat)
      (err : Option EngineError), Ready defs e → (∀ x ∈ keyed, x.2.key = .ok x.1) →
      (reapply true (keyed.map (·.2)) e n err).2.2.tracked.items =
        keyed.foldl (fun items x => settle defs items x.1 x.2) e.tracked.items
  | [], _, _, _, _, _ => rfl
  | x :: rest, e, n, err, h, hkeyed => by
    obtain ⟨hitems, hready⟩ := apply_items h (hkeyed x List.mem_cons_self)
    obtain ⟨n', err', hre⟩ := reapply_cons_snd true x.2 (rest.map (·.2)) e n err
    rw [List.map_cons, hre,
      reapply_items rest n' err' hready fun y hy => hkeyed y (List.mem_cons_of_mem _ hy), hitems,
      List.foldl_cons]

/-- Replacing the objects of an engine whose table is empty is a fresh apply of each keyed
object in order. -/
theorem replace_of_empty (hempty : e.tracked.items = []) (listing : List CandidateObject) :
    ∃ err, (e.replace listing).2.tracked =
      (reapply true ((listing.filterMap fun o => o.key.toOption.map (·, o)).map (·.2)) e 0
        err).2.2.tracked := by
  have hkeys : e.tracked.keys = [] := by simp [Indexed.keys, hempty]
  unfold replace
  simp only [hkeys, dropUnlisted]
  split <;> exact ⟨_, rfl⟩

/-- Replacing the objects of a ready engine with an empty table settles the listing: the table
holds, in the order they last entered, exactly the keys whose last listed object `defs` accept,
each with that object and the keys of the accepting definitions. -/
theorem replace_settles (h : Ready defs e) (hempty : e.tracked.items = [])
    (listing : List CandidateObject) :
    Settled defs listing (e.replace listing).2.tracked.items := by
  obtain ⟨err, htr⟩ := replace_of_empty hempty listing
  rw [htr, reapply_items _ 0 err h, hempty]
  · exact Settled.of_listing defs listing
  · intro x hx
    obtain ⟨o, -, ho⟩ := List.mem_filterMap.1 hx
    cases hk : o.key with
    | error err' => simp [hk, Except.toOption] at ho
    | ok k =>
      simp only [hk, Except.toOption, Option.map_some, Option.some.injEq] at ho
      subst ho
      exact hk

end Engine

end MeterMatch
