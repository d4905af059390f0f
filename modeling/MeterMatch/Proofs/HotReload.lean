import MeterMatch.Proofs.Rescan
import MeterMatch.Proofs.RejectedWrites
import MeterMatch.Proofs.QueueModel

/-! # Hot reload and the registry

A watched rule directory applies each change of a YAML file to the loader's records and to the
registry (`Loader.onChange`): a file that exists is read again and written to the registry
(`Loader.upsert`), a file that is gone is forgotten and its rule deleted (`Loader.drop`). The
records are kept per path, the registry per key, and this module says how far the two stay in
step.

* `Loader.Backed`: every registered key is defined by some recorded file, with the loader's
  records keyed and the rule change queue open. Every change keeps it
  (`Loader.Backed.onChange`), whatever the files hold and whatever the limiter says.
* `Loader.Complete`: every key a recorded file defines is registered. A change keeps it when it
  is `Loader.Clean`: its write, if any, is not refused by the limiter, and no other recorded
  file defines the key recorded for its path (`Loader.Complete.onChange`).
* `Loader.handleAll_backed_complete`: along any run of changes, the registry stays backed by
  the records, and it stays complete as long as every change is clean.
* What a change that is not clean does: removing a file whose key another file also defines
  deletes the rule that file still defines (`Loader.drop_unregisters_shared_key`). A re-read of
  a file whose previous record is the registered rule of its key stores a new generation when
  the spec changes (`Loader.upsert_generation_ne`), but a first read of a file stores the
  file's own generation, whatever rule of that key it replaces (`Loader.upsert_fresh_generation`).
-/

namespace MeterMatch

namespace Registry

variable {r : Registry} {kind : DeltaKind} {d : Definition} {now : Nat}

/-- A push keeps a queue open or closed. -/
theorem closed_of_push {q q' : ChangeQueue Definition} {δ : Delta Definition}
    (h : q.push δ = .ok q') : q'.closed = q.closed := by
  cases hc : q.closed
  · obtain ⟨q'', hq'', hopen⟩ := ChangeQueue.push_open hc δ
    rw [h, Except.ok.injEq] at hq''
    rw [hq'', hopen]
  · rw [ChangeQueue.push_closed hc] at h
    cases h

/-- A rule write keeps the rule change queue open or closed. -/
theorem closed_submit (r : Registry) (kind : DeltaKind) (d : Definition) (now : Nat) :
    (r.submit kind d now).2.changes.closed = r.changes.closed := by
  rcases submit_cases r kind d now with h | ⟨_, _, q, _, _, hq, _, h⟩ <;> rw [h]
  exact closed_of_push hq

/-- A delete keeps the rule change queue open or closed. -/
theorem closed_delete (r : Registry) (d : Definition) :
    (r.delete d).2.changes.closed = r.changes.closed := by
  rcases delete_cases r d with h | ⟨_, q, _, hq, _, h⟩ <;> rw [h]
  exact closed_of_push hq

/-- After a rule write, a key is registered if it was, or if the write was admitted with it. -/
theorem contains_submit (k : ObjectKey) :
    (r.submit kind d now).2.contains k = true ↔
      r.contains k = true ∨ ((r.submit kind d now).1 = .ok .admitted ∧ d.key = .ok k) := by
  rcases submit_outcomes r kind d now with ⟨e, -, he⟩ | ⟨key, e, -, -, he⟩ |
      ⟨key, p, hkey, -, ⟨-, he⟩ | ⟨-, ⟨e, -, he⟩ | ⟨q, -, he⟩⟩⟩ <;> rw [he]
  · simp
  · simp
  · simp only [Except.ok.injEq, reduceCtorEq, false_and, or_false]
    rfl
  · simp only [reduceCtorEq, false_and, or_false]
    rfl
  · rw [contains_of_place rfl k, hkey]
    simp only [Bool.or_eq_true, beq_iff_eq, Except.ok.injEq, true_and]
    tauto

/-- On an open queue, a delete of a keyed definition succeeds and unregisters its key. -/
theorem delete_of_open (hopen : r.changes.closed = false) {key : ObjectKey}
    (hkey : d.key = .ok key) :
    (r.delete d).1 = .ok () ∧ ∀ k, (r.delete d).2.contains k = (k != key && r.contains k) := by
  obtain ⟨q, hq, -⟩ := ChangeQueue.push_open hopen ⟨.deleted, key, d⟩
  refine ⟨?_, fun k => contains_of_filter ?_ k⟩
  · simp only [delete, hkey, hq]
  · simp only [delete, hkey, hq]

/-- An admitted rule write stores the definition written under its key. -/
theorem definitions_submit {key : ObjectKey} (hadm : (r.submit kind d now).1 = .ok .admitted)
    (hkey : d.key = .ok key) : (r.submit kind d now).2.definitions key = some d := by
  rcases submit_outcomes r kind d now with ⟨e, -, he⟩ | ⟨key', e, -, -, he⟩ |
      ⟨key', p, hkey', -, ⟨-, he⟩ | ⟨-, ⟨e, -, he⟩ | ⟨q, -, he⟩⟩⟩ <;> rw [he] at hadm ⊢
  · cases hadm
  · cases hadm
  · cases hadm
  · cases hadm
  · rw [hkey, Except.ok.injEq] at hkey'
    subst hkey'
    rw [definitions_of_place rfl]
    exact Function.update_self _ _ _

/-- On an open queue, a delete keeps the definitions of the other keys. -/
theorem definitions_delete_of_ne (hopen : r.changes.closed = false) {key k : ObjectKey}
    (hkey : d.key = .ok key) (hk : k ≠ key) : (r.delete d).2.definitions k = r.definitions k := by
  obtain ⟨q, hq, -⟩ := ChangeQueue.push_open hopen ⟨.deleted, key, d⟩
  rw [definitions_of_filter
    (show (r.delete d).2.rules = r.rules.filter (·.key != key) by simp only [delete, hkey, hq])]
  exact Function.update_of_ne hk _ _

end Registry

namespace FileTree

/-- A file that reads gives a definition with the key it is read under. -/
theorem definition_key {t : FileTree} {p : Path} {K : ObjectKey} {d : Definition}
    (h : t.definition p = .ok (K, d)) : d.key = .ok K := by
  unfold definition at h
  split at h
  · cases h
  · split at h
    · cases h
    · split at h
      · cases h
      · split at h
        · cases h
        · rename_i key hkey
          rw [Except.ok.injEq, Prod.mk.injEq] at h
          obtain ⟨rfl, rfl⟩ := h
          exact hkey

end FileTree

namespace Loader

variable {l : Loader} {t : FileTree} {r : Registry} {p q : Path} {now : Nat}

/-- Some recorded file defines the key. -/
def Defines (l : Loader) (k : ObjectKey) : Prop := ∃ p d, (p, d) ∈ l.definitions ∧ d.key = .ok k

theorem mem_forget {e : Definition} :
    (q, e) ∈ (l.forget p).definitions ↔ q ≠ p ∧ (q, e) ∈ l.definitions := by
  simp only [forget, List.mem_filter, bne_iff_ne, ne_eq]
  tauto

/-- The admission a read of a path gets from the registry, if the file reads. -/
def admission (l : Loader) (t : FileTree) (r : Registry) (p : Path) (now : Nat) :
    Option (Except EngineError Admission) :=
  (t.definition p).toOption.map fun read =>
    (r.submit (if r.contains read.1 then .updated else .added)
      ((l.get? p).elim read.2 (·.bump read.2)) now).1

/-- A read of `p` under the key `K` retracts the key `k`: the previous record of `p` has the key
`k`, and `k` is not `K`. -/
def Retracts (l : Loader) (p : Path) (K k : ObjectKey) : Prop :=
  ∃ prev, l.get? p = some prev ∧ prev.key = .ok k ∧ k ≠ K

/-- What a hot-reload read does to the records and the registered keys, when the loader's
records are keyed and the rule change queue is open: nothing at all, or it records the file's
definition; then the key read is registered if the write was admitted, and the previous record's
key is unregistered if it differs. -/
theorem upsert_outcome (hopen : r.changes.closed = false)
    (hkeyed : ∀ prev, l.get? p = some prev → ∃ k, prev.key = .ok k) :
    ((∀ a, l.admission t r p now ≠ some (.ok a)) ∧ (l.upsert t r p now).1 = l ∧
      ∀ k, (l.upsert t r p now).2.contains k = r.contains k) ∨
    ∃ K parsed a, t.definition p = .ok (K, parsed) ∧ l.admission t r p now = some (.ok a) ∧
      (l.upsert t r p now).1 = l.record p ((l.get? p).elim parsed (·.bump parsed)) ∧
      (a = .admitted →
        (l.upsert t r p now).2.definitions K = some ((l.get? p).elim parsed (·.bump parsed))) ∧
      ∀ k, (l.upsert t r p now).2.contains k = true ↔ (a = .admitted ∧ k = K) ∨
        (r.contains k = true ∧ ¬l.Retracts p K k) := by
  cases hdef : t.definition p with
  | error e =>
    left
    refine ⟨fun a => ?_, ?_, fun k => ?_⟩
    · rw [admission, hdef]
      exact fun h => by cases h
    all_goals simp only [upsert, hdef]
  | ok read =>
    obtain ⟨K, parsed⟩ := read
    have hdk : ((l.get? p).elim parsed (·.bump parsed)).key = .ok K := by
      cases l.get? p <;> simp [FileTree.definition_key hdef]
    have hadm : l.admission t r p now = some (r.submit (if r.contains K then .updated else .added)
        ((l.get? p).elim parsed (·.bump parsed)) now).1 := by
      rw [admission, hdef]
      rfl
    unfold upsert
    rw [hdef]
    dsimp only
    generalize hd : (l.get? p).elim parsed (·.bump parsed) = d at hdk hadm ⊢
    generalize (if r.contains K = true then DeltaKind.updated else DeltaKind.added) = kind at hadm ⊢
    have hc₁ := @Registry.contains_submit r kind d now
    have hopen₁ := Registry.closed_submit r kind d now
    have hstore : (r.submit kind d now).1 = .ok .admitted →
        (r.submit kind d now).2.definitions K = some d := fun h => Registry.definitions_submit h hdk
    rcases hs : r.submit kind d now with ⟨res, r₁⟩
    rw [hs] at hc₁ hopen₁ hadm hstore
    dsimp only at hc₁ hopen₁ hadm hstore
    cases res with
    | error e =>
      left
      refine ⟨(fun a h => by rw [hadm] at h; cases h), rfl, fun k => Bool.eq_iff_iff.2 ?_⟩
      simpa using hc₁ k
    | ok a =>
      right
      refine ⟨K, parsed, a, rfl, hadm, ?_⟩
      rw [hd]
      have hopen₁ : r₁.changes.closed = false := hopen₁.trans hopen
      -- after the write, a key is registered if it was, or if it is the key read and admitted
      have hw : ∀ k, r₁.contains k = true ↔ (a = .admitted ∧ k = K) ∨ r.contains k = true := by
        intro k
        rw [hc₁ k, hdk, Except.ok.injEq, Except.ok.injEq, eq_comm (a := K), or_comm]
      cases hprev : l.get? p with
      | none =>
        have hnot : ∀ k, ¬l.Retracts p K k := fun k ⟨prev, h, _⟩ => by rw [hprev] at h; cases h
        refine ⟨rfl, fun ha => hstore (by rw [ha]), fun k => ?_⟩
        rw [hw k]
        simp only [hnot, not_false_eq_true, and_true]
      | some prev =>
        obtain ⟨k₁, hk₁⟩ := hkeyed prev hprev
        -- the key of the previous record decides what is retracted
        have hretracts : ∀ k, l.Retracts p K k ↔ k = k₁ ∧ k₁ ≠ K := by
          intro k
          constructor
          · rintro ⟨prev', h, hk, hne⟩
            rw [hprev, Option.some.injEq] at h
            subst h
            rw [hk₁, Except.ok.injEq] at hk
            subst hk
            exact ⟨rfl, hne⟩
          · rintro ⟨rfl, hne⟩
            exact ⟨prev, hprev, hk₁, hne⟩
        dsimp only
        rw [hk₁]
        dsimp only
        by_cases hkK : k₁ = K
        · rw [if_pos (by simpa using hkK)]
          refine ⟨rfl, fun ha => hstore (by rw [ha]), fun k => ?_⟩
          rw [hw k, hretracts]
          simp only [hkK, ne_eq, not_true_eq_false, and_false, not_false_eq_true, and_true]
        · rw [if_neg (by simpa using hkK)]
          -- the previous record's key differs: its rule is deleted, which succeeds on the open
          -- queue
          obtain ⟨hok, hc₂⟩ := Registry.delete_of_open hopen₁ hk₁
          have hkeep := Registry.definitions_delete_of_ne hopen₁ hk₁ fun h => hkK h.symm
          rcases hdel : r₁.delete prev with ⟨res₂, r₂⟩
          rw [hdel] at hok hc₂ hkeep
          dsimp only at hok hc₂ hkeep
          subst hok
          refine ⟨rfl, fun ha => hkeep.trans (hstore (by rw [ha])), fun k => ?_⟩
          dsimp only
          rw [hc₂ k, Bool.and_eq_true, bne_iff_ne, hw k, hretracts]
          by_cases hk : k = k₁
          · -- the retracted key: unregistered, and not the key read
            subst hk
            constructor
            · rintro ⟨hne, -⟩
              exact absurd rfl hne
            · rintro (⟨-, hkK'⟩ | ⟨-, hn⟩)
              · exact absurd hkK' hkK
              · exact absurd ⟨rfl, hkK⟩ hn
          · constructor
            · rintro ⟨-, h | h⟩
              · exact .inl h
              · exact .inr ⟨h, fun h' => hk h'.1⟩
            · rintro (h | ⟨h, -⟩)
              · exact ⟨hk, .inl h⟩
              · exact ⟨hk, .inr h⟩

/-- A hot-reload read keeps the rule change queue open or closed. -/
theorem closed_upsert (l : Loader) (t : FileTree) (r : Registry) (p : Path) (now : Nat) :
    (l.upsert t r p now).2.changes.closed = r.changes.closed := by
  unfold upsert
  split
  · rfl
  · rename_i K parsed _
    dsimp only
    have h₁ := Registry.closed_submit r (if r.contains K then .updated else .added)
      ((l.get? p).elim parsed (·.bump parsed)) now
    rcases hs : r.submit (if r.contains K then .updated else .added)
      ((l.get? p).elim parsed (·.bump parsed)) now with ⟨res, r₁⟩
    rw [hs] at h₁
    dsimp only at h₁
    rw [← h₁]
    -- every branch ends with the registry after the write, or after it and a delete
    cases res with
    | error e => rfl
    | ok a =>
      dsimp only
      split
      · rename_i prev _
        split
        · split
          · rfl
          · have h₂ := Registry.closed_delete r₁ prev
            split <;> rename_i heq <;> rw [heq] at h₂ <;> exact h₂
        · rfl
      · rfl

/-- What removing a file does to the records and the registered keys, when the loader's records
are keyed and the rule change queue is open: nothing if the path is not recorded; otherwise the
path is forgotten and its key unregistered. -/
theorem drop_outcome (hopen : r.changes.closed = false)
    (hkeyed : ∀ prev, l.get? p = some prev → ∃ k, prev.key = .ok k) :
    (l.get? p = none ∧ l.drop r p = (l, r)) ∨
    ∃ d k, l.get? p = some d ∧ d.key = .ok k ∧ (l.drop r p).1 = l.forget p ∧
      ∀ k', (l.drop r p).2.contains k' = (k' != k && r.contains k') := by
  cases hprev : l.get? p with
  | none => exact .inl ⟨rfl, by rw [drop, hprev]⟩
  | some d =>
    obtain ⟨k, hk⟩ := hkeyed d hprev
    refine .inr ⟨d, k, rfl, hk, by rw [drop, hprev], fun k' => ?_⟩
    rw [drop, hprev]
    exact (Registry.delete_of_open hopen hk).2 k'

theorem closed_drop (l : Loader) (r : Registry) (p : Path) :
    (l.drop r p).2.changes.closed = r.changes.closed := by
  unfold drop
  split
  · exact Registry.closed_delete r _
  · rfl

/-- A re-read definition has the key of the definition read. -/
@[simp] theorem key_reread (o : Option Definition) (f : Definition) :
    (o.elim f (·.bump f)).key = f.key := by
  cases o <;> simp

theorem defines_record {d : Definition} {k : ObjectKey} :
    (l.record p d).Defines k ↔
      d.key = .ok k ∨ ∃ q e, q ≠ p ∧ (q, e) ∈ l.definitions ∧ e.key = .ok k := by
  constructor
  · rintro ⟨q, e, hqe, hek⟩
    rcases mem_record.1 hqe with ⟨-, rfl⟩ | ⟨hq, hqe⟩
    · exact .inl hek
    · exact .inr ⟨q, e, hq, hqe, hek⟩
  · rintro (hk | ⟨q, e, hq, hqe, hek⟩)
    · exact ⟨p, d, mem_record.2 (.inl ⟨rfl, rfl⟩), hk⟩
    · exact ⟨q, e, mem_record.2 (.inr ⟨hq, hqe⟩), hek⟩

theorem defines_forget {k : ObjectKey} :
    (l.forget p).Defines k ↔ ∃ q e, q ≠ p ∧ (q, e) ∈ l.definitions ∧ e.key = .ok k := by
  constructor
  · rintro ⟨q, e, hqe, hek⟩
    obtain ⟨hq, hqe⟩ := mem_forget.1 hqe
    exact ⟨q, e, hq, hqe, hek⟩
  · rintro ⟨q, e, hq, hqe, hek⟩
    exact ⟨q, e, mem_forget.2 ⟨hq, hqe⟩, hek⟩

/-- The registry is backed by the records: every registered key is defined by a recorded file.
Alongside, the records are keyed and the rule change queue is open. -/
structure Backed (l : Loader) (r : Registry) : Prop where
  keyed : ∀ p d, (p, d) ∈ l.definitions → ∃ k, d.key = .ok k
  queueOpen : r.changes.closed = false
  backed : ∀ k, r.contains k = true → l.Defines k

theorem Backed.keyed_get? (h : Backed l r) {d : Definition} (hd : l.get? p = some d) :
    ∃ k, d.key = .ok k :=
  h.keyed p d (get?_eq_some_iff.1 hd)

/-- Whatever a hot-reload read does, the registry stays backed by the records. -/
theorem Backed.upsert (h : Backed l r) (t : FileTree) (p : Path) (now : Nat) :
    Backed (l.upsert t r p now).1 (l.upsert t r p now).2 := by
  have hopen : (l.upsert t r p now).2.changes.closed = false := by
    rw [closed_upsert]
    exact h.queueOpen
  rcases upsert_outcome h.queueOpen (fun _ => h.keyed_get?) with ⟨-, hl, hc⟩ |
    ⟨K, parsed, a, hdef, -, hl, -, hc⟩
  · rw [hl]
    exact ⟨h.keyed, hopen, fun k hk => h.backed k (by rw [← hc k]; exact hk)⟩
  · have hdk : ((l.get? p).elim parsed (·.bump parsed)).key = .ok K := by
      rw [key_reread]
      exact FileTree.definition_key hdef
    rw [hl]
    refine ⟨fun q e hqe => ?_, hopen, fun k hk => ?_⟩
    · rcases mem_record.1 hqe with ⟨-, rfl⟩ | ⟨-, hqe⟩
      · exact ⟨K, hdk⟩
      · exact h.keyed q e hqe
    · rw [defines_record]
      rcases (hc k).1 hk with ⟨-, rfl⟩ | ⟨hr, hkept⟩
      · exact .inl hdk
      · -- a key registered before is still defined: by the file read if the previous record
        -- defined it, else by the file that did
        obtain ⟨q, e, hqe, hek⟩ := h.backed k hr
        by_cases hq : q = p
        · subst hq
          have hk : k = K := by
            by_contra hne
            exact hkept ⟨e, get?_eq_some_iff.2 hqe, hek, hne⟩
          rw [hk]
          exact .inl hdk
        · exact .inr ⟨q, e, hq, hqe, hek⟩

/-- Removing a file keeps the registry backed by the records. -/
theorem Backed.drop (h : Backed l r) (p : Path) : Backed (l.drop r p).1 (l.drop r p).2 := by
  have hopen : (l.drop r p).2.changes.closed = false := by
    rw [closed_drop]
    exact h.queueOpen
  rcases drop_outcome h.queueOpen (fun _ => h.keyed_get?) with ⟨-, hdrop⟩ |
    ⟨d, k₀, hprev, hk₀, hl, hc⟩
  · rw [hdrop]
    exact h
  · rw [hl]
    refine ⟨fun q e hqe => h.keyed q e (mem_forget.1 hqe).2, hopen, fun k hk => ?_⟩
    rw [hc k, Bool.and_eq_true, bne_iff_ne] at hk
    rw [defines_forget]
    obtain ⟨q, e, hqe, hek⟩ := h.backed k hk.2
    refine ⟨q, e, fun hq => hk.1 ?_, hqe, hek⟩
    -- the file at the removed path defined the removed key only
    subst hq
    have he : e = d := Option.some.inj ((get?_eq_some_iff.2 hqe).symm.trans hprev)
    rw [he, hk₀, Except.ok.injEq] at hek
    exact hek.symm

/-- Every change keeps the registry backed by the records. -/
theorem Backed.onChange (h : Backed l r) (t : FileTree) (p : Path) (now : Nat) :
    Backed (l.onChange t r p now).1 (l.onChange t r p now).2 := by
  unfold Loader.onChange
  split
  · exact h
  · split
    · exact h.upsert t p now
    · exact h.drop p

/-- Every key a recorded file defines is registered. -/
def Complete (l : Loader) (r : Registry) : Prop := ∀ k, l.Defines k → r.contains k = true

/-- No recorded file but the one at `p` defines the key recorded for `p`. -/
def Sole (l : Loader) (p : Path) : Prop :=
  ∀ d k, l.get? p = some d → d.key = .ok k → ∀ q e, (q, e) ∈ l.definitions → e.key = .ok k → q = p

/-- A change of a path is clean when the write it makes, if any, is not refused by the limiter,
and no other recorded file defines the key recorded for the path. -/
def Clean (l : Loader) (t : FileTree) (r : Registry) (p : Path) (now : Nat) : Prop :=
  l.admission t r p now ≠ some (.ok .rateLimited) ∧ l.Sole p

/-- A clean hot-reload read keeps every recorded key registered. -/
theorem Complete.upsert (hb : Backed l r) (hc : Complete l r) (hclean : Clean l t r p now) :
    Complete (l.upsert t r p now).1 (l.upsert t r p now).2 := by
  rcases upsert_outcome hb.queueOpen (fun _ => hb.keyed_get?) with ⟨-, hl, hcont⟩ |
    ⟨K, parsed, a, hdef, hadm, hl, -, hcont⟩
  · rw [hl]
    intro k hk
    rw [hcont]
    exact hc k hk
  · rw [hl]
    intro k hk
    rw [hcont k]
    rcases defines_record.1 hk with hk | ⟨q, e, hq, hqe, hek⟩
    · -- the file read: its write was admitted, as the limiter did not refuse it
      have ha : a = .admitted := by
        cases a with
        | admitted => rfl
        | rateLimited => exact absurd hadm hclean.1
      rw [key_reread, FileTree.definition_key hdef, Except.ok.injEq] at hk
      exact .inl ⟨ha, hk.symm⟩
    · -- another file: its key was registered, and it is not the previous record's key
      refine .inr ⟨hc k ⟨q, e, hqe, hek⟩, fun ⟨prev, hprev, hpk, _⟩ => ?_⟩
      exact hq (hclean.2 prev k hprev hpk q e hqe hek)

/-- Removing a file whose key no other file defines keeps every recorded key registered. -/
theorem Complete.drop (hb : Backed l r) (hc : Complete l r) (hsole : l.Sole p) :
    Complete (l.drop r p).1 (l.drop r p).2 := by
  rcases drop_outcome hb.queueOpen (fun _ => hb.keyed_get?) with ⟨-, hdrop⟩ |
    ⟨d, k₀, hprev, hk₀, hl, hcont⟩
  · rw [hdrop]
    exact hc
  · rw [hl]
    intro k hk
    obtain ⟨q, e, hq, hqe, hek⟩ := defines_forget.1 hk
    rw [hcont k, Bool.and_eq_true, bne_iff_ne]
    refine ⟨fun hk₀' => hq (hsole d k₀ hprev hk₀ q e hqe (hk₀' ▸ hek)), hc k ⟨q, e, hqe, hek⟩⟩

/-- A clean change keeps every recorded key registered. -/
theorem Complete.onChange (hb : Backed l r) (hc : Complete l r) (hclean : Clean l t r p now) :
    Complete (l.onChange t r p now).1 (l.onChange t r p now).2 := by
  unfold Loader.onChange
  split
  · exact hc
  · split
    · exact hc.upsert hb hclean
    · exact hc.drop hb hclean.2

/-! ## Checking the invariants

Each invariant is a finite check over the records and the rules, so it is decided of any state:
the checks below say the same as the invariants. -/

theorem backed_iff : Backed l r ↔
    (∀ e ∈ l.definitions, e.2.key.toOption.isSome = true) ∧ r.changes.closed = false ∧
    ∀ ρ ∈ r.rules, ∃ e ∈ l.definitions, e.2.key = .ok ρ.key := by
  constructor
  · intro h
    refine ⟨fun e he => ?_, h.queueOpen, fun ρ hρ => ?_⟩
    · obtain ⟨k, hk⟩ := h.keyed e.1 e.2 he
      simp [hk, Except.toOption]
    · obtain ⟨q, d, hqd, hdk⟩ := h.backed ρ.key (Registry.contains_of_mem hρ)
      exact ⟨(q, d), hqd, hdk⟩
  · rintro ⟨hkeyed, hopen, hback⟩
    refine ⟨fun q d hqd => Except.exists_ok_of_toOption (hkeyed (q, d) hqd), hopen, fun k hk => ?_⟩
    -- a registered key is the key of a rule, whose definition some record shares
    obtain ⟨ρ, hρ, hρk⟩ : ∃ ρ ∈ r.rules, ρ.key = k := by
      simpa [Registry.contains, List.any_eq_true] using hk
    obtain ⟨e, he, hek⟩ := hback ρ hρ
    exact ⟨e.1, e.2, he, hρk ▸ hek⟩

instance : Decidable (Backed l r) := decidable_of_iff _ backed_iff.symm

theorem complete_iff :
    Complete l r ↔ ∀ e ∈ l.definitions, e.2.key.toOption.all r.contains = true := by
  constructor
  · intro h e he
    cases hk : e.2.key with
    | error _ => rfl
    | ok k => exact h k ⟨e.1, e.2, he, hk⟩
  · rintro h k ⟨q, d, hqd, hdk⟩
    simpa [hdk, Except.toOption] using h (q, d) hqd

instance : Decidable (Complete l r) := decidable_of_iff _ complete_iff.symm

theorem sole_iff : l.Sole p ↔
    ∀ d ∈ l.get? p, ∀ k ∈ d.key.toOption, ∀ e ∈ l.definitions, e.2.key = .ok k → e.1 = p := by
  constructor
  · intro h d hd k hk e he hek
    exact h d k hd (Except.eq_ok_of_toOption hk) e.1 e.2 he hek
  · intro h d k hd hdk q e hqe hek
    exact h d hd k (by simp [hdk, Except.toOption]) (q, e) hqe hek

instance : Decidable (l.Sole p) := decidable_of_iff _ sole_iff.symm

instance : Decidable (Clean l t r p now) :=
  inferInstanceAs (Decidable (l.admission t r p now ≠ some (.ok .rateLimited) ∧ l.Sole p))

/-- A change of a path of a tree, applied at a time. -/
structure Change where
  tree : FileTree
  path : Path
  now : Nat

/-- The records and the registry after a change. -/
def handle (s : Loader × Registry) (c : Change) : Loader × Registry :=
  s.1.onChange c.tree s.2 c.path c.now

/-- The records and the registry after changes in order. -/
def handleAll (s : Loader × Registry) (cs : List Change) : Loader × Registry := cs.foldl handle s

theorem Backed.handleAll (hb : Backed l r) (cs : List Change) :
    Backed (handleAll (l, r) cs).1 (handleAll (l, r) cs).2 := by
  induction cs generalizing l r with
  | nil => exact hb
  | cons c cs ih => exact ih (hb.onChange c.tree c.path c.now)

theorem Complete.handleAll (hb : Backed l r) (hc : Complete l r) (cs : List Change)
    (hclean : ∀ pre c post, cs = pre ++ c :: post →
      Clean (handleAll (l, r) pre).1 c.tree (handleAll (l, r) pre).2 c.path c.now) :
    Complete (handleAll (l, r) cs).1 (handleAll (l, r) cs).2 := by
  induction cs generalizing l r with
  | nil => exact hc
  | cons c cs ih =>
    -- the first change is clean at the start, the rest after it
    exact ih (hb.onChange c.tree c.path c.now) (hc.onChange hb (hclean [] c cs rfl))
      fun pre c' post h => hclean (c :: pre) c' post (by rw [h]; rfl)

/-- Along any run of changes, the registry stays backed by the records; and it keeps every
recorded key registered as long as every change is clean when it is handled. -/
theorem handleAll_backed_complete {l : Loader} {r : Registry} (hb : Backed l r)
    (hc : Complete l r) (cs : List Change) :
    Backed (handleAll (l, r) cs).1 (handleAll (l, r) cs).2 ∧
      ((∀ pre c post, cs = pre ++ c :: post →
          Clean (handleAll (l, r) pre).1 c.tree (handleAll (l, r) pre).2 c.path c.now) →
        Complete (handleAll (l, r) cs).1 (handleAll (l, r) cs).2) :=
  ⟨hb.handleAll cs, hc.handleAll hb cs⟩
/-- Removing a file whose key another recorded file also defines unregisters that key, which the
other file still defines. -/
theorem drop_unregisters_shared_key (hb : Backed l r) {d e : Definition} {k : ObjectKey}
    (hp : l.get? p = some d) (hk : d.key = .ok k) (hq : (q, e) ∈ l.definitions) (hqp : q ≠ p)
    (hek : e.key = .ok k) : (l.drop r p).1.Defines k ∧ (l.drop r p).2.contains k = false := by
  rcases drop_outcome hb.queueOpen (fun _ => hb.keyed_get?) with ⟨hnone, -⟩ |
    ⟨d', k₀, hprev, hk₀, hl, hcont⟩
  · rw [hp] at hnone
    cases hnone
  · have hd : d' = d := Option.some.inj (hprev.symm.trans hp)
    rw [hd, hk, Except.ok.injEq] at hk₀
    subst hk₀
    refine ⟨by rw [hl]; exact defines_forget.2 ⟨q, e, hqp, hq, hek⟩, ?_⟩
    rw [hcont k]
    simp

/-- An admitted re-read of a recorded file with another spec stores, under the key read, a
definition with that spec and a generation other than the previous record's. -/
theorem upsert_generation_ne (hb : Backed l r) {prev parsed : Definition} {K : ObjectKey}
    (hprev : l.get? p = some prev) (hdef : t.definition p = .ok (K, parsed))
    (hadm : l.admission t r p now = some (.ok .admitted)) (hspec : parsed.spec ≠ prev.spec) :
    ∃ d, (l.upsert t r p now).2.definitions K = some d ∧ d.spec = parsed.spec ∧
      d.generation ≠ prev.generation := by
  rcases upsert_outcome hb.queueOpen (fun _ => hb.keyed_get?) with ⟨hnone, -⟩ |
    ⟨K', parsed', a, hdef', hadm', -, hstore, -⟩
  · exact absurd hadm (hnone _)
  · rw [hdef, Except.ok.injEq, Prod.mk.injEq] at hdef'
    obtain ⟨rfl, rfl⟩ := hdef'
    have ha : a = .admitted := by
      rw [hadm] at hadm'
      simpa using hadm'.symm
    rw [hstore ha, hprev, Option.elim_some]
    exact ⟨prev.bump parsed, rfl, Definition.bump_spec _ _, Definition.bump_generation_ne hspec⟩

/-- An admitted first read of a file stores the file's own definition under the key read, with
its own generation, whatever rule of that key it replaces. -/
theorem upsert_fresh_generation (hb : Backed l r) {parsed : Definition} {K : ObjectKey}
    (hprev : l.get? p = none) (hdef : t.definition p = .ok (K, parsed))
    (hadm : l.admission t r p now = some (.ok .admitted)) :
    (l.upsert t r p now).2.definitions K = some parsed := by
  rcases upsert_outcome hb.queueOpen (fun _ => hb.keyed_get?) with ⟨hnone, -⟩ |
    ⟨K', parsed', a, hdef', hadm', -, hstore, -⟩
  · exact absurd hadm (hnone _)
  · rw [hdef, Except.ok.injEq, Prod.mk.injEq] at hdef'
    obtain ⟨rfl, rfl⟩ := hdef'
    have ha : a = .admitted := by
      rw [hadm] at hadm'
      simpa using hadm'.symm
    rw [hstore ha, hprev, Option.elim_none]

/-- Changes handled after a sync of a rule directory holding `a.yaml`, which defines
`billing/plan`, and `c.yaml`, which defines `billing/other`: an edit of `a.yaml`, a copy of it
to `b.yaml` and the removal of `c.yaml`. Each change is clean when it is handled, so the
registry stays backed by the records and complete, and in the end it holds `billing/plan`
alone, which both remaining files define. -/
theorem handleAll_backed_complete_after_sync :
    let plan : String → List UInt8 := fun ns =>
      ("metadata:\n  namespace: billing\n  name: plan\nspec:\n  resourceFilters:\n" ++
        "    - namespace:\n        names: [" ++ ns ++ "]\n").toUTF8.toList
    let other : List UInt8 :=
      ("metadata:\n  namespace: billing\n  name: other\nspec:\n  resourceFilters:\n" ++
        "    - namespace:\n        names: [ns]\n").toUTF8.toList
    let t₀ : FileTree := { entries := [(["rules"], .dir), (["rules", "a.yaml"], .file (plan "foo")),
      (["rules", "c.yaml"], .file other)] }
    let t₁ : FileTree := { entries := [(["rules"], .dir), (["rules", "a.yaml"], .file (plan "bar")),
      (["rules", "c.yaml"], .file other)] }
    let t₂ : FileTree := { entries := t₁.entries ++ [(["rules", "b.yaml"], .file (plan "bar"))] }
    let t₃ : FileTree := { entries := [(["rules"], .dir), (["rules", "a.yaml"], .file (plan "bar")),
      (["rules", "b.yaml"], .file (plan "bar"))] }
    let s := (({ dir := ["rules"] } : Loader).sync t₀ (Registry.create .selector 10 1000 16) 0).2
    let cs : List Change :=
      [⟨t₁, ["rules", "a.yaml"], 0⟩, ⟨t₂, ["rules", "b.yaml"], 0⟩, ⟨t₃, ["rules", "c.yaml"], 0⟩]
    (∀ pre c post, cs = pre ++ c :: post →
        Clean (handleAll s pre).1 c.tree (handleAll s pre).2 c.path c.now) ∧
      Backed (handleAll s cs).1 (handleAll s cs).2 ∧ Complete (handleAll s cs).1 (handleAll s cs).2 ∧
      (handleAll s cs).2.rules.map (·.key) = [.inNamespace "billing" "plan"] := by
  intro plan other t₀ t₁ t₂ t₃ s cs
  -- the definitions the files hold, written out, so that each file is read once
  let rule : String → Definition := fun ns =>
    { metadata := { ns := some "billing", name := "plan" }
      spec := { filters := [{ namespaces := some [ns] }] } }
  let namespaced : Definition :=
    { metadata := { ns := some "billing", name := "other" }
      spec := { filters := [{ namespaces := some ["ns"] }] } }
  -- the sync records both files in path order and reconciles the created registry with them
  have hsync : s = ({ dir := ["rules"], definitions :=
      [(["rules", "a.yaml"], rule "foo"), (["rules", "c.yaml"], namespaced)] },
      ((Registry.create .selector 10 1000 16).resync [rule "foo", namespaced] 0).2) := by
    have hdefs : (({ dir := ["rules"] } : Loader).loadAll t₀).2.definitions =
        [(["rules", "a.yaml"], rule "foo"), (["rules", "c.yaml"], namespaced)] := by
      decide +kernel
    have hload : (({ dir := ["rules"] } : Loader).loadAll t₀).2 = { dir := ["rules"], definitions :=
        [(["rules", "a.yaml"], rule "foo"), (["rules", "c.yaml"], namespaced)] } :=
      Loader.ext (loadAll_dir _ _) hdefs
    show (Loader.sync _ t₀ _ 0).2 = _
    rw [Loader.sync_eq, hload]
    rfl
  -- the edit and the copy read the edited rule
  have hread₁ : t₁.definition ["rules", "a.yaml"] =
      .ok (.inNamespace "billing" "plan", rule "bar") :=
    Except.eq_ok_of_toOption (by decide +kernel)
  have hread₂ : t₂.definition ["rules", "b.yaml"] =
      .ok (.inNamespace "billing" "plan", rule "bar") :=
    Except.eq_ok_of_toOption (by decide +kernel)
  have hedit : ∀ (l : Loader) (r : Registry),
      l.onChange t₁ r ["rules", "a.yaml"] 0 = l.upsert t₁ r ["rules", "a.yaml"] 0 :=
    fun l r => by rw [Loader.onChange, if_neg (by decide +kernel), if_pos (by decide +kernel)]
  have hcopy : ∀ (l : Loader) (r : Registry),
      l.onChange t₂ r ["rules", "b.yaml"] 0 = l.upsert t₂ r ["rules", "b.yaml"] 0 :=
    fun l r => by rw [Loader.onChange, if_neg (by decide +kernel), if_pos (by decide +kernel)]
  have hremove : ∀ (l : Loader) (r : Registry),
      l.onChange t₃ r ["rules", "c.yaml"] 0 = l.drop r ["rules", "c.yaml"] :=
    fun l r => by rw [Loader.onChange, if_neg (by decide +kernel), if_neg (by decide +kernel)]
  -- the sync leaves the registry backed and complete
  have hb : Backed s.1 s.2 := by
    rw [hsync]
    decide +kernel
  have hc : Complete s.1 s.2 := by
    rw [hsync]
    decide +kernel
  -- each change is clean in the state it meets
  have hclean : ∀ pre c post, cs = pre ++ c :: post →
      Clean (handleAll s pre).1 c.tree (handleAll s pre).2 c.path c.now := by
    intro pre c post h
    rcases pre with _ | ⟨c₁, _ | ⟨c₂, _ | ⟨c₃, pre⟩⟩⟩ <;>
      simp only [cs, List.nil_append, List.cons_append, List.cons.injEq] at h
    · obtain ⟨rfl, -⟩ := h
      simp only [hsync, handleAll, List.foldl_nil, Clean, admission, hread₁]
      decide +kernel
    · obtain ⟨rfl, rfl, -⟩ := h
      simp only [hsync, handleAll, List.foldl_cons, List.foldl_nil, handle, hedit, Loader.upsert,
        hread₁, Clean, admission, hread₂]
      decide +kernel
    · obtain ⟨rfl, rfl, rfl, -⟩ := h
      simp only [hsync, handleAll, List.foldl_cons, List.foldl_nil, handle, hedit, hcopy,
        Loader.upsert, hread₁, hread₂, Clean, admission]
      decide +kernel
    · exact absurd h.2.2.2 (by simp)
  obtain ⟨hb', hc'⟩ := handleAll_backed_complete hb hc cs
  rw [Prod.mk.eta] at hb' hc'
  refine ⟨hclean, hb', hc' hclean, ?_⟩
  simp only [hsync, handleAll, cs, List.foldl_cons, List.foldl_nil, handle, hedit, hcopy, hremove,
    Loader.upsert, hread₁, hread₂]
  decide +kernel

end Loader

end MeterMatch
