import MeterMatch.Proofs.Run
import MeterMatch.Proofs.IndexRebuild

/-! # No call finds the index corrupt

The table's writes report `EngineError.invariant` when the inverted index misses a key it should
list, a read by rule reports it for a listed key with no item, and the check reports it when the
index differs from one rebuilt from the items. On a table as the engine keeps it none of these
happens, so no call on the table or the coordinator reports a corrupt index.

* `Faultless`: an outcome that is not such a report; `FaultlessKept` for the first error that a
  loop keeps. Matching, untracking and recording are faultless on a well-formed table, hence
  every call made of them.
* `Engine.Shaped`: a key holds nothing, or an association with at least one rule and no rule
  twice. An apply that finds no rule untracks, so every apply keeps this.
* `Engine.Intact`: every key is shaped and the index lists the keys under each rule in
  ascending order; every call keeps it (`Engine.Intact.step`).
* `Engine.tables_stay_intact`: in every run, every stored association sits under its own key,
  has rules and none twice, and no call of `Engine.Uncorrupted` reports a corrupt index.
-/

namespace MeterMatch

/-- An outcome that is not a report of a corrupt index. -/
def Faultless {β : Type} (x : Except EngineError β) : Prop := ∀ f, x ≠ .error (.invariant f)

section Faultless
variable {β γ : Type}

theorem faultless_ok (b : β) : Faultless (.ok b : Except EngineError β) := fun _ h => by cases h

theorem faultless_error {err : EngineError} (h : ∀ f, err ≠ .invariant f) :
    Faultless (.error err : Except EngineError β) :=
  fun f hf => h f (Except.error.inj hf)

theorem Faultless.map {x : Except EngineError β} (h : Faultless x) (g : β → γ) :
    Faultless (x.map g) := by
  cases x with
  | error err => exact fun f hf => h f (congrArg Except.error (Except.error.inj hf))
  | ok b => exact faultless_ok _

/-- The error of a faultless outcome is no fault, as the outcome of any call. -/
theorem Faultless.carry {x : Except EngineError β} {err : EngineError} (hx : Faultless x)
    (he : x = .error err) : Faultless (.error err : Except EngineError γ) :=
  faultless_error fun f hf => hx f (by rw [he, hf])

/-- A kept first error that is not a report of a corrupt index. -/
def FaultlessKept (err : Option EngineError) : Prop := ∀ f, err ≠ some (.invariant f)

theorem faultlessKept_none : FaultlessKept none := fun _ h => by cases h

/-- Keeping the first error met stays faultless when the error met is no fault. -/
theorem FaultlessKept.orElse {err : Option EngineError} (h : FaultlessKept err)
    {x : Except EngineError β} {err' : EngineError} (hx : Faultless x) (he : x = .error err') :
    FaultlessKept (err.orElse fun _ => some err') := by
  intro f hs
  cases err with
  | none => exact hx f (he.trans (congrArg Except.error (Option.some.inj hs)))
  | some _ => exact h f hs

theorem FaultlessKept.error {err : EngineError} (h : FaultlessKept (some err)) :
    Faultless (.error err : Except EngineError β) :=
  faultless_error fun f hf => h f (by rw [hf])

end Faultless

namespace Registry

/-- A match fails only on an object without a key or a rule that cannot judge it. -/
theorem matchRules_faultless (r : Registry) (o : CandidateObject) (okey : ObjectKey) (skip : Bool) :
    ∀ (rules : List Rule) (cache : MatchCache), Faultless (r.matchRules o okey skip rules cache).1
  | [], _ => faultless_ok _
  | rule :: rest, cache => by
    rw [matchRules_cons]
    split
    · exact (matchRules_faultless r o okey skip rest _).map _
    · exact matchRules_faultless r o okey skip rest _
    · exact faultless_error (by simp)

theorem findMatches_faultless (r : Registry) (o : CandidateObject) (skip : Bool) :
    Faultless (r.findMatches o skip).1 := by
  unfold findMatches
  split
  · exact faultless_error (by simp)
  · exact matchRules_faultless r o _ skip r.rules r.cache

end Registry

namespace Engine

variable {e : Engine}

/-! ## Faultless writes -/

theorem untrack_faultless (h : e.tracked.WF) (key : ObjectKey) : Faultless (e.untrack key).1 := by
  obtain ⟨t, hrem, -⟩ := h.remove key
  unfold untrack
  split
  · exact faultless_ok _
  · split
    · exact faultless_error (by simp)
    · rw [hrem]
      exact faultless_ok _

theorem record_faultless (h : e.tracked.WF) (key : ObjectKey) (o : CandidateObject)
    (rules : List ObjectKey) : Faultless (e.record key o rules).1 := by
  obtain ⟨t, hup, -⟩ := h.upsert key (Association.make key o rules)
  unfold record
  dsimp only
  split
  · exact faultless_ok _
  · split
    · exact faultless_error (by simp)
    · rw [hup]
      exact faultless_ok _

theorem apply_faultless (h : e.tracked.WF) (o : CandidateObject) (skip : Bool) :
    Faultless (e.apply o skip).1 := by
  have h₁ : (e.findMatches o skip).2.tracked.WF := by simpa using h
  have hf : Faultless (e.findMatches o skip).1 := by
    rw [findMatches_eq]
    exact Registry.findMatches_faultless e.registry o skip
  unfold apply
  split
  · exact faultless_error (by simp)
  · rename_i key hk
    generalize e.findMatches o skip = p at hf h₁ ⊢
    obtain ⟨found, e'⟩ := p
    dsimp only at hf h₁ ⊢
    split
    · -- a failed match untracks a tracked key, reporting the untrack's error or the match's
      have herr : Faultless (.error _ : Except EngineError IndexChange) := hf.carry rfl
      have hu := untrack_faultless h₁ key
      split
      · split <;> rename_i hx <;> rw [hx] at hu
        · exact hu
        · exact herr
      · exact herr
    · exact untrack_faultless h₁ key
    · exact record_faultless h₁ key o _

theorem update_faultless (h : e.tracked.WF) (o : CandidateObject) : Faultless (e.update o).1 := by
  unfold update
  split
  · exact faultless_error (by simp)
  · split
    · exact faultless_ok _
    · exact apply_faultless h o false

theorem delete_faultless (h : e.tracked.WF) (o : CandidateObject) : Faultless (e.delete o).1 := by
  unfold delete
  split
  · exact faultless_error (by simp)
  · exact untrack_faultless h _

theorem rematch_faultless (h : e.tracked.WF) (key : ObjectKey) (skip : Bool) :
    Faultless (e.rematch key skip).1 := by
  unfold rematch
  split
  · exact apply_faultless h _ skip
  · exact faultless_ok _

/-! ## Faultless calls made of many writes -/

/-- Re-applying objects never keeps a report of a corrupt index that it did not start with. -/
theorem reapply_faultless (skip : Bool) :
    ∀ (os : List CandidateObject) (e : Engine) (n : Nat) (err : Option EngineError),
      TableOk e.tracked → FaultlessKept err → FaultlessKept (reapply skip os e n err).2.1
  | [], _, _, _, _, herr => herr
  | o :: rest, e, n, err, h, herr => by
    have hf := apply_faultless h.wf o skip
    have h₁ := h.apply o skip
    unfold reapply
    split <;> rename_i he <;> rw [he] at hf h₁
    · exact reapply_faultless skip rest _ _ _ h₁ herr
    · exact reapply_faultless skip rest _ _ _ h₁ (herr.orElse hf rfl)

theorem rematchAll_faultless (h : TableOk e.tracked) (skip : Bool) :
    Faultless (e.rematchAll skip).1 := by
  have hr := reapply_faultless skip (e.tracked.list.map (·.object)) e 0 none h faultlessKept_none
  unfold rematchAll
  split
  · rename_i err e' he
    rw [he] at hr
    exact hr.error
  · exact faultless_ok _

/-- Untracking unlisted keys never keeps a report of a corrupt index that it did not start
with. -/
theorem dropUnlisted_faultless (listed : List ObjectKey) :
    ∀ (keys : List ObjectKey) (e : Engine) (err : Option EngineError),
      TableOk e.tracked → FaultlessKept err → FaultlessKept (dropUnlisted listed keys e err).1
  | [], _, _, _, herr => herr
  | k :: rest, e, err, h, herr => by
    unfold dropUnlisted
    split
    · exact dropUnlisted_faultless listed rest e err h herr
    · have hf := untrack_faultless h.wf k
      have h₁ := h.untrack k
      split <;> rename_i he <;> rw [he] at hf h₁
      · exact dropUnlisted_faultless listed rest _ _ h₁ herr
      · exact dropUnlisted_faultless listed rest _ _ h₁ (herr.orElse hf rfl)

theorem replace_faultless (h : TableOk e.tracked) (listing : List CandidateObject) :
    Faultless (e.replace listing).1 := by
  have hU : ∀ (e : Engine) k, TableOk e.tracked → TableOk (e.untrack k).2.tracked :=
    fun _ k h => h.untrack k
  unfold replace
  dsimp only
  split
  · -- the error kept: the first object without a key, or one of the untracks and applies
    rename_i err hkept
    have hr : FaultlessKept (some err) := by
      rw [← hkept]
      refine reapply_faultless true _ _ 0 _ (dropUnlisted_induction _ hU _ _ _ h)
        (dropUnlisted_faultless _ _ e _ h fun f hs => ?_)
      obtain ⟨o, -, ho⟩ := List.exists_of_findSome?_eq_some hs
      split at ho <;> simp at ho
    exact hr.error
  · exact faultless_ok _

/-! ## Faultless reads and coordinator steps -/

theorem byIndex_faultless (h : TableOk e.tracked) (rule : ObjectKey) : Faultless (e.byIndex rule) := by
  obtain ⟨as, has, -⟩ := byIndex_ok h rule
  rw [has]
  exact faultless_ok _

theorem cascade_faultless :
    ∀ (as : List Association) (e : Engine), TableOk e.tracked → Faultless (cascade as e).1
  | [], _, _ => faultless_ok _
  | a :: rest, e, h => by
    have hf := rematch_faultless h.wf a.key false
    have h₁ : TableOk (e.rematch a.key false).2.tracked :=
      @rematch_induction (fun e => TableOk e.tracked) e a.key false
        (fun a _ => h.apply a.object false) h
    unfold cascade
    split <;> rename_i he <;> rw [he] at hf h₁
    · exact cascade_faultless rest _ h₁
    · exact hf.carry rfl

theorem handle_faultless (h : TableOk e.tracked) (d : Delta Definition) :
    Faultless (handle e d).1 := by
  have hall := rematchAll_faultless h false
  unfold handle
  split
  · exact faultless_error (by simp)
  · split
    · exact faultless_error (by simp)
    · -- an addition or update re-applies every tracked object; a deletion reads the
      -- associations of its rule, which never fails here, and cascades over them
      split
      · split <;> rename_i he
        · exact faultless_ok _
        · exact hall.carry (by rw [he])
      · split <;> rename_i he
        · exact faultless_ok _
        · exact hall.carry (by rw [he])
      split
      · rename_i err hb
        obtain ⟨as, has, -⟩ := byIndex_ok h d.key
        rw [has] at hb
        cases hb
      · exact cascade_faultless _ e h

theorem processNext_faultless (h : TableOk e.tracked) : Faultless e.processNext.1 := by
  unfold processNext
  split
  · exact faultless_ok _
  · rename_i d rest _
    let e₀ : Engine := { e with registry := { e.registry with changes := rest } }
    have hf : Faultless (handle e₀ d).1 := handle_faultless (show TableOk e₀.tracked from h) d
    generalize handle e₀ d = p at hf ⊢
    obtain ⟨result, e'⟩ := p
    cases result with
    | error err => exact hf.carry rfl
    | ok u => exact faultless_ok _

theorem drainFrom_faultless :
    ∀ (fuel handled : Nat) (e : Engine), Sound e → Faultless (drainFrom fuel handled e).1
  | 0, _, _, _ => faultless_ok _
  | fuel + 1, handled, e, hs => by
    have hf := processNext_faultless hs.table
    have h₁ := hs.processNext
    unfold drainFrom
    split <;> rename_i he <;> rw [he] at hf h₁
    · exact faultless_ok _
    · exact drainFrom_faultless fuel _ _ h₁
    · exact hf.carry rfl

theorem drain_faultless (hs : Sound e) : Faultless e.drain.1 :=
  drainFrom_faultless _ 0 e hs

/-! ## What the table holds -/

/-- What a key holds: nothing, or an association with at least one rule and no rule twice. -/
def Shaped : Option Association → Prop
  | none => True
  | some a => a.rules ≠ [] ∧ a.rules.Nodup

@[simp] theorem shaped_none : Shaped none := trivial

theorem shaped_some {a : Association} : Shaped (some a) ↔ a.rules ≠ [] ∧ a.rules.Nodup := Iff.rfl

/-- Recording keeps a property of what each key holds that is true of the association it
writes. -/
theorem record_keeps {Q : Option Association → Prop} (h : TableOk e.tracked) (key : ObjectKey)
    (o : CandidateObject) {rules : List ObjectKey} (hnd : rules.Nodup)
    (hnew : Q (some ⟨key, o, rules⟩)) {k : ObjectKey} (hQ : Q (e.tracked.get? k)) :
    Q ((e.record key o rules).2.tracked.get? k) := by
  obtain ⟨hother, hself⟩ := record_get? h key o hnd
  by_cases hk : k = key
  · subst hk
    rcases hself with ⟨hsame, -⟩ | hw
    · rwa [hsame]
    · rwa [hw]
  · rwa [hother k hk]

theorem ascending_untrack (h : Indexed.SetsAscending e.tracked.index) (key : ObjectKey) :
    Indexed.SetsAscending (e.untrack key).2.tracked.index := by
  unfold untrack
  split
  · exact h
  · split
    · exact h
    · -- the table the removal leaves, whether it failed or not
      split <;>
      · rename_i hrem
        exact h.remove hrem

theorem ascending_record (h : Indexed.SetsAscending e.tracked.index) (key : ObjectKey)
    (o : CandidateObject) (rules : List ObjectKey) :
    Indexed.SetsAscending (e.record key o rules).2.tracked.index := by
  unfold record
  dsimp only
  split
  · exact h
  · split
    · exact h
    · split <;>
      · rename_i hup
        exact h.upsert hup

/-- The table beyond `TableOk`: every key is shaped, and the index lists the keys under each
rule in ascending order. -/
structure Intact (e : Engine) : Prop where
  shaped : ∀ k, Shaped (e.tracked.get? k)
  ascending : Indexed.SetsAscending e.tracked.index

namespace Intact

theorem of_tracked {e' : Engine} (h : Intact e) (ht : e'.tracked = e.tracked) : Intact e' :=
  ⟨ht ▸ h.shaped, ht ▸ h.ascending⟩

theorem untrack (hw : e.tracked.WF) (h : Intact e) (key : ObjectKey) : Intact (e.untrack key).2 :=
  ⟨fun k => untrack_keeps hw key trivial (h.shaped k), ascending_untrack h.ascending key⟩

theorem record (ht : TableOk e.tracked) (h : Intact e) {key : ObjectKey} {o : CandidateObject}
    {rules : List ObjectKey} (hne : rules ≠ []) (hnd : rules.Nodup) :
    Intact (e.record key o rules).2 :=
  ⟨fun k => record_keeps ht key o hnd (shaped_some.2 ⟨hne, hnd⟩) (h.shaped k),
    ascending_record h.ascending key o rules⟩

/-- An apply that finds no rule untracks its key; one that finds rules records their keys, which
are keys of registered rules and so distinct. -/
theorem apply (ht : TableOk e.tracked) (hnd : (e.registry.rules.map (·.key)).Nodup) (h : Intact e)
    (o : CandidateObject) (skip : Bool) : Intact (e.apply o skip).2 := by
  have ht₁ : TableOk (e.findMatches o skip).2.tracked := by simpa using ht
  have h₁ : Intact (e.findMatches o skip).2 := h.of_tracked (by simp)
  rcases apply_cases e o skip with
    ⟨_, -, he⟩ | ⟨key, -, ⟨-, -, he | he⟩ | ⟨-, he⟩ | ⟨rules, hf, hne, he⟩⟩ <;> rw [he]
  · exact h
  · exact h₁
  · exact h₁.untrack ht₁.wf key
  · exact h₁.untrack ht₁.wf key
  · have hnd' : (rules.map (·.key)).Nodup := ((Registry.findMatches_sublist hf).map _).nodup hnd
    exact h₁.record ht₁ (by simpa using hne) hnd'

theorem processNext (hs : Sound e) (h : Intact e) : Intact e.processNext.2 := by
  rcases processNext_cases e with ⟨-, he⟩ | ⟨d, rest, -, he⟩
  · rw [he]
    exact h
  -- the handler's applies match against the rules of `e`, whose keys are distinct
  let P : Engine → Prop := fun e' =>
    TableOk e'.tracked ∧ (e'.registry.rules.map (·.key)).Nodup ∧ Intact e'
  have happ : ∀ e' o skip, True → P e' → P (e'.apply o skip).2 := fun e' o skip _ h' =>
    ⟨h'.1.apply o skip, by rw [apply_registry]; exact h'.2.1, h'.2.2.apply h'.1 h'.2.1 o skip⟩
  have hP := handle_induction P (fun _ => True) happ (fun _ _ _ _ => trivial)
    { e with registry := { e.registry with changes := rest } } d
    ⟨hs.table, hs.registry.keys, h.of_tracked rfl⟩
  rw [he]
  exact hP.2.2.of_tracked rfl

theorem step (hs : Sound e) (h : Intact e) (op : Op) : Intact (e.step op) :=
  (Sound.step_induction Intact (fun _ => True) op
    (fun _ _ _ _ _ h => h.of_tracked rfl) (fun _ _ _ h => h.of_tracked rfl)
    (fun _ _ _ h => h.of_tracked rfl)
    (fun _ o skip _ hs h => h.apply hs.table hs.registry.keys o skip)
    (fun _ _ _ _ _ => trivial) (fun _ k hs h => h.untrack hs.table.wf k)
    (fun _ hs h => h.processNext hs) (fun _ _ h => h.of_tracked rfl)
    (fun _ h => h.of_tracked rfl) (fun _ _ _ h => h.of_tracked rfl) (fun _ _ => trivial) hs h).2

theorem start (compiler : Compiler) (capacity refillMs cacheCapacity retryBackoffMs : Nat) :
    Intact (create (Registry.create compiler capacity refillMs cacheCapacity) retryBackoffMs) :=
  ⟨fun k => by simp [create, Indexed.get?], fun _ hv => by simp [create] at hv⟩

end Intact

/-! ## Every call, in every run -/

/-- No call on the table or the coordinator reports a corrupt index, and the table passes its
check. -/
structure Uncorrupted (e : Engine) : Prop where
  add : ∀ o, Faultless (e.add o).1
  update : ∀ o, Faultless (e.update o).1
  delete : ∀ o, Faultless (e.delete o).1
  deleteKey : ∀ key, Faultless (e.untrack key).1
  rematch : ∀ key skip, Faultless (e.rematch key skip).1
  rematchAll : ∀ skip, Faultless (e.rematchAll skip).1
  resync : Faultless e.resync.1
  replace : ∀ listing, Faultless (e.replace listing).1
  byIndex : ∀ rule, Faultless (e.byIndex rule)
  verify : e.tracked.verify = .ok ()
  handle : ∀ d, Faultless (e.handle d).1
  processNext : Faultless e.processNext.1
  drain : Faultless e.drain.1

theorem uncorrupted_of_intact (hs : Sound e) (h : Intact e) : Uncorrupted e where
  add o := apply_faultless hs.table.wf o false
  update o := update_faultless hs.table.wf o
  delete o := delete_faultless hs.table.wf o
  deleteKey key := untrack_faultless hs.table.wf key
  rematch key skip := rematch_faultless hs.table.wf key skip
  rematchAll skip := rematchAll_faultless hs.table skip
  resync := rematchAll_faultless hs.table true
  replace listing := replace_faultless hs.table listing
  byIndex rule := byIndex_faultless hs.table rule
  verify := hs.table.wf.verify h.ascending
  handle d := handle_faultless hs.table d
  processNext := processNext_faultless hs.table
  drain := drain_faultless hs

/-- In every run from the engine as it is created, each stored association sits under its own
key, which its object's metadata names, and has at least one rule and no rule twice; and no call
on the table or the coordinator reports a corrupt index. -/
theorem tables_stay_intact (compiler : Compiler)
    (capacity refillMs cacheCapacity retryBackoffMs : Nat) (ops : List Op) :
    let e := ops.foldl step
      (create (Registry.create compiler capacity refillMs cacheCapacity) retryBackoffMs)
    (∀ k a, e.association? k = some a →
      a.key = k ∧ a.object.key = .ok k ∧ a.rules ≠ [] ∧ a.rules.Nodup) ∧ Uncorrupted e := by
  intro e
  obtain ⟨hs, hi⟩ := Sound.steps Intact (fun e op hs h => h.step hs op) ops _
    (Sound.start compiler capacity refillMs cacheCapacity retryBackoffMs)
    (Intact.start compiler capacity refillMs cacheCapacity retryBackoffMs)
  refine ⟨fun k a ha => ?_, uncorrupted_of_intact hs hi⟩
  obtain ⟨hkey, hobj⟩ := hs.table.stored k a ha
  have hshape : Shaped (some a) := ha ▸ hi.shaped k
  exact ⟨hkey, hobj, hshape.1, hshape.2⟩

end Engine

end MeterMatch
