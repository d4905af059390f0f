import MeterMatch.Proofs.FreshMatches
import MeterMatch.Proofs.TableIntegrity

/-! # Redelivered writes change nothing

A watch may hand the engine the same object twice, and the coordinator may rematch every object
again. An apply leaves a key as its match says: nothing when no rule matches, else the object with
the keys of the rules matched. An apply whose match finds what the key already reflects untracks
nothing and records nothing, so it queues no delta. Within a call, matching through the cache is
a fresh match (`Engine.Stage.findMatches`), so a repeated call finds what the first one found:

* `Engine.apply_of_untracked`, `Engine.apply_of_stored`: an apply whose match agrees with what
  the key holds leaves the table and the feed alone.
* `Engine.apply_again`: after an apply that succeeds, an apply of the same object whose match
  finds the same rules changes neither the table nor the feed.
* `Engine.reapply_unchanged`: a re-application in which every apply reports no change counts
  none and meets no error.
* `Engine.update_at_generation`: an update at the generation a key holds changes nothing.
* `Engine.Stage.add_again`, `Engine.Stage.rematchAll_again`: within a call, a repeated add, and a
  repeated rematch of every object after one that succeeded; the latter because every association
  then agrees with a fresh match (`Engine.Stage.rematchAll_ok`) and names a rule
  (`Engine.Intact`).
* `Engine.redeliveries_change_nothing`: an update at the stored generation changes nothing at all,
  and in every run under the two hypotheses of `Engine.associations_match_fresh`, a repeated add or
  rematch of every object changes neither the table nor the feed.
-/

namespace MeterMatch

namespace Engine

variable {e : Engine}

@[simp] theorem findMatches_feed (e : Engine) (o : CandidateObject) (skip : Bool) :
    (e.findMatches o skip).2.feed = e.feed := by
  rw [findMatches_eq]

/-- Untracking a key that holds nothing changes nothing. -/
theorem untrack_of_none {key : ObjectKey} (h : e.tracked.get? key = none) :
    e.untrack key = (.ok .untracked, e) := by
  unfold untrack
  rw [h]

/-- Recording the association a key already holds changes nothing. -/
theorem record_of_stored {key : ObjectKey} {o : CandidateObject} {rules : List ObjectKey}
    (h : e.tracked.get? key = some ⟨key, o, rules⟩) : e.record key o rules = (.ok .unchanged, e) := by
  unfold record
  simp [h]

section Apply
variable {o : CandidateObject} {key : ObjectKey} (hk : o.key = .ok key) {skip : Bool}
include hk

/-- An apply that finds no rule for a key that holds nothing only matches. -/
theorem apply_of_untracked (hf : (e.registry.findMatches o skip).1 = .ok [])
    (h : e.tracked.get? key = none) : e.apply o skip = (.ok .untracked, (e.findMatches o skip).2) := by
  rcases apply_cases e o skip with ⟨_, hk', -⟩ | ⟨key', hk', ⟨-, ⟨_, hf'⟩, -⟩ | ⟨-, he⟩ | ⟨_, hf', hne, -⟩⟩
  · rw [hk] at hk'
    cases hk'
  · rw [hf] at hf'
    cases hf'
  · obtain rfl : key' = key := by simpa [hk] using hk'.symm
    rw [he]
    exact untrack_of_none (by simpa using h)
  · rw [hf, Except.ok.injEq] at hf'
    exact absurd hf'.symm hne

/-- An apply that finds the rules whose keys a key holds, with the object it holds, only
matches. -/
theorem apply_of_stored {rules : List Rule} (hf : (e.registry.findMatches o skip).1 = .ok rules)
    (hne : rules ≠ []) (h : e.tracked.get? key = some ⟨key, o, rules.map (·.key)⟩) :
    e.apply o skip = (.ok .unchanged, (e.findMatches o skip).2) := by
  rcases apply_cases e o skip with ⟨_, hk', -⟩ | ⟨key', hk', ⟨-, ⟨_, hf'⟩, -⟩ | ⟨hf', -⟩ | ⟨rules', hf', -, he⟩⟩
  · rw [hk] at hk'
    cases hk'
  · rw [hf] at hf'
    cases hf'
  · rw [hf, Except.ok.injEq] at hf'
    exact absurd hf' hne
  · obtain rfl : key' = key := by simpa [hk] using hk'.symm
    rw [hf, Except.ok.injEq] at hf'
    subst hf'
    rw [he]
    exact record_of_stored (by simpa using h)

end Apply

/-- After an apply that succeeds, applying the object again, with a match that finds what the
first one found, changes neither the table nor the feed: the key was left holding nothing, or the
association of the rules found. -/
theorem apply_again (h : TableOk e.tracked) (hnd : (e.registry.rules.map (·.key)).Nodup)
    {o : CandidateObject} {skip skip' : Bool} {c : IndexChange} (hc : (e.apply o skip).1 = .ok c)
    (hsame : ((e.apply o skip).2.registry.findMatches o skip').1 = (e.registry.findMatches o skip).1) :
    (((e.apply o skip).2.apply o skip').1 = .ok .unchanged ∨
        ((e.apply o skip).2.apply o skip').1 = .ok .untracked) ∧
      ((e.apply o skip).2.apply o skip').2 = ((e.apply o skip).2.findMatches o skip').2 := by
  have h₁ : TableOk (e.findMatches o skip).2.tracked := by simpa using h
  rcases apply_cases e o skip with ⟨_, -, he⟩ | ⟨key, hk, ⟨hfail, -, -⟩ | ⟨hf, he⟩ | ⟨rules, hf, hne, he⟩⟩
  · rw [he] at hc
    cases hc
  · exact absurd hc (hfail c)
  · -- nothing matched: the key was untracked, and the repeat finds it so
    have hnone : (e.apply o skip).2.tracked.get? key = none := by
      rw [he] at hc ⊢
      rcases (untrack_get? h₁.wf key).2 with hn | ⟨-, hfail⟩
      · exact hn
      · exact absurd hc (hfail c)
    rw [apply_of_untracked hk (hsame.trans hf) hnone]
    exact ⟨.inr rfl, rfl⟩
  · -- rules matched: the key holds their association, and the repeat finds it so
    have hnd' : (rules.map (·.key)).Nodup := ((Registry.findMatches_sublist hf).map _).nodup hnd
    have hstored : (e.apply o skip).2.tracked.get? key = some ⟨key, o, rules.map (·.key)⟩ := by
      rw [he] at hc ⊢
      rcases (record_get? h₁ key o hnd').2 with ⟨-, hfail⟩ | hs
      · exact absurd hc (hfail c)
      · exact hs
    rw [apply_of_stored hk (hsame.trans hf) hne hstored]
    exact ⟨.inl rfl, rfl⟩

/-- A re-application in which every apply reports no change, keeping a property, counts no
change and meets no error. -/
theorem reapply_unchanged (P : Engine → Prop) {skip : Bool} :
    ∀ {os : List CandidateObject},
      (∀ e, ∀ o ∈ os, P e → (e.apply o skip).1 = .ok .unchanged ∧ P (e.apply o skip).2) →
      ∀ {e : Engine} (n : Nat), P e →
        (reapply skip os e n none).1 = n ∧ (reapply skip os e n none).2.1 = none ∧
          P (reapply skip os e n none).2.2
  | [], _, _, _, h => ⟨rfl, rfl, h⟩
  | o :: rest, hstep, e, n, h => by
    obtain ⟨hc, h₁⟩ := hstep e o List.mem_cons_self h
    have hpair : e.apply o skip = (.ok .unchanged, (e.apply o skip).2) := Prod.ext hc rfl
    unfold reapply
    rw [hpair]
    exact reapply_unchanged P (fun e o ho => hstep e o (List.mem_cons_of_mem _ ho)) n h₁

/-- An update of an object whose key holds an association at the object's generation changes
nothing, whatever the rest of the object. -/
theorem update_at_generation {o : CandidateObject} {key : ObjectKey} {a : Association}
    (hk : o.key = .ok key) (ha : e.tracked.get? key = some a) (hgen : a.generation = o.generation) :
    e.update o = (.ok .unchanged, e) := by
  unfold update
  simp [hk, ha, hgen]

/-- Agreement by every rule is agreement with a fresh match by the registered rules. -/
theorem Current.fresh {r : Registry} {a : Association} (h : Current r (fun _ => false) a) :
    ∃ found, r.freshMatches a.object a.key r.rules = .ok found ∧ a.rules = found.map (·.key) := by
  obtain ⟨found, hf, hr⟩ := h
  simp only [Bool.not_false, List.filter_true] at hf hr
  exact ⟨found, hf, hr⟩

/-! ## Within a call -/

section Point
variable {start : Engine} {ops : List Op} {n : Nat} (hspec : GenerationFixesSpec start ops)
  (hobj : GenerationFixesObject ops) (hF : FreshAt start ops n) (hn : n < ops.length)
include hspec hobj hF hn

/-- Within a call, after an add of a handed object that succeeds, adding it again changes neither
the table nor the feed: both adds match afresh by the rules of the call's point. -/
theorem Stage.add_again (h : Stage start ops n e) {o : CandidateObject} (ho : o ∈ handed ops)
    {c : IndexChange} (hc : (e.add o).1 = .ok c) :
    (((e.add o).2.add o).1 = .ok .unchanged ∨ ((e.add o).2.add o).1 = .ok .untracked) ∧
      ((e.add o).2.add o).2.tracked = (e.add o).2.tracked ∧
      ((e.add o).2.add o).2.feed = (e.add o).2.feed := by
  have hc' : (e.apply o false).1 = .ok c := hc
  rcases apply_cases e o false with ⟨_, -, he⟩ | ⟨key, hk, -⟩
  · rw [he] at hc'
    cases hc'
  have hfirst := (h.findMatches hspec hobj hF hn ho hk false).1
  have hsecond := ((h.apply hspec hobj hF hn ho false).findMatches hspec hobj hF hn ho hk false).1
  have hsame : ((e.apply o false).2.registry.findMatches o false).1 =
      (e.registry.findMatches o false).1 := by
    have hrules : (e.apply o false).2.registry.rules = e.registry.rules := by rw [apply_registry]
    have hsw : (e.apply o false).2.registry.switchOutcome = e.registry.switchOutcome := by
      rw [apply_registry]
    rw [hsecond, hfirst, hrules, Registry.freshMatches_congr hsw]
  obtain ⟨hres, heq⟩ := apply_again h.table (h.rules ▸ hF.sound.registry.keys) hc' hsame
  refine ⟨hres, ?_, ?_⟩ <;> simp only [add, heq, findMatches_tracked, findMatches_feed]

/-- Within a call, after a rematch of every object that succeeds, rematching every object again
counts no change and changes neither the table nor the feed: every association agrees with a
fresh match, which the repeat finds again, and names a rule. -/
theorem Stage.rematchAll_again (h : Stage start ops n e) (hi : Intact e) {skip : Bool} {m : Nat}
    (hr : (e.rematchAll skip).1 = .ok m) :
    ((e.rematchAll skip).2.rematchAll skip).1 = .ok 0 ∧
      ((e.rematchAll skip).2.rematchAll skip).2.tracked = (e.rematchAll skip).2.tracked ∧
      ((e.rematchAll skip).2.rematchAll skip).2.feed = (e.rematchAll skip).2.feed := by
  have hnd : ((after start ops n).registry.rules.map (·.key)).Nodup := hF.sound.registry.keys
  have hstart : ∀ o ∈ e.tracked.list.map (·.object), o ∈ handed ops := fun _ => h.handed_of_tracked
  -- the first pass keeps the stage and the shape of the table, and leaves every key current
  have h₁ : Stage start ops n (e.rematchAll skip).2 ∧ Intact (e.rematchAll skip).2 :=
    @rematchAll_induction (fun e' => Stage start ops n e' ∧ Intact e') e skip
      (fun e' o ho h' => ⟨h'.1.apply hspec hobj hF hn (hstart o ho) skip,
        h'.2.apply h'.1.table (h'.1.rules ▸ hnd) o skip⟩) ⟨h, hi⟩
  have hcur := h.rematchAll_ok hspec hobj hF hn hr (fun _ => false)
  generalize (e.rematchAll skip).2 = e₁ at h₁ hcur ⊢
  -- the second pass finds every object as it is stored
  let P : Engine → Prop := fun e' => Stage start ops n e' ∧ e'.tracked = e₁.tracked ∧ e'.feed = e₁.feed
  have hstep : ∀ e', ∀ o ∈ e₁.tracked.list.map (·.object), P e' →
      (e'.apply o skip).1 = .ok .unchanged ∧ P (e'.apply o skip).2 := by
    rintro e' o ho ⟨hst, ht, hfeed⟩
    obtain ⟨a, ha, rfl⟩ := List.mem_map.1 ho
    obtain ⟨k, hak⟩ := h₁.1.table.wf.get?_of_mem_list ha
    obtain ⟨hkey, hok⟩ := h₁.1.table.stored k a hak
    obtain ⟨found, hfresh, hrules⟩ := (hcur k a hak).fresh
    have hne : found ≠ [] := by
      rintro rfl
      exact (shaped_some.1 (hak ▸ h₁.2.shaped k)).1 hrules
    have hf : (e'.registry.findMatches a.object skip).1 = .ok found := by
      rw [(hst.findMatches hspec hobj hF hn (h₁.1.handed_of_mem ha) hok skip).1, hst.rules,
        Registry.freshMatches_congr hst.switchOutcome, ← hkey]
      exact hfresh
    have hstored : e'.tracked.get? k = some ⟨k, a.object, found.map (·.key)⟩ := by
      rw [ht, hak, ← hrules, ← hkey]
    have hst' := hst.apply hspec hobj hF hn (h₁.1.handed_of_mem ha) skip
    rw [apply_of_stored hok hf hne hstored] at hst' ⊢
    exact ⟨rfl, hst', by simp [ht], by simp [hfeed]⟩
  obtain ⟨hcount, hnone, -, ht, hfeed⟩ := reapply_unchanged P hstep 0 ⟨h₁.1, rfl, rfl⟩
  have hrun : reapply skip (e₁.tracked.list.map (·.object)) e₁ 0 none =
      (0, none, (reapply skip (e₁.tracked.list.map (·.object)) e₁ 0 none).2.2) :=
    Prod.ext hcount (Prod.ext hnone rfl)
  unfold rematchAll
  rw [hrun]
  exact ⟨rfl, ht, hfeed⟩

end Point

/-! ## Runs -/

theorem after_append_length (start : Engine) (ops rest : List Op) :
    after start (ops ++ rest) ops.length = ops.foldl step start := by
  simp [after]

/-- An update of an object whose key holds an association at the object's generation changes
nothing, whatever the rest of the object. In every run from the engine as created with the
selector compiler in which, while a rule key stays registered, its rules of one generation have
one spec, and objects handed over with one key and generation are one object: after an add that
succeeds, the same add again reports the object unchanged or untracked, and changes neither the
table, its index nor the feed; and after a rematch of every object that succeeds (a resync is the
one that skips the cache), the same rematch again counts no change and changes neither the table
nor the feed. -/
theorem redeliveries_change_nothing (capacity refillMs cacheCapacity retryBackoffMs : Nat) :
    (∀ (e : Engine) o key a, o.key = .ok key → e.association? key = some a →
      a.generation = o.generation → e.update o = (.ok .unchanged, e)) ∧
    let start := create (Registry.create .selector capacity refillMs cacheCapacity) retryBackoffMs
    (∀ ops o c, GenerationFixesSpec start (ops ++ [.add o, .add o]) →
      GenerationFixesObject (ops ++ [.add o, .add o]) → ((ops.foldl step start).add o).1 = .ok c →
      let e := ((ops.foldl step start).add o).2
      ((e.add o).1 = .ok .unchanged ∨ (e.add o).1 = .ok .untracked) ∧
        (e.add o).2.tracked = e.tracked ∧ (e.add o).2.feed = e.feed) ∧
    ∀ ops skip m, GenerationFixesSpec start (ops ++ [.rematchAll skip, .rematchAll skip]) →
      GenerationFixesObject (ops ++ [.rematchAll skip, .rematchAll skip]) →
      ((ops.foldl step start).rematchAll skip).1 = .ok m →
      let e := ((ops.foldl step start).rematchAll skip).2
      (e.rematchAll skip).1 = .ok 0 ∧ (e.rematchAll skip).2.tracked = e.tracked ∧
        (e.rematchAll skip).2.feed = e.feed := by
  refine ⟨fun e o key a hk ha hgen => update_at_generation hk ha hgen, ?_⟩
  intro start
  -- both calls are within the point of the run after `ops`
  have hpoint : ∀ ops x y, GenerationFixesSpec start (ops ++ [x, y]) →
      GenerationFixesObject (ops ++ [x, y]) →
      FreshAt start (ops ++ [x, y]) ops.length ∧
        Stage start (ops ++ [x, y]) ops.length (ops.foldl step start) := by
    intro ops x y hspec hobj
    have hF := FreshAt.upto hspec hobj
      (FreshAt.start capacity refillMs cacheCapacity retryBackoffMs _) ops.length (by simp)
    have hst := hF.stage
    rw [after_append_length] at hst
    exact ⟨hF, hst⟩
  refine ⟨fun ops o c hspec hobj hc => ?_, fun ops skip m hspec hobj hr => ?_⟩
  · obtain ⟨hF, hst⟩ := hpoint ops _ _ hspec hobj
    exact hst.add_again hspec hobj hF (by simp) (by simp [handed, Op.objects]) hc
  · obtain ⟨hF, hst⟩ := hpoint ops _ _ hspec hobj
    have hi := (Sound.steps Intact (fun e op hs h => h.step hs op) ops start
      (Sound.start .selector capacity refillMs cacheCapacity retryBackoffMs)
      (Intact.start .selector capacity refillMs cacheCapacity retryBackoffMs)).2
    exact hst.rematchAll_again hspec hobj hF (by simp) hi hr

/-- Redeliveries with rules: an object that `billing/r1` meters, added twice after the rule, is
tracked by the first add and left unchanged by the second; and after `billing/r2` is added behind
a tracked object, the first rematch of every object records it (one change) and the second
changes nothing. -/
theorem redeliveries_with_rules :
    let r1 : Definition :=
      { metadata := { ns := some "billing", name := "r1", uid := "uid-r1", generation := 1 }
        spec := { filters := [{ namespaces := some ["ns"] }] } }
    let r2 : Definition :=
      { metadata := { ns := some "billing", name := "r2", uid := "uid-r2", generation := 1 }
        spec := { kind := some "Pod", filters := [{ kind := some "Pod" }] } }
    let b : CandidateObject := { metadata := { ns := some "ns", name := "b" }, kind := "Pod" }
    let start := create (Registry.create .selector 10 5000 64) 500
    let ops := [Op.addRule r1]
    let ops' := [Op.addRule r1, .add b, .addRule r2]
    (GenerationFixesSpec start (ops ++ [.add b, .add b]) ∧
      GenerationFixesObject (ops ++ [.add b, .add b]) ∧
      ((ops.foldl step start).add b).1 = .ok .added ∧
      ((((ops.foldl step start).add b).2.add b).1 = .ok .unchanged ∨
        (((ops.foldl step start).add b).2.add b).1 = .ok .untracked) ∧
      (((ops.foldl step start).add b).2.add b).2.tracked = ((ops.foldl step start).add b).2.tracked ∧
      (((ops.foldl step start).add b).2.add b).2.feed = ((ops.foldl step start).add b).2.feed) ∧
    (GenerationFixesSpec start (ops' ++ [.rematchAll false, .rematchAll false]) ∧
      GenerationFixesObject (ops' ++ [.rematchAll false, .rematchAll false]) ∧
      ((ops'.foldl step start).rematchAll false).1 = .ok 1 ∧
      (((ops'.foldl step start).rematchAll false).2.rematchAll false).1 = .ok 0 ∧
      (((ops'.foldl step start).rematchAll false).2.rematchAll false).2.tracked =
        ((ops'.foldl step start).rematchAll false).2.tracked ∧
      (((ops'.foldl step start).rematchAll false).2.rematchAll false).2.feed =
        ((ops'.foldl step start).rematchAll false).2.feed) := by
  intro r1 r2 b start ops ops'
  have hs := Sound.start .selector 10 5000 64 500
  have hspec : GenerationFixesSpec start (ops ++ [.add b, .add b]) :=
    generationFixesSpec_of_written hs rfl (by decide +kernel)
  have hspec' : GenerationFixesSpec start (ops' ++ [.rematchAll false, .rematchAll false]) :=
    generationFixesSpec_of_written hs rfl (by decide +kernel)
  -- each run hands over one object only
  have hobj : GenerationFixesObject (ops ++ [.add b, .add b]) := by
    intro o₁ h₁ o₂ h₂ _ _ _ _
    simp [handed, ops, Op.objects] at h₁ h₂
    rw [h₁, h₂]
  have hobj' : GenerationFixesObject (ops' ++ [.rematchAll false, .rematchAll false]) := by
    intro o₁ h₁ o₂ h₂ _ _ _ _
    simp [handed, ops', Op.objects] at h₁ h₂
    rw [h₁, h₂]
  have hc : ((ops.foldl step start).add b).1 = .ok .added := by decide +kernel
  have hr : ((ops'.foldl step start).rematchAll false).1 = .ok 1 := by decide +kernel
  have hrun := (redeliveries_change_nothing 10 5000 64 500).2
  -- read the theorem at this run's engine, so that nothing has to be evaluated to match it
  rw [show create (Registry.create .selector 10 5000 64) 500 = start from rfl] at hrun
  exact ⟨⟨hspec, hobj, hc, hrun.1 ops b .added hspec hobj hc⟩,
    ⟨hspec', hobj', hr, hrun.2 ops' false 1 hspec' hobj' hr⟩⟩

end Engine

end MeterMatch
