import MeterMatch.Proofs.Run

/-! # No stale rule survives a drained rule queue

An association names the rules that meter its object. Object writes consult the registry
directly, so a new association names registered rules only; a deleted rule reaches the
associations later, when the coordinator takes its deletion off the rule change queue and
rematches the associations that name it. Until then the queue holds a deletion of that rule:
the deletion is queued before the rule is dropped, an earlier addition or update merges into it
under `retainDeletes`, and a later re-addition makes the rule registered again.

* `Engine.Accounted`: a rule is registered, or its deletion is pending.
* `Engine.NoStale`: every rule an association names is accounted for. Every call keeps this
  (`Engine.NoStale.step`), including a cascade cut short by an object that fails evaluation,
  after which the deletion goes back to the queue.
* `Engine.registered_when_rules_drained`: in every run, whenever the rule change queue is empty,
  every rule an association names, every indexed rule and every rule with associations is
  registered.
-/

namespace MeterMatch

namespace Engine

/-- A deletion of the rule is pending on the queue. -/
def DeletePending (q : ChangeQueue Definition) (rule : ObjectKey) : Prop :=
  ∃ d ∈ q.pending, d.key = rule ∧ d.kind = .deleted

/-- A rule is registered, or its deletion is pending. -/
def Accounted (r : Registry) (rule : ObjectKey) : Prop :=
  r.contains rule = true ∨ DeletePending r.changes rule

/-- Every rule a key's association names satisfies `cov`. -/
def Names (cov : ObjectKey → Prop) (x : Option Association) : Prop :=
  ∀ a, x = some a → ∀ r ∈ a.rules, cov r

/-- Every rule an association names is registered, or its deletion is pending. -/
def NoStale (e : Engine) : Prop :=
  ∀ k, Names (Accounted e.registry) (e.tracked.get? k)

theorem Names.none (cov : ObjectKey → Prop) : Names cov none := fun _ h => by cases h

theorem Names.mono {cov cov' : ObjectKey → Prop} (h : ∀ r, cov r → cov' r) {x : Option Association}
    (hx : Names cov x) : Names cov' x :=
  fun a ha r hr => h r (hx a ha r hr)

/-! ## Rule writes -/

section Registry
variable {r : Registry} {rule : ObjectKey}

theorem Accounted.submit {kind : DeltaKind} (d : Definition) (now : Nat) (ha : Accounted r rule) : Accounted (r.submit kind d now).2 rule := by
  rcases Registry.submit_cases r kind d now with he | ⟨key, p, q, -, -, hq, -, he⟩
  · rw [he]
    exact ha
  · have hc := Registry.contains_of_place (show (r.submit kind d now).2.rules = _ by rw [he]) rule
    have hq' : (r.submit kind d now).2.changes = q := by rw [he]
    unfold Accounted DeletePending
    rw [hc, hq']
    by_cases hk : rule = key
    · exact .inl (by simp [hk])
    · rcases ha with hc | ⟨δ, hδ, hδk, hδd⟩
      · exact .inl (by simp [hc])
      · exact .inr ⟨δ, ChangeQueue.mem_push_of_ne hq hδ (hδk ▸ hk), hδk, hδd⟩

theorem Accounted.delete (h : RegistryOk r) (d : Definition) (ha : Accounted r rule) :
    Accounted (r.delete d).2 rule := by
  rcases Registry.delete_cases r d with he | ⟨key, q, -, hq, -, he⟩
  · rw [he]
    exact ha
  · obtain ⟨M, hM⟩ := h.feed
    have hc := Registry.contains_of_filter (show (r.delete d).2.rules = _ by rw [he]) rule
    have hq' : (r.delete d).2.changes = q := by rw [he]
    unfold Accounted DeletePending
    rw [hc, hq']
    by_cases hk : rule = key
    · -- the deletion is queued under `retainDeletes`, so whatever it merged with is a deletion
      obtain ⟨m, hm, hmk, hme⟩ := ChangeQueue.push_retain_effect hM.faithful.distinct hM.policy hq
      exact .inr ⟨m, hm, hmk.trans hk.symm, Delta.effect_eq_none.1 (by simpa [Delta.effect] using hme)⟩
    · rcases ha with hc | ⟨δ, hδ, hδk, hδd⟩
      · exact .inl (by simp [hc, hk])
      · exact .inr ⟨δ, ChangeQueue.mem_push_of_ne hq hδ (hδk ▸ hk), hδk, hδd⟩

theorem Accounted.resync (h : RegistryOk r) (listing : List Definition) (now : Nat)
    (ha : Accounted r rule) : Accounted (r.resync listing now).2 rule :=
  (Registry.resync_induction (fun r' => RegistryOk r' ∧ Accounted r' rule) listing now
    (fun _ _ d hk h' => ⟨h'.1.submit hk d now, h'.2.submit d now⟩)
    (fun _ d h' => ⟨h'.1.delete d, h'.2.delete h'.1 d⟩)
    (fun _ h' => ⟨h'.1.of_eq rfl (by simp) (by simp),
      by simpa [Accounted, DeletePending, Registry.contains] using h'.2⟩)
    ⟨h, ha⟩).2

end Registry

/-! ## Object writes -/

/-- The engine inside a handler: the table as the engine keeps it and the rules of `R`. -/
def Within (R : Registry) (e : Engine) : Prop := TableOk e.tracked ∧ e.registry.rules = R.rules

section Within
variable {R : Registry} {e : Engine} {cov : ObjectKey → Prop}

theorem Within.apply (h : Within R e) (o : CandidateObject) (skip : Bool) :
    Within R (e.apply o skip).2 :=
  ⟨h.1.apply o skip, by rw [apply_registry]; exact h.2⟩

theorem Within.rematch (h : Within R e) (k : ObjectKey) (skip : Bool) :
    Within R (e.rematch k skip).2 :=
  rematch_induction (fun a _ => h.apply a.object skip) h

/-- The associations a match can write name registered rules only. -/
theorem names_found (h : Within R e) (hcov : ∀ r, R.contains r = true → cov r)
    {o : CandidateObject} {skip : Bool} {rules : List Rule}
    (hf : (e.registry.findMatches o skip).1 = .ok rules) (key : ObjectKey) :
    Names cov (some ⟨key, o, rules.map (·.key)⟩) := by
  rintro a ha r hr
  cases ha
  obtain ⟨ρ, hρ, rfl⟩ := List.mem_map.1 hr
  have hmem : ρ ∈ R.rules := h.2 ▸ (Registry.findMatches_sublist hf).subset hρ
  exact hcov _ (Registry.contains_of_mem hmem)

variable (hR : (R.rules.map (·.key)).Nodup) (hcov : ∀ r, R.contains r = true → cov r)
include hR hcov

theorem names_apply (h : Within R e) (o : CandidateObject) (skip : Bool) {k : ObjectKey}
    (hn : Names cov (e.tracked.get? k)) : Names cov ((e.apply o skip).2.tracked.get? k) :=
  apply_keeps h.1 (h.2 ▸ hR) o skip (Names.none cov)
    (fun key _ _ hf => names_found h hcov hf key) hn

theorem names_rematch (h : Within R e) (key : ObjectKey) {k : ObjectKey}
    (hn : Names cov (e.tracked.get? k)) : Names cov ((e.rematch key false).2.tracked.get? k) :=
  rematch_keeps h.1 (h.2 ▸ hR) key false (Names.none cov)
    (fun _ _ _ hf => names_found h hcov hf key) hn

theorem names_rematch_ok (h : Within R e) (key : ObjectKey) {c : IndexChange}
    (hc : (e.rematch key false).1 = .ok c) : Names cov ((e.rematch key false).2.tracked.get? key) :=
  rematch_ok_at h.1 (h.2 ▸ hR) key false (Names.none cov)
    (fun _ _ _ hf => names_found h hcov hf key) hc

/-- Every write of a handler keeps what each key names. -/
theorem names_handle (h : Within R e) (d : Delta Definition) {k : ObjectKey}
    (hn : Names cov (e.tracked.get? k)) : Names cov ((handle e d).2.tracked.get? k) :=
  (handle_induction (fun e' => Within R e' ∧ Names cov (e'.tracked.get? k)) (fun _ => True)
    (fun _ o skip _ h' => ⟨h'.1.apply o skip, names_apply hR hcov h'.1 o skip h'.2⟩)
    (fun _ _ _ _ => trivial) e d ⟨h, hn⟩).2

/-- A cascade that succeeds over the associations of a rule keeps what each key names, the rule
aside: the associations that name it are rematched, and the others never named it. -/
theorem names_cascade (h : Within R e) {rule : ObjectKey} {as : List Association}
    (hmem : ∀ a, a ∈ as ↔ ∃ k, e.tracked.get? k = some a ∧ rule ∈ a.rules)
    (hcasc : (cascade as e).1 = .ok ()) {k : ObjectKey}
    (hn : Names (fun r => cov r ∨ r = rule) (e.tracked.get? k)) :
    Names cov ((cascade as e).2.tracked.get? k) := by
  by_cases hnamed : ∃ a, e.tracked.get? k = some a ∧ rule ∈ a.rules
  · -- rematched by the cascade
    obtain ⟨a, ha, hra⟩ := hnamed
    rw [← (h.1.stored k a ha).1]
    exact cascade_ok (Within R) (fun e' k' => Names cov (e'.tracked.get? k'))
      (fun _ key h' => h'.rematch key false)
      (fun _ key _ h' hn' => names_rematch hR hcov h' key hn')
      (fun _ key _ h' hc => names_rematch_ok hR hcov h' key hc)
      as e h hcasc a ((hmem a).2 ⟨k, ha, hra⟩)
  · -- untouched, and it never named the rule
    have hkeep : Names cov (e.tracked.get? k) := by
      intro a ha r hr
      rcases hn a ha r hr with hc | rfl
      · exact hc
      · exact absurd ⟨a, ha, hr⟩ hnamed
    exact (cascade_induction (fun e' => Within R e' ∧ Names cov (e'.tracked.get? k))
      (fun _ key h' => ⟨h'.1.rematch key false, names_rematch hR hcov h'.1 key h'.2⟩)
      as e ⟨h, hkeep⟩).2

end Within

theorem NoStale.apply {e : Engine} (hs : Sound e) (h : NoStale e) (o : CandidateObject)
    (skip : Bool) : NoStale (e.apply o skip).2 := by
  intro k
  rw [apply_registry]
  exact names_apply hs.registry.keys (fun _ hc => .inl hc) ⟨hs.table, rfl⟩ o skip (h k)

theorem NoStale.untrack {e : Engine} (hs : Sound e) (h : NoStale e) (key : ObjectKey) :
    NoStale (e.untrack key).2 := by
  intro k
  rw [untrack_registry]
  exact untrack_keeps hs.table.wf key (Names.none _) (h k)

/-! ## The coordinator -/

/-- A pending deletion after a change is settled: those of the rest of the queue, and the
change itself when it is handed back. -/
theorem deletePending_settle {rest : ChangeQueue Definition} {d : Delta Definition}
    (hfree : rest.holds d.key = false) (handled : Bool) {rule : ObjectKey} :
    DeletePending (rest.settle d handled) rule ↔
      DeletePending rest rule ∨ (handled = false ∧ rule = d.key ∧ d.kind = .deleted) := by
  cases handled
  · obtain ⟨hpend, -⟩ := ChangeQueue.requeue_of_not_holds hfree
    simp only [DeletePending, ChangeQueue.settle, Bool.false_eq_true, if_false, hpend,
      List.mem_cons, true_and]
    constructor
    · rintro ⟨δ, rfl | hδ, hk, hd⟩
      · exact .inr ⟨hk.symm, hd⟩
      · exact .inl ⟨δ, hδ, hk, hd⟩
    · rintro (⟨δ, hδ, hk, hd⟩ | ⟨hk, hd⟩)
      · exact ⟨δ, .inr hδ, hk, hd⟩
      · exact ⟨d, .inl rfl, hk.symm, hd⟩
  · simp [DeletePending, ChangeQueue.settle]

theorem NoStale.processNext {e : Engine} (hs : Sound e) (h : NoStale e) :
    NoStale e.processNext.2 := by
  rcases processNext_cases e with ⟨-, he⟩ | ⟨d, rest, ht, he⟩
  · rw [he]
    exact h
  -- the handler runs on the rest of the queue; the rules stay those of `R`
  let R := e.registry
  let e₀ : Engine := { e with registry := { R with changes := rest } }
  obtain ⟨hpend, -⟩ := ChangeQueue.take_eq_some ht
  have hfree : rest.holds d.key = false := ChangeQueue.not_holds_iff.2
    (ChangeQueue.ne_key_of_take hs.registry.feed.choose_spec.faithful.distinct ht)
  -- accounted for by the rules and the rest of the queue, or by the change taken
  let Cov : ObjectKey → Prop := fun r => R.contains r = true ∨ DeletePending rest r
  let Weak : ObjectKey → Prop := fun r => Cov r ∨ (r = d.key ∧ d.kind = .deleted)
  have hweak : ∀ k, Names Weak (e₀.tracked.get? k) := by
    refine fun k => Names.mono (fun r hr => ?_) (h k)
    rcases hr with hc | ⟨δ, hδ, hk, hd⟩
    · exact .inl (.inl hc)
    · rw [hpend] at hδ
      rcases List.mem_cons.1 hδ with rfl | hδ
      · exact .inr ⟨hk.symm, hd⟩
      · exact .inl (.inr ⟨δ, hδ, hk, hd⟩)
  have hwithin : Within R e₀ := ⟨hs.table, rfl⟩
  have hRk : (R.rules.map (·.key)).Nodup := hs.registry.keys
  -- what the final engine accounts for
  have hfinal : ∀ r, Cov r ∨ ((handle e₀ d).1.isOk = false ∧ r = d.key ∧ d.kind = .deleted) →
      Accounted (e.processNext).2.registry r := by
    rintro r (hc | hd) <;> rw [he] <;> simp only [Accounted]
    · rw [handle_registry]
      rcases hc with hc | hc
      · exact .inl hc
      · exact .inr ((deletePending_settle hfree _).2 (.inl hc))
    · exact .inr ((deletePending_settle hfree _).2 (.inr hd))
  have htracked : (e.processNext).2.tracked = (handle e₀ d).2.tracked := by rw [he]
  intro k
  rw [htracked]
  rcases handle_cases e₀ d with ⟨hh, hfail⟩ | ⟨hkind, hh, -⟩ | ⟨hkind, affected, haff, hh⟩
  · -- nothing handled: the change goes back to the queue
    have hok : (handle e₀ d).1.isOk = false := by
      cases hr : (handle e₀ d).1 with
      | ok c => exact absurd hr (hfail c)
      | error err => rfl
    rw [hh]
    exact Names.mono (fun r hr => hfinal r (hr.imp_right fun hd => ⟨hok, hd⟩)) (hweak k)
  · -- an addition or update: the associations named no deleted rule of its key
    have hcov : Names Cov (e₀.tracked.get? k) :=
      Names.mono (fun r hr => hr.resolve_right fun hd => hkind hd.2) (hweak k)
    exact Names.mono (fun r hr => hfinal r (.inl hr))
      (names_handle hRk (fun _ hc => .inl hc) hwithin d hcov)
  · -- a deletion: a cascade over the associations of the rule
    cases hok : (handle e₀ d).1.isOk
    · exact Names.mono (fun r hr => hfinal r (hr.imp_right fun hd => ⟨hok, hd⟩))
        (names_handle hRk (fun _ hc => .inl (.inl hc)) hwithin d (hweak k))
    · have hcasc : (cascade affected e₀).1 = .ok () := by
        rw [hh] at hok
        exact Except.eq_ok_of_isOk hok
      refine Names.mono (fun r hr => hfinal r (.inl hr)) ?_
      rw [hh]
      obtain ⟨as, has, hmem⟩ := byIndex_ok (show TableOk e₀.tracked from hs.table) d.key
      rw [has, Except.ok.injEq] at haff
      subst haff
      exact names_cascade hRk (fun _ hc => .inl hc) hwithin hmem hcasc
        (Names.mono (fun r hr => hr.imp_right And.left) (hweak k))

/-! ## Every run -/

theorem NoStale.step {e : Engine} (hs : Sound e) (h : NoStale e) (op : Op) : NoStale (e.step op) :=
  (Sound.step_induction NoStale (fun _ => True) op
    (fun e _ d _ _ h k => Names.mono (fun _ ha => ha.submit d e.clock) (h k))
    (fun _ d hs h k => Names.mono (fun _ ha => ha.delete hs.registry d) (h k))
    (fun e listing hs h k => Names.mono (fun _ ha => ha.resync hs.registry listing e.clock) (h k))
    (fun _ o skip _ hs h => h.apply hs o skip) (fun _ _ _ _ _ => trivial)
    (fun _ k hs h => h.untrack hs k) (fun _ hs h => h.processNext hs)
    (fun _ _ h => h) (fun _ h => h) (fun _ _ _ h => h) (fun _ _ => trivial) hs h).2

theorem NoStale.start (compiler : Compiler) (capacity refillMs cacheCapacity retryBackoffMs : Nat) :
    NoStale (create (Registry.create compiler capacity refillMs cacheCapacity) retryBackoffMs) := by
  intro k a ha
  simp [create, Indexed.get?] at ha

/-- In every run from the engine as it is created, whenever the rule change queue is empty,
every rule that an association names is registered; so is every rule of the index, and every
rule whose associations, read by rule, are not none. -/
theorem registered_when_rules_drained (compiler : Compiler)
    (capacity refillMs cacheCapacity retryBackoffMs : Nat) (ops : List Op) :
    let e := ops.foldl step
      (create (Registry.create compiler capacity refillMs cacheCapacity) retryBackoffMs)
    e.registry.changes.pending = [] →
      (∀ k a, e.association? k = some a → ∀ r ∈ a.rules, e.registry.contains r = true) ∧
      (∀ r ∈ e.indexedRules, e.registry.contains r = true) ∧
      ∀ r, ∃ as, e.byIndex r = .ok as ∧ (as ≠ [] → e.registry.contains r = true) := by
  intro e hempty
  obtain ⟨hs, hn⟩ := Sound.steps NoStale (fun e op hs h => h.step hs op) ops _
    (Sound.start compiler capacity refillMs cacheCapacity retryBackoffMs)
    (NoStale.start compiler capacity refillMs cacheCapacity retryBackoffMs)
  -- with nothing pending, a rule is accounted for only by being registered
  have hreg : ∀ k a, e.tracked.get? k = some a → ∀ r ∈ a.rules, e.registry.contains r = true := by
    intro k a ha r hr
    rcases hn k a ha r hr with hc | ⟨δ, hδ, -, -⟩
    · exact hc
    · rw [hempty] at hδ
      cases hδ
  refine ⟨hreg, fun r hr => ?_, fun r => ?_⟩
  · obtain ⟨k, a, ha, hra⟩ := hs.table.wf.mem_indexValues.1 hr
    rw [hs.table.indexOf] at hra
    exact hreg k a ha r hra
  · obtain ⟨as, has, hmem⟩ := byIndex_ok hs.table r
    refine ⟨as, has, fun hne => ?_⟩
    obtain ⟨a, ha⟩ := List.exists_mem_of_ne_nil as hne
    obtain ⟨k, hk, hra⟩ := (hmem a).1 ha
    exact hreg k a hk r hra

/-- A run through the ways a stale rule could linger: `billing/r2` is added and deleted before the
coordinator runs (the two merge into a deletion), `billing/r1` is deleted and added again (an
update) and then deleted once more while two objects name it; the coordinator's first cascade
stops at the object without a kind, which the remaining rule `billing/r2` cannot judge, and hands
the deletion back; the next steps finish it and the update of `billing/r2`. -/
theorem registered_when_rules_drained_after_interrupted_cascade :
    let r1 : Definition :=
      { metadata := { ns := some "billing", name := "r1", uid := "uid-r1", generation := 1 }
        spec := { filters := [{ namespaces := some ["ns"] }] } }
    let r2 : Definition :=
      { metadata := { ns := some "billing", name := "r2", uid := "uid-r2", generation := 1 }
        spec := { kind := some "Pod", filters := [{ kind := some "Pod" }] } }
    let a : CandidateObject := { metadata := { ns := some "ns", name := "a" } }
    let b : CandidateObject := { metadata := { ns := some "ns", name := "b" }, kind := "Pod" }
    let start := create (Registry.create .selector 10 5000 64) 500
    let ops := [Op.addRule r1, .add a, .add b, .addRule r2, .deleteRule r2, .deleteRule r1,
      .addRule r1, .addRule r2, .deleteRule r1, .processNext, .processNext, .processNext]
    let e := ops.foldl step start
    ((ops.take 9).foldl step start).processNext.1.toOption = none ∧
      (e.association? (.inNamespace "ns" "b")).map (·.rules) = some [.inNamespace "billing" "r2"] ∧
      e.registry.changes.pending = [] ∧
      (∀ k a, e.association? k = some a → ∀ r ∈ a.rules, e.registry.contains r = true) ∧
      (∀ r ∈ e.indexedRules, e.registry.contains r = true) ∧
      ∀ r, ∃ as, e.byIndex r = .ok as ∧ (as ≠ [] → e.registry.contains r = true) := by
  intro r1 r2 a b start ops
  have hempty : (ops.foldl step start).registry.changes.pending = [] := by decide +kernel
  have hrun := registered_when_rules_drained .selector 10 5000 64 500 ops
  -- read the theorem at this run's engine, so that no unification has to run the engine
  rw [show create (Registry.create .selector 10 5000 64) 500 = start from rfl] at hrun
  exact ⟨by decide +kernel, by decide +kernel, hempty, hrun hempty⟩

end Engine

end MeterMatch
