import MeterMatch.Proofs.OneShotRun

/-! # Rejected rule writes

A rule write derives its key and compiles its definition before it changes anything, so a
definition without a key, or one that does not compile, is refused with the registry exactly as
it was. A delete queues its change before it drops anything, so on a closed change queue it fails
with nothing changed. An addition or an update, though, takes its writer's limiter token before it
queues its change: on a closed queue it fails having spent the token, and the limiter keeps a
bucket for the writer that it may not have had. A write the limiter refuses changes that bucket
and nothing else.

* `Limiter.ChangesOnly uid l l'`: `l'` has the settings of `l` and the bucket of every writer
  but `uid`. A write by `uid` changes only its bucket (`Limiter.changesOnly_allow`).
* `Registry.submit_error`, `Registry.submit_rateLimited`, `Registry.delete_error`: what a
  failed or refused write leaves, and `Registry.rejected_writes_leave_registry` the three
  together.
* `Registry.closed_queue_write_spends_token`: an addition on a created registry whose queue was
  closed fails, and leaves the limiter with one bucket where it had none.
-/

namespace MeterMatch

namespace Limiter

variable {α : Type}

/-- `l'` has the settings of `l` and the bucket of every writer but `uid`. -/
structure ChangesOnly (uid : String) (l l' : Limiter α) : Prop where
  arith : l'.arith = l.arith
  capacity : l'.capacity = l.capacity
  refillMs : l'.refillMs = l.refillMs
  others : ∀ u, u ≠ uid → l'.bucket? u = l.bucket? u

/-- A write by one writer changes only that writer's bucket. -/
theorem changesOnly_allow (l : Limiter α) (uid : String) (now : Nat) :
    ChangesOnly uid l (l.allow uid now).2 := by
  obtain ⟨b, hb⟩ := l.allow_snd uid now
  refine ⟨?_, ?_, ?_, fun u hu => l.bucket?_allow_of_ne hu now⟩ <;> simp [hb]

end Limiter

namespace Registry

/-- What a rule write can do: fail on the key or on compiling, with nothing changed; or take the
writer's token and then be refused by the limiter, fail on the change queue, or be admitted. The
token is taken in each of the last three. -/
theorem submit_outcomes (r : Registry) (kind : DeltaKind) (d : Definition) (now : Nat) :
    (∃ e, d.key = .error e ∧ r.submit kind d now = (.error (.key e), r)) ∨
    (∃ key e, d.key = .ok key ∧ r.compile key d = .error e ∧ r.submit kind d now = (.error e, r)) ∨
    ∃ key p, d.key = .ok key ∧ r.compile key d = .ok p ∧
      (((r.limiter.allow (d.limiterId key) now).1 = false ∧
          r.submit kind d now =
            (.ok .rateLimited, { r with limiter := (r.limiter.allow (d.limiterId key) now).2 })) ∨
        (r.limiter.allow (d.limiterId key) now).1 = true ∧
          ((∃ e, r.changes.push ⟨kind, key, d⟩ = .error e ∧
              r.submit kind d now =
                (.error (.queue e), { r with limiter := (r.limiter.allow (d.limiterId key) now).2 })) ∨
            ∃ q, r.changes.push ⟨kind, key, d⟩ = .ok q ∧
              r.submit kind d now = (.ok .admitted, { r with
                limiter := (r.limiter.allow (d.limiterId key) now).2
                changes := q
                rules := place r.rules ⟨key, d, p⟩ }))) := by
  cases hkey : d.key with
  | error e => exact .inl ⟨e, rfl, by simp only [submit, hkey]⟩
  | ok key =>
    cases hp : r.compile key d with
    | error e => exact .inr (.inl ⟨key, e, rfl, hp, by simp only [submit, hkey, hp]⟩)
    | ok p =>
      refine .inr (.inr ⟨key, p, rfl, hp, ?_⟩)
      rcases hA : r.limiter.allow (d.limiterId key) now with ⟨allowed, l'⟩
      cases allowed
      · exact .inl ⟨rfl, by simp only [submit, hkey, hp, hA]; rfl⟩
      refine .inr ⟨rfl, ?_⟩
      cases hq : r.changes.push ⟨kind, key, d⟩ with
      | error e => exact .inl ⟨e, rfl, by simp only [submit, hkey, hp, hA, hq]; rfl⟩
      | ok q => exact .inr ⟨q, rfl, by simp only [submit, hkey, hp, hA, hq]; rfl⟩

variable {r : Registry} {kind : DeltaKind} {d : Definition} {now : Nat}

/-- A rule write that fails leaves the registry as it was, unless its queue was closed: then the
write took its writer's token, and the registry differs only in its limiter. -/
theorem submit_error {err : EngineError} (h : (r.submit kind d now).1 = .error err) :
    (r.submit kind d now).2 = r ∨
      ∃ key, d.key = .ok key ∧ r.changes.closed = true ∧ err = .queue (.closed r.changes.name) ∧
        (r.submit kind d now).2 = { r with limiter := (r.limiter.allow (d.limiterId key) now).2 } := by
  rcases submit_outcomes r kind d now with ⟨e, -, he⟩ | ⟨key, e, -, -, he⟩ |
      ⟨key, p, hkey, -, ⟨-, he⟩ | ⟨-, ⟨e, hpush, he⟩ | ⟨q, -, he⟩⟩⟩ <;> rw [he] at h ⊢
  · exact .inl rfl
  · exact .inl rfl
  · cases h
  · -- a push fails only on a closed queue
    have hclosed : r.changes.closed = true := by
      by_contra hopen
      obtain ⟨q, hq, -⟩ := ChangeQueue.push_open (Bool.eq_false_iff.2 hopen) ⟨kind, key, d⟩
      rw [hq] at hpush
      cases hpush
    have he' : e = .closed r.changes.name := by
      simp only [ChangeQueue.push, hclosed, if_true, Except.error.injEq] at hpush
      exact hpush.symm
    cases h
    exact .inr ⟨key, hkey, hclosed, by rw [he'], rfl⟩
  · cases h

/-- A rule write that the limiter refuses changes only the limiter. -/
theorem submit_rateLimited (h : (r.submit kind d now).1 = .ok .rateLimited) :
    ∃ key, d.key = .ok key ∧
      (r.submit kind d now).2 = { r with limiter := (r.limiter.allow (d.limiterId key) now).2 } := by
  rcases submit_outcomes r kind d now with ⟨e, -, he⟩ | ⟨key, e, -, -, he⟩ |
      ⟨key, p, hkey, -, ⟨-, he⟩ | ⟨-, ⟨e, -, he⟩ | ⟨q, -, he⟩⟩⟩ <;> rw [he] at h ⊢
  · cases h
  · cases h
  · exact ⟨key, hkey, rfl⟩
  · cases h
  · cases h

/-- A delete that fails changes nothing. -/
theorem delete_error {err : EngineError} (h : (r.delete d).1 = .error err) : (r.delete d).2 = r := by
  rcases delete_cases r d with he | ⟨-, -, -, -, hok, -⟩
  · exact he
  · rw [hok] at h
    cases h

/-- A rule write that fails leaves the rules, their order, the change queue and the match cache
as they were, and the limiter too, unless the change queue was closed: such a write fails after
its writer's token was taken, which changes that writer's bucket only. A write the limiter refuses
changes that bucket only. A delete that fails changes nothing. -/
theorem rejected_writes_leave_registry (r : Registry) (kind : DeltaKind) (d : Definition)
    (now : Nat) :
    (∀ err, (r.submit kind d now).1 = .error err →
      (r.submit kind d now).2 = r ∨
        ∃ key, d.key = .ok key ∧ r.changes.closed = true ∧
          err = .queue (.closed r.changes.name) ∧
          (r.submit kind d now).2 = { r with limiter := (r.submit kind d now).2.limiter } ∧
          Limiter.ChangesOnly (d.limiterId key) r.limiter (r.submit kind d now).2.limiter) ∧
      ((r.submit kind d now).1 = .ok .rateLimited →
        ∃ key, d.key = .ok key ∧
          (r.submit kind d now).2 = { r with limiter := (r.submit kind d now).2.limiter } ∧
          Limiter.ChangesOnly (d.limiterId key) r.limiter (r.submit kind d now).2.limiter) ∧
      ∀ err, (r.delete d).1 = .error err → (r.delete d).2 = r := by
  refine ⟨fun err h => ?_, fun h => ?_, fun _ h => delete_error h⟩
  · rcases submit_error h with he | ⟨key, hkey, hclosed, herr, he⟩
    · exact .inl he
    · rw [he]
      exact .inr ⟨key, hkey, hclosed, herr, rfl, Limiter.changesOnly_allow _ _ _⟩
  · obtain ⟨key, hkey, he⟩ := submit_rateLimited h
    rw [he]
    exact ⟨key, hkey, rfl, Limiter.changesOnly_allow _ _ _⟩

/-- On a created registry whose change queue was closed, adding a rule that compiles fails on
the closed queue, having given its writer a bucket: the limiter had none and now has one. -/
theorem closed_queue_write_spends_token :
    let created := Registry.create .selector 10 5000 65536
    let r : Registry := { created with changes := created.changes.close }
    let d : Definition :=
      { metadata := { ns := some "billing", name := "r1", uid := "uid-r1", generation := 1 }
        spec := { kind := some "Pod", filters := [{ kind := some "Pod" }] } }
    (r.submit .added d 0).1 = .error (.queue (.closed "rules")) ∧ r.limiter.size = 0 ∧
      (r.submit .added d 0).2.limiter.size = 1 := by
  intro created r d
  have hkey : d.key = .ok (.inNamespace "billing" "r1") :=
    Except.eq_ok_of_toOption (by decide +kernel)
  have hcompiled : d.compile = .ok ⟨none, some "Pod", d.spec.filters⟩ :=
    Except.eq_ok_of_toOption (by decide +kernel)
  have hcomp : r.compile (.inNamespace "billing" "r1") d =
      .ok (.selector ⟨none, some "Pod", d.spec.filters⟩) := by
    unfold Registry.compile
    rw [hcompiled]
    rfl
  have hid : d.limiterId (.inNamespace "billing" "r1") = "uid-r1" := rfl
  -- the writer has no bucket, so its write is allowed and gives it one
  have hlimiter : r.limiter = Limiter.empty Binary64.tokens 10 5000 := rfl
  have hallow : (r.limiter.allow "uid-r1" 0).1 = true := by
    rw [hlimiter]
    exact @Limiter.allow_fresh (Limiter.empty Binary64.tokens 10 5000) rfl
      (Limiter.empty_capacity_pos _ _ _) (Limiter.empty_refillMs_pos _ _ _) "uid-r1"
      (Limiter.empty_bucket? _ _ _ _) 0
  have hsize : (r.limiter.allow "uid-r1" 0).2.size = 1 := by
    obtain ⟨b, hb⟩ := r.limiter.allow_snd "uid-r1" 0
    rw [hb, hlimiter]
    rfl
  have hpush : ∀ δ : Delta Definition, r.changes.push δ = .error (.closed "rules") := fun _ => rfl
  rcases submit_outcomes r .added d 0 with ⟨e, he, -⟩ | ⟨key, e, hk, hc, -⟩ |
      ⟨key, p, hk, -, ⟨hrefused, -⟩ | ⟨-, ⟨e, he, hrun⟩ | ⟨q, hq, -⟩⟩⟩
  · rw [hkey] at he
    cases he
  · rw [hkey] at hk
    cases hk
    rw [hcomp] at hc
    cases hc
  · rw [hkey] at hk
    cases hk
    rw [hid, hallow] at hrefused
    cases hrefused
  · rw [hkey] at hk
    cases hk
    rw [hpush] at he
    cases he
    rw [hrun, hid]
    refine ⟨rfl, rfl, ?_⟩
    simp only [hsize]
  · rw [hpush] at hq
    cases hq

end Registry

end MeterMatch
