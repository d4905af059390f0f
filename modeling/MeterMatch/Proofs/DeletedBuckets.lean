import MeterMatch.Proofs.MemoisedMatches
import MeterMatch.Proofs.RejectedWrites
import MeterMatch.Proofs.BucketRate

/-! # Deleting a rule frees its writer's bucket

A rule write takes a token from the bucket of its writer: the definition's uid, or the key's
written form when the uid is empty (`Definition.limiterId`). The bucket is made by the first write,
admitted or refused. Deleting a rule drops one bucket, that of the definition registered under the
key, or of the given definition when the key holds none, and no other (`Registry.delete_bucket?`).

So a delete frees every bucket the writes of its key made only while those writes, and the delete,
name one writer. A key whose uid changes from one write to the next leaves the bucket of the older
uid behind (`Registry.uid_change_keeps_old_bucket`).

* `Limiter.bucket?_forget`: forgetting a writer drops its bucket and keeps the others.
* `Registry.WriterOf k w r`: every rule registered under `k` writes through `w`, so the definition
  a delete of `k` looks up names `w` (`Registry.WriterOf.limiterId_getD`). A call keeps it
  when its writes of `k` all name `w` (`Registry.WriterOf.call`), and so does a run of such calls
  (`Registry.WriterOf.run`).
* `Registry.delete_frees_writer_bucket`: after any run from a registry without rules, a delete that
  succeeds drops the bucket of the key's registered writer, or of its own, and keeps every other;
  when every write of the key and the delete name one writer, no bucket a write of the key used is
  left.
-/

namespace MeterMatch

namespace Limiter

variable {α : Type}

/-- Forgetting a writer drops its bucket and keeps every other. -/
theorem bucket?_forget (l : Limiter α) (uid u : String) :
    (l.forget uid).2.bucket? u = if u = uid then none else l.bucket? u := by
  split
  · rename_i h
    subst h
    simp [forget, bucket?, List.find?_filter]
  · exact l.bucket?_forget_of_ne ‹_›

/-- A write leaves its writer a bucket, whether it is admitted or refused. -/
theorem bucket?_allow_self (l : Limiter α) (uid : String) (now : Nat) :
    ((l.allow uid now).2.bucket? uid).isSome := by
  obtain ⟨b, hb⟩ := l.allow_snd uid now
  rw [hb, bucket?_setBucket, if_pos rfl]
  rfl

@[simp] theorem allow_arith (l : Limiter α) (uid : String) (now : Nat) :
    (l.allow uid now).2.arith = l.arith := l.after_arith (.allow uid now)

@[simp] theorem allow_capacity (l : Limiter α) (uid : String) (now : Nat) :
    (l.allow uid now).2.capacity = l.capacity := l.after_capacity (.allow uid now)

@[simp] theorem allow_refillMs (l : Limiter α) (uid : String) (now : Nat) :
    (l.allow uid now).2.refillMs = l.refillMs := l.after_refillMs (.allow uid now)

end Limiter

namespace Registry

variable {r : Registry} {k : ObjectKey} {w : String}

/-- A delete that succeeds drops the bucket of the definition registered under the key, or of the
given definition when the key holds none, and keeps every other bucket. -/
theorem delete_bucket? {d : Definition} (h : (r.delete d).1 = .ok ()) :
    ∃ key, d.key = .ok key ∧ ∀ u, (r.delete d).2.limiter.bucket? u =
      if u = ((r.definitions key).getD d).limiterId key then none else r.limiter.bucket? u := by
  unfold delete at h ⊢
  cases hk : d.key with
  | error e => simp [hk] at h
  | ok key =>
    cases hp : r.changes.push ⟨.deleted, key, d⟩ with
    | error e => simp [hk, hp] at h
    | ok q =>
      refine ⟨key, rfl, fun u => ?_⟩
      simp only [hp]
      rw [Limiter.bucket?_forget]
      cases hg : r.get? key <;> simp [definitions, hg]

/-- Under the selector compiler a rule's predicate is the matcher its definition compiles to. -/
theorem compile_of_selector (h : r.compiler = .selector) {key : ObjectKey} {d : Definition}
    {m : Matcher} (hm : d.compile = .ok m) : r.compile key d = .ok (.selector m) := by
  unfold compile
  rw [h]
  dsimp only
  rw [hm]

/-- On an open queue and a binary64 limiter, the write of a definition that has a key and compiles,
by a writer without a bucket, is admitted: it takes a token from its new bucket, queues its change
on a queue that stays open, and stores its rule. -/
theorem submit_fresh {kind : DeltaKind} {d : Definition} {key : ObjectKey} {p : Predicate}
    (now : Nat) (hkey : d.key = .ok key) (hp : r.compile key d = .ok p)
    (hopen : r.changes.closed = false) (harith : r.limiter.arith = Binary64.tokens)
    (hcap : 0 < r.limiter.capacity) (hrefill : 0 < r.limiter.refillMs)
    (hnew : r.limiter.bucket? (d.limiterId key) = none) :
    ∃ r' : Registry, r.submit kind d now = (.ok .admitted, r') ∧ r'.changes.closed = false ∧
      r'.compiler = r.compiler ∧ r'.rules = place r.rules ⟨key, d, p⟩ ∧
      r'.limiter = (r.limiter.allow (d.limiterId key) now).2 := by
  have hallow := Limiter.allow_fresh r.limiter harith hcap hrefill hnew now
  rcases submit_open hopen hkey kind now with ⟨e, he, -⟩ | ⟨p', hp', ⟨hrefused, -⟩ | ⟨-, q, hq, hadmit⟩⟩
  · rw [hp] at he
    cases he
  · rw [hallow] at hrefused
    cases hrefused
  · rw [hp] at hp'
    cases hp'
    exact ⟨_, hadmit, hq, rfl, rfl, rfl⟩

/-! ## The registered writer of a key -/

/-- Every rule registered under `k` writes through `w`. -/
def WriterOf (k : ObjectKey) (w : String) (r : Registry) : Prop :=
  ∀ ρ ∈ r.rules, ρ.key = k → ρ.definition.limiterId k = w

theorem WriterOf.of_rules (hr : r.rules = []) : WriterOf k w r := by
  intro ρ hρ
  rw [hr] at hρ
  cases hρ

/-- A write of a definition that names `w` whenever it is one of `k` keeps the writer of `k`. -/
theorem WriterOf.submit (h : WriterOf k w r) {kind : DeltaKind} {d : Definition} (now : Nat)
    (hd : d.key = .ok k → d.limiterId k = w) : WriterOf k w (r.submit kind d now).2 := by
  rcases submit_cases r kind d now with he | ⟨key, p, q, hkey, -, -, -, he⟩ <;> rw [he]
  · exact h
  · intro ρ hρ hk
    rcases mem_place hρ with hρ | rfl
    · exact h ρ hρ hk
    · -- the stored rule is the written one, under the key of its definition
      subst hk
      exact hd hkey

theorem WriterOf.delete (h : WriterOf k w r) (d : Definition) : WriterOf k w (r.delete d).2 := by
  rcases delete_cases r d with he | ⟨key, q, -, -, -, he⟩ <;> rw [he]
  · exact h
  · exact fun ρ hρ => h ρ (List.mem_filter.1 hρ).1

theorem WriterOf.resync (h : WriterOf k w r) {listing : List Definition} (now : Nat)
    (hl : ∀ d ∈ listing, d.key = .ok k → d.limiterId k = w) :
    WriterOf k w (r.resync listing now).2 :=
  resync_induction_listed (WriterOf k w) listing now (fun _ _ d hd _ hr => hr.submit now (hl d hd))
    (fun _ d hr => hr.delete d) (fun _ hr => hr) h

/-- The definition registered under `k`, or `d` when `k` holds none, names the writer of `k` when
`d` does. -/
theorem WriterOf.limiterId_getD (h : WriterOf k w r) {d : Definition} (hd : d.limiterId k = w) :
    ((r.definitions k).getD d).limiterId k = w := by
  cases hg : r.get? k with
  | none => simpa [definitions, hg] using hd
  | some ρ =>
    obtain ⟨hmem, hkey⟩ := mem_of_get? hg
    simpa [definitions, hg] using h ρ hmem hkey

/-- A call whose writes of `k` all name `w` keeps the writer of `k`. -/
theorem WriterOf.call (h : WriterOf k w r) (a : Action)
    (ha : ∀ d ∈ a.written, d.key = .ok k → d.limiterId k = w) : WriterOf k w (act r a) := by
  cases a with
  | add d now => exact h.submit now (ha d (by simp [Action.written]))
  | update d now => exact h.submit now (ha d (by simp [Action.written]))
  | delete d => exact h.delete d
  | resync listing now => exact h.resync now ha
  | pop handled => exact h
  | findMatches o skip =>
    show WriterOf k w (r.findMatches o skip).2
    rw [findMatches_eq]
    exact h

/-- A run whose writes of `k` all name `w` keeps the writer of `k`. -/
theorem WriterOf.run (h : WriterOf k w r) (acts : List Action)
    (ha : ∀ a ∈ acts, ∀ d ∈ a.written, d.key = .ok k → d.limiterId k = w) :
    WriterOf k w (acts.foldl Registry.act r) := by
  induction acts generalizing r with
  | nil => exact h
  | cons a acts ih =>
    exact ih (h.call a (ha a List.mem_cons_self)) fun a' h' => ha a' (List.mem_cons_of_mem _ h')

/-! ## Deleting after a run -/

/-- After any run from a registry without rules, a delete of key `k` that succeeds drops the bucket
of the writer of the definition registered under `k`, or of the delete's own when `k` holds none,
and keeps every other bucket. When every write of `k` in the run names the writer the delete names,
no bucket that a write of `k` used is left. -/
theorem delete_frees_writer_bucket (start : Registry) (hstart : start.rules = [])
    (acts : List Action) (r : Registry) (hr : r = acts.foldl act start) (d : Definition)
    (k : ObjectKey) (hk : d.key = .ok k) (hdel : (r.delete d).1 = .ok ()) :
    (∀ u, (r.delete d).2.limiter.bucket? u =
      if u = ((r.definitions k).getD d).limiterId k then none else r.limiter.bucket? u) ∧
    ((∀ a ∈ acts, ∀ d' ∈ a.written, d'.key = .ok k → d'.limiterId k = d.limiterId k) →
      ∀ a ∈ acts, ∀ d' ∈ a.written, d'.key = .ok k →
        (r.delete d).2.limiter.bucket? (d'.limiterId k) = none) := by
  obtain ⟨key, hkey, hbucket⟩ := delete_bucket? hdel
  rw [hk] at hkey
  cases hkey
  refine ⟨hbucket, fun hsame a ha d' hd' hd'k => ?_⟩
  -- the registered definition of `k`, if any, was written in the run, so it names `d`'s writer
  have hW : WriterOf k (d.limiterId k) r := hr ▸ (WriterOf.of_rules hstart).run acts hsame
  rw [hbucket, hW.limiterId_getD rfl, hsame a ha d' hd' hd'k, if_pos rfl]

/-- A rule added once to a new registry and then deleted leaves no bucket of its writer. -/
theorem delete_frees_bucket_of_sole_writer :
    let start := create .selector 10 5000 65536
    let d : Definition :=
      { metadata := { ns := some "billing", name := "r1", uid := "uid-r1", generation := 1 }
        spec := { kind := some "Pod", filters := [{ kind := some "Pod" }] } }
    let r := [Action.add d 0].foldl act start
    start.rules = [] ∧ d.key = .ok (.inNamespace "billing" "r1") ∧ (r.delete d).1 = .ok () ∧
      (r.delete d).2.limiter.bucket? (d.limiterId (.inNamespace "billing" "r1")) = none := by
  intro start d r
  have hkey : d.key = .ok (.inNamespace "billing" "r1") :=
    Except.eq_ok_of_toOption (by decide +kernel)
  have hm : d.compile = .ok ⟨none, some "Pod", d.spec.filters⟩ :=
    Except.eq_ok_of_toOption (by decide +kernel)
  -- the only write is admitted, and the queue it leaves is open
  obtain ⟨R, hrun, hq, -⟩ := @submit_fresh start .added d _ _ 0 hkey (compile_of_selector rfl hm) rfl
    rfl (Limiter.empty_capacity_pos _ _ _) (Limiter.empty_refillMs_pos _ _ _)
    (Limiter.empty_bucket? _ _ _ _)
  have hdel : (r.delete d).1 = .ok () := by
    show ((start.submit .added d 0).2.delete d).1 = .ok ()
    rw [hrun]
    exact (delete_open hq hkey).1
  have hsame : ∀ a ∈ [Action.add d 0], ∀ d' ∈ a.written,
      d'.key = .ok (.inNamespace "billing" "r1") →
        d'.limiterId (.inNamespace "billing" "r1") = d.limiterId (.inNamespace "billing" "r1") := by
    intro a ha d' hd' _
    simp only [List.mem_singleton] at ha
    subst ha
    simp only [Action.written, List.mem_singleton] at hd'
    rw [hd']
  exact ⟨rfl, hkey, hdel, (delete_frees_writer_bucket start rfl [.add d 0] r rfl d _ hkey hdel).2
    hsame (.add d 0) List.mem_cons_self d List.mem_cons_self hkey⟩

/-- A rule added by one uid and updated by another, then deleted: the delete succeeds and drops the
bucket of the second uid, and the bucket that the addition made for the first is left. -/
theorem uid_change_keeps_old_bucket :
    let d₁ : Definition :=
      { metadata := { ns := some "billing", name := "r1", uid := "uid-1", generation := 1 }
        spec := { kind := some "Pod", filters := [{ kind := some "Pod" }] } }
    let d₂ : Definition :=
      { metadata := { ns := some "billing", name := "r1", uid := "uid-2", generation := 2 }
        spec := { kind := some "Pod", filters := [{ kind := some "Pod" }] } }
    let r := [Action.add d₁ 0, .update d₂ 0].foldl act (create .selector 10 5000 65536)
    d₁.key = .ok (.inNamespace "billing" "r1") ∧ d₂.key = .ok (.inNamespace "billing" "r1") ∧
      (r.delete d₂).1 = .ok () ∧
      ((r.delete d₂).2.limiter.bucket? (d₁.limiterId (.inNamespace "billing" "r1"))).isSome := by
  intro d₁ d₂ r
  have hkey₁ : d₁.key = .ok (.inNamespace "billing" "r1") :=
    Except.eq_ok_of_toOption (by decide +kernel)
  have hkey₂ : d₂.key = .ok (.inNamespace "billing" "r1") :=
    Except.eq_ok_of_toOption (by decide +kernel)
  have hm₁ : d₁.compile = .ok ⟨none, some "Pod", d₁.spec.filters⟩ :=
    Except.eq_ok_of_toOption (by decide +kernel)
  have hm₂ : d₂.compile = .ok ⟨none, some "Pod", d₂.spec.filters⟩ :=
    Except.eq_ok_of_toOption (by decide +kernel)
  have hne : d₂.limiterId (.inNamespace "billing" "r1") ≠ d₁.limiterId (.inNamespace "billing" "r1") := by
    decide
  -- both writes find their writer without a bucket, so both are admitted
  obtain ⟨R₁, hrun₁, hq₁, hcomp₁, -, hlim₁⟩ := @submit_fresh (create .selector 10 5000 65536) .added
    d₁ _ _ 0 hkey₁ (compile_of_selector rfl hm₁) rfl rfl (Limiter.empty_capacity_pos _ _ _)
    (Limiter.empty_refillMs_pos _ _ _) (Limiter.empty_bucket? _ _ _ _)
  obtain ⟨R₂, hrun₂, hq₂, -, hrules₂, hlim₂⟩ := @submit_fresh R₁ .updated d₂ _ _ 0 hkey₂
    (compile_of_selector hcomp₁ hm₂) hq₁
    (by rw [hlim₁, Limiter.allow_arith]; rfl)
    (by rw [hlim₁, Limiter.allow_capacity]; exact Limiter.empty_capacity_pos _ _ _)
    (by rw [hlim₁, Limiter.allow_refillMs]; exact Limiter.empty_refillMs_pos _ _ _)
    (by rw [hlim₁]; exact (Limiter.bucket?_allow_of_ne _ hne 0).trans (Limiter.empty_bucket? _ _ _ _))
  have hr : r = R₂ := by
    show (((create .selector 10 5000 65536).submit .added d₁ 0).2.submit .updated d₂ 0).2 = R₂
    rw [hrun₁, hrun₂]
  subst hr
  have hdel := (delete_open hq₂ hkey₂).1
  refine ⟨hkey₁, hkey₂, hdel, ?_⟩
  -- the delete drops the bucket of the registered writer, the update's, and the addition's is left
  obtain ⟨key, hkey, hbucket⟩ := delete_bucket? hdel
  rw [hkey₂] at hkey
  cases hkey
  have hdef : r.definitions (.inNamespace "billing" "r1") = some d₂ := by
    simp [definitions, get?, hrules₂, find?_place]
  rw [hbucket, hdef, Option.getD_some, if_neg (Ne.symm hne), hlim₂,
    Limiter.bucket?_allow_of_ne _ (Ne.symm hne), hlim₁]
  exact Limiter.bucket?_allow_self _ _ _

end Registry

end MeterMatch
