import MeterMatch.Proofs.BucketRate

/-! # Keeping buckets up does not change a verdict

Besides writes, the limiter takes two calls that only keep its buckets up: a look at a writer's
tokens (`available`), which refills the bucket without counting as use, and dropping the
buckets idle for `ttl` milliseconds (`evictIdle`), after which the writer's next write starts a
fresh, full bucket. Counted exactly (`TokenArith.exact`), neither changes the verdict of any
write, provided every eviction waits `capacity · refill`: a bucket idle that long has refilled
to capacity, which is what a fresh bucket holds. A shorter lifetime drops tokens that the bucket
has not earned back.

* `Limiter.level_refilled`: refilling at `s` and then at `t` is refilling at `t`; the capped
  refill composes.
* `Limiter.Shadowing`: a run with upkeep calls shadows the run of its writes alone, writer by
  writer (`Limiter.Shadows`): both buckets absent, the upkept one evicted where the other has
  refilled to capacity, or both used last at the same instant and refilling alike from now on.
* `Limiter.Shadowing.upkeep`, `Limiter.Shadowing.write`: an upkeep call keeps the shadowing; a
  write gets the same verdict in both runs and keeps it.
* `Limiter.upkeep_keeps_verdicts`: the writes of any run at nondecreasing instants get the
  verdicts they get once its upkeep calls are left out.
* `Limiter.early_eviction_admits`: an eviction sooner than `capacity · refill` after a write
  admits a later write that the bucket would have refused.
-/

namespace MeterMatch

namespace Limiter

/-- Whether a call is a write. -/
def Call.isAllow : Call → Bool
  | .allow .. => true
  | _ => false

/-- Whether a call only keeps the buckets up: a look at a writer's tokens, or dropping the
buckets idle for a lifetime of at least `span` milliseconds. -/
def Call.isUpkeep (span : Nat) : Call → Bool
  | .available .. => true
  | .evictIdle _ ttl => decide (span ≤ ttl)
  | _ => false

variable {α : Type}

/-! ## Distinct writers -/

/-- The writers of the buckets. -/
def writers (l : Limiter α) : List String := l.buckets.map (·.1)

theorem writers_setBucket (l : Limiter α) (u : String) (b : Bucket α) :
    (l.setBucket u b).writers = if l.buckets.any (·.1 == u) then l.writers else l.writers ++ [u] := by
  unfold setBucket writers
  split
  · -- the replacement keeps every entry's writer
    simp only [List.map_map]
    congr 1
    funext e
    by_cases he : e.1 = u <;> simp [he]
  · simp

theorem nodup_setBucket {l : Limiter α} (h : l.writers.Nodup) (u : String) (b : Bucket α) :
    (l.setBucket u b).writers.Nodup := by
  rw [writers_setBucket]
  split
  · exact h
  · rename_i hany
    refine List.nodup_append.2 ⟨h, List.nodup_singleton u, ?_⟩
    intro x hx y hy hxy
    rw [List.mem_singleton] at hy
    subst hxy hy
    obtain ⟨e, he, rfl⟩ := List.mem_map.1 hx
    exact hany (List.any_eq_true.2 ⟨e, he, by simp⟩)

/-- With distinct writers, dropping idle buckets keeps a writer's bucket exactly when it is
fresh. -/
theorem bucket?_evictIdle {l : Limiter α} (h : l.writers.Nodup) (now ttl : Nat) (u : String) :
    (l.evictIdle now ttl).2.bucket? u = (l.bucket? u).filter fun b => now - b.lastSeen < ttl := by
  unfold writers at h
  simp only [evictIdle, bucket?]
  generalize l.buckets = bs at h ⊢
  -- induction on the buckets: the first entry of `u` is its only one
  induction bs with
  | nil => rfl
  | cons e rest ih =>
    rw [List.map_cons, List.nodup_cons] at h
    by_cases he : e.1 = u
    · by_cases hfresh : now - e.2.lastSeen < ttl
      · simp [he, hfresh, Option.filter_some]
      · -- the stale entry was the only one of `u`
        simp only [List.filter_cons, he, hfresh, decide_false, Bool.false_eq_true, if_false,
          List.find?_cons, beq_self_eq_true, Option.map_some, Option.filter_some, if_false]
        rw [List.find?_eq_none.2 fun x hx hxu => h.1 (by
            rw [he, ← beq_iff_eq.1 hxu]
            exact List.mem_map_of_mem (List.mem_filter.1 hx).1)]
        rfl
    · have hkey : (e.1 == u) = false := by simpa using he
      rw [List.filter_cons]
      split <;> simp only [List.find?_cons, hkey, ih h.2]

/-! ## Exact refills -/

section Level

variable {l l₂ : Limiter ℚ} {b : Bucket ℚ} {s t : Nat}

/-- The exact refill depends on a limiter only through its capacity and refill interval. -/
theorem level_congr (hc : l₂.capacity = l.capacity) (hr : l₂.refillMs = l.refillMs) :
    l₂.level b t = l.level b t := by
  simp only [level, hc, hr]

theorem level_mono (h : s ≤ t) : l.level b s ≤ l.level b t := by
  have := earned_mono (Nat.sub_le_sub_right h b.lastRefill) l.refillMs
  exact min_le_min_right _ (by linarith)

/-- Refilling at `s` and then at `t` is refilling at `t`: the tokens earned in between add up,
and a cap reached at `s` is still the cap at `t`. -/
theorem level_refilled (hs : b.lastRefill ≤ s) (hst : s ≤ t) (seen : Nat) :
    l.level ⟨l.level b s, s, seen⟩ t = l.level b t := by
  have he : 0 ≤ ((t - s : Nat) : ℚ) / l.refillMs := earned_nonneg _ _
  have hcap : (l.capacity : ℚ) ≤ l.capacity + ((t - s : Nat) : ℚ) / l.refillMs :=
    le_add_of_nonneg_right he
  calc l.level ⟨l.level b s, s, seen⟩ t
      = min (min (b.tokens + ((s - b.lastRefill : Nat) : ℚ) / l.refillMs) l.capacity +
          ((t - s : Nat) : ℚ) / l.refillMs) l.capacity := rfl
    _ = min (min (b.tokens + ((s - b.lastRefill : Nat) : ℚ) / l.refillMs +
          ((t - s : Nat) : ℚ) / l.refillMs) (l.capacity + ((t - s : Nat) : ℚ) / l.refillMs))
          l.capacity := by rw [min_add_add_right]
    _ = min (b.tokens + ((s - b.lastRefill : Nat) : ℚ) / l.refillMs +
          ((t - s : Nat) : ℚ) / l.refillMs) l.capacity := by rw [min_assoc, min_eq_right hcap]
    _ = l.level b t := by rw [level, earned_split hs hst, add_assoc]

/-- A bucket holding no debt has refilled to capacity once `capacity · refill` has passed
since its last refill. -/
theorem level_full (h0 : 0 ≤ b.tokens) (hr : 0 < l.refillMs)
    (hspan : l.capacity * l.refillMs ≤ t - b.lastRefill) : l.level b t = l.capacity := by
  have hr' : (0 : ℚ) < l.refillMs := by exact_mod_cast hr
  have hearned : (l.capacity : ℚ) ≤ ((t - b.lastRefill : Nat) : ℚ) / l.refillMs := by
    rw [le_div_iff₀ hr']
    exact_mod_cast hspan
  exact min_eq_right (by linarith)

end Level

/-! ## One writer's two buckets -/

/-- How a writer's bucket in the run with upkeep calls stands to its bucket in the run of the
writes alone, from instant `T` on. -/
inductive Shadows (l : Limiter ℚ) (T : Nat) : Option (Bucket ℚ) → Option (Bucket ℚ) → Prop
  /-- Neither run has a bucket. -/
  | none : Shadows l T none none
  /-- The bucket was evicted where the other has refilled to capacity. -/
  | evicted {b : Bucket ℚ} (full : ∀ t, T ≤ t → l.level b t = l.capacity) :
      Shadows l T none (some b)
  /-- Both buckets were used last at the same instant and refill alike from `T` on. -/
  | kept {b' b : Bucket ℚ} (seen : b'.lastSeen = b.lastSeen)
      (level : ∀ t, T ≤ t → l.level b' t = l.level b t) : Shadows l T (some b') (some b)

section Shadows

variable {l l₂ : Limiter ℚ} {T T' : Nat} {x y : Option (Bucket ℚ)}

theorem Shadows.mono (h : Shadows l T x y) (hT : T ≤ T') : Shadows l T' x y := by
  cases h with
  | none => exact .none
  | evicted full => exact .evicted fun t ht => full t (hT.trans ht)
  | kept seen level => exact .kept seen fun t ht => level t (hT.trans ht)

theorem Shadows.congr (h : Shadows l T x y) (hc : l₂.capacity = l.capacity)
    (hr : l₂.refillMs = l.refillMs) : Shadows l₂ T x y := by
  cases h with
  | none => exact .none
  | evicted full => exact .evicted fun t ht => by rw [level_congr hc hr, hc]; exact full t ht
  | kept seen level => exact .kept seen fun t ht => by rw [level_congr hc hr, level_congr hc hr]; exact level t ht

/-- A write finds the same tokens in both runs: the upkept bucket, or a fresh one where it was
evicted, refills to what the other bucket holds. -/
theorem Shadows.start (h : Shadows l T x y) {now : Nat} (hnow : T ≤ now) :
    l.level (x.getD ⟨l.capacity, now, now⟩) now = l.level (y.getD ⟨l.capacity, now, now⟩) now := by
  cases h with
  | none => rfl
  | evicted full => rw [Option.getD_none, Option.getD_some, level_fresh, full now hnow]
  | kept seen level => exact level now hnow

end Shadows

/-! ## The run with upkeep calls shadows the run without -/

/-- The run with upkeep calls (`l'`) shadows the run of the writes alone (`l`) at instant `T`:
both count exactly with the same capacity and refill interval, the upkept buckets have distinct
writers and no refill after `T`, the other buckets hold no debt and were last refilled when last
used, and every writer's two buckets stand as `Shadows` says. -/
structure Shadowing (l' l : Limiter ℚ) (T : Nat) : Prop where
  exact' : l'.arith = .exact
  exact : l.arith = .exact
  capacity : l'.capacity = l.capacity
  refillMs : l'.refillMs = l.refillMs
  refill_pos : 0 < l.refillMs
  distinct : l'.writers.Nodup
  clock : ∀ e ∈ l'.buckets, e.2.lastRefill ≤ T
  plain : ∀ e ∈ l.buckets, 0 ≤ e.2.tokens ∧ e.2.lastRefill = e.2.lastSeen
  bucket : ∀ u, Shadows l T (l'.bucket? u) (l.bucket? u)

section Shadowing

variable {l' l : Limiter ℚ} {T now : Nat}

theorem Shadowing.mono (S : Shadowing l' l T) (hnow : T ≤ now) : Shadowing l' l now :=
  { S with
    clock := fun e he => (S.clock e he).trans hnow
    bucket := fun u => (S.bucket u).mono hnow }

/-- A look at a writer's tokens keeps the shadowing: the refilled bucket refills on as the
bucket it replaces. -/
theorem Shadowing.look (S : Shadowing l' l T) (hnow : T ≤ now) (uid : String) :
    Shadowing (l'.after (.available uid now)) l now := by
  cases hb' : l'.bucket? uid with
  | none =>
    rw [after, available_none hb']
    exact S.mono hnow
  | some b' =>
    have hclock : b'.lastRefill ≤ T := by
      obtain ⟨e, he, rfl⟩ := Option.map_eq_some_iff.1 hb'
      exact S.clock e (List.mem_of_find?_eq_some he)
    rw [after, available_exact S.exact' hb']
    refine { S with
      exact' := by rw [setBucket_arith]; exact S.exact'
      capacity := by rw [setBucket_capacity]; exact S.capacity
      refillMs := by rw [setBucket_refillMs]; exact S.refillMs
      distinct := nodup_setBucket S.distinct uid _
      clock := fun e he => ?_
      bucket := fun u => ?_ }
    · rcases mem_setBucket he with he | rfl
      · exact (S.clock e he).trans hnow
      · exact le_refl _
    · rw [bucket?_setBucket]
      split
      · -- the looked-at writer: its bucket was kept, and a refill composes
        rename_i hu
        subst hu
        have hs := S.bucket u
        rw [hb'] at hs
        generalize l.bucket? u = y at hs ⊢
        cases hs with
        | kept seen level =>
          refine .kept seen fun t ht => ?_
          rw [level_congr S.capacity S.refillMs, level_refilled (hclock.trans hnow) ht]
          exact level t (hnow.trans ht)
      · exact (S.bucket u).mono hnow

/-- Dropping the buckets idle for at least `capacity · refill` keeps the shadowing: a dropped
bucket was last used that long ago, and the other run's bucket has refilled to capacity. -/
theorem Shadowing.evict (S : Shadowing l' l T) (hnow : T ≤ now) {ttl : Nat}
    (hspan : l.capacity * l.refillMs ≤ ttl) : Shadowing (l'.after (.evictIdle now ttl)) l now := by
  refine { S with
    distinct := ?_
    clock := fun e he => (S.clock e (List.mem_filter.1 he).1).trans hnow
    bucket := fun u => ?_ }
  · exact S.distinct.sublist ((List.filter_sublist ..).map _)
  · show Shadows l now ((l'.evictIdle now ttl).2.bucket? u) (l.bucket? u)
    rw [bucket?_evictIdle S.distinct]
    have hs := S.bucket u
    generalize l'.bucket? u = x at hs ⊢
    generalize hy : l.bucket? u = y at hs ⊢
    cases hs with
    | none => exact .none
    | evicted full => exact .evicted fun t ht => full t (hnow.trans ht)
    | kept seen level =>
      rename_i b' b
      by_cases hfresh : now - b'.lastSeen < ttl
      · rw [Option.filter_some, decide_eq_true hfresh, if_pos rfl]
        exact .kept seen fun t ht => level t (hnow.trans ht)
      · -- an evicted bucket was idle a whole span, so the other one is full
        rw [Option.filter_some, decide_eq_false hfresh]
        obtain ⟨e, he, rfl⟩ := Option.map_eq_some_iff.1 hy
        obtain ⟨h0, hseen⟩ := S.plain e (List.mem_of_find?_eq_some he)
        refine .evicted fun t ht => level_full h0 S.refill_pos ?_
        rw [hseen, ← seen]
        omega

/-- An upkeep call keeps the shadowing. -/
theorem Shadowing.upkeep (S : Shadowing l' l T) {c : Call}
    (hc : c.isUpkeep (l.capacity * l.refillMs) = true) {now : Nat} (hi : c.instant? = some now)
    (hnow : T ≤ now) : Shadowing (l'.after c) l now := by
  cases c with
  | available uid t =>
    cases hi
    exact S.look hnow uid
  | evictIdle t ttl =>
    cases hi
    exact S.evict hnow (of_decide_eq_true hc)
  | allow _ _ => cases hc
  | forget _ => cases hc

/-- A write gets the same verdict in both runs, and leaves the writer the same bucket in both. -/
theorem Shadowing.write (S : Shadowing l' l T) (hnow : T ≤ now) (uid : String) :
    (l'.allow uid now).1 = (l.allow uid now).1 ∧
      Shadowing (l'.after (.allow uid now)) (l.after (.allow uid now)) now := by
  generalize hb0 : (l.bucket? uid).getD ⟨l.capacity, now, now⟩ = b0
  generalize hb0' : (l'.bucket? uid).getD ⟨l'.capacity, now, now⟩ = b0'
  have hlevel : l'.level b0' now = l.level b0 now := by
    rw [← hb0, ← hb0', S.capacity, level_congr S.capacity S.refillMs]
    exact (S.bucket uid).start hnow
  have h0 : 0 ≤ b0.tokens := by
    rw [← hb0]
    cases hb : l.bucket? uid with
    | none => exact Nat.cast_nonneg _
    | some b =>
      obtain ⟨e, he, rfl⟩ := Option.map_eq_some_iff.1 hb
      exact (S.plain e (List.mem_of_find?_eq_some he)).1
  have hnew : 0 ≤ l.level b0 now - if 1 ≤ l.level b0 now then 1 else 0 := by
    have hlv : 0 ≤ l.level b0 now := level_nonneg h0
    split <;> linarith
  rw [after, after, allow_exact S.exact' hb0', allow_exact S.exact hb0, hlevel]
  refine ⟨rfl, ?_⟩
  dsimp only
  refine
    { exact' := by rw [setBucket_arith]; exact S.exact'
      exact := by rw [setBucket_arith]; exact S.exact
      capacity := by rw [setBucket_capacity, setBucket_capacity]; exact S.capacity
      refillMs := by rw [setBucket_refillMs, setBucket_refillMs]; exact S.refillMs
      refill_pos := by rw [setBucket_refillMs]; exact S.refill_pos
      distinct := nodup_setBucket S.distinct uid _
      clock := fun e he => ?_
      plain := fun e he => ?_
      bucket := fun u => ?_ }
  · rcases mem_setBucket he with he | rfl
    · exact (S.clock e he).trans hnow
    · exact le_refl _
  · rcases mem_setBucket he with he | rfl
    · exact S.plain e he
    · exact ⟨hnew, rfl⟩
  · rw [bucket?_setBucket, bucket?_setBucket]
    by_cases hu : u = uid
    · rw [if_pos hu, if_pos hu]
      exact .kept rfl fun _ _ => rfl
    · rw [if_neg hu, if_neg hu]
      exact ((S.bucket u).mono hnow).congr (setBucket_capacity ..) (setBucket_refillMs ..)

/-- Along a run at nondecreasing instants from `T` on, made of writes and upkeep calls, every
write gets the verdict it gets in the run of the writes alone. -/
theorem Shadowing.verdicts (S : Shadowing l' l T) {cs : List Call}
    (hsorted : (cs.filterMap Call.instant?).Pairwise (· ≤ ·))
    (hfrom : ∀ i ∈ cs.filterMap Call.instant?, T ≤ i)
    (hcalls : ∀ c ∈ cs, c.isAllow = true ∨ c.isUpkeep (l.capacity * l.refillMs) = true)
    (uid : String) : l'.verdicts uid cs = l.verdicts uid (cs.filter Call.isAllow) := by
  induction cs generalizing l' l T with
  | nil => rfl
  | cons c cs ih =>
    have hcalls' : ∀ c ∈ cs, c.isAllow = true ∨ c.isUpkeep (l.capacity * l.refillMs) = true :=
      fun c hc => hcalls c (List.mem_cons_of_mem _ hc)
    cases c with
    | allow u now =>
      simp only [List.filterMap_cons, Call.instant?, List.pairwise_cons, List.mem_cons,
        forall_eq_or_imp] at hsorted hfrom
      obtain ⟨hv, S'⟩ := S.write hfrom.1 u
      have hspan : (l.after (.allow u now)).capacity * (l.after (.allow u now)).refillMs =
          l.capacity * l.refillMs := by rw [after_capacity, after_refillMs]
      rw [List.filter_cons_of_pos rfl, verdicts_cons, verdicts_cons,
        ih S' hsorted.2 hsorted.1 (hspan ▸ hcalls')]
      simp only [verdict?, hv]
    | forget u =>
      exact absurd (hcalls (.forget u) List.mem_cons_self) (by simp [Call.isAllow, Call.isUpkeep])
    | available u now =>
      simp only [List.filterMap_cons, Call.instant?, List.pairwise_cons, List.mem_cons,
        forall_eq_or_imp] at hsorted hfrom
      have S' : Shadowing (l'.after (.available u now)) l now := S.upkeep rfl rfl hfrom.1
      rw [List.filter_cons_of_neg (by simp [Call.isAllow]), verdicts_cons,
        ih S' hsorted.2 hsorted.1 hcalls']
      rfl
    | evictIdle now ttl =>
      simp only [List.filterMap_cons, Call.instant?, List.pairwise_cons, List.mem_cons,
        forall_eq_or_imp] at hsorted hfrom
      have hup : (Call.evictIdle now ttl).isUpkeep (l.capacity * l.refillMs) = true := by
        simpa [Call.isAllow] using hcalls (.evictIdle now ttl) List.mem_cons_self
      have S' : Shadowing (l'.after (.evictIdle now ttl)) l now := S.upkeep hup rfl hfrom.1
      rw [List.filter_cons_of_neg (by simp [Call.isAllow]), verdicts_cons,
        ih S' hsorted.2 hsorted.1 hcalls']
      rfl

theorem shadowing_empty (capacity refillMs : Nat) :
    Shadowing (empty TokenArith.exact capacity refillMs) (empty TokenArith.exact capacity refillMs) 0 where
  exact' := rfl
  exact := rfl
  capacity := rfl
  refillMs := rfl
  refill_pos := empty_refillMs_pos _ _ _
  distinct := List.nodup_nil
  clock := fun _ he => nomatch he
  plain := fun _ he => nomatch he
  bucket := fun _ => .none

end Shadowing

/-- Counted exactly, the writes of a run at nondecreasing instants on a limiter made with
`capacity` and `refillMs` get the same verdicts with and without the run's upkeep calls: looks
at a writer's tokens, and evictions of the buckets idle for at least `capacity · refill`
milliseconds, `capacity` counting as at least one and `refill` being `refillMs`, or five
seconds for none. -/
theorem upkeep_keeps_verdicts (capacity refillMs : Nat) (cs : List Call)
    (hsorted : (cs.filterMap Call.instant?).Pairwise (· ≤ ·))
    (hcalls : ∀ c ∈ cs, c.isAllow = true ∨
      c.isUpkeep (max capacity 1 * (if refillMs = 0 then 5000 else refillMs)) = true)
    (uid : String) :
    (empty TokenArith.exact capacity refillMs).verdicts uid cs =
      (empty TokenArith.exact capacity refillMs).verdicts uid (cs.filter Call.isAllow) := by
  have hspan : (empty TokenArith.exact capacity refillMs).capacity *
      (empty TokenArith.exact capacity refillMs).refillMs =
        max capacity 1 * (if refillMs = 0 then 5000 else refillMs) := by
    simp [empty]
  exact (shadowing_empty capacity refillMs).verdicts hsorted (fun _ _ => Nat.zero_le _)
    (hspan ▸ hcalls) uid

/-- One token refilled every second: a write, an eviction a second later, a write, a look and
a write; the writes are admitted, refused and admitted, as they are without the upkeep. -/
theorem upkeep_keeps_verdicts_after_eviction :
    ([Call.allow "w" 0, .evictIdle 1000 1000, .allow "w" 1000, .allow "w" 1000,
        .available "w" 1500, .allow "w" 2000].filterMap Call.instant?).Pairwise (· ≤ ·) ∧
    (∀ c ∈ [Call.allow "w" 0, .evictIdle 1000 1000, .allow "w" 1000, .allow "w" 1000,
        .available "w" 1500, .allow "w" 2000], c.isAllow = true ∨
      c.isUpkeep (max 1 1 * (if 1000 = 0 then 5000 else 1000)) = true) ∧
    (empty TokenArith.exact 1 1000).verdicts "w" [Call.allow "w" 0, .evictIdle 1000 1000,
        .allow "w" 1000, .allow "w" 1000, .available "w" 1500, .allow "w" 2000] =
      (empty TokenArith.exact 1 1000).verdicts "w" ([Call.allow "w" 0, .evictIdle 1000 1000,
        .allow "w" 1000, .allow "w" 1000, .available "w" 1500, .allow "w" 2000].filter
          Call.isAllow) :=
  ⟨by decide, by decide, upkeep_keeps_verdicts 1 1000 _ (by decide) (by decide) "w"⟩

/-- An eviction sooner than `capacity · refill` changes a verdict: one token refilled every five
seconds, a write at once, an eviction with a lifetime of one second a second later, and a write
then. The write after the eviction gets a fresh, full bucket and is admitted; without the
eviction the bucket holds a fifth of a token and refuses it. -/
theorem early_eviction_admits :
    (empty TokenArith.exact 1 5000).verdicts "w"
        [Call.allow "w" 0, .evictIdle 1000 1000, .allow "w" 1000] = [(0, true), (1000, true)] ∧
      (empty TokenArith.exact 1 5000).verdicts "w"
        ([Call.allow "w" 0, .evictIdle 1000 1000, .allow "w" 1000].filter Call.isAllow) =
          [(0, true), (1000, false)] := by
  decide +kernel

end Limiter

end MeterMatch
