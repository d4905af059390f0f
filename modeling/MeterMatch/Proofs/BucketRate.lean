import MeterMatch.Proofs.FreshBuckets
import Mathlib.Tactic.Linarith
import Mathlib.Tactic.Ring
import Mathlib.Algebra.Order.Field.Rat

/-! # Token buckets keep their rate

Counted exactly (`TokenArith.exact`: rationals, the engine's formulas without rounding), a
writer's bucket admits writes at the rate it promises, neither faster nor slower. The calls on
the limiter are `Limiter.Call`s: writes (`allow`), looks at the tokens (`available`), dropping a
writer's bucket (`forget`) and dropping idle buckets (`evictIdle`). `Limiter.run` makes them in
order and `Limiter.verdicts` lists one writer's writes with their instants and verdicts. The
facts are about one writer whose bucket no call drops (`Limiter.SparesAll`).

* `Limiter.Within.run`: every bucket holds between none and `capacity` tokens, after any calls.
* `Limiter.admitted_window`: when calls come at nondecreasing instants, at most
  `capacity + (t - s) / refill` writes are admitted at instants in `[s, t]`. The invariant
  (`Limiter.WindowAt`) bounds the writes admitted since `s` plus the tokens still held by
  `capacity` plus what was earned since `s`.
* `Limiter.first_writes_admitted`: a writer that holds `k` tokens has its next `k` writes
  admitted; a fresh bucket holds `capacity`.
* `Limiter.admitted_after_interval`: a write made at least one refill interval after the
  writer's previous write is admitted. Between the two writes the bucket holds at least one
  token or the time since the first write over the refill interval (`Limiter.GapAt`).
-/

namespace MeterMatch

/-- Token counts as exact rationals: the engine's formulas (seconds as milliseconds over a
thousand, earned tokens as elapsed seconds over refill seconds) without rounding. -/
def TokenArith.exact : TokenArith ℚ where
  ofNat n := n
  earned e r := ((e : ℚ) / 1000) / ((r : ℚ) / 1000)
  add a b := a + b
  sub a b := a - b
  min a b := Min.min a b
  le a b := decide (a ≤ b)

namespace Limiter

/-- A call on the limiter. -/
inductive Call where
  /-- A write by a writer. -/
  | allow (uid : String) (now : Nat)
  /-- A look at a writer's tokens. -/
  | available (uid : String) (now : Nat)
  /-- Dropping a writer's bucket. -/
  | forget (uid : String)
  /-- Dropping the buckets idle for `ttl`. -/
  | evictIdle (now ttl : Nat)

/-- The instant a call is made at; dropping a writer's bucket reads no clock. -/
def Call.instant? : Call → Option Nat
  | .allow _ now | .available _ now | .evictIdle now _ => some now
  | .forget _ => none

variable {α : Type}

/-- The limiter after a call. -/
def after (l : Limiter α) : Call → Limiter α
  | .allow uid now => (l.allow uid now).2
  | .available uid now => (l.available uid now).2
  | .forget uid => (l.forget uid).2
  | .evictIdle now ttl => (l.evictIdle now ttl).2

/-- The limiter after calls, in order. -/
def run (l : Limiter α) (cs : List Call) : Limiter α := cs.foldl after l

/-- A call that is a write by `uid`, with its instant and whether it was admitted. -/
def verdict? (l : Limiter α) (uid : String) : Call → Option (Nat × Bool)
  | .allow u now => if u = uid then some (now, (l.allow u now).1) else none
  | _ => none

/-- The writes by `uid` along calls, in order, each with its instant and verdict. -/
def verdicts (uid : String) : Limiter α → List Call → List (Nat × Bool)
  | _, [] => []
  | l, c :: cs => (l.verdict? uid c).toList ++ verdicts uid (l.after c) cs

/-- The call leaves `uid`'s bucket in place: it drops another writer's bucket, or evicts only
buckets other than `uid`'s. -/
def Spares (l : Limiter α) (uid : String) : Call → Prop
  | .forget u => u ≠ uid
  | .evictIdle now ttl => ∀ b, l.bucket? uid = some b → now - b.lastSeen < ttl
  | _ => True

/-- Every call of a run spares `uid`'s bucket. -/
def SparesAll (uid : String) : Limiter α → List Call → Prop
  | _, [] => True
  | l, c :: cs => l.Spares uid c ∧ SparesAll uid (l.after c) cs

@[simp] theorem run_nil (l : Limiter α) : l.run [] = l := rfl

@[simp] theorem run_cons (l : Limiter α) (c : Call) (cs : List Call) :
    l.run (c :: cs) = (l.after c).run cs := rfl

@[simp] theorem verdicts_nil (l : Limiter α) (uid : String) : l.verdicts uid [] = [] := rfl

theorem verdicts_cons (l : Limiter α) (uid : String) (c : Call) (cs : List Call) :
    l.verdicts uid (c :: cs) = (l.verdict? uid c).toList ++ (l.after c).verdicts uid cs := rfl

theorem verdict?_allow_self (l : Limiter α) (uid : String) (now : Nat) :
    l.verdict? uid (.allow uid now) = some (now, (l.allow uid now).1) := by
  simp [verdict?]

/-! ## What a call changes -/

section Frame

variable (l : Limiter α)

theorem available_snd (uid : String) (now : Nat) :
    (l.available uid now).2 = l ∨ ∃ b, (l.available uid now).2 = l.setBucket uid b := by
  unfold available
  split
  · exact .inr ⟨_, rfl⟩
  · exact .inl rfl

@[simp] theorem after_arith (c : Call) : (l.after c).arith = l.arith := by
  cases c with
  | allow uid now => obtain ⟨b, hb⟩ := l.allow_snd uid now; simp [after, hb]
  | available uid now =>
    rcases l.available_snd uid now with h | ⟨b, h⟩ <;> simp [after, h]
  | forget uid => rfl
  | evictIdle now ttl => rfl

@[simp] theorem after_capacity (c : Call) : (l.after c).capacity = l.capacity := by
  cases c with
  | allow uid now => obtain ⟨b, hb⟩ := l.allow_snd uid now; simp [after, hb]
  | available uid now =>
    rcases l.available_snd uid now with h | ⟨b, h⟩ <;> simp [after, h]
  | forget uid => rfl
  | evictIdle now ttl => rfl

@[simp] theorem after_refillMs (c : Call) : (l.after c).refillMs = l.refillMs := by
  cases c with
  | allow uid now => obtain ⟨b, hb⟩ := l.allow_snd uid now; simp [after, hb]
  | available uid now =>
    rcases l.available_snd uid now with h | ⟨b, h⟩ <;> simp [after, h]
  | forget uid => rfl
  | evictIdle now ttl => rfl

@[simp] theorem run_arith (cs : List Call) : (l.run cs).arith = l.arith := by
  induction cs generalizing l with
  | nil => rfl
  | cons c cs ih => rw [run_cons, ih, after_arith]

@[simp] theorem run_capacity (cs : List Call) : (l.run cs).capacity = l.capacity := by
  induction cs generalizing l with
  | nil => rfl
  | cons c cs ih => rw [run_cons, ih, after_capacity]

@[simp] theorem run_refillMs (cs : List Call) : (l.run cs).refillMs = l.refillMs := by
  induction cs generalizing l with
  | nil => rfl
  | cons c cs ih => rw [run_cons, ih, after_refillMs]

theorem bucket?_available_of_ne {uid u : String} (hne : u ≠ uid) (now : Nat) :
    (l.available uid now).2.bucket? u = l.bucket? u := by
  rcases l.available_snd uid now with h | ⟨b, h⟩
  · rw [h]
  · rw [h, bucket?_setBucket, if_neg hne]

theorem bucket?_forget_of_ne {uid u : String} (hne : u ≠ uid) :
    (l.forget uid).2.bucket? u = l.bucket? u := by
  -- the entries of `u` all pass the filter, so the first of them is found first
  have hpred : (fun e : String × Bucket α => decide ((e.1 != uid) = true ∧ (e.1 == u) = true)) =
      (·.1 == u) := by
    funext e
    by_cases he : e.1 = u
    · subst he; simp [hne]
    · simp [he]
  simp only [forget, bucket?, List.find?_filter, hpred]

theorem bucket?_evictIdle_of_fresh {u : String} {now ttl : Nat}
    (h : ∀ b, l.bucket? u = some b → now - b.lastSeen < ttl) :
    (l.evictIdle now ttl).2.bucket? u = l.bucket? u := by
  simp only [evictIdle, bucket?, List.find?_filter]
  cases hf : l.buckets.find? (·.1 == u) with
  | none =>
    rw [List.find?_eq_none] at hf
    have hnone : l.buckets.find? (fun e : String × Bucket α =>
        decide ((decide (now - e.2.lastSeen < ttl)) = true ∧ (e.1 == u) = true)) = none :=
      List.find?_eq_none.2 fun e he hp => hf e he (by simpa using (of_decide_eq_true hp).2)
    rw [hnone]
  | some e =>
    -- the first entry of `u` is kept, and no entry before it is `u`'s
    obtain ⟨hkey, as, bs, hsplit, hbefore⟩ := List.find?_eq_some_iff_append.1 hf
    have hkept : now - e.2.lastSeen < ttl := h e.2 (by simp [bucket?, hf])
    have hfind : l.buckets.find? (fun e : String × Bucket α =>
        decide ((decide (now - e.2.lastSeen < ttl)) = true ∧ (e.1 == u) = true)) = some e := by
      rw [List.find?_eq_some_iff_append]
      refine ⟨by simp [hkept, hkey], as, bs, hsplit, fun a ha => ?_⟩
      have := hbefore a ha
      simp_all
    rw [hfind]

/-- A call that spares `uid`'s bucket is a write or a look by `uid`, or leaves the bucket as it
is and is no write by `uid`. -/
theorem spared_cases {uid : String} {c : Call} (h : l.Spares uid c) :
    (∃ now, c = .allow uid now) ∨ (∃ now, c = .available uid now) ∨
      ((l.after c).bucket? uid = l.bucket? uid ∧ l.verdict? uid c = none) := by
  cases c with
  | allow u now =>
    by_cases hu : u = uid
    · exact .inl ⟨now, by rw [hu]⟩
    · exact .inr (.inr ⟨l.bucket?_allow_of_ne (Ne.symm hu) now, by simp [verdict?, hu]⟩)
  | available u now =>
    by_cases hu : u = uid
    · exact .inr (.inl ⟨now, by rw [hu]⟩)
    · exact .inr (.inr ⟨l.bucket?_available_of_ne (Ne.symm hu) now, rfl⟩)
  | forget u => exact .inr (.inr ⟨l.bucket?_forget_of_ne (Ne.symm h), rfl⟩)
  | evictIdle now ttl => exact .inr (.inr ⟨l.bucket?_evictIdle_of_fresh h, rfl⟩)

end Frame

/-! ## Exact counts -/

section Exact

variable {l : Limiter ℚ} {uid : String} {now : Nat} {b : Bucket ℚ}

/-- The tokens of a bucket refilled at `now`, counted exactly. -/
def level (l : Limiter ℚ) (b : Bucket ℚ) (now : Nat) : ℚ :=
  min (b.tokens + ((now - b.lastRefill : Nat) : ℚ) / l.refillMs) l.capacity

theorem earned_nonneg (e r : Nat) : 0 ≤ (e : ℚ) / r := by positivity

theorem level_le_capacity : l.level b now ≤ l.capacity := min_le_right _ _

theorem level_le_earned :
    l.level b now ≤ b.tokens + ((now - b.lastRefill : Nat) : ℚ) / l.refillMs := min_le_left _ _

theorem tokens_le_level (hb : b.tokens ≤ l.capacity) : b.tokens ≤ l.level b now :=
  le_min (le_add_of_nonneg_right (earned_nonneg _ _)) hb

theorem level_nonneg (hb : 0 ≤ b.tokens) : 0 ≤ l.level b now :=
  le_min (add_nonneg hb (earned_nonneg _ _)) (Nat.cast_nonneg _)

@[simp] theorem exact_ofNat (n : Nat) : TokenArith.exact.ofNat n = n := rfl

@[simp] theorem exact_add (a b : ℚ) : TokenArith.exact.add a b = a + b := rfl

@[simp] theorem exact_sub (a b : ℚ) : TokenArith.exact.sub a b = a - b := rfl

@[simp] theorem exact_min (a b : ℚ) : TokenArith.exact.min a b = min a b := rfl

@[simp] theorem exact_le (a b : ℚ) : TokenArith.exact.le a b = decide (a ≤ b) := rfl

@[simp] theorem exact_earned (e r : Nat) : TokenArith.exact.earned e r = (e : ℚ) / r := by
  simp only [TokenArith.exact]
  exact div_div_div_cancel_right₀ (by norm_num) _ _

theorem refill_exact (hl : l.arith = .exact) (b : Bucket ℚ) (now : Nat) :
    l.refill b now = { b with tokens := l.level b now, lastRefill := now } := by
  simp only [refill, hl, exact_earned, exact_add, exact_min, exact_ofNat, level]

/-- A write refills the writer's bucket (a full new one if it has none) and takes a token when
the bucket then holds one. -/
theorem allow_exact (hl : l.arith = .exact)
    (hb : (l.bucket? uid).getD ⟨l.capacity, now, now⟩ = b) :
    l.allow uid now = (decide (1 ≤ l.level b now),
      l.setBucket uid ⟨l.level b now - if 1 ≤ l.level b now then 1 else 0, now, now⟩) := by
  unfold allow
  simp only [hl, exact_ofNat, hb, refill_exact hl, exact_le, exact_sub]
  by_cases h1 : 1 ≤ l.level b now
  · simp [h1]
  · simp [h1]

theorem available_exact (hl : l.arith = .exact) (hb : l.bucket? uid = some b) :
    l.available uid now = (some (l.level b now),
      l.setBucket uid ⟨l.level b now, now, b.lastSeen⟩) := by
  simp only [available, hb, refill_exact hl]

theorem available_none (hb : l.bucket? uid = none) : l.available uid now = (none, l) := by
  simp only [available, hb]

/-- A fresh bucket refilled at once is full. -/
theorem level_fresh : l.level ⟨l.capacity, now, now⟩ now = l.capacity := by
  simp [level]

/-! ## Every bucket holds between none and `capacity` tokens -/

/-- Every bucket holds between none and `capacity` tokens. -/
def Within (l : Limiter ℚ) : Prop :=
  ∀ e ∈ l.buckets, 0 ≤ e.2.tokens ∧ e.2.tokens ≤ l.capacity

theorem mem_setBucket {u : String} {b : Bucket α} {l : Limiter α} {e : String × Bucket α}
    (he : e ∈ (l.setBucket u b).buckets) : e ∈ l.buckets ∨ e = (u, b) := by
  unfold setBucket at he
  split at he
  · obtain ⟨x, hx, rfl⟩ := List.mem_map.1 he
    by_cases hxu : x.1 = u
    · exact .inr (by simp [hxu])
    · exact .inl (by simpa [hxu] using hx)
  · rcases List.mem_append.1 he with h | h
    · exact .inl h
    · exact .inr (List.mem_singleton.1 h)

theorem Within.bucket? (h : l.Within) {u : String} (hb : l.bucket? u = some b) :
    0 ≤ b.tokens ∧ b.tokens ≤ l.capacity := by
  obtain ⟨e, he, rfl⟩ := Option.map_eq_some_iff.1 hb
  exact h e (List.mem_of_find?_eq_some he)

/-- The bucket a write by `uid` starts from holds between none and `capacity` tokens. -/
theorem Within.start (h : l.Within) (uid : String) (now : Nat) :
    0 ≤ ((l.bucket? uid).getD ⟨l.capacity, now, now⟩).tokens ∧
      ((l.bucket? uid).getD ⟨l.capacity, now, now⟩).tokens ≤ l.capacity := by
  cases hb : l.bucket? uid with
  | none => exact ⟨Nat.cast_nonneg _, le_refl _⟩
  | some b => exact h.bucket? hb

theorem Within.setBucket (h : l.Within) (u : String) (b : Bucket ℚ)
    (hb : 0 ≤ b.tokens ∧ b.tokens ≤ l.capacity) : (l.setBucket u b).Within := by
  intro e he
  rw [setBucket_capacity]
  rcases mem_setBucket he with he | rfl
  · exact h e he
  · exact hb

theorem Within.after (hl : l.arith = .exact) (h : l.Within) (c : Call) : (l.after c).Within := by
  cases c with
  | allow uid now =>
    obtain ⟨h0, -⟩ := h.start uid now
    have hlv0 : 0 ≤ l.level ((l.bucket? uid).getD ⟨l.capacity, now, now⟩) now := level_nonneg h0
    have hlvc : l.level ((l.bucket? uid).getD ⟨l.capacity, now, now⟩) now ≤ l.capacity :=
      level_le_capacity
    show (l.allow uid now).2.Within
    rw [allow_exact hl rfl]
    exact h.setBucket uid _ ⟨by split <;> linarith, by split <;> linarith⟩
  | available uid now =>
    show (l.available uid now).2.Within
    cases hb : l.bucket? uid with
    | none => rw [available_none hb]; exact h
    | some b =>
      have hlv : 0 ≤ l.level b now ∧ l.level b now ≤ l.capacity :=
        ⟨level_nonneg (h.bucket? hb).1, level_le_capacity⟩
      rw [available_exact hl hb]
      exact h.setBucket uid ⟨l.level b now, now, b.lastSeen⟩ hlv
  | forget uid =>
    show (l.forget uid).2.Within
    intro e he
    simp only [forget, List.mem_filter] at he
    exact h e he.1
  | evictIdle now ttl =>
    show (l.evictIdle now ttl).2.Within
    intro e he
    simp only [evictIdle, List.mem_filter] at he
    exact h e he.1

theorem Within.run (hl : l.arith = .exact) (h : l.Within) (cs : List Call) : (l.run cs).Within := by
  induction cs generalizing l with
  | nil => exact h
  | cons c cs ih => exact ih (by rw [after_arith]; exact hl) (h.after hl c)

theorem within_empty (capacity refillMs : Nat) :
    (empty TokenArith.exact capacity refillMs).Within :=
  fun _ he => nomatch he

/-! ## Writes admitted in a window -/

/-- Tokens earned over two stretches of time in a row add up. -/
theorem earned_split {a b c : Nat} (hab : a ≤ b) (hbc : b ≤ c) (r : Nat) :
    ((c - a : Nat) : ℚ) / r = ((b - a : Nat) : ℚ) / r + ((c - b : Nat) : ℚ) / r := by
  rw [← add_div, Nat.cast_sub hab, Nat.cast_sub hbc, Nat.cast_sub (hab.trans hbc)]
  ring

theorem earned_mono {a b : Nat} (h : a ≤ b) (r : Nat) : (a : ℚ) / r ≤ (b : ℚ) / r :=
  div_le_div_of_nonneg_right (Nat.cast_le.2 h) (Nat.cast_nonneg _)

variable {s t n : Nat}

/-- The window bound at `uid`'s bucket `b`, after `n` writes admitted at instants in `[s, t]`:
none were admitted while the last refill is before `s`; from then on the writes admitted plus
the tokens held (while the last refill lies in the window) are at most `capacity` plus what the
time from `s` to the last refill, counted up to `t`, earns. -/
def WindowAt (l : Limiter ℚ) (s t n : Nat) (b : Bucket ℚ) : Prop :=
  (b.lastRefill < s → n = 0) ∧
  (s ≤ b.lastRefill → (n : ℚ) + (if b.lastRefill ≤ t then b.tokens else 0) ≤
    l.capacity + ((min b.lastRefill t - s : Nat) : ℚ) / l.refillMs)

theorem windowAt_congr {l' : Limiter ℚ} (hc : l'.capacity = l.capacity)
    (hr : l'.refillMs = l.refillMs) : l'.WindowAt s t n b ↔ l.WindowAt s t n b := by
  simp only [WindowAt, hc, hr]

theorem WindowAt.bound (hw : l.WindowAt s t n b) (hb : 0 ≤ b.tokens) (hst : s ≤ t) :
    (n : ℚ) ≤ l.capacity + ((t - s : Nat) : ℚ) / l.refillMs := by
  have hcap : (0 : ℚ) ≤ l.capacity := Nat.cast_nonneg _
  by_cases hL : b.lastRefill < s
  · rw [hw.1 hL, Nat.cast_zero]
    linarith [earned_nonneg (t - s) l.refillMs]
  · have h2 := hw.2 (by omega)
    have hmono := earned_mono (by omega : min b.lastRefill t - s ≤ t - s) l.refillMs
    split at h2 <;> linarith

/-- Refilling `b` at `now` and taking `k` of the tokens it then holds keeps the window bound,
the `k` counted when `now` lies in the window. -/
theorem WindowAt.take (hw : l.WindowAt s t n b) (hb : 0 ≤ b.tokens) (hst : s ≤ t)
    (hclock : b.lastRefill ≤ now) (k seen : Nat) :
    l.WindowAt s t (n + if s ≤ now ∧ now ≤ t then k else 0) ⟨l.level b now - k, now, seen⟩ := by
  obtain ⟨hbefore, hafter⟩ := hw
  have hy : l.level b now ≤ b.tokens + ((now - b.lastRefill : Nat) : ℚ) / l.refillMs :=
    level_le_earned
  have hcap : l.level b now ≤ l.capacity := level_le_capacity
  refine ⟨fun hnow => ?_, fun hsnow => ?_⟩
  · -- a refill before the window: nothing admitted yet
    simp only at hnow
    rw [if_neg (fun h => absurd h.1 (by omega)), hbefore (by omega)]
  · simp only at hsnow ⊢
    by_cases hnt : now ≤ t
    · -- a refill in the window: what was held and earned since `s` bounds the writes
      rw [if_pos ⟨hsnow, hnt⟩, if_pos hnt, min_eq_left hnt]
      push_cast
      by_cases hL : b.lastRefill < s
      · rw [hbefore hL]
        have := earned_nonneg (now - s) l.refillMs
        push_cast
        linarith
      · have h2 := hafter (by omega)
        rw [if_pos (by omega : b.lastRefill ≤ t), min_eq_left (by omega : b.lastRefill ≤ t)] at h2
        rw [earned_split (by omega : s ≤ b.lastRefill) hclock]
        linarith
    · -- a refill after the window: the count is final
      rw [if_neg (fun h => hnt h.2), if_neg hnt, min_eq_right (by omega : t ≤ now)]
      have := WindowAt.bound ⟨hbefore, hafter⟩ hb hst
      simpa using this

/-- The window bound for `uid`'s bucket; none admitted while it has no bucket. -/
def Window (l : Limiter ℚ) (uid : String) (s t n : Nat) : Prop :=
  (l.bucket? uid = none → n = 0) ∧ ∀ b, l.bucket? uid = some b → l.WindowAt s t n b

/-- The bucket a write starts from, its own or a fresh full one, keeps the window bound. -/
theorem Window.start (hw : l.Window uid s t n) (now : Nat) :
    l.WindowAt s t n ((l.bucket? uid).getD ⟨l.capacity, now, now⟩) := by
  cases hb : l.bucket? uid with
  | none =>
    rw [hw.1 hb]
    have hcap : (0 : ℚ) ≤ l.capacity := Nat.cast_nonneg _
    refine ⟨fun _ => rfl, fun _ => ?_⟩
    have := earned_nonneg (min now t - s) l.refillMs
    simp only [Option.getD_none, Nat.cast_zero, zero_add]
    split <;> linarith
  | some b => exact hw.2 b hb

theorem Window.setBucket (hw : l.WindowAt s t n b) (uid : String) :
    (l.setBucket uid b).Window uid s t n := by
  refine ⟨fun h => by simp [bucket?_setBucket] at h, fun b' hb' => ?_⟩
  rw [bucket?_setBucket, if_pos rfl] at hb'
  cases hb'
  exact (windowAt_congr (setBucket_capacity ..) (setBucket_refillMs ..)).2 hw

theorem Window.after_of_frame {c : Call} (hw : l.Window uid s t n)
    (hframe : (l.after c).bucket? uid = l.bucket? uid) : (l.after c).Window uid s t n :=
  ⟨fun h => hw.1 (hframe ▸ h), fun b hb =>
    (windowAt_congr (after_capacity ..) (after_refillMs ..)).2 (hw.2 b (hframe ▸ hb))⟩

theorem window_empty (arith : TokenArith ℚ) (capacity refillMs : Nat) (uid : String) :
    (empty arith capacity refillMs).Window uid s t 0 :=
  ⟨fun _ => rfl, fun _ hb => nomatch hb⟩

/-- The instants of the later calls of a run. -/
theorem instants_tail (c : Call) (cs : List Call) :
    (cs.filterMap Call.instant?).Sublist ((c :: cs).filterMap Call.instant?) :=
  (List.sublist_cons_self c cs).filterMap _

theorem length_filter_window_cons (v : Nat × Bool) (vs : List (Nat × Bool)) :
    ((v :: vs).filter fun v => v.2 && s ≤ v.1 && v.1 ≤ t).length =
      (if v.2 = true ∧ s ≤ v.1 ∧ v.1 ≤ t then 1 else 0) +
        (vs.filter fun v => v.2 && s ≤ v.1 && v.1 ≤ t).length := by
  rw [List.filter_cons]
  by_cases h : v.2 = true ∧ s ≤ v.1 ∧ v.1 ≤ t
  · simp [h]; omega
  · rw [if_neg h]
    have : (v.2 && decide (s ≤ v.1) && decide (v.1 ≤ t)) = false := by
      simp only [Bool.and_eq_false_iff, decide_eq_false_iff_not]
      by_cases h2 : v.2 = true
      · by_cases h3 : s ≤ v.1
        · exact .inr fun h4 => h ⟨h2, h3, h4⟩
        · exact .inl (.inr h3)
      · exact .inl (.inl (by simpa using h2))
    simp [this]

/-- A write by `uid` admits exactly when its refilled bucket holds a token, and the verdict
heads its writes. -/
theorem verdicts_allow_self (hl : l.arith = .exact)
    (hb : (l.bucket? uid).getD ⟨l.capacity, now, now⟩ = b) (cs : List Call) :
    l.verdicts uid (.allow uid now :: cs) =
      (now, decide (1 ≤ l.level b now)) :: (l.after (.allow uid now)).verdicts uid cs := by
  simp only [verdicts_cons, verdict?_allow_self, allow_exact hl hb, Option.toList_some,
    List.singleton_append]

theorem after_allow_exact (hl : l.arith = .exact)
    (hb : (l.bucket? uid).getD ⟨l.capacity, now, now⟩ = b) :
    l.after (.allow uid now) =
      l.setBucket uid ⟨l.level b now - if 1 ≤ l.level b now then 1 else 0, now, now⟩ := by
  simp only [after, allow_exact hl hb]

/-- Over the rest of a run at nondecreasing instants, the window bound caps the writes
admitted in `[s, t]`. -/
theorem window_run (hl : l.arith = .exact) (hW : l.Within) (hst : s ≤ t)
    (hw : l.Window uid s t n) {cs : List Call}
    (hsorted : (cs.filterMap Call.instant?).Pairwise (· ≤ ·))
    (hclock : ∀ b, l.bucket? uid = some b → ∀ i ∈ cs.filterMap Call.instant?, b.lastRefill ≤ i)
    (hspare : SparesAll uid l cs) :
    ((n + ((l.verdicts uid cs).filter fun v => v.2 && s ≤ v.1 && v.1 ≤ t).length : Nat) : ℚ) ≤
      l.capacity + ((t - s : Nat) : ℚ) / l.refillMs := by
  induction cs generalizing l n with
  | nil =>
    simp only [verdicts_nil, List.filter_nil, List.length_nil, Nat.add_zero]
    cases hb : l.bucket? uid with
    | none =>
      rw [hw.1 hb, Nat.cast_zero]
      exact add_nonneg (Nat.cast_nonneg _) (earned_nonneg _ _)
    | some b => exact (hw.2 b hb).bound (hW.bucket? hb).1 hst
  | cons c cs ih =>
    obtain ⟨hc, hspare⟩ := hspare
    have hl' : (l.after c).arith = .exact := by rw [after_arith]; exact hl
    have hW' := hW.after hl c
    have hsorted' := hsorted.sublist (instants_tail c cs)
    have hih := fun n' hw' hclock' => @ih (l.after c) n' hl' hW' hw' hsorted' hclock' hspare
    simp only [after_capacity, after_refillMs] at hih
    rcases l.spared_cases hc with ⟨now, rfl⟩ | ⟨now, rfl⟩ | ⟨hframe, hnone⟩
    · -- a write by `uid`: refill, then take a token if there is one
      simp only [List.filterMap_cons, Call.instant?, List.pairwise_cons] at hsorted hclock
      generalize hb0 : (l.bucket? uid).getD ⟨l.capacity, now, now⟩ = b0
      have hb0tok : 0 ≤ b0.tokens := hb0 ▸ (hW.start uid now).1
      have hb0clock : b0.lastRefill ≤ now := by
        rw [← hb0]
        cases hb : l.bucket? uid with
        | none => exact le_refl _
        | some b => exact hclock b hb now (List.mem_cons_self ..)
      have hk : ((if 1 ≤ l.level b0 now then 1 else 0 : Nat) : ℚ) =
          if 1 ≤ l.level b0 now then 1 else 0 := by
        split <;> simp
      have hnew := (hb0 ▸ hw.start now : l.WindowAt s t n b0).take hb0tok hst hb0clock
        (if 1 ≤ l.level b0 now then 1 else 0) now
      rw [hk] at hnew
      have hrest := hih _ (after_allow_exact hl hb0 ▸ Window.setBucket hnew uid)
        (fun b hb i hi => by
          rw [after_allow_exact hl hb0, bucket?_setBucket, if_pos rfl] at hb
          cases hb
          exact hsorted.1 i hi)
      have hcount : (if decide (1 ≤ l.level b0 now) = true ∧ s ≤ now ∧ now ≤ t then 1 else 0) =
          if s ≤ now ∧ now ≤ t then (if 1 ≤ l.level b0 now then 1 else 0) else 0 := by
        by_cases h1 : 1 ≤ l.level b0 now <;> by_cases h2 : s ≤ now ∧ now ≤ t <;> simp [h1, h2]
      rw [verdicts_allow_self hl hb0, length_filter_window_cons, ← Nat.add_assoc]
      simp only at hcount ⊢
      rw [hcount]
      exact hrest
    · -- a look by `uid`: a refill that takes nothing
      simp only [List.filterMap_cons, Call.instant?, List.pairwise_cons] at hsorted hclock
      rw [verdicts_cons]
      simp only [verdict?, Option.toList_none, List.nil_append]
      cases hb : l.bucket? uid with
      | none =>
        have hsame : l.after (.available uid now) = l := by simp only [after, available_none hb]
        rw [hsame] at hih ⊢
        exact hih n hw (fun b hb' => by rw [hb] at hb'; cases hb')
      | some b =>
        have hsame :
            l.after (.available uid now) = l.setBucket uid ⟨l.level b now, now, b.lastSeen⟩ := by
          simp only [after, available_exact hl hb]
        have hnew :=
          (hw.2 b hb).take (hW.bucket? hb).1 hst (hclock b hb now (List.mem_cons_self ..))
          0 b.lastSeen
        simp only [Nat.cast_zero, sub_zero, ite_self, Nat.add_zero] at hnew
        exact hih n (hsame ▸ Window.setBucket hnew uid) (fun b' hb' i hi => by
          rw [hsame, bucket?_setBucket, if_pos rfl] at hb'
          cases hb'
          exact hsorted.1 i hi)
    · -- any other call leaves `uid`'s bucket and admits none of its writes
      rw [verdicts_cons, hnone, Option.toList_none, List.nil_append]
      exact hih n (hw.after_of_frame hframe) (fun b hb i hi =>
        hclock b (hframe ▸ hb) i ((instants_tail c cs).subset hi))


/-! ## A bucket's first writes -/

/-- The tokens `uid`'s next write finds before refilling: its bucket's, or the `capacity` of a
fresh bucket. -/
def held (l : Limiter ℚ) (uid : String) : ℚ := ((l.bucket? uid).map (·.tokens)).getD l.capacity

theorem held_start (l : Limiter ℚ) (uid : String) (now : Nat) :
    ((l.bucket? uid).getD ⟨l.capacity, now, now⟩).tokens = l.held uid := by
  cases hb : l.bucket? uid <;> simp [held, hb]

@[simp] theorem held_setBucket (l : Limiter ℚ) (uid : String) (b : Bucket ℚ) :
    (l.setBucket uid b).held uid = b.tokens := by
  simp [held, bucket?_setBucket]

/-- A writer holding `k` tokens has its next `k` writes admitted: a refill never lowers a
bucket's tokens, and an admitted write takes one. -/
theorem first_writes_run (hl : l.arith = .exact) (hW : l.Within) {k : Nat}
    (hk : (k : ℚ) ≤ l.held uid) {cs : List Call} (hspare : SparesAll uid l cs) :
    ∀ v ∈ (l.verdicts uid cs).take k, v.2 = true := by
  induction cs generalizing l k with
  | nil => simp
  | cons c cs ih =>
    obtain ⟨hc, hspare⟩ := hspare
    have hl' : (l.after c).arith = .exact := by rw [after_arith]; exact hl
    have hW' := hW.after hl c
    rcases l.spared_cases hc with ⟨now, rfl⟩ | ⟨now, rfl⟩ | ⟨hframe, hnone⟩
    · -- a write by `uid` finds at least the `k` tokens held
      generalize hb0 : (l.bucket? uid).getD ⟨l.capacity, now, now⟩ = b0
      have hheld : b0.tokens = l.held uid := hb0 ▸ held_start l uid now
      have hlv : (k : ℚ) ≤ l.level b0 now :=
        hk.trans (hheld ▸ tokens_le_level (hb0 ▸ (hW.start uid now).2))
      rw [verdicts_allow_self hl hb0]
      cases k with
      | zero => simp
      | succ k =>
        have hk0 : (0 : ℚ) ≤ k := Nat.cast_nonneg k
        have h1 : 1 ≤ l.level b0 now := by push_cast at hlv; linarith
        intro v hv
        rw [List.take_succ_cons, List.mem_cons] at hv
        rcases hv with rfl | hv
        · simpa using h1
        · refine ih hl' hW' ?_ hspare v hv
          rw [after_allow_exact hl hb0, held_setBucket, if_pos h1]
          push_cast at hlv ⊢
          linarith
    · -- a look by `uid` refills, which keeps what it holds
      rw [verdicts_cons]
      simp only [verdict?, Option.toList_none, List.nil_append]
      refine ih hl' hW' ?_ hspare
      cases hb : l.bucket? uid with
      | none => simp only [after, available_none hb]; exact hk
      | some b =>
        have hheld : l.held uid = b.tokens := by simp [held, hb]
        simp only [after, available_exact hl hb, held_setBucket]
        exact (hheld ▸ hk).trans (tokens_le_level (hW.bucket? hb).2)
    · rw [verdicts_cons, hnone, Option.toList_none, List.nil_append]
      refine ih hl' hW' ?_ hspare
      simp only [held, hframe, after_capacity]
      exact hk

/-! ## A write after a refill interval -/

variable {p : Nat}

/-- Since a write by `uid` at `p`, its bucket holds at least one token, or the time from `p`
to its last refill over the refill interval. -/
def GapAt (l : Limiter ℚ) (p : Nat) (b : Bucket ℚ) : Prop :=
  min 1 (((b.lastRefill - p : Nat) : ℚ) / l.refillMs) ≤ b.tokens

theorem gapAt_congr {l' : Limiter ℚ} (hr : l'.refillMs = l.refillMs) :
    l'.GapAt p b ↔ l.GapAt p b := by
  simp only [GapAt, hr]

/-- Refilled at `now`, a bucket holds at least one token or the time since `p` over the refill
interval. -/
theorem GapAt.level (hg : l.GapAt p b) (hcap : 1 ≤ l.capacity) (now : Nat) :
    min 1 (((now - p : Nat) : ℚ) / l.refillMs) ≤ l.level b now := by
  have hone := min_le_left (1 : ℚ) (((now - p : Nat) : ℚ) / l.refillMs)
  apply le_min
  · rcases min_le_iff.1 hg with h1 | h2
    · -- a token held stays held
      have := earned_nonneg (now - b.lastRefill) l.refillMs
      linarith
    · -- what was earned since `p` adds up, also across an earlier refill
      have hsplit : ((now - p : Nat) : ℚ) / l.refillMs ≤
          ((b.lastRefill - p : Nat) : ℚ) / l.refillMs +
            ((now - b.lastRefill : Nat) : ℚ) / l.refillMs := by
        rw [← add_div]
        exact div_le_div_of_nonneg_right
          (by exact_mod_cast (by omega : now - p ≤ (b.lastRefill - p) + (now - b.lastRefill)))
          (Nat.cast_nonneg _)
      linarith [min_le_right (1 : ℚ) (((now - p : Nat) : ℚ) / l.refillMs)]
  · exact hone.trans (by exact_mod_cast hcap)

/-- A look refills, which keeps the gap bound. -/
theorem GapAt.look (hg : l.GapAt p b) (hcap : 1 ≤ l.capacity) (now seen : Nat) :
    l.GapAt p ⟨l.level b now, now, seen⟩ := by
  show min 1 (((now - p : Nat) : ℚ) / l.refillMs) ≤ l.level b now
  exact hg.level hcap now

/-- A write at least one refill interval after `p` finds a token. -/
theorem GapAt.admits (hg : l.GapAt p b) (hcap : 1 ≤ l.capacity) (hr : 0 < l.refillMs)
    {t : Nat} (ht : p + l.refillMs ≤ t) : 1 ≤ l.level b t := by
  have h := hg.level hcap t
  have hone : 1 ≤ ((t - p : Nat) : ℚ) / l.refillMs := by
    rw [le_div_iff₀ (by exact_mod_cast hr), one_mul]
    exact_mod_cast (by omega : l.refillMs ≤ t - p)
  rwa [min_eq_left hone] at h

/-- After a write by `uid` at `p`, its next write, if made a refill interval later, is
admitted. -/
theorem next_write_run (hl : l.arith = .exact) (hW : l.Within) (hcap : 1 ≤ l.capacity)
    (hr : 0 < l.refillMs) (hg : ∀ b, l.bucket? uid = some b → l.GapAt p b) {cs : List Call}
    (hspare : SparesAll uid l cs) :
    ∀ t ok rest, l.verdicts uid cs = (t, ok) :: rest → p + l.refillMs ≤ t → ok = true := by
  induction cs generalizing l with
  | nil => intro t ok rest h; exact absurd h (List.cons_ne_nil _ _).symm
  | cons c cs ih =>
    intro t ok rest hv ht
    obtain ⟨hc, hspare⟩ := hspare
    have hl' : (l.after c).arith = .exact := by rw [after_arith]; exact hl
    have hW' := hW.after hl c
    have hcap' : 1 ≤ (l.after c).capacity := by rw [after_capacity]; exact hcap
    have hr' : 0 < (l.after c).refillMs := by rw [after_refillMs]; exact hr
    have ht' : p + (l.after c).refillMs ≤ t := by rw [after_refillMs]; exact ht
    rcases l.spared_cases hc with ⟨now, rfl⟩ | ⟨now, rfl⟩ | ⟨hframe, hnone⟩
    · -- the next write itself: its bucket is fresh and full, or has kept earning since `p`
      generalize hb0 : (l.bucket? uid).getD ⟨l.capacity, now, now⟩ = b0
      rw [verdicts_allow_self hl hb0, List.cons.injEq, Prod.mk.injEq] at hv
      obtain ⟨⟨rfl, rfl⟩, -⟩ := hv
      cases hb : l.bucket? uid with
      | none =>
        rw [hb, Option.getD_none] at hb0
        subst hb0
        simp only [level_fresh, decide_eq_true_eq]
        exact_mod_cast hcap
      | some b =>
        rw [hb, Option.getD_some] at hb0
        subst hb0
        simpa using (hg b hb).admits hcap hr ht
    · -- a look by `uid` refills, which keeps what it holds and earns on
      rw [verdicts_cons] at hv
      simp only [verdict?, Option.toList_none, List.nil_append] at hv
      refine ih hl' hW' hcap' hr' ?_ hspare t ok rest hv ht'
      cases hb : l.bucket? uid with
      | none => simp only [after, available_none hb]; exact hg
      | some b =>
        intro b' hb'
        simp only [after, available_exact hl hb, bucket?_setBucket, if_pos] at hb'
        cases hb'
        exact (gapAt_congr (after_refillMs l _)).2 ((hg b hb).look hcap now b.lastSeen)
    · rw [verdicts_cons, hnone, Option.toList_none, List.nil_append] at hv
      have hg' : ∀ b, (l.after c).bucket? uid = some b → (l.after c).GapAt p b := by
        intro b hb
        rw [hframe] at hb
        exact (gapAt_congr (after_refillMs l c)).2 (hg b hb)
      exact ih hl' hW' hcap' hr' hg' hspare t ok rest hv ht'

/-- Two writes by `uid` in a row, the second a refill interval after the first: the second is
admitted. -/
theorem interval_run (hl : l.arith = .exact) (hW : l.Within) (hcap : 1 ≤ l.capacity)
    (hr : 0 < l.refillMs) {cs : List Call} (hspare : SparesAll uid l cs) :
    ∀ pre p okp t ok post, l.verdicts uid cs = pre ++ (p, okp) :: (t, ok) :: post →
      p + l.refillMs ≤ t → ok = true := by
  induction cs generalizing l with
  | nil => intro pre p okp t ok post h; exact absurd h (by simp)
  | cons c cs ih =>
    intro pre p okp t ok post hv ht
    obtain ⟨hc, hspare⟩ := hspare
    have hl' : (l.after c).arith = .exact := by rw [after_arith]; exact hl
    have hW' := hW.after hl c
    have hcap' : 1 ≤ (l.after c).capacity := by rw [after_capacity]; exact hcap
    have hr' : 0 < (l.after c).refillMs := by rw [after_refillMs]; exact hr
    have ht' : p + (l.after c).refillMs ≤ t := by rw [after_refillMs]; exact ht
    rcases l.spared_cases hc with ⟨now, rfl⟩ | ⟨now, rfl⟩ | ⟨hframe, hnone⟩
    · generalize hb0 : (l.bucket? uid).getD ⟨l.capacity, now, now⟩ = b0
      rw [verdicts_allow_self hl hb0] at hv
      cases pre with
      | nil =>
        -- this write is the first of the two: it leaves its bucket with no fewer than none
        rw [List.nil_append, List.cons.injEq, Prod.mk.injEq] at hv
        obtain ⟨⟨hp, -⟩, hv⟩ := hv
        subst hp
        refine next_write_run hl' hW' hcap' hr' (fun b hb => ?_) hspare t ok post hv ht'
        rw [after_allow_exact hl hb0, bucket?_setBucket, if_pos rfl] at hb
        cases hb
        have h0 : 0 ≤ l.level b0 now := level_nonneg (hb0 ▸ (hW.start uid now).1)
        show min 1 (((now - now : Nat) : ℚ) / _) ≤ _
        rw [Nat.sub_self, Nat.cast_zero, zero_div, min_eq_right zero_le_one]
        split <;> linarith
      | cons v pre =>
        rw [List.cons_append, List.cons.injEq] at hv
        exact ih hl' hW' hcap' hr' hspare pre p okp t ok post hv.2 ht'
    · rw [verdicts_cons] at hv
      simp only [verdict?, Option.toList_none, List.nil_append] at hv
      exact ih hl' hW' hcap' hr' hspare pre p okp t ok post hv ht'
    · rw [verdicts_cons, hnone, Option.toList_none, List.nil_append] at hv
      exact ih hl' hW' hcap' hr' hspare pre p okp t ok post hv ht'

end Exact

/-- Counted exactly, a writer's bucket in a limiter made with `capacity` and `refillMs` enforces
its rate over any calls that spare it. The bucket always holds between none and
`max capacity 1` tokens. When the calls come at nondecreasing instants, at most
`max capacity 1 + (t - s) / refill` of the writer's writes are admitted at instants in `[s, t]`,
`refill` being `refillMs`, or five seconds for none. The first `max capacity 1` writes are
admitted, and so is every write made a refill interval or more after the writer's previous
write. -/
theorem exact_buckets_keep_rate {capacity refillMs : Nat} {uid : String} {cs : List Call}
    (hsorted : (cs.filterMap Call.instant?).Pairwise (· ≤ ·))
    (hspare : SparesAll uid (empty TokenArith.exact capacity refillMs) cs) :
    (∀ k b, ((empty TokenArith.exact capacity refillMs).run (cs.take k)).bucket? uid = some b →
      0 ≤ b.tokens ∧ b.tokens ≤ ((max capacity 1 : Nat) : ℚ)) ∧
    (∀ s t, s ≤ t →
      ((((empty TokenArith.exact capacity refillMs).verdicts uid cs).filter
          fun v => v.2 && s ≤ v.1 && v.1 ≤ t).length : ℚ) ≤
        ((max capacity 1 : Nat) : ℚ) +
          ((t : ℚ) - s) / ((if refillMs = 0 then 5000 else refillMs : Nat) : ℚ)) ∧
    (∀ v ∈ ((empty TokenArith.exact capacity refillMs).verdicts uid cs).take (max capacity 1),
      v.2 = true) ∧
    (∀ pre p okp t ok post,
      (empty TokenArith.exact capacity refillMs).verdicts uid cs =
        pre ++ (p, okp) :: (t, ok) :: post →
      p + (if refillMs = 0 then 5000 else refillMs) ≤ t → ok = true) := by
  have hl : (empty TokenArith.exact capacity refillMs).arith = .exact := rfl
  have hW := within_empty capacity refillMs
  have hcap : (empty TokenArith.exact capacity refillMs).capacity = max capacity 1 := rfl
  have hr : (empty TokenArith.exact capacity refillMs).refillMs =
      if refillMs = 0 then 5000 else refillMs := by
    simp [empty]
  have hnone : ∀ b, (empty TokenArith.exact capacity refillMs).bucket? uid ≠ some b := by
    intro b hb
    rw [empty_bucket?] at hb
    cases hb
  refine ⟨fun k b hb => ?_, fun s t hst => ?_, ?_, ?_⟩
  · -- the bounds hold of every bucket after any calls
    have := (hW.run hl (cs.take k)).bucket? hb
    rwa [run_capacity, hcap] at this
  · -- the window bound starts with no bucket and nothing admitted
    have h := window_run hl hW hst (window_empty TokenArith.exact capacity refillMs uid) hsorted
      (fun b hb => absurd hb (hnone b)) hspare
    rw [hcap, hr, Nat.zero_add, Nat.cast_sub hst] at h
    exact h
  · -- a fresh bucket holds `capacity` tokens
    refine first_writes_run hl hW ?_ hspare
    simp only [held, empty_bucket?, Option.map_none, Option.getD_none, hcap, le_refl]
  · intro pre p okp t ok post hv ht
    exact interval_run hl hW (hcap ▸ Nat.le_max_right _ _) (empty_refillMs_pos _ _ _) hspare
      pre p okp t ok post hv (hr ▸ ht)

/-- Two tokens refilled every five seconds: three writes at once, a look at four seconds and
a write at five. -/
theorem exact_buckets_keep_rate_burst :
    ([Call.allow "w" 0, .allow "w" 0, .allow "w" 0, .available "w" 4000,
        .allow "w" 5000].filterMap Call.instant?).Pairwise (· ≤ ·) ∧
    SparesAll "w" (empty TokenArith.exact 2 5000)
      [Call.allow "w" 0, .allow "w" 0, .allow "w" 0, .available "w" 4000, .allow "w" 5000] ∧
    (∀ k b, ((empty TokenArith.exact 2 5000).run ([Call.allow "w" 0, .allow "w" 0, .allow "w" 0,
        .available "w" 4000, .allow "w" 5000].take k)).bucket? "w" = some b →
      0 ≤ b.tokens ∧ b.tokens ≤ ((max 2 1 : Nat) : ℚ)) ∧
    (∀ s t, s ≤ t →
      ((((empty TokenArith.exact 2 5000).verdicts "w" [Call.allow "w" 0, .allow "w" 0,
          .allow "w" 0, .available "w" 4000, .allow "w" 5000]).filter
          fun v => v.2 && s ≤ v.1 && v.1 ≤ t).length : ℚ) ≤
        ((max 2 1 : Nat) : ℚ) + ((t : ℚ) - s) / ((if 5000 = 0 then 5000 else 5000 : Nat) : ℚ)) ∧
    (∀ v ∈ ((empty TokenArith.exact 2 5000).verdicts "w" [Call.allow "w" 0, .allow "w" 0,
        .allow "w" 0, .available "w" 4000, .allow "w" 5000]).take (max 2 1), v.2 = true) ∧
    (∀ pre p okp t ok post,
      (empty TokenArith.exact 2 5000).verdicts "w" [Call.allow "w" 0, .allow "w" 0,
          .allow "w" 0, .available "w" 4000, .allow "w" 5000] =
        pre ++ (p, okp) :: (t, ok) :: post →
      p + (if 5000 = 0 then 5000 else 5000) ≤ t → ok = true) :=
  ⟨by decide, ⟨trivial, trivial, trivial, trivial, trivial, trivial⟩,
    exact_buckets_keep_rate (by decide) ⟨trivial, trivial, trivial, trivial, trivial, trivial⟩⟩

end Limiter

end MeterMatch
