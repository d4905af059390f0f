import MeterMatch.Limiter
import Mathlib.Tactic.Positivity

/-! # A fresh bucket takes a write

A writer without a bucket gets a full one, `capacity` tokens refilled for no time at all. In
binary64 that refill earns `+0 / refill = +0` tokens, so the bucket holds its capacity, at least
one token, and the write is taken (`Limiter.allow_fresh`). A write touches only its writer's
bucket (`Limiter.bucket?_allow_of_ne`), so writers that write once each are all admitted.

The arithmetic is bounded from below only. `Binary64.AtLeast k x` says that `x` is `+∞` or a
finite number of at least `2 ^ k` units of `2 ^ -1074`, with the positive sign. Rounding keeps
such a bound (`Binary64.round_atLeast`), and so do sums with a number of the positive sign and
quotients by a positive finite one; a second of time is at least one unit
(`Binary64.ofMillis_atLeast`), and a whole number of tokens at least one is at least `2 ^ 1074`
units (`Binary64.ofNat_atLeast`).
-/

namespace MeterMatch

namespace Binary64

/-- `x` is `+∞` or a finite number of the positive sign of at least `2 ^ k · 2 ^ -1074`. -/
def AtLeast (k : Nat) (x : Binary64) : Prop :=
  (∃ m, Nat.pow 2 k ≤ m ∧ x = finite false m) ∨ x = inf false

/-- `x` is `+∞` or a finite number of the positive sign. -/
def Nonneg (x : Binary64) : Prop := (∃ m, x = finite false m) ∨ x = inf false

variable {j k : Nat} {x y : Binary64}

theorem AtLeast.nonneg (h : AtLeast k x) : Nonneg x := by
  rcases h with ⟨m, -, rfl⟩ | rfl
  · exact .inl ⟨m, rfl⟩
  · exact .inr rfl

theorem AtLeast.mono (h : AtLeast k x) (hjk : j ≤ k) : AtLeast j x := by
  rcases h with ⟨m, hm, rfl⟩ | rfl
  · exact .inl ⟨m, (Nat.pow_le_pow_right (by decide) hjk).trans hm, rfl⟩
  · exact .inr rfl

theorem nonneg_zero : Nonneg (finite false 0) := .inl ⟨0, rfl⟩

/-! ## Rounding -/

/-- A rounding is an infinity, or a multiple of its unit `2 ^ s` by a significand no smaller
than the quotient truncated to that unit. -/
theorem round_cases (neg : Bool) (n d : Nat) :
    round neg n d = inf neg ∨ ∃ m, n / (d * 2 ^ (Nat.log2 (n / d) - 52)) ≤ m ∧
      round neg n d = finite neg (m * 2 ^ (Nat.log2 (n / d) - 52)) := by
  unfold round
  simp only [Nat.pow_eq]
  -- the significand is the truncated one, one more, or `2 ^ 53` carried to the next binade
  split_ifs <;> first | exact .inl rfl | exact .inr ⟨_, by omega, rfl⟩

theorem round_zero (neg : Bool) (d : Nat) : round neg 0 d = finite neg 0 := by
  unfold round
  simp

/-- A quotient of at least `2 ^ k` units rounds to at least `2 ^ k` units: the truncated
significand times its unit is at least the largest power of two below the quotient. -/
theorem round_atLeast {n d : Nat} (hd : 0 < d) (h : d * Nat.pow 2 k ≤ n) :
    AtLeast k (round false n d) := by
  rcases round_cases false n d with hinf | ⟨m, hm, hfin⟩
  · exact .inr hinf
  refine .inl ⟨_, ?_, hfin⟩
  have hN : 2 ^ k ≤ n / d := (Nat.le_div_iff_mul_le hd).2 (by rwa [Nat.mul_comm, ← Nat.pow_eq])
  have hN0 : n / d ≠ 0 := Nat.ne_of_gt (Nat.lt_of_lt_of_le (by positivity) hN)
  have hlog : k ≤ Nat.log2 (n / d) := (Nat.le_log2 hN0).2 hN
  have hself : 2 ^ Nat.log2 (n / d) ≤ n / d := Nat.log2_self_le hN0
  generalize Nat.log2 (n / d) = L at hlog hself hm ⊢
  -- the unit is `2 ^ (L - 52)`, at most the binade's `2 ^ L`
  have hsplit : 2 ^ (L - (L - 52)) * 2 ^ (L - 52) = 2 ^ L := by
    rw [← Nat.pow_add]
    congr 1
    omega
  have hq : 2 ^ (L - (L - 52)) ≤ n / (d * 2 ^ (L - 52)) := by
    rw [← Nat.div_div_eq_div_mul, Nat.le_div_iff_mul_le (by positivity), hsplit]
    exact hself
  calc Nat.pow 2 k ≤ 2 ^ L := Nat.pow_le_pow_right (by decide) hlog
    _ = 2 ^ (L - (L - 52)) * 2 ^ (L - 52) := hsplit.symm
    _ ≤ m * 2 ^ (L - 52) := Nat.mul_le_mul_right _ (hq.trans hm)

/-! ## Whole numbers and seconds -/

theorem ofNat_zero : ofNat 0 = finite false 0 := by decide +kernel

theorem ofNat_one : ofNat 1 = finite false (Nat.pow 2 1074) := by decide +kernel

theorem ofNat_billion : ofNat 1000000000 = finite false (1000000000 * Nat.pow 2 1074) := by
  decide +kernel

/-- A positive multiple of `2 ^ k` units is at least `2 ^ k` units. -/
theorem round_mul_atLeast (k : Nat) {c : Nat} (h : 1 ≤ c) :
    AtLeast k (round false (c * Nat.pow 2 k) 1) :=
  round_atLeast Nat.one_pos (Nat.mul_le_mul_right (Nat.pow 2 k) h)

/-- A whole number at least one is at least `2 ^ 1074` units, that is at least `1`. -/
theorem ofNat_atLeast {c : Nat} (h : 1 ≤ c) : AtLeast 1074 (ofNat c) := round_mul_atLeast 1074 h

theorem ofNat_nonneg (c : Nat) : Nonneg (ofNat c) := by
  rcases Nat.eq_zero_or_pos c with rfl | h
  · exact ofNat_zero ▸ nonneg_zero
  · exact (ofNat_atLeast h).nonneg

/-- `1 ≤ x` for every `x` of at least `2 ^ 1074` units. -/
theorem one_le (h : AtLeast 1074 x) : (ofNat 1).le x = true := by
  rw [ofNat_one]
  rcases h with ⟨m, hm, rfl⟩ | rfl
  · simp only [le, signed, Bool.false_eq_true, ↓reduceIte, decide_eq_true_eq]
    exact_mod_cast hm
  · rfl

/-! ## Sums and quotients -/

/-- The rounded sum does not depend on the order of its operands. -/
theorem add_comm (x y : Binary64) : x.add y = y.add x := by
  cases x with
  | nan => cases y <;> rfl
  | inf a =>
    cases y with
    | nan => rfl
    | inf b => cases a <;> cases b <;> rfl
    | finite b n => rfl
  | finite a m =>
    cases y with
    | nan => rfl
    | inf b => rfl
    | finite b n =>
      simp only [add]
      cases a <;> cases b
      -- equal signs add the magnitudes
      case false.false | true.true => simp only [beq_self_eq_true, ↓reduceIte, Nat.add_comm m n]
      -- opposite signs take the larger magnitude's sign, or give `+0`
      all_goals rcases Nat.lt_trichotomy m n with h | h | h
      all_goals simp [h, Nat.lt_asymm]

theorem add_atLeast (hx : AtLeast k x) (hy : Nonneg y) : AtLeast k (x.add y) := by
  rcases hx with ⟨m, hm, rfl⟩ | rfl <;> rcases hy with ⟨n, rfl⟩ | rfl
  · have hpos : m + n ≠ 0 := by
      have : 0 < Nat.pow 2 k := Nat.two_pow_pos k
      omega
    simp only [add, beq_self_eq_true, ↓reduceIte, hpos]
    exact round_atLeast Nat.one_pos (by omega)
  all_goals exact .inr rfl

theorem add_atLeast_right (hx : Nonneg x) (hy : AtLeast k y) : AtLeast k (x.add y) := by
  rw [add_comm]
  exact add_atLeast hy hx

/-- A quotient by a positive finite number of `n` units stays at least `2 ^ i` units when
`n · 2 ^ i` units are at most the dividend's bound. -/
theorem div_atLeast {i n : Nat} (hx : AtLeast j x) (hy : y = finite false n) (hn : 0 < n)
    (h : n * Nat.pow 2 i ≤ Nat.pow 2 j * Nat.pow 2 1074) : AtLeast i (x.div y) := by
  subst hy
  rcases hx with ⟨m, hm, rfl⟩ | rfl
  · simp only [div, Nat.ne_of_gt hn, ↓reduceIte, bne_self_eq_false]
    exact round_atLeast hn (h.trans (Nat.mul_le_mul_right _ hm))
  · exact .inr rfl

/-- `+0` over a positive number or `+∞` is `+0`. -/
theorem zero_div (hx : x = finite false 0) (hy : AtLeast 0 y) : x.div y = finite false 0 := by
  subst hx
  rcases hy with ⟨n, hn, rfl⟩ | rfl
  · have hn' : 0 < n := Nat.lt_of_lt_of_le (by decide) hn
    simp only [div, Nat.ne_of_gt hn', ↓reduceIte, bne_self_eq_false, Nat.zero_mul]
    exact round_zero false n
  · rfl

theorem ofMillis_zero : ofMillis 0 = finite false 0 := by decide +kernel

/-- A positive number of milliseconds is a positive number of seconds. -/
theorem ofMillis_atLeast {ms : Nat} (h : 0 < ms) : AtLeast 0 (ofMillis ms) := by
  unfold ofMillis
  have hY : AtLeast 0 (ofNat 1000000000) := (ofNat_atLeast (by decide)).mono (Nat.zero_le _)
  -- the nanoseconds over 10⁹: `+0`, or at least one unit when there are any
  have hfrac : ∀ f, Nonneg ((ofNat f).div (ofNat 1000000000)) ∧
      (0 < f → AtLeast 0 ((ofNat f).div (ofNat 1000000000))) := by
    intro f
    have hpos : 0 < f → AtLeast 0 ((ofNat f).div (ofNat 1000000000)) := fun hf =>
      div_atLeast (ofNat_atLeast hf) ofNat_billion (by decide +kernel) (by decide +kernel)
    rcases Nat.eq_zero_or_pos f with rfl | hf
    · rw [zero_div ofNat_zero hY]
      exact ⟨nonneg_zero, fun h => absurd h (Nat.lt_irrefl 0)⟩
    · exact ⟨(hpos hf).nonneg, hpos⟩
  rcases Nat.eq_zero_or_pos (ms / 1000) with hw | hw
  · -- under a second, the nanoseconds carry it
    have hf : 0 < ms % 1000 * 1000000 := by omega
    exact add_atLeast_right (ofNat_nonneg _) ((hfrac _).2 hf)
  · exact add_atLeast ((ofNat_atLeast hw).mono (Nat.zero_le _)) (hfrac _).1

/-! ## Token counts -/

@[simp] theorem tokens_ofNat (c : Nat) : tokens.ofNat c = ofNat c := by simp only [tokens]

@[simp] theorem tokens_earned (e r : Nat) : tokens.earned e r = (ofMillis e).div (ofMillis r) := by
  simp only [tokens]

@[simp] theorem tokens_add (a b : Binary64) : tokens.add a b = a.add b := by simp only [tokens]

@[simp] theorem tokens_min (a b : Binary64) : tokens.min a b = if a.lt b then a else b := by
  simp only [tokens]

@[simp] theorem tokens_le (a b : Binary64) : tokens.le a b = a.le b := by simp only [tokens]

/-- No time earns no tokens. -/
theorem earned_zero {refill : Nat} (h : 0 < refill) : tokens.earned 0 refill = finite false 0 := by
  rw [tokens_earned]
  exact zero_div ofMillis_zero (ofMillis_atLeast h)

theorem min_atLeast {a b : Binary64} (ha : AtLeast k a) (hb : AtLeast k b) :
    AtLeast k (tokens.min a b) := by
  rw [tokens_min]
  split
  · exact ha
  · exact hb

end Binary64

namespace Limiter

variable {α : Type} (l : Limiter α)

/-- Setting a writer's bucket changes only that writer's bucket. -/
theorem bucket?_setBucket (uid : String) (b : Bucket α) (u : String) :
    (l.setBucket uid b).bucket? u = if u = uid then some b else l.bucket? u := by
  -- an entry's writer is kept by the replacement, so the same entry is found first
  have hpred : ((·.1 == u) ∘ fun e : String × Bucket α => if e.1 == uid then (uid, b) else e) =
      (·.1 == u) := by
    funext e
    by_cases he : e.1 = uid <;> simp [he]
  unfold setBucket bucket?
  split
  · rename_i hany
    rw [List.find?_map, hpred]
    split
    · rename_i hu
      subst hu
      obtain ⟨e, he⟩ := Option.isSome_iff_exists.1 (List.find?_isSome.2 (List.any_eq_true.1 hany))
      have hkey : e.1 = u := by simpa using List.find?_some he
      simp [he, hkey]
    · rename_i hu
      cases hf : l.buckets.find? (·.1 == u) with
      | none => rfl
      | some e =>
        have hkey : e.1 = u := by simpa using List.find?_some hf
        simp [hkey, hu]
  · rename_i hany
    rw [List.find?_append]
    split
    · rename_i hu
      subst hu
      have hnone : l.buckets.find? (·.1 == u) = none :=
        List.find?_eq_none.2 fun e he hk => hany (List.any_eq_true.2 ⟨e, he, hk⟩)
      simp [hnone]
    · rename_i hu
      simp [Ne.symm hu]

@[simp] theorem setBucket_arith (uid : String) (b : Bucket α) :
    (l.setBucket uid b).arith = l.arith := by
  unfold setBucket
  split <;> rfl

@[simp] theorem setBucket_capacity (uid : String) (b : Bucket α) :
    (l.setBucket uid b).capacity = l.capacity := by
  unfold setBucket
  split <;> rfl

@[simp] theorem setBucket_refillMs (uid : String) (b : Bucket α) :
    (l.setBucket uid b).refillMs = l.refillMs := by
  unfold setBucket
  split <;> rfl

/-- A write sets its writer's bucket and nothing else. -/
theorem allow_snd (uid : String) (now : Nat) : ∃ b, (l.allow uid now).2 = l.setBucket uid b := by
  unfold allow
  dsimp only
  split <;> exact ⟨_, rfl⟩

theorem bucket?_allow_of_ne {uid u : String} (hne : u ≠ uid) (now : Nat) :
    (l.allow uid now).2.bucket? u = l.bucket? u := by
  obtain ⟨b, hb⟩ := l.allow_snd uid now
  rw [hb, bucket?_setBucket, if_neg hne]

/-- A limiter counting in binary64, with at least one token per bucket and a refill interval,
takes the first write of a writer without a bucket. -/
theorem allow_fresh (l : Limiter Binary64) (harith : l.arith = Binary64.tokens)
    (hcap : 0 < l.capacity) (hrefill : 0 < l.refillMs) {uid : String} (hnew : l.bucket? uid = none)
    (now : Nat) : (l.allow uid now).1 = true := by
  -- the new bucket is full, and refilling it for no time earns `+0`
  have hsum : Binary64.AtLeast 1074
      (Binary64.tokens.add (Binary64.tokens.ofNat l.capacity) (Binary64.tokens.earned 0 l.refillMs)) := by
    rw [Binary64.earned_zero hrefill, Binary64.tokens_add, Binary64.tokens_ofNat]
    exact Binary64.add_atLeast (Binary64.ofNat_atLeast hcap) Binary64.nonneg_zero
  have hcapacity : Binary64.AtLeast 1074 (Binary64.tokens.ofNat l.capacity) := by
    rw [Binary64.tokens_ofNat]
    exact Binary64.ofNat_atLeast hcap
  have hfull := Binary64.min_atLeast hsum hcapacity
  unfold allow refill
  simp only [hnew, Option.getD_none, Nat.sub_self, harith]
  rw [if_pos (by rw [Binary64.tokens_le, Binary64.tokens_ofNat]; exact Binary64.one_le hfull)]

theorem empty_bucket? (arith : TokenArith α) (capacity refillMs : Nat) (u : String) :
    (empty arith capacity refillMs).bucket? u = none := rfl

theorem empty_capacity_pos (arith : TokenArith α) (capacity refillMs : Nat) :
    0 < (empty arith capacity refillMs).capacity :=
  Nat.lt_of_lt_of_le Nat.one_pos (Nat.le_max_right _ _)

theorem empty_refillMs_pos (arith : TokenArith α) (capacity refillMs : Nat) :
    0 < (empty arith capacity refillMs).refillMs := by
  unfold empty
  dsimp only
  split
  · decide
  · rename_i h
    exact Nat.pos_of_ne_zero (by simpa using h)

end Limiter

end MeterMatch
