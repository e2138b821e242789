import ImageUpload.Session.Schedule

/-
When a request is settled.

What the attempts come to decides after which of them there is no other one, `Settles`.  A
wait comes with a jitter, and by `Waits` a duration can hold each wait there may be.
-/

namespace ImageUpload

/-! ## Waits -/

/-- The jitter of a wait. -/
def Jittered (jitter : Float) : Prop :=
  0.75 ≤ jitter ∧ jitter < 1.25

instance (jitter : Float) : Decidable (Jittered jitter) :=
  inferInstanceAs (Decidable (_ ∧ _))

theorem jittered_plain : Jittered Session.plainJitter := by
  decide +kernel

theorem Jittered.mul_zero {jitter : Float} (h : Jittered jitter) :
    jitter * 0 = 0 ∨ jitter * 0 = -0 := by
  obtain ⟨hle, hlt⟩ := h
  have hle : Float.le 0.75 jitter = true := hle
  have hlt : Float.lt jitter 1.25 = true := hlt
  unfold Float.le at hle
  unfold Float.lt at hlt
  rw [decide_eq_true_eq] at hle hlt
  change (Float.toModel 0.75).unpack.le jitter.toModel.unpack = true at hle
  change jitter.toModel.unpack.lt (Float.toModel 1.25).unpack = true at hlt
  have hmul : jitter * 0 = .ofModel (.pack
      (.mul .binary64 jitter.toModel.unpack (Float.toModel 0).unpack)) := rfl
  have hzero : (Float.toModel 0).unpack = .zero .positive := by with_unfolding_all rfl
  obtain ⟨m, e, hm, hhigh⟩ : ∃ m e hm, (Float.toModel 1.25).unpack = .finite .positive m e hm :=
    ⟨5629499534213120, -52, by decide, by with_unfolding_all rfl⟩
  have hpos : (0 : Float) = .ofModel (.pack (.zero .positive)) := by with_unfolding_all rfl
  have hneg : (-0 : Float) = .ofModel (.pack (.zero .negative)) := by with_unfolding_all rfl
  rw [hmul, hzero, hneg, hpos]
  rw [hhigh] at hlt
  cases hj : jitter.toModel.unpack with
  | notANumber =>
    rw [hj] at hlt
    exact nomatch hlt
  | infinity sign =>
    rw [hj] at hle hlt
    cases sign with
    | positive => exact nomatch hlt
    | negative => exact absurd hle (by decide +kernel)
  | zero sign =>
    cases sign with
    | positive => exact .inl rfl
    | negative => exact .inr rfl
  | finite sign m e hm =>
    cases sign with
    | positive => exact .inl rfl
    | negative => exact .inr rfl

namespace RetryPolicy

/-- Each wait before another attempt is one that a duration can hold. -/
def Waits (p : RetryPolicy) : Prop :=
  ∀ attempt jitter, 0 < attempt → p.allowsRetry attempt = true → Jittered jitter →
    p.delay? attempt jitter ≠ none

theorem baseDelay_of_maxDelay {p : RetryPolicy} (h : p.maxDelay = .zero) (attempt : Nat) :
    p.baseDelay attempt = .zero := by
  have hzero : p.maxDelay.toSeconds = 0 := by
    rw [h]
    with_unfolding_all rfl
  unfold baseDelay
  simp only
  rw [hzero]
  generalize p.initialDelay.toSeconds * power p.backoffFactor (min (attempt - 1) 63) = scaled
  have hgreater : greater (lesser scaled 0) 0 = 0 := by
    unfold lesser
    have hself : greater 0 0 = 0 := by with_unfolding_all rfl
    split
    next _ => exact hself
    next hscaled =>
      rw [if_neg (by decide +kernel)]
      split
      next hlt =>
        unfold greater
        rw [if_neg hscaled, if_neg (by decide +kernel), if_pos hlt]
      next _ => exact hself
  rw [hgreater]
  have hofSeconds : Duration.ofSeconds? 0 = some .zero := by decide +kernel
  rw [hofSeconds]
  rfl

/-- Without waits there is none that a duration cannot hold. -/
theorem waits_of_maxDelay {p : RetryPolicy} (h : p.maxDelay = .zero) : p.Waits := by
  intro attempt jitter _ _ hjitter
  have hseconds : Duration.zero.toSeconds = 0 := by with_unfolding_all rfl
  unfold delay?
  rw [baseDelay_of_maxDelay h, hseconds]
  rcases hjitter.mul_zero with hzero | hzero
  · rw [hzero]
    decide +kernel
  · rw [hzero]
    decide +kernel

/-! ## Attempts -/

/-- After an attempt that came to this there is no other one. -/
def isFinal (p : RetryPolicy) (attempt : Nat) : Except WriteFault Unit → Bool
  | .ok _ => true
  | .error (.panicked _) => true
  | .error (.failed e) => !e.isRetryable || !p.allowsRetry attempt

/-- The first attempt that is final. -/
structure Settles (p : RetryPolicy) (script : Nat → Except WriteFault Unit) (k : Nat) : Prop where
  pos : 0 < k
  final : p.isFinal k (script k) = true
  first : ∀ j, 0 < j → j < k → p.isFinal j (script j) = false

theorem Settles.unique {p : RetryPolicy} {script : Nat → Except WriteFault Unit} {j k : Nat}
    (hj : p.Settles script j) (hk : p.Settles script k) : j = k := by
  rcases Nat.lt_trichotomy j k with hlt | heq | hlt
  · exact nomatch hj.final.symm.trans (hk.first j hj.pos hlt)
  · exact heq
  · exact nomatch hk.final.symm.trans (hj.first k hk.pos hlt)

theorem Settles.le_attemptLimit {p : RetryPolicy} {script : Nat → Except WriteFault Unit}
    {k n : Nat} (h : p.Settles script k) (hn : p.maxAttempts = some n) :
    k ≤ Session.attemptLimit p := by
  unfold Session.attemptLimit
  rw [hn]
  refine Nat.not_lt.mp fun hlt => ?_
  have hnot := h.first (max 1 n) (by omega) hlt
  have hallows : p.allowsRetry (max 1 n) = false := by
    unfold allowsRetry
    rw [hn]
    exact decide_eq_false (by omega)
  unfold isFinal at hnot
  split at hnot
  next _ => exact nomatch hnot
  next _ => exact nomatch hnot
  next e _ =>
    rw [hallows, Bool.not_false, Bool.or_true] at hnot
    exact nomatch hnot

end RetryPolicy
end ImageUpload
