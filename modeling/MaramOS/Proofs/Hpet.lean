import MaramOS.Spec.Hpet

/-! The clock is exact as long as the counter times the period fits a `u64`, which at a
nanosecond per tick is five hours. After that it starts again at zero, and a timeout that is
being waited for then is over at once. -/

namespace MaramOS.Hpet

variable {period first last : ℕ} {timeout : Time} {polls : List Poll}

theorem passedNanos_eq_iff {raw : ℕ} : passedNanos period raw = raw * period / 10 ^ 6 ↔ raw * period < 2 ^ 64 := by
  rw [passedNanos, wmul]
  omega

theorem exists_late {start : ℕ} (h : waitTimeoutLoop period start timeout polls = some false) :
    ∃ p ∈ polls, timeout.toNanos < wsub (passedNanos period p.raw) start := by
  induction polls with
  | nil => cases h
  | cons p polls ih =>
    rw [waitTimeoutLoop] at h
    split_ifs at h with hbusy hlate
    · exact ⟨p, List.mem_cons_self, hlate⟩
    · obtain ⟨q, hq, hlate⟩ := ih h
      exact ⟨q, List.mem_cons_of_mem p hq, hlate⟩
    · cases h

/-- What is expected of the clock while the counter runs from `first` to `last`: it is exact, it does not run
backwards, and `wait_timeout` gives up only after more than the timeout. -/
structure Keeps (period first last : ℕ) : Prop where
  first_exact : passedNanos period first = first * period / 10 ^ 6
  last_exact : passedNanos period last = last * period / 10 ^ 6
  monotone : passedNanos period first ≤ passedNanos period last
  timeout : ∀ (timeout : Time) (polls : List Poll), (∀ p ∈ polls, first ≤ p.raw ∧ p.raw ≤ last) →
    waitTimeout period first timeout polls = some false → timeout.toNanos * 10 ^ 6 < (last - first) * period

theorem timeout_of_fits (hfits : last * period < 2 ^ 64) (hpolls : ∀ p ∈ polls, first ≤ p.raw ∧ p.raw ≤ last)
    (h : waitTimeout period first timeout polls = some false) :
    timeout.toNanos * 10 ^ 6 < (last - first) * period := by
  obtain ⟨p, hp, hlate⟩ := exists_late h
  obtain ⟨hfirst, hlast⟩ := hpolls p hp
  have hle : first * period ≤ p.raw * period := Nat.mul_le_mul_right period hfirst
  have hle' : p.raw * period ≤ last * period := Nat.mul_le_mul_right period hlast
  have hnow := passedNanos_eq_iff.2 (lt_of_le_of_lt hle' hfits)
  have hstart := passedNanos_eq_iff.2 (lt_of_le_of_lt (hle.trans hle') hfits)
  have hback : first * period / 10 ^ 6 ≤ p.raw * period / 10 ^ 6 := Nat.div_le_div_right hle
  rw [hnow, hstart, wsub_of_le hback] at hlate
  rw [Nat.sub_mul]
  omega

/-- The clock keeps time up to `last` if and only if the product of counter and period does not overflow by then. -/
theorem keeps_iff (hle : first ≤ last) : Keeps period first last ↔ last * period < 2 ^ 64 := by
  constructor
  · exact fun h => passedNanos_eq_iff.1 h.last_exact
  · intro hfits
    have hfirst := passedNanos_eq_iff.2 (lt_of_le_of_lt (Nat.mul_le_mul_right period hle) hfits)
    have hlast := passedNanos_eq_iff.2 hfits
    refine ⟨hfirst, hlast, ?_, fun timeout polls => timeout_of_fits hfits⟩
    rw [hfirst, hlast]
    exact Nat.div_le_div_right (Nat.mul_le_mul_right period hle)

theorem keeps_one_hour : (0 ≤ 3600000000000 ∧ 3600000000000 * 1000000 < 2 ^ 64) ∧
    Keeps 1000000 0 3600000000000 :=
  ⟨by decide, (keeps_iff (by decide)).2 (by decide)⟩

/-- With one tick per nanosecond, the tick that is the first to overflow sets the clock back to zero, and ends a
timeout of one second that has begun with the tick before. -/
theorem clock_runs_back :
    init ⟨4294967296000000, 0⟩ = .ok (1000000, ⟨4294967296000000, 1⟩) ∧
    18446744073710 * 1000000 / 10 ^ 6 < 2 ^ 64 ∧
    passedNanos 1000000 18446744073709 = 18446744073709 ∧ passedNanos 1000000 18446744073710 = 0 ∧
    waitTimeout 1000000 18446744073709 (.seconds 1) [⟨true, 18446744073710⟩] = some false ∧
    ¬(Time.seconds 1).toNanos * 10 ^ 6 < (18446744073710 - 18446744073709) * 1000000 := by
  decide

end MaramOS.Hpet
