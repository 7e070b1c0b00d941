import Zurg.PcapOps

/-!
# Zurg.PcapOps.Deadline — the deadline of a capture

`ExtractDuration` puts the duration of the spec into 64 bits of nanoseconds.  The synthetic path
compares it with the time since the start, the live path adds it to the start; both are exact as
long as the sum is a time of the clock (`deadline_exact_iff`), and wrap around after that.
-/

namespace Zurg.PcapOps

open Proto Grpc

/-- The value is one of `std::int64_t`. -/
def InInt64 (x : ℤ) : Prop := -2 ^ 63 ≤ x ∧ x < 2 ^ 63

instance (x : ℤ) : Decidable (InInt64 x) := inferInstanceAs (Decidable (_ ∧ _))

theorem int64_eq_self_iff {x : ℤ} : int64 x = x ↔ InInt64 x := by
  unfold int64 InInt64
  constructor
  · intro h
    have hlow := Int.le_bmod (x := x) (m := 2 ^ 64) (by decide)
    have hhigh := Int.bmod_lt (x := x) (m := 2 ^ 64) (by decide)
    omega
  · rintro ⟨hlow, hhigh⟩
    exact Int.bmod_eq_of_le (by omega) (by omega)

theorem InInt64.int64_eq {x : ℤ} (h : InInt64 x) : int64 x = x := int64_eq_self_iff.mpr h

/-- The duration that the spec asks for, in nanoseconds. -/
def totalNanos (spec : PcapSpec) : ℤ :=
  match spec.duration with
  | none => 0
  | some d => d.seconds * 10 ^ 9 + d.nanos

/-- What protobuf allows for a `Duration`; the two fields have the same sign. -/
structure DurationValid (d : Duration) : Prop where
  seconds_le : -315576000000 ≤ d.seconds ∧ d.seconds ≤ 315576000000
  nanos_le : -999999999 ≤ d.nanos ∧ d.nanos ≤ 999999999
  sign : 0 ≤ d.seconds ∧ 0 ≤ d.nanos ∨ d.seconds ≤ 0 ∧ d.nanos ≤ 0

/-- A steady clock in nanoseconds, in its first 146 years when the capture starts. -/
structure SteadyClock (clock : ℕ → ℤ) : Prop where
  nonneg : ∀ n, 0 ≤ clock n
  lt : ∀ n, clock n < 2 ^ 63
  start_lt : clock 0 < 2 ^ 62

variable {env : CaptureEnv} {spec : PcapSpec} {session : Session} {turn captured : ℕ}

theorem extractDuration_eq_int64 (spec : PcapSpec) :
    extractDuration spec = int64 (totalNanos spec) := by
  unfold extractDuration totalNanos
  cases spec.duration <;> rfl

theorem extractDuration_eq (h : InInt64 (totalNanos spec)) :
    extractDuration spec = totalNanos spec := by
  rw [extractDuration_eq_int64, h.int64_eq]

/-! ## Before and after the deadline -/

/-- Its packet limit lets a capture go on. -/
def BelowLimit (spec : PcapSpec) (captured : ℕ) : Prop :=
  spec.packetLimit = 0 ∨ captured < spec.packetLimit

theorem syntheticTurn_of_early (hne : extractDuration spec ≠ 0) (hlimit : BelowLimit spec captured)
    (hearly : int64 (env.clock (turn + 1) - env.clock 0) < extractDuration spec) :
    syntheticTurn env spec turn captured = .packet (syntheticPacket env spec captured) := by
  have hsame : syntheticLimit spec = spec.packetLimit := if_neg fun h => hne h.2
  have hbelow : ¬ (syntheticLimit spec ≠ 0 ∧ syntheticLimit spec ≤ captured) := by
    rw [hsame]
    unfold BelowLimit at hlimit
    omega
  have hbefore : ¬ (extractDuration spec ≠ 0 ∧
      extractDuration spec ≤ int64 (env.clock (turn + 1) - env.clock 0)) := by
    omega
  rw [syntheticTurn, if_neg hbelow, if_neg hbefore]

theorem liveTurn_of_early (hlimit : BelowLimit spec captured)
    (hearly : env.clock (turn + 1) < int64 (env.clock 0 + extractDuration spec)) :
    liveTurn env session spec turn captured =
      liveTurn env session { spec with duration := none } turn captured := by
  have hbelow : ¬ (spec.packetLimit ≠ 0 ∧ spec.packetLimit ≤ captured) := by
    unfold BelowLimit at hlimit
    omega
  have hbefore : ¬ (extractDuration spec ≠ 0 ∧
      int64 (env.clock 0 + extractDuration spec) ≤ env.clock (turn + 1)) := by
    omega
  have hnone : ¬ (extractDuration { spec with duration := none } ≠ 0 ∧
      int64 (env.clock 0 + extractDuration { spec with duration := none }) ≤
        env.clock (turn + 1)) := fun h => h.1 rfl
  unfold liveTurn
  rw [if_neg hbelow, if_neg hbefore, if_neg hbelow, if_neg hnone]
  rfl

theorem syntheticTurn_of_late (hne : extractDuration spec ≠ 0)
    (hlate : extractDuration spec ≤ int64 (env.clock (turn + 1) - env.clock 0)) :
    syntheticTurn env spec turn captured = .done .success := by
  unfold syntheticTurn
  split_ifs with hlimit hdeadline
  · rfl
  · rfl
  · exact absurd ⟨hne, hlate⟩ hdeadline

theorem liveTurn_of_late (hne : extractDuration spec ≠ 0)
    (hlate : int64 (env.clock 0 + extractDuration spec) ≤ env.clock (turn + 1)) :
    liveTurn env session spec turn captured = .done .success := by
  unfold liveTurn
  split_ifs with hlimit hdeadline
  · rfl
  · rfl
  · exact absurd ⟨hne, hlate⟩ hdeadline

/-! ## The deadline -/

/-- The deadline is the duration after the start, on both paths. -/
structure DeadlineExact (env : CaptureEnv) (spec : PcapSpec) : Prop where
  /-- No step of the arithmetic overflows. -/
  scaled : ∀ d, spec.duration = some d → InInt64 (d.seconds * 10 ^ 9)
  total : InInt64 (totalNanos spec)
  sum : InInt64 (env.clock 0 + totalNanos spec)
  /-- What the two paths compare with. -/
  synthetic : extractDuration spec = totalNanos spec
  live : int64 (env.clock 0 + extractDuration spec) = env.clock 0 + totalNanos spec
  /-- A duration that is not zero ends the capture when the time is up. -/
  late : totalNanos spec ≠ 0 → ∀ turn captured,
    env.clock 0 + totalNanos spec ≤ env.clock (turn + 1) →
    syntheticTurn env spec turn captured = .done .success ∧
      ∀ session, liveTurn env session spec turn captured = .done .success
  /-- A positive one does not end it before. -/
  early : 0 < totalNanos spec → ∀ turn captured,
    env.clock (turn + 1) < env.clock 0 + totalNanos spec → BelowLimit spec captured →
    syntheticTurn env spec turn captured = .packet (syntheticPacket env spec captured) ∧
      ∀ session, liveTurn env session spec turn captured =
        liveTurn env session { spec with duration := none } turn captured

/-- **Durations do not overflow** exactly if the deadline is a time of the clock. -/
theorem deadline_exact_iff (hclock : SteadyClock env.clock)
    (hd : ∀ d, spec.duration = some d → DurationValid d) :
    DeadlineExact env spec ↔
      -2 ^ 63 ≤ totalNanos spec ∧ env.clock 0 + totalNanos spec < 2 ^ 63 := by
  have hstart := hclock.nonneg 0
  constructor
  · intro h
    exact ⟨h.total.1, h.sum.2⟩
  · rintro ⟨hlow, hhigh⟩
    have htotal : InInt64 (totalNanos spec) := ⟨hlow, by omega⟩
    have hsum : InInt64 (env.clock 0 + totalNanos spec) := ⟨by omega, hhigh⟩
    have hduration := extractDuration_eq htotal
    have hpoint : int64 (env.clock 0 + extractDuration spec) =
        env.clock 0 + totalNanos spec := by
      rw [hduration, hsum.int64_eq]
    have hsince : ∀ n, int64 (env.clock n - env.clock 0) = env.clock n - env.clock 0 := by
      intro n
      have hn := hclock.nonneg n
      have hn' := hclock.lt n
      have hstart' := hclock.start_lt
      exact InInt64.int64_eq ⟨by omega, by omega⟩
    refine ⟨fun d hsome => ?_, htotal, hsum, hduration, hpoint, ?_, ?_⟩
    · have hsign := (hd d hsome).sign
      simp only [totalNanos, hsome] at hlow htotal
      unfold InInt64 at *
      omega
    · intro hne turn captured hlate
      rw [← hduration] at hne
      refine ⟨syntheticTurn_of_late hne ?_, fun session => liveTurn_of_late hne ?_⟩
      · rw [hsince, hduration]
        omega
      · rwa [hpoint]
    · intro hpos turn captured hearly hlimit
      refine ⟨syntheticTurn_of_early (by omega) hlimit ?_,
        fun session => liveTurn_of_early hlimit ?_⟩
      · rw [hsince, hduration]
        omega
      · rwa [hpoint]

/-- A clock that shows the second since the start in each turn. -/
def secondsEnv : CaptureEnv where
  clock n := min n 100 * 10 ^ 9
  systemClock _ := 0
  uniform _ high _ := high
  content _ _ := 0
  openLive _ _ _ := .error ""

theorem secondsEnv_steady : SteadyClock secondsEnv.clock := by
  refine ⟨fun n => ?_, fun n => ?_, by decide⟩
  all_goals
    simp only [secondsEnv]
    omega

/-- Ten seconds. -/
theorem deadline_exact_iff_tenSeconds :
    DeadlineExact secondsEnv { duration := some { seconds := 10, nanos := 0 } } := by
  refine (deadline_exact_iff secondsEnv_steady ?_).mpr (by decide)
  intro d hd
  obtain rfl := Option.some.inj hd
  exact ⟨by decide, by decide, by decide⟩

/-- After 293 years of 365 days the deadline is in the past, and the capture ends at once. -/
theorem deadline_overflows : ¬ ∀ (env : CaptureEnv) (spec : PcapSpec), SteadyClock env.clock →
    (∀ d, spec.duration = some d → DurationValid d) → DeadlineExact env spec := by
  intro hall
  let spec : PcapSpec := { duration := some { seconds := 9240048000, nanos := 0 } }
  have hvalid : ∀ d, spec.duration = some d → DurationValid d := by
    intro d hd
    obtain rfl := Option.some.inj hd
    exact ⟨by decide, by decide, by decide⟩
  have hearly := (hall secondsEnv spec secondsEnv_steady hvalid).early (by decide) 0 0
    (by decide) (.inl rfl)
  have hnow : syntheticTurn secondsEnv spec 0 0 = .done .success :=
    syntheticTurn_of_late (by decide) (by decide)
  rw [hnow] at hearly
  exact Turn.noConfusion hearly.1

end Zurg.PcapOps
