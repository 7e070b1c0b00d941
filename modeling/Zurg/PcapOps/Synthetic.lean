import Zurg.PcapOps.Deadline

/-!
# Zurg.PcapOps.Synthetic — how a synthetic capture ends, and what it has counted

The callbacks follow a script: what `should_stop` answers the `k`-th time, and what `on_packet`
returns for the `k`-th packet.  `ending` says in one place how iteration `k` ends the capture, if it
does; the loop ends at the first iteration that has an ending, with a packet for each one before it
(`synthetic_capture`).
-/

namespace Zurg.PcapOps

open Proto Grpc

/-! ## Scripts -/

/-- What scripted callbacks remember. -/
structure Tape where
  /-- The calls of `should_stop`. -/
  asked : ℕ := 0
  delivered : List PcapPacket := []

structure Script where
  stop : ℕ → Bool
  results : ℕ → Status

def Script.callbacks (script : Script) : Callbacks Tape where
  onPacket s pkt :=
    (script.results s.delivered.length, { s with delivered := s.delivered ++ [pkt] })
  shouldStop s := (script.stop s.asked, { s with asked := s.asked + 1 })
  setDatalink s _ := s

/-! ## The end of a capture -/

inductive Ending
  | stopped
  | complete
  | refused (status : Status)

/-- The status of a capture that ends so. -/
def Ending.status : Ending → Status
  | stopped => ⟨.cancelled, "capture cancelled"⟩
  | complete => .success
  | refused status => status

/-- The calls of `on_packet` until it ends so at iteration `k`. -/
def Ending.calls (k : ℕ) : Ending → ℕ
  | stopped => k
  | complete => k
  | refused _ => k + 1

/-- The number of packets after which a capture ends in any case. -/
def effectiveLimit (spec : PcapSpec) : Option ℕ :=
  if spec.packetLimit ≠ 0 then some spec.packetLimit
  else if totalNanos spec = 0 then some 10
  else none

/-- The time from the start to iteration `k`, a difference of two times of the clock. -/
def elapsed (env : CaptureEnv) (k : ℕ) : ℤ := int64 (env.clock (k + 1) - env.clock 0)

/-- Before packet `k` the limit has been reached or the time is up. -/
def Complete (env : CaptureEnv) (spec : PcapSpec) (k : ℕ) : Prop :=
  (∃ limit ∈ effectiveLimit spec, limit ≤ k) ∨
    totalNanos spec ≠ 0 ∧ totalNanos spec ≤ elapsed env k

instance (env : CaptureEnv) (spec : PcapSpec) (k : ℕ) : Decidable (Complete env spec k) :=
  inferInstanceAs (Decidable (_ ∨ _))

/-- How iteration `k` ends the capture. -/
def ending (env : CaptureEnv) (spec : PcapSpec) (script : Script) (k : ℕ) : Option Ending :=
  if script.stop k then some .stopped
  else if Complete env spec k then some .complete
  else if (script.results k).ok then none
  else some (.refused (script.results k))

/-- The first iteration that ends the capture. -/
def FirstEnd (env : CaptureEnv) (spec : PcapSpec) (script : Script) (k : ℕ) (e : Ending) : Prop :=
  ending env spec script k = some e ∧ ∀ j < k, ending env spec script j = none

/-- The first packets of a capture. -/
def packets (env : CaptureEnv) (spec : PcapSpec) (n : ℕ) : List PcapPacket :=
  (List.range n).map (syntheticPacket env spec)

variable {env : CaptureEnv} {spec : PcapSpec} {script : Script} {k n : ℕ} {e : Ending}

@[simp] theorem length_packets : (packets env spec n).length = n := by
  simp [packets]

theorem packets_succ :
    packets env spec (n + 1) = packets env spec n ++ [syntheticPacket env spec n] := by
  simp [packets, List.range_succ]

theorem elapsed_eq (h : InInt64 (env.clock (k + 1) - env.clock 0)) :
    elapsed env k = env.clock (k + 1) - env.clock 0 := h.int64_eq

/-! ## One iteration -/

/-- A turn of the loop ends with OK if the capture is complete, and else makes a packet. -/
theorem syntheticTurn_eq (hd : InInt64 (totalNanos spec)) (k : ℕ) :
    syntheticTurn env spec k k =
      if Complete env spec k then .done .success else .packet (syntheticPacket env spec k) := by
  have hduration := extractDuration_eq hd
  have hlimit : syntheticLimit spec ≠ 0 ∧ syntheticLimit spec ≤ k ↔
      ∃ limit ∈ effectiveLimit spec, limit ≤ k := by
    unfold syntheticLimit effectiveLimit
    rw [hduration]
    by_cases hzero : spec.packetLimit = 0
    · by_cases htotal : totalNanos spec = 0
      · simp [hzero, htotal]
      · simp [hzero, htotal]
    · simp [hzero]
  rw [syntheticTurn, hduration]
  by_cases h₁ : ∃ limit ∈ effectiveLimit spec, limit ≤ k
  · have hcomplete : Complete env spec k := .inl h₁
    rw [if_pos (hlimit.mpr h₁), if_pos hcomplete]
  · rw [if_neg (mt hlimit.mp h₁)]
    by_cases h₂ : totalNanos spec ≠ 0 ∧ totalNanos spec ≤ elapsed env k
    · have hcomplete : Complete env spec k := .inr h₂
      exact (if_pos h₂).trans (if_pos hcomplete).symm
    · have hgoes : ¬ Complete env spec k := not_or.mpr ⟨h₁, h₂⟩
      exact (if_neg h₂).trans (if_neg hgoes).symm

/-- The state before iteration `k`. -/
def tapeAt (env : CaptureEnv) (spec : PcapSpec) (k : ℕ) : Tape :=
  { asked := k, delivered := packets env spec k }

/-- An iteration without an ending delivers its packet. -/
theorem captureLoop_step (hd : InInt64 (totalNanos spec)) (fuel : ℕ)
    (h : ending env spec script k = none) :
    captureLoop script.callbacks (syntheticTurn env spec) (fuel + 1) k k (tapeAt env spec k) =
      captureLoop script.callbacks (syntheticTurn env spec) fuel (k + 1) (k + 1)
        (tapeAt env spec (k + 1)) := by
  unfold ending at h
  split_ifs at h with hstop hcomplete hok
  rw [captureLoop_succ]
  simp only [Script.callbacks, tapeAt, hstop, Bool.false_eq_true, if_false,
    syntheticTurn_eq hd, if_neg hcomplete, length_packets, hok, Bool.not_true, packets_succ]

/-- The other iterations end the capture. -/
theorem captureLoop_end (hd : InInt64 (totalNanos spec)) (fuel : ℕ)
    (h : ending env spec script k = some e) :
    captureLoop script.callbacks (syntheticTurn env spec) (fuel + 1) k k (tapeAt env spec k) =
      some ⟨{ asked := k + 1, delivered := packets env spec (e.calls k) }, e.status, k⟩ := by
  unfold ending at h
  rw [captureLoop_succ]
  split_ifs at h with hstop hcomplete hok
  · obtain rfl := Option.some.inj h
    simp only [Script.callbacks, tapeAt, hstop, if_true]
    rfl
  · obtain rfl := Option.some.inj h
    simp only [Script.callbacks, tapeAt, hstop, Bool.false_eq_true, if_false,
      syntheticTurn_eq hd, if_pos hcomplete]
    rfl
  · obtain rfl := Option.some.inj h
    simp only [Script.callbacks, tapeAt, hstop, Bool.false_eq_true, if_false,
      syntheticTurn_eq hd, if_neg hcomplete, length_packets, hok, Bool.not_false, if_true,
      Ending.calls, packets_succ, Ending.status]

/-! ## The loop -/

theorem captureLoop_run (hd : InInt64 (totalNanos spec)) (fuel : ℕ)
    (h : ∀ j < n, ending env spec script j = none) :
    captureLoop script.callbacks (syntheticTurn env spec) (fuel + n) 0 0 {} =
      captureLoop script.callbacks (syntheticTurn env spec) fuel n n (tapeAt env spec n) := by
  induction n generalizing fuel with
  | zero => rfl
  | succ n ih =>
    rw [← Nat.add_assoc, Nat.add_right_comm, ih (fuel + 1) fun j hj => h j (by omega)]
    exact captureLoop_step hd fuel (h n (by omega))

theorem streamCapture_synthetic (hif : spec.ifName = "") (fuel : ℕ) :
    streamCapture env script.callbacks spec fuel {} =
      (captureLoop script.callbacks (syntheticTurn env spec) fuel 0 0 {}).map fun r =>
        (r.state, r.status, if r.status.ok then { received := r.count } else {}) := by
  rw [streamCapture, if_pos hif, generateSynthetic]
  have hdatalink : script.callbacks.setDatalink {} 1 = {} := rfl
  rw [hdatalink]
  cases captureLoop script.callbacks (syntheticTurn env spec) fuel 0 0 {} <;> rfl

theorem streamCapture_of_firstEnd (hif : spec.ifName = "") (hd : InInt64 (totalNanos spec))
    {fuel : ℕ} (h : FirstEnd env spec script k e) (hfuel : k < fuel) :
    streamCapture env script.callbacks spec fuel {} =
      some ({ asked := k + 1, delivered := packets env spec (e.calls k) }, e.status,
        if e.status.ok then { received := k } else {}) := by
  obtain ⟨fuel, rfl⟩ : ∃ fuel', fuel = fuel' + 1 + k := ⟨fuel - k - 1, by omega⟩
  rw [streamCapture_synthetic hif, captureLoop_run hd (fuel + 1) h.2, captureLoop_end hd fuel h.1]
  rfl

theorem streamCapture_of_going (hif : spec.ifName = "") (hd : InInt64 (totalNanos spec))
    (h : ∀ j < n, ending env spec script j = none) :
    streamCapture env script.callbacks spec n {} = none := by
  have hrun := captureLoop_run hd 0 h
  rw [Nat.zero_add] at hrun
  rw [streamCapture_synthetic hif, hrun]
  rfl

/-! ## The first end -/

theorem exists_firstEnd (h : ending env spec script n ≠ none) :
    ∃ k ≤ n, ∃ e, FirstEnd env spec script k e := by
  induction n using Nat.strong_induction_on with
  | _ n ih =>
    by_cases hearlier : ∃ j < n, ending env spec script j ≠ none
    · obtain ⟨j, hj, hne⟩ := hearlier
      obtain ⟨k, hk, e, hfirst⟩ := ih j hj hne
      exact ⟨k, by omega, e, hfirst⟩
    · obtain ⟨e, he⟩ := Option.ne_none_iff_exists'.mp h
      refine ⟨n, Nat.le_refl n, e, he, fun j hj => ?_⟩
      by_contra hne
      exact hearlier ⟨j, hj, hne⟩

theorem ending_of_complete (h : Complete env spec k) : ending env spec script k ≠ none := by
  unfold ending
  split_ifs <;> simp

theorem ending_limit {limit : ℕ} (h : limit ∈ effectiveLimit spec) :
    ending env spec script limit ≠ none :=
  ending_of_complete (.inl ⟨limit, h, Nat.le_refl limit⟩)

theorem FirstEnd.le_limit {limit : ℕ} (h : FirstEnd env spec script k e)
    (hlimit : limit ∈ effectiveLimit spec) : k ≤ limit := by
  by_contra hlt
  exact ending_limit hlimit (h.2 limit (by omega))

/-- Only a complete capture ends with OK. -/
theorem calls_of_ok (h : ending env spec script k = some e) (hok : e.status.ok = true) :
    e.calls k = k := by
  unfold ending at h
  split_ifs at h with hstop hcomplete hresult
  · obtain rfl := Option.some.inj h
    rfl
  · obtain rfl := Option.some.inj h
    rfl
  · obtain rfl := Option.some.inj h
    exact absurd hok hresult

/-- **Synthetic captures** go on until the first iteration that has an ending, with one packet per
iteration, and have counted what they delivered. -/
theorem synthetic_capture (env : CaptureEnv) (script : Script) (hif : spec.ifName = "")
    (hd : InInt64 (totalNanos spec)) :
    (∀ n, (∀ j < n, ending env spec script j = none) →
      streamCapture env script.callbacks spec n {} = none ∧
      ∀ fuel, captureLoop script.callbacks (syntheticTurn env spec) (fuel + n) 0 0 {} =
        captureLoop script.callbacks (syntheticTurn env spec) fuel n n
          { asked := n, delivered := packets env spec n }) ∧
    (∀ k e, FirstEnd env spec script k e → ∀ fuel, k < fuel →
      streamCapture env script.callbacks spec fuel {} =
        some ({ asked := k + 1, delivered := packets env spec (e.calls k) }, e.status,
          if e.status.ok then { received := k } else {})) ∧
    (∀ fuel s status stats,
      streamCapture env script.callbacks spec fuel {} = some (s, status, stats) →
      (status.ok = true → stats.received = s.delivered.length ∧
        (spec.packetLimit ≠ 0 → stats.received ≤ spec.packetLimit)) ∧
      (status.ok = false → stats = {})) ∧
    (∀ limit ∈ effectiveLimit spec, ∃ k ≤ limit, ∃ e, FirstEnd env spec script k e) ∧
    ∀ k, InInt64 (env.clock (k + 1) - env.clock 0) →
      elapsed env k = env.clock (k + 1) - env.clock 0 := by
  refine ⟨fun n h => ⟨streamCapture_of_going hif hd h, fun fuel => captureLoop_run hd fuel h⟩,
    fun k e h fuel hfuel => streamCapture_of_firstEnd hif hd h hfuel, ?_,
    fun limit hlimit => exists_firstEnd (ending_limit hlimit), fun k h => elapsed_eq h⟩
  intro fuel s status stats hrun
  have hends : ∃ j < fuel, ending env spec script j ≠ none := by
    by_contra hno
    have hgoing : ∀ j < fuel, ending env spec script j = none := by
      intro j hj
      by_contra hne
      exact hno ⟨j, hj, hne⟩
    rw [streamCapture_of_going hif hd hgoing] at hrun
    exact absurd hrun (by simp)
  obtain ⟨j, hj, hne⟩ := hends
  obtain ⟨k, hk, e, hfirst⟩ := exists_firstEnd hne
  rw [streamCapture_of_firstEnd hif hd hfirst (by omega)] at hrun
  obtain ⟨rfl, hrest⟩ := Prod.mk.inj (Option.some.inj hrun)
  obtain ⟨rfl, rfl⟩ := Prod.mk.inj hrest
  constructor
  · intro hok
    rw [if_pos hok, length_packets, calls_of_ok hfirst.1 hok]
    refine ⟨rfl, fun hlimit => hfirst.le_limit ?_⟩
    rw [effectiveLimit, if_pos hlimit]
    exact rfl
  · intro hok
    rw [hok]
    rfl

/-- Three packets, of which the second is refused. -/
theorem synthetic_capture_refused :
    streamCapture secondsEnv
        (Script.callbacks
          ⟨fun _ => false, fun n => if n = 1 then ⟨.internal, "full"⟩ else .success⟩)
        { packetLimit := 3 } 9 {} =
      some ({ asked := 2, delivered := packets secondsEnv { packetLimit := 3 } 2 },
        ⟨.internal, "full"⟩, {}) := by
  let script : Script := ⟨fun _ => false, fun n => if n = 1 then ⟨.internal, "full"⟩ else .success⟩
  have hfirst : FirstEnd secondsEnv { packetLimit := 3 } script 1
      (.refused ⟨.internal, "full"⟩) := by
    refine ⟨rfl, fun j hj => ?_⟩
    obtain rfl : j = 0 := by omega
    rfl
  exact (synthetic_capture secondsEnv script rfl (by decide)).2.1 1 _ hfirst 9 (by decide)

end Zurg.PcapOps
