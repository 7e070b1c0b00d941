import Mathlib.Data.Nat.Find
import Zurg.PcapOps.Synthetic

/-!
# Zurg.PcapOps.Live — captures from an interface

libpcap answers each call of `pcap_next_ex` with a packet, a timeout, the end or an error.
`liveEnding` says how iteration `k` ends the capture, if it does.  The packets delivered are the ones
libpcap has given up to the first ending, each trimmed, in order, whatever timeouts came in between
(`live_capture`).
-/

namespace Zurg.PcapOps

open Proto Grpc

/-- The packet made of an answer of `pcap_next_ex`. -/
def NextResult.packet? (spec : PcapSpec) : NextResult → Option PcapPacket
  | .packet tvSec tvUsec len data => some (livePacket spec tvSec tvUsec len data)
  | _ => none

/-- The packets of the first `n` answers. -/
def capturedBy (session : Session) (spec : PcapSpec) (n : ℕ) : List PcapPacket :=
  (List.range n).filterMap fun i => (session.next i).packet? spec

inductive LiveEnding
  | stopped
  | complete
  | failed (message : String)
  | refused (status : Status)
  deriving DecidableEq

/-- The status of a capture that ends so. -/
def LiveEnding.status : LiveEnding → Status
  | stopped => ⟨.cancelled, "capture cancelled"⟩
  | complete => .success
  | failed message => ⟨.unknown, if message = "" then "pcap_next_ex failed" else message⟩
  | refused status => status

/-- The answers whose packets are delivered until it ends so at iteration `k`. -/
def LiveEnding.answers (k : ℕ) : LiveEnding → ℕ
  | refused _ => k + 1
  | _ => k

/-- The limit has been reached or the time is up. -/
def LiveComplete (env : CaptureEnv) (spec : PcapSpec) (k captured : ℕ) : Prop :=
  spec.packetLimit ≠ 0 ∧ spec.packetLimit ≤ captured ∨
    totalNanos spec ≠ 0 ∧ env.clock 0 + totalNanos spec ≤ env.clock (k + 1)

instance (env : CaptureEnv) (spec : PcapSpec) (k captured : ℕ) :
    Decidable (LiveComplete env spec k captured) := inferInstanceAs (Decidable (_ ∨ _))

/-- How iteration `k` ends the capture. -/
def liveEnding (env : CaptureEnv) (session : Session) (spec : PcapSpec) (script : Script) (k : ℕ) :
    Option LiveEnding :=
  let captured := (capturedBy session spec k).length
  if script.stop k then some .stopped
  else if LiveComplete env spec k captured then some .complete
  else
    match session.next k with
    | .timeout => none
    | .eof => some .complete
    | .error message => some (.failed message)
    | .packet .. =>
      if (script.results captured).ok then none else some (.refused (script.results captured))

/-- The first iteration that ends the capture. -/
def LiveEnd (env : CaptureEnv) (session : Session) (spec : PcapSpec) (script : Script) (k : ℕ)
    (e : LiveEnding) : Prop :=
  liveEnding env session spec script k = some e ∧
    ∀ j < k, liveEnding env session spec script j = none

variable {env : CaptureEnv} {session : Session} {spec : PcapSpec} {script : Script} {k n : ℕ}
  {e : LiveEnding}

theorem capturedBy_succ : capturedBy session spec (n + 1) =
    capturedBy session spec n ++ ((session.next n).packet? spec).toList := by
  rw [capturedBy, List.range_succ, List.filterMap_append]
  cases h : (session.next n).packet? spec with
  | none => simp [h, capturedBy]
  | some pkt => simp [h, capturedBy]

/-- The deadline of the loop is the duration after the start. -/
structure DeadlineFits (env : CaptureEnv) (spec : PcapSpec) : Prop where
  total : InInt64 (totalNanos spec)
  sum : InInt64 (env.clock 0 + totalNanos spec)

/-- A turn of the loop. -/
theorem liveTurn_eq (hd : DeadlineFits env spec) (captured : ℕ) :
    liveTurn env session spec k captured =
      if LiveComplete env spec k captured then .done .success
      else
        match session.next k with
        | .timeout => .again
        | .eof => .done .success
        | .error message => .done (LiveEnding.failed message).status
        | .packet tvSec tvUsec len data => .packet (livePacket spec tvSec tvUsec len data) := by
  have hdeadline : int64 (env.clock 0 + extractDuration spec) = env.clock 0 + totalNanos spec := by
    rw [extractDuration_eq hd.total, hd.sum.int64_eq]
  rw [liveTurn, hdeadline, extractDuration_eq hd.total]
  by_cases h₁ : spec.packetLimit ≠ 0 ∧ spec.packetLimit ≤ captured
  · have hcomplete : LiveComplete env spec k captured := .inl h₁
    rw [if_pos h₁, if_pos hcomplete]
  · rw [if_neg h₁]
    by_cases h₂ : totalNanos spec ≠ 0 ∧ env.clock 0 + totalNanos spec ≤ env.clock (k + 1)
    · have hcomplete : LiveComplete env spec k captured := .inr h₂
      rw [if_pos h₂, if_pos hcomplete]
    · have hgoes : ¬ LiveComplete env spec k captured := not_or.mpr ⟨h₁, h₂⟩
      rw [if_neg h₂, if_neg hgoes]
      rfl

/-- What the callbacks remember before iteration `k`. -/
def liveTape (session : Session) (spec : PcapSpec) (k : ℕ) : Tape :=
  { asked := k, delivered := capturedBy session spec k }

/-- The loop from iteration `k` on. -/
def liveFrom (env : CaptureEnv) (session : Session) (spec : PcapSpec) (script : Script)
    (fuel k : ℕ) : Option (Captured Tape) :=
  captureLoop script.callbacks (liveTurn env session spec) fuel k
    (capturedBy session spec k).length (liveTape session spec k)

theorem liveFrom_succ (hd : DeadlineFits env spec) (fuel : ℕ) :
    liveFrom env session spec script (fuel + 1) k =
      if script.stop k then
        some ⟨{ liveTape session spec k with asked := k + 1 }, LiveEnding.stopped.status,
          (capturedBy session spec k).length⟩
      else if LiveComplete env spec k (capturedBy session spec k).length then
        some ⟨{ liveTape session spec k with asked := k + 1 }, .success,
          (capturedBy session spec k).length⟩
      else
        match session.next k with
        | .timeout => liveFrom env session spec script fuel (k + 1)
        | .eof =>
          some ⟨{ liveTape session spec k with asked := k + 1 }, .success,
            (capturedBy session spec k).length⟩
        | .error message =>
          some ⟨{ liveTape session spec k with asked := k + 1 }, (LiveEnding.failed message).status,
            (capturedBy session spec k).length⟩
        | .packet .. =>
          if (script.results (capturedBy session spec k).length).ok then
            liveFrom env session spec script fuel (k + 1)
          else
            some ⟨liveTape session spec (k + 1), script.results (capturedBy session spec k).length,
              (capturedBy session spec k).length⟩ := by
  rw [liveFrom, captureLoop_succ, liveTurn_eq hd]
  by_cases hstop : script.stop k = true
  · rw [if_pos hstop]
    simp only [Script.callbacks, liveTape, hstop, if_true]
    rfl
  rw [if_neg hstop]
  have hgo : (script.callbacks.shouldStop (liveTape session spec k)).1 ≠ true := hstop
  rw [if_neg hgo]
  by_cases hcomplete : LiveComplete env spec k (capturedBy session spec k).length
  · rw [if_pos hcomplete, if_pos hcomplete]
    rfl
  rw [if_neg hcomplete, if_neg hcomplete]
  cases hnext : session.next k with
  | timeout =>
    simp [Script.callbacks, liveTape, liveFrom, capturedBy_succ, hnext, NextResult.packet?]
  | eof | error message => rfl
  | packet tvSec tvUsec len data =>
    by_cases hok : (script.results (capturedBy session spec k).length).ok = true
    · simp [Script.callbacks, liveTape, liveFrom, capturedBy_succ, hnext, NextResult.packet?, hok]
    · simp [Script.callbacks, liveTape, capturedBy_succ, hnext, NextResult.packet?, hok]

/-- An iteration without an ending delivers the packet that libpcap gave, if it gave one. -/
theorem liveFrom_step (hd : DeadlineFits env spec) (fuel : ℕ)
    (h : liveEnding env session spec script k = none) :
    liveFrom env session spec script (fuel + 1) k =
      liveFrom env session spec script fuel (k + 1) := by
  dsimp only [liveEnding] at h
  rw [liveFrom_succ hd]
  by_cases hstop : script.stop k = true
  · rw [if_pos hstop] at h
    exact absurd h (by simp)
  rw [if_neg hstop] at h ⊢
  by_cases hcomplete : LiveComplete env spec k (capturedBy session spec k).length
  · rw [if_pos hcomplete] at h
    exact absurd h (by simp)
  rw [if_neg hcomplete] at h ⊢
  cases hnext : session.next k with
  | timeout => rfl
  | eof | error message => simp [hnext] at h
  | packet tvSec tvUsec len data =>
    rw [hnext] at h
    by_cases hok : (script.results (capturedBy session spec k).length).ok = true
    · exact if_pos hok
    · dsimp only at h
      rw [if_neg hok] at h
      exact absurd h (by simp)

/-- The other iterations end the capture. -/
theorem liveFrom_end (hd : DeadlineFits env spec) (fuel : ℕ)
    (h : liveEnding env session spec script k = some e) :
    liveFrom env session spec script (fuel + 1) k =
      some ⟨{ asked := k + 1, delivered := capturedBy session spec (e.answers k) }, e.status,
        (capturedBy session spec k).length⟩ := by
  dsimp only [liveEnding] at h
  rw [liveFrom_succ hd]
  by_cases hstop : script.stop k = true
  · rw [if_pos hstop] at h ⊢
    obtain rfl := Option.some.inj h
    rfl
  rw [if_neg hstop] at h ⊢
  by_cases hcomplete : LiveComplete env spec k (capturedBy session spec k).length
  · rw [if_pos hcomplete] at h ⊢
    obtain rfl := Option.some.inj h
    rfl
  rw [if_neg hcomplete] at h ⊢
  cases hnext : session.next k with
  | timeout => simp [hnext] at h
  | eof | error message =>
    rw [hnext] at h
    obtain rfl := Option.some.inj h
    rfl
  | packet tvSec tvUsec len data =>
    rw [hnext] at h
    by_cases hok : (script.results (capturedBy session spec k).length).ok = true
    · dsimp only at h
      rw [if_pos hok] at h
      exact absurd h (by simp)
    · dsimp only at h ⊢
      rw [if_neg hok] at h ⊢
      obtain rfl := Option.some.inj h
      rfl

theorem liveFrom_run (hd : DeadlineFits env spec) (fuel : ℕ)
    (h : ∀ j < n, liveEnding env session spec script j = none) :
    liveFrom env session spec script (fuel + n) 0 = liveFrom env session spec script fuel n := by
  induction n generalizing fuel with
  | zero => rfl
  | succ n ih =>
    rw [← Nat.add_assoc, Nat.add_right_comm, ih (fuel + 1) fun j hj => h j (by omega)]
    exact liveFrom_step hd fuel (h n (by omega))

/-- libpcap has opened the interface and taken the filter. -/
structure Opened (env : CaptureEnv) (spec : PcapSpec) (session : Session) : Prop where
  ifName : spec.ifName ≠ ""
  openLive : env.openLive spec.ifName (if spec.snaplen > 0 then int32 spec.snaplen else 65535)
    spec.promisc = .ok session
  filter : applyFilter session spec.filter = none

theorem Opened.captureSource_eq (ho : Opened env spec session) :
    captureSource env spec = .ok ⟨session.datalink, liveTurn env session spec,
      fun count => session.stats.getD { received := count }⟩ := by
  rw [captureSource, if_neg ho.ifName]
  simp only [ho.openLive, ho.filter]

/-- The stats of a live capture. -/
def liveStats (session : Session) (status : Status) (count : ℕ) : PcapStats :=
  if status.ok then session.stats.getD { received := count } else {}

theorem streamCapture_live (ho : Opened env spec session) (fuel : ℕ) :
    streamCapture env script.callbacks spec fuel {} =
      (liveFrom env session spec script fuel 0).map fun r =>
        (r.state, r.status, liveStats session r.status r.count) := by
  rw [streamCapture_eq, ho.captureSource_eq]
  rfl

theorem streamCapture_of_liveEnd (ho : Opened env spec session) (hd : DeadlineFits env spec)
    {fuel : ℕ} (h : LiveEnd env session spec script k e) (hfuel : k < fuel) :
    streamCapture env script.callbacks spec fuel {} =
      some ({ asked := k + 1, delivered := capturedBy session spec (e.answers k) }, e.status,
        liveStats session e.status (capturedBy session spec k).length) := by
  obtain ⟨fuel, rfl⟩ : ∃ fuel', fuel = fuel' + 1 + k := ⟨fuel - k - 1, by omega⟩
  rw [streamCapture_live ho, liveFrom_run hd (fuel + 1) h.2, liveFrom_end hd fuel h.1]
  rfl

theorem streamCapture_of_waiting (ho : Opened env spec session) (hd : DeadlineFits env spec)
    (h : ∀ j < n, liveEnding env session spec script j = none) :
    streamCapture env script.callbacks spec n {} = none := by
  have hrun := liveFrom_run hd 0 h
  rw [Nat.zero_add] at hrun
  rw [streamCapture_live ho, hrun]
  rfl

/-! ## The first ending -/

theorem exists_liveEnd (h : liveEnding env session spec script n ≠ none) :
    ∃ k ≤ n, ∃ e, LiveEnd env session spec script k e := by
  have hends : ∃ k, liveEnding env session spec script k ≠ none := ⟨n, h⟩
  obtain ⟨e, he⟩ := Option.ne_none_iff_exists'.mp (Nat.find_spec hends)
  refine ⟨Nat.find hends, Nat.find_min' hends h, e, he, fun j hj => ?_⟩
  exact not_not.mp (Nat.find_min hends hj)

theorem liveEnding_of_complete (h : LiveComplete env spec k (capturedBy session spec k).length) :
    liveEnding env session spec script k ≠ none := by
  dsimp only [liveEnding]
  rw [if_pos h]
  split_ifs <;> simp

theorem length_capturedBy_succ_le :
    (capturedBy session spec (n + 1)).length ≤ (capturedBy session spec n).length + 1 := by
  rw [capturedBy_succ, List.length_append]
  cases (session.next n).packet? spec with
  | none => simp
  | some pkt => simp

/-- Up to the ending the limit has not been reached too early. -/
theorem LiveEnd.length_le (h : LiveEnd env session spec script k e) (hlimit : spec.packetLimit ≠ 0) :
    (capturedBy session spec (e.answers k)).length ≤ spec.packetLimit := by
  have hbefore : ∀ j < k, (capturedBy session spec j).length < spec.packetLimit := by
    intro j hj
    by_contra hle
    exact liveEnding_of_complete (.inl ⟨hlimit, by omega⟩) (h.2 j hj)
  have hat : (capturedBy session spec k).length ≤ spec.packetLimit := by
    cases k with
    | zero => exact Nat.zero_le _
    | succ k =>
      have hlt := hbefore k (by omega)
      have hsucc := @length_capturedBy_succ_le session spec k
      omega
  cases e with
  | stopped | complete | failed message => exact hat
  | refused status =>
    have hnot : ¬ LiveComplete env spec k (capturedBy session spec k).length := by
      intro hcomplete
      have hend := h.1
      dsimp only [liveEnding] at hend
      rw [if_pos hcomplete] at hend
      split_ifs at hend <;> simp at hend
    have hlt : (capturedBy session spec k).length < spec.packetLimit := by
      by_contra hle
      exact hnot (.inl ⟨hlimit, by omega⟩)
    have hsucc := @length_capturedBy_succ_le session spec k
    show (capturedBy session spec (k + 1)).length ≤ spec.packetLimit
    omega

/-- **Live captures.**  If the interface cannot be opened or the filter cannot be set, no callback
is called.  Else the capture goes on until the first iteration that has an ending, with the packets
libpcap has given until then, at most as many as the limit; a deadline that has passed ends it even
if libpcap has given none. -/
theorem live_capture (env : CaptureEnv) (script : Script) :
    (∀ status, captureSource env spec = .error status → status.ok = false ∧
      ∀ fuel, streamCapture env script.callbacks spec fuel {} = some ({}, status, {})) ∧
    ∀ session, Opened env spec session → DeadlineFits env spec →
      (∀ n, (∀ j < n, liveEnding env session spec script j = none) →
        streamCapture env script.callbacks spec n {} = none) ∧
      (∀ k e, LiveEnd env session spec script k e → ∀ fuel, k < fuel →
        streamCapture env script.callbacks spec fuel {} =
          some ({ asked := k + 1, delivered := capturedBy session spec (e.answers k) }, e.status,
            liveStats session e.status (capturedBy session spec k).length)) ∧
      (∀ fuel s status stats,
        streamCapture env script.callbacks spec fuel {} = some (s, status, stats) →
        (∃ n, s.delivered = capturedBy session spec n) ∧
        (spec.packetLimit ≠ 0 → s.delivered.length ≤ spec.packetLimit)) ∧
      ∀ k, totalNanos spec ≠ 0 → env.clock 0 + totalNanos spec ≤ env.clock (k + 1) →
        ∃ n ≤ k, ∃ e, LiveEnd env session spec script n e := by
  constructor
  · intro status herror
    refine ⟨captureSource_not_ok herror, fun fuel => ?_⟩
    rw [streamCapture_eq, herror]
  intro session ho hd
  refine ⟨fun n h => streamCapture_of_waiting ho hd h,
    fun k e h fuel hfuel => streamCapture_of_liveEnd ho hd h hfuel, ?_,
    fun k htotal hlate => exists_liveEnd (liveEnding_of_complete (.inr ⟨htotal, hlate⟩))⟩
  intro fuel s status stats hrun
  have hends : ∃ j < fuel, liveEnding env session spec script j ≠ none := by
    by_contra hno
    have hwaiting : ∀ j < fuel, liveEnding env session spec script j = none := by
      intro j hj
      by_contra hne
      exact hno ⟨j, hj, hne⟩
    rw [streamCapture_of_waiting ho hd hwaiting] at hrun
    exact absurd hrun (by simp)
  obtain ⟨j, hj, hne⟩ := hends
  obtain ⟨k, hk, e, hfirst⟩ := exists_liveEnd hne
  rw [streamCapture_of_liveEnd ho hd hfirst (by omega)] at hrun
  obtain ⟨rfl, -⟩ := Prod.mk.inj (Option.some.inj hrun)
  exact ⟨⟨_, rfl⟩, fun hlimit => hfirst.length_le hlimit⟩

/-- An interface with a packet after every timeout, and without stats. -/
def everyOther : Session where
  datalink := 1
  compile _ := none
  setFilter _ := none
  next n := if n % 2 = 0 then .timeout else .packet n 7 4 [1, 2, 3, 4]
  stats := none

/-- Two packets of the first three bytes, asked for by five calls of `should_stop`. -/
theorem live_capture_everyOther :
    streamCapture { secondsEnv with openLive := fun _ _ _ => .ok everyOther }
        (Script.callbacks ⟨fun _ => false, fun _ => .success⟩)
        { ifName := "eth0", packetLimit := 2, payloadTrimBytes := 3 } 9 {} =
      some ({ asked := 5
              delivered := [⟨⟨1, 7000⟩, 4, [1, 2, 3]⟩, ⟨⟨3, 7000⟩, 4, [1, 2, 3]⟩] },
        .success, { received := 2 }) := by
  let env : CaptureEnv := { secondsEnv with openLive := fun _ _ _ => .ok everyOther }
  let spec : PcapSpec := { ifName := "eth0", packetLimit := 2, payloadTrimBytes := 3 }
  let script : Script := ⟨fun _ => false, fun _ => .success⟩
  have ho : Opened env spec everyOther := ⟨by decide, rfl, rfl⟩
  have hend : LiveEnd env everyOther spec script 4 .complete := ⟨by decide, by decide⟩
  exact ((live_capture env script).2 everyOther ho ⟨by decide, by decide⟩).2.1 4 _ hend 9 (by decide)

end Zurg.PcapOps
