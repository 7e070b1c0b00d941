import Zurg.Auth.Manager

/-!
# Zurg.Auth.Session — an `AuthManager` with its `AuthClient`

The client opens streams one after the other, and hands licenses and the ends of streams on to the
manager, whose handlers run one at a time.  `OnDone` first says that its stream has finished, and so
the next one may be open, and may have brought licenses, when the manager learns of the end.

A license decides the state as long as the manager is in online mode, and it is exactly if the last
stream whose end it has learnt of, if any, has not failed: a failed stream puts it into offline mode
and a stream that is opened again does not put it back (`license_decides`).
-/

namespace Zurg.Auth

open Lib Proto

structure Session where
  manager : Manager := {}
  /-- `AuthManager::Start` has been called. -/
  started : Bool := false
  /-- `running_` of the client. -/
  running : Bool := false
  /-- The active reactor has not finished. -/
  live : Bool := false
  /-- The reactors that have been stopped and are yet to be done. -/
  stopped : ℕ := 0
  /-- The calls of `OnDone` that have finished and are yet to call back: their `status.ok()`. -/
  ending : List Bool := []

inductive SessionAct
  | setMode (mode : AuthMode)
  | start (now : ℤ)
  /-- `AuthManager::Stop`. -/
  | stop
  /-- `StreamLoop` starts a reactor. -/
  | connect
  /-- `OnReadDone` with a license, and `HandleMessage`. -/
  | message (m : LicenseResp) (now : ℤ) (opened : Bool)
  /-- `OnDone` finishes: that of the active reactor, or that of a stopped one. -/
  | finish (active : Bool) (ok : Bool)
  /-- The `i`-th of the calls of `OnDone` calls back: `HandleConnection`. -/
  | callBack (i : ℕ)
  | setPersistenceFile (path : String)
  | check (now : ℤ)
  | fileChanged (path : String) (st : FileState)
  deriving DecidableEq, Repr

inductive SessionEvent
  /-- `HandleMessage` has returned, with `auth_state_` afterwards. -/
  | received (m : LicenseResp) (now : ℤ) (state : AuthState)
  /-- `HandleConnection` has returned. -/
  | ended (ok : Bool)
  | manager (e : ManagerEvent)
  deriving DecidableEq, Repr

namespace Session

variable (codec : Codec) (s : Session)

/-- `AuthManager::Start`; `AuthClient::Start` does nothing if the client is running. -/
def start (now : ℤ) : Session :=
  let manager := s.manager.start codec now
  { s with
    manager := manager
    started := true
    running := s.running || manager.mode = .online }

/-- `AuthManager::Stop`, with `AuthClient::Stop`. -/
def stop : Session :=
  if s.manager.mode = .online && s.running then
    { s with running := false, live := false, stopped := s.stopped + s.live.toNat }
  else s

/-- When an action may come.  The mode is not set once the manager has been started, which is not in
offline mode; a license comes by a live stream; and there is one stream at a time. -/
def enabled : SessionAct → Bool
  | .setMode _ => !s.started
  | .start _ => s.started || s.manager.mode ≠ .offline
  | .connect => s.running && !s.live
  | .message _ _ _ => s.live
  | .finish active _ => if active then s.live else 0 < s.stopped
  | .callBack i => i < s.ending.length
  | _ => true

def next : SessionAct → Session × List SessionEvent
  | .setMode mode => ({ s with manager := { s.manager with mode := mode } }, [])
  | .start now => (s.start codec now, [])
  | .stop => (s.stop, [])
  | .connect => ({ s with live := true }, [])
  | .message m now opened =>
    let manager := s.manager.handleMessage codec m now opened
    ({ s with manager := manager }, [.received m now manager.auth.authState])
  | .finish active ok =>
    if active then ({ s with live := false, ending := s.ending ++ [ok] }, [])
    else ({ s with stopped := s.stopped - 1, ending := s.ending ++ [ok] }, [])
  | .callBack i =>
    let ok := s.ending.getD i false
    ({ s with manager := s.manager.handleConnection ok, ending := s.ending.eraseIdx i },
      [.ended ok])
  | .setPersistenceFile path =>
    ({ s with manager := { s.manager with persistenceFile := path } }, [])
  | .check now =>
    let r := s.manager.checkAuthorization codec now
    ({ s with manager := r.1 }, [.manager (.answered now r.2 (s.manager.license codec))])
  | .fileChanged path st => ({ s with manager := s.manager.setFile path st }, [])

def step (x : SessionAct) : Option (Session × List SessionEvent) :=
  if s.enabled x then some (s.next codec x) else none

variable {codec s}

theorem step_eq_some {x : SessionAct} {s' : Session} {e : List SessionEvent} :
    s.step codec x = some (s', e) ↔
      s.enabled x = true ∧ (s.next codec x).1 = s' ∧ (s.next codec x).2 = e := by
  unfold step
  split_ifs with hx <;> simp [hx, Prod.ext_iff]

end Session

def session (codec : Codec) : Machine Session SessionAct SessionEvent where
  init := {}
  step s x := s.step codec x

variable {codec : Codec} {s : Session} {h : List SessionEvent}

/-- What the manager says. -/
def SessionEvent.manager? : SessionEvent → Option ManagerEvent
  | .manager e => some e
  | _ => none

/-- A step leaves the manager alone, or is one of it. -/
theorem Session.manager_next (s : Session) (x : SessionAct) :
    (s.next codec x).1.manager = s.manager ∧
        (s.next codec x).2.filterMap SessionEvent.manager? = [] ∨
      ∃ y, s.manager.step codec y =
        ((s.next codec x).1.manager, (s.next codec x).2.filterMap SessionEvent.manager?) := by
  cases x with
  | setMode mode => exact .inr ⟨.setMode mode, rfl⟩
  | start now => exact .inr ⟨.start now, rfl⟩
  | stop =>
    refine .inl ⟨?_, rfl⟩
    simp only [Session.next, Session.stop]
    split_ifs <;> rfl
  | connect => exact .inl ⟨rfl, rfl⟩
  | message m now opened => exact .inr ⟨.message m now opened, rfl⟩
  | finish active ok => cases active <;> exact .inl ⟨rfl, rfl⟩
  | callBack i => exact .inr ⟨.streamDone (s.ending.getD i false), rfl⟩
  | setPersistenceFile path => exact .inr ⟨.setPersistenceFile path, rfl⟩
  | check now => exact .inr ⟨.check now, rfl⟩
  | fileChanged path st => exact .inr ⟨.fileChanged path st, rfl⟩

/-- Only a license is received. -/
theorem Session.received_next {x : SessionAct} {m : LicenseResp} {now : ℤ} {state : AuthState}
    (h : .received m now state ∈ (s.next codec x).2) :
    ∃ opened, x = .message m now opened ∧ state = (s.next codec x).1.manager.auth.authState := by
  cases x with
  | message m' now' opened =>
    obtain ⟨rfl, rfl, rfl⟩ := SessionEvent.received.inj (List.mem_singleton.mp h)
    exact ⟨opened, rfl, rfl⟩
  | finish active ok => cases active <;> exact nomatch h
  | callBack i => exact nomatch List.mem_singleton.mp h
  | check now => exact nomatch List.mem_singleton.mp h
  | _ => exact nomatch h

/-! ## The mode -/

/-- The ends of streams the manager has learnt of. -/
def endings (h : List SessionEvent) : List Bool :=
  h.filterMap fun
    | .ended ok => some ok
    | _ => none

/-- The last stream whose end the manager has learnt of, if any, has not failed. -/
def LastNotFailed (h : List SessionEvent) : Prop := (endings h).getLast? ≠ some false

instance (h : List SessionEvent) : Decidable (LastNotFailed h) := by
  unfold LastNotFailed
  infer_instance

theorem endings_append (h k : List SessionEvent) : endings (h ++ k) = endings h ++ endings k :=
  List.filterMap_append

/-- Before the start nothing happens to streams, and then the mode is what the last end has made of
it. -/
structure ModeTold (s : Session) (h : List SessionEvent) : Prop where
  before : s.started = false → s.running = false ∧ s.live = false ∧ s.stopped = 0 ∧ s.ending = [] ∧
    endings h = []
  after : s.started = true → s.manager.mode = if LastNotFailed h then .online else .offline

theorem modeTold_init : ModeTold {} [] := ⟨fun _ => ⟨rfl, rfl, rfl, rfl, rfl⟩, nofun⟩

theorem lastNotFailed_append {h e : List SessionEvent} (he : endings e = []) :
    LastNotFailed (h ++ e) ↔ LastNotFailed h := by
  rw [LastNotFailed, endings_append, he, List.append_nil, LastNotFailed]

theorem lastNotFailed_ended {ok : Bool} : LastNotFailed (h ++ [.ended ok]) ↔ ok = true := by
  simp [LastNotFailed, endings]

@[simp] theorem Manager.mode_handleMessage (s : Manager) (m : LicenseResp) (now : ℤ)
    (opened : Bool) : (s.handleMessage codec m now opened).mode = s.mode := by
  unfold Manager.handleMessage
  rw [Manager.persistMessage_eq]
  simp only
  split_ifs <;> rfl

@[simp] theorem Manager.mode_checkAuthorization (s : Manager) (now : ℤ) :
    (s.checkAuthorization codec now).1.mode = s.mode := by
  unfold Manager.checkAuthorization
  split <;> rfl

theorem Manager.mode_start (codec : Codec) (s : Manager) (now : ℤ) :
    (s.start codec now).mode = if s.mode = .offline then .offline else .online := by
  unfold Manager.start
  cases hm : s.mode with
  | offline => exact hm
  | _ => first | rfl | exact hm

theorem Manager.mode_handleConnection {s : Manager} {ok : Bool} (hm : s.mode ≠ .unknown) :
    (s.handleConnection ok).mode = if ok then .online else .offline := by
  unfold Manager.handleConnection
  cases ok with
  | true => rfl
  | false =>
    cases hm' : s.mode with
    | unknown => exact absurd hm' hm
    | online => simp [hm']
    | offline => simp [hm']

/-- What the streams and the mode have nothing to do with. -/
theorem ModeTold.keep {s' : Session} {e : List SessionEvent} (hI : ModeTold s h)
    (hends : endings e = []) (hmode : s'.manager.mode = s.manager.mode)
    (hstreams : (s'.started, s'.running, s'.live, s'.stopped, s'.ending) =
      (s.started, s.running, s.live, s.stopped, s.ending)) : ModeTold s' (h ++ e) := by
  simp only [Prod.mk.injEq] at hstreams
  obtain ⟨hstarted, hrunning, hlive, hstopped, hending⟩ := hstreams
  refine ⟨fun hs => ?_, fun hs => ?_⟩
  · rw [endings_append, hends, List.append_nil, hrunning, hlive, hstopped, hending]
    exact hI.before (hstarted ▸ hs)
  · simp only [hmode, lastNotFailed_append hends]
    exact hI.after (hstarted ▸ hs)

/-- What happens to streams once the manager has been started. -/
theorem ModeTold.stream {s' : Session} {e : List SessionEvent} (hI : ModeTold s h)
    (hends : endings e = []) (hmode : s'.manager.mode = s.manager.mode)
    (hs : s.started = true) (hs' : s'.started = true) : ModeTold s' (h ++ e) := by
  refine ⟨fun hn => (nomatch hs'.symm.trans hn), fun _ => ?_⟩
  simp only [hmode, lastNotFailed_append hends]
  exact hI.after hs

theorem ModeTold.started (hI : ModeTold s h)
    (hs : s.running = true ∨ s.live = true ∨ 0 < s.stopped ∨ s.ending ≠ []) :
    s.started = true := by
  by_contra hn
  obtain ⟨hrunning, hlive, hstopped, hending, -⟩ := hI.before (by simpa using hn)
  simp [hrunning, hlive, hstopped, hending] at hs

theorem ModeTold.mode_ne_unknown (hI : ModeTold s h) (hs : s.started = true) :
    s.manager.mode ≠ .unknown := by
  rw [hI.after hs]
  split_ifs <;> exact nofun

theorem ModeTold.next {x : SessionAct} (hI : ModeTold s h) (hx : s.enabled x = true) :
    ModeTold (s.next codec x).1 (h ++ (s.next codec x).2) := by
  cases x with
  | setMode mode =>
    have hs : s.started = false := by simpa [Session.enabled] using hx
    refine ⟨fun _ => ?_, fun hs' => (nomatch hs.symm.trans hs')⟩
    simpa only [Session.next, List.append_nil] using hI.before hs
  | start now =>
    have hmode := Manager.mode_start codec s.manager now
    cases hs : s.started with
    | true =>
      refine hI.stream rfl (hmode.trans ?_) hs rfl
      rw [hI.after hs]
      split_ifs <;> first | rfl | contradiction
    | false =>
      have hoff : s.manager.mode ≠ .offline := by simpa [Session.enabled, hs] using hx
      have hnone : LastNotFailed (h ++ []) := by
        simp [LastNotFailed, (hI.before hs).2.2.2.2]
      refine ⟨nofun, fun _ => (hmode.trans (if_neg hoff)).trans (if_pos hnone).symm⟩
  | stop =>
    simp only [Session.next, Session.stop]
    split_ifs with hr
    · have hs := hI.started (.inl (Bool.and_eq_true .. ▸ hr).2)
      exact hI.stream rfl rfl hs hs
    · exact hI.keep rfl rfl rfl
  | connect =>
    have hs := hI.started (.inl (Bool.and_eq_true .. ▸ hx).1)
    exact hI.stream rfl rfl hs hs
  | message m now opened => exact hI.keep rfl (Manager.mode_handleMessage ..) rfl
  | finish active ok =>
    cases active with
    | true =>
      have hs := hI.started (.inr (.inl hx))
      exact hI.stream rfl rfl hs hs
    | false =>
      have hs := hI.started (.inr (.inr (.inl (of_decide_eq_true hx))))
      exact hI.stream rfl rfl hs hs
  | callBack i =>
    have hi : i < s.ending.length := of_decide_eq_true hx
    have hs := hI.started (.inr (.inr (.inr (List.ne_nil_of_length_pos (by omega)))))
    refine ⟨fun hn => (nomatch hs.symm.trans hn), fun _ => ?_⟩
    simp only [Session.next, lastNotFailed_ended]
    exact Manager.mode_handleConnection (hI.mode_ne_unknown hs)
  | setPersistenceFile path => exact hI.keep rfl rfl rfl
  | check now => exact hI.keep rfl (Manager.mode_checkAuthorization ..) rfl
  | fileChanged path st => exact hI.keep rfl rfl rfl

theorem ModeTold.step {x : SessionAct} {s' : Session} {e : List SessionEvent} (hI : ModeTold s h)
    (hst : s.step codec x = some (s', e)) : ModeTold s' (h ++ e) := by
  obtain ⟨hx, rfl, rfl⟩ := Session.step_eq_some.mp hst
  exact hI.next hx

theorem modeTold_of_reach (r : (session codec).Reach s h) : ModeTold s h :=
  Machine.Run.invariant modeTold_init (fun _ hI _ hst => hI.step hst) r

/-- The client is not in the way: a run of both is one of the manager. -/
theorem manager_of_session (r : (session codec).Reach s h) :
    (manager codec).Reach s.manager (h.filterMap SessionEvent.manager?) := by
  refine Machine.Steps.simulate Session.manager SessionEvent.manager? ?_ r
  intro t _ x t' e _ _ hst
  obtain ⟨-, rfl, rfl⟩ := Session.step_eq_some.mp hst
  rcases Session.manager_next t x with ⟨hsame, hnone⟩ | ⟨y, hy⟩
  · rw [hsame, hnone]
    exact .refl
  · exact .single trivial (congrArg some hy)

/-! ## Licenses -/

/-- The state a license calls for. -/
def decided (m : LicenseResp) (now : ℤ) : AuthState :=
  if m.authorizes now then .online else .offline

theorem handleMessage_decides_iff {s : Manager} {m : LicenseResp} {now : ℤ} {opened : Bool} :
    (s.handleMessage codec m now opened).auth.authState = decided m now ↔
      s.mode = .online ∨ s.auth.authState = decided m now := by
  unfold Manager.handleMessage
  rw [Manager.persistMessage_eq]
  simp only
  by_cases hm : s.mode = .online
  · rw [if_pos hm]
    exact iff_of_true (Manager.authState_updateAuthState _ _) (.inl hm)
  · rw [if_neg hm]
    exact (or_iff_right hm).symm

/-- A license arrives when the last stream that has ended has not failed, or it does not change
anything. -/
def Counts (p : Session × List SessionEvent) : SessionAct → Prop
  | .message m now _ => LastNotFailed p.2 ∨ p.1.manager.auth.authState = decided m now
  | _ => True

instance (p : Session × List SessionEvent) (x : SessionAct) : Decidable (Counts p x) := by
  cases x <;> unfold Counts <;> infer_instance

variable {p : Session × List SessionEvent}

/-- One license. -/
theorem decides_iff_counts (hI : ModeTold p.1 p.2) {m : LicenseResp} {now : ℤ} {opened : Bool}
    (hx : p.1.enabled (.message m now opened) = true) :
    (p.1.next codec (.message m now opened)).1.manager.auth.authState = decided m now ↔
      Counts p (.message m now opened) := by
  refine handleMessage_decides_iff.trans (or_congr_left ?_)
  rw [hI.after (hI.started (.inr (.inl hx)))]
  split_ifs with hlast
  · exact iff_of_true rfl hlast
  · exact iff_of_false nofun hlast

theorem received_decided (r : (session codec).logged.Run Counts p h) {m : LicenseResp} {now : ℤ}
    {state : AuthState} (hm : .received m now state ∈ h) : state = decided m now := by
  refine Machine.Run.invariant (I := fun _ h => ∀ m now state,
    .received m now state ∈ h → state = decided m now) nofun ?_ r m now state hm
  intro p h x q e r hI hC hst m now state hmem
  rcases List.mem_append.mp hmem with hmem | hmem
  · exact hI m now state hmem
  obtain ⟨hst, -⟩ := Machine.step_logged.mp hst
  obtain ⟨hx, -, rfl⟩ := Session.step_eq_some.mp hst
  obtain ⟨opened, rfl, rfl⟩ := Session.received_next hmem
  obtain ⟨rfl, hreach⟩ := Machine.reach_of_logged r
  exact (decides_iff_counts (modeTold_of_reach hreach) hx).mpr hC

/-- **A license decides the state** in every run in which each one comes when the last stream that
has ended has not failed, or changes nothing; and one that comes otherwise does not. -/
theorem license_decides (r : (session codec).logged.Run Counts p h) :
    (∀ m now state, .received m now state ∈ h → state = decided m now) ∧
    ∀ m now opened s' e, p.1.step codec (.message m now opened) = some (s', e) →
      (s'.manager.auth.authState = decided m now ↔ Counts p (.message m now opened)) := by
  refine ⟨fun _ _ _ => received_decided r, fun m now opened s' e hst => ?_⟩
  obtain ⟨rfl, hreach⟩ := Machine.reach_of_logged r
  obtain ⟨hx, rfl, -⟩ := Session.step_eq_some.mp hst
  exact decides_iff_counts (modeTold_of_reach hreach) hx

/-- A license comes by the first stream, which the server then closes in good order; and another one
by the next stream. -/
def closedAndReopened : List SessionAct :=
  [.start 0, .connect, .message demoLicense 100 true, .finish true true, .callBack 0, .connect,
    .message {} 200 true]

theorem license_decides_closedAndReopened : ∃ p h,
    (session demoCodec).logged.Run Counts p h ∧ AuthState.online = decided demoLicense 100 ∧
      AuthState.offline = decided {} 200 :=
  have r := Machine.run_schedule (session demoCodec).logged Counts closedAndReopened rfl
  ⟨_, _, r, (license_decides r).1 demoLicense 100 _ (by decide),
    (license_decides r).1 {} 200 _ (by decide)⟩

/-- After a stream that has failed, a valid license by the next one leaves the state offline. -/
theorem license_ignored_after_failure : ¬ ∀ codec s h, (session codec).Reach s h →
    ∀ m now state, .received m now state ∈ h → state = decided m now := by
  intro hall
  have r := Machine.run_schedule (session demoCodec) (fun _ _ => True)
    [.start 0, .connect, .finish true false, .callBack 0, .connect, .message demoLicense 100 true]
    rfl
  exact absurd (hall _ _ _ r demoLicense 100 .offline (by decide)) (by decide)

end Zurg.Auth
