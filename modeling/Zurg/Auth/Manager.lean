import Zurg.Auth.License
import Zurg.Auth.Publish

/-!
# Zurg.Auth.Manager — `AuthManager`: what an answer of `CheckAuthorization` rests on

The handlers of the manager, one step each, with the file system and the clock as part of the
environment.  An answer in offline mode evaluates the persisted license; an answer in online mode
repeats the stored state.  The stored state of a manager in online mode rests on a license exactly
as long as nothing else makes it online (`Licensed`): a stream that ends with OK, or a change of
mode while the state is online, may do so.  And nobody looks at the expiry dates again.
-/

namespace Zurg.Auth

open Lib Proto

inductive AuthMode
  | unknown
  | online
  | offline
  deriving DecidableEq, Repr

/-- What the file system has under a path. -/
inductive FileState
  | missing
  | unreadable
  | content (data : Bytes)
  deriving DecidableEq, Repr

/-- Protobuf's `SerializeToString` and `ParseFromString` for `LicenseResp`. -/
structure Codec where
  serialize : LicenseResp → Option Bytes
  parse : Bytes → Option LicenseResp

structure Manager where
  mode : AuthMode := .unknown
  auth : Publisher := Publisher.updateAuthState {} .unknown true
  persistenceFile : String := ""
  files : String → FileState := fun _ => .missing
  /-- The last license handled and when; the code does not keep it. -/
  handled : Option (LicenseResp × ℤ) := none

inductive ManagerAct
  /-- `HandleMessage`; whether `PersistMessage` can open the file for writing. -/
  | message (m : LicenseResp) (now : ℤ) (opened : Bool)
  /-- `AuthStreamReactor::OnDone`, with `status.ok()`. -/
  | streamDone (ok : Bool)
  | setMode (mode : AuthMode)
  | setPersistenceFile (path : String)
  | start (now : ℤ)
  /-- `CheckAuthorization`. -/
  | check (now : ℤ)
  /-- Somebody else changes a file. -/
  | fileChanged (path : String) (st : FileState)
  deriving DecidableEq, Repr

inductive ManagerEvent
  /-- An answer of `CheckAuthorization`, and the license it should rest on. -/
  | answered (now : ℤ) (authorized : Bool) (license : Option LicenseResp)
  deriving DecidableEq, Repr

namespace Manager

variable (codec : Codec) (s : Manager)

/-- `UpdateAuthState`, without interruption. -/
def updateAuthState (newState : AuthState) : Manager :=
  { s with auth := s.auth.updateAuthState newState false }

def setFile (path : String) (st : FileState) : Manager :=
  { s with files := fun p => if p = path then st else s.files p }

/-- `PersistMessage`. -/
def persistMessage (m : LicenseResp) (opened : Bool) : Manager :=
  if s.persistenceFile = "" then s
  else match codec.serialize m with
    | none => s
    | some data => if opened then s.setFile s.persistenceFile (.content data) else s

/-- `HandleMessage`. -/
def handleMessage (m : LicenseResp) (now : ℤ) (opened : Bool) : Manager :=
  let s := { s.persistMessage codec m opened with handled := some (m, now) }
  if s.mode = .online then
    s.updateAuthState (if m.authorizes now then .online else .offline)
  else s

/-- `HandleConnection`. -/
def handleConnection (connected : Bool) : Manager :=
  if connected then { s.updateAuthState .online with mode := .online }
  else
    let s := s.updateAuthState .offline
    if s.mode = .online then { s with mode := .offline } else s

/-- The license in the persistence file. -/
def persisted : Option LicenseResp :=
  match s.files s.persistenceFile with
  | .content data => codec.parse data
  | _ => none

/-- What `CheckOfflineAuthorization` finds out. -/
def offlineAuthorized (now : ℤ) : Bool :=
  if s.persistenceFile = "" then false
  else match s.files s.persistenceFile with
    | .missing => false
    | .unreadable => false
    | .content data =>
      if data = [] then false
      else match codec.parse data with
        | none => false
        | some m => m.authorizes now

/-- `CheckOfflineAuthorization`. -/
def checkOfflineAuthorization (now : ℤ) : Manager × Bool :=
  let authorized := s.offlineAuthorized codec now
  (s.updateAuthState (if authorized then .online else .offline), authorized)

/-- `CheckOnlineAuthorization`. -/
def checkOnlineAuthorization : Bool := s.auth.authState = .online

/-- `CheckAuthorization`. -/
def checkAuthorization (now : ℤ) : Manager × Bool :=
  match s.mode with
  | .online => (s, s.checkOnlineAuthorization)
  | .offline => s.checkOfflineAuthorization codec now
  | .unknown => (s, false)

/-- `Start`. -/
def start (now : ℤ) : Manager :=
  match s.mode with
  | .unknown => { s with mode := .online }
  | .online => s
  | .offline => (s.checkOfflineAuthorization codec now).1

/-- The license an answer should rest on. -/
def license : Option LicenseResp :=
  match s.mode with
  | .online => s.handled.map (·.1)
  | .offline => s.persisted codec
  | .unknown => none

/-- No action is ever refused. -/
def step : ManagerAct → Manager × List ManagerEvent
  | .message m now opened => (s.handleMessage codec m now opened, [])
  | .streamDone ok => (s.handleConnection ok, [])
  | .setMode mode => ({ s with mode }, [])
  | .setPersistenceFile path => ({ s with persistenceFile := path }, [])
  | .start now => (s.start codec now, [])
  | .check now =>
    let r := s.checkAuthorization codec now
    (r.1, [.answered now r.2 (s.license codec)])
  | .fileChanged path st => (s.setFile path st, [])

end Manager

/-- The manager, from the return of its constructor. -/
def manager (codec : Codec) : Machine Manager ManagerAct ManagerEvent where
  init := {}
  step s x := some (s.step codec x)

variable {codec : Codec} {s : Manager} {h : List ManagerEvent}

@[simp] theorem Publisher.authState_updateAuthState (p : Publisher) (st : AuthState) (f : Bool) :
    (p.updateAuthState st f).authState = st := by
  unfold Publisher.updateAuthState
  split_ifs <;> rfl

namespace Manager

@[simp] theorem authState_updateAuthState (s : Manager) (st : AuthState) :
    (s.updateAuthState st).auth.authState = st := Publisher.authState_updateAuthState ..

@[simp] theorem mode_updateAuthState (s : Manager) (st : AuthState) :
    (s.updateAuthState st).mode = s.mode := rfl

/-- `PersistMessage` changes files only. -/
theorem persistMessage_eq (s : Manager) (m : LicenseResp) (opened : Bool) :
    s.persistMessage codec m opened =
      { s with files := (s.persistMessage codec m opened).files } := by
  unfold persistMessage
  by_cases hf : s.persistenceFile = ""
  · rw [if_pos hf]
  · rw [if_neg hf]
    cases codec.serialize m with
    | none => rfl
    | some data => cases opened <;> rfl

/-- The answer of `CheckOfflineAuthorization` rests on the persisted license. -/
theorem offlineAuthorized_persisted {now : ℤ} (ha : s.offlineAuthorized codec now = true) :
    ∃ m, s.persisted codec = some m ∧ m.authorizes now = true := by
  unfold offlineAuthorized at ha
  unfold persisted
  split_ifs at ha
  cases hf : s.files s.persistenceFile with
  | content data =>
    simp only [hf] at ha ⊢
    split_ifs at ha
    cases hp : codec.parse data with
    | none => simp [hp] at ha
    | some m => exact ⟨m, rfl, by simpa [hp] using ha⟩
  | _ => simp [hf] at ha

end Manager

/-! ## What the stored state rests on -/

/-- The last license handled authorized something when it was handled. -/
def Manager.Licensed (s : Manager) : Prop :=
  ∃ m t, s.handled = some (m, t) ∧ m.authorizes t = true

/-- Something it authorized then has not expired. -/
def Manager.StillLicensed (s : Manager) (now : ℤ) : Prop :=
  ∃ m t, s.handled = some (m, t) ∧
    ∃ asset ∈ m.assets, isAssetValid asset t = true ∧ asset.unexpired now = true

instance (s : Manager) : Decidable s.Licensed :=
  decidable_of_iff (∃ p ∈ s.handled, p.1.authorizes p.2 = true)
    ⟨fun ⟨p, hp, ha⟩ => ⟨p.1, p.2, hp, ha⟩, fun ⟨m, t, hp, ha⟩ => ⟨(m, t), hp, ha⟩⟩

instance (s : Manager) (now : ℤ) : Decidable (s.StillLicensed now) :=
  decidable_of_iff (∃ p ∈ s.handled, ∃ asset ∈ p.1.assets,
      isAssetValid asset p.2 = true ∧ asset.unexpired now = true)
    ⟨fun ⟨p, hp, ha⟩ => ⟨p.1, p.2, hp, ha⟩, fun ⟨m, t, hp, ha⟩ => ⟨(m, t), hp, ha⟩⟩

/-- Only a license makes a manager in online mode online: no stream ends with OK, and no change of
mode meets an online state, unless the last license handled authorized something.  And if it did,
not all of that has expired when an answer is given in online mode. -/
def FailClosed (s : Manager) : ManagerAct → Prop
  | .streamDone ok => ok = true → s.Licensed
  | .setMode mode => mode = .online → s.auth.authState = .online → s.Licensed
  | .start _ => s.mode = .unknown → s.auth.authState = .online → s.Licensed
  | .check now =>
    s.mode = .online → s.auth.authState = .online → s.Licensed → s.StillLicensed now
  | _ => True

instance (s : Manager) (x : ManagerAct) : Decidable (FailClosed s x) := by
  cases x <;> unfold FailClosed <;> infer_instance

/-- In online mode the state is online only by virtue of a license. -/
def Manager.OnlineLicensed (s : Manager) : Prop :=
  s.mode = .online → s.auth.authState = .online → s.Licensed

/-- The license authorizes something now. -/
def Justified (license : Option LicenseResp) (now : ℤ) : Prop :=
  ∃ m, license = some m ∧ ∃ asset ∈ m.assets, isAssetValid asset now = true

theorem onlineLicensed_message (m : LicenseResp) (now : ℤ) (opened : Bool) :
    (s.handleMessage codec m now opened).OnlineLicensed := by
  unfold Manager.handleMessage
  rw [Manager.persistMessage_eq]
  simp only
  split_ifs with hm ha
  · exact fun _ _ => ⟨m, now, rfl, ha⟩
  · exact fun _ h => by simp at h
  · exact fun h => absurd h hm

/-- A change of mode or of the connection keeps the manager licensed exactly when it is
`FailClosed`. -/
theorem onlineLicensed_iff (hI : s.OnlineLicensed) {x : ManagerAct} (hx : ∀ now, x ≠ .check now) :
    (s.step codec x).1.OnlineLicensed ↔ FailClosed s x := by
  cases x with
  | message m now opened => exact iff_of_true (onlineLicensed_message m now opened) trivial
  | streamDone ok =>
    cases ok with
    | true =>
      refine ⟨fun h _ => h rfl (Manager.authState_updateAuthState s .online), fun h _ _ => h rfl⟩
    | false =>
      have hoff : (s.handleConnection false).auth.authState = .offline := by
        simp only [Manager.handleConnection, Bool.false_eq_true, if_false]
        split_ifs <;> simp
      exact iff_of_true (fun _ h => nomatch hoff.symm.trans h) nofun
  | setMode mode => exact Iff.rfl
  | setPersistenceFile path => exact iff_of_true hI trivial
  | start now =>
    change (s.start codec now).OnlineLicensed ↔ _
    unfold Manager.start
    cases hm : s.mode with
    | unknown => exact ⟨fun h _ ha => h rfl ha, fun h _ ha => h hm ha⟩
    | online => exact iff_of_true hI fun h => nomatch hm.symm.trans h
    | offline =>
      exact iff_of_true (fun h => nomatch hm.symm.trans h) fun h => nomatch hm.symm.trans h
  | check now => exact absurd rfl (hx now)
  | fileChanged path st => exact iff_of_true hI trivial

theorem onlineLicensed_check (hI : s.OnlineLicensed) (now : ℤ) :
    (s.checkAuthorization codec now).1.OnlineLicensed := by
  unfold Manager.checkAuthorization
  cases hm : s.mode with
  | offline => exact fun h => by simp [Manager.checkOfflineAuthorization, hm] at h
  | _ => exact hI

/-- An answer is justified if the manager is licensed and the license has not expired. -/
theorem justified_check {now : ℤ} (hI : s.OnlineLicensed) (hC : FailClosed s (.check now))
    (ha : (s.checkAuthorization codec now).2 = true) : Justified (s.license codec) now := by
  unfold Manager.checkAuthorization at ha
  unfold Manager.license
  cases hm : s.mode with
  | unknown => simp [hm] at ha
  | online =>
    simp only [hm, Manager.checkOnlineAuthorization, decide_eq_true_eq] at ha
    obtain ⟨m, t, hh, asset, hmem, hv, hu⟩ := hC hm ha (hI hm ha)
    exact ⟨m, by simp [hh], asset, hmem, isAssetValid_of_unexpired hv hu⟩
  | offline =>
    simp only [hm] at ha
    obtain ⟨m, hp, hauth⟩ := Manager.offlineAuthorized_persisted ha
    exact ⟨m, hp, LicenseResp.authorizes_iff.mp hauth⟩

theorem failClosed_of_run (r : (manager codec).Run FailClosed s h) :
    s.OnlineLicensed ∧
      ∀ now license, .answered now true license ∈ h → Justified license now := by
  refine Machine.Run.invariant (I := fun s h => s.OnlineLicensed ∧
    ∀ now license, .answered now true license ∈ h → Justified license now)
    ⟨nofun, nofun⟩ ?_ r
  intro s h x s' e _ hI hC hst
  cases x with
  | check now =>
    obtain ⟨rfl, rfl⟩ := Prod.mk.inj (Option.some.inj hst)
    refine ⟨onlineLicensed_check hI.1 now, fun now' license hm => ?_⟩
    rcases List.mem_append.mp hm with hm | hm
    · exact hI.2 now' license hm
    · obtain ⟨rfl, ha, rfl⟩ := ManagerEvent.answered.inj (List.mem_singleton.mp hm)
      exact justified_check hI.1 hC ha.symm
  | _ =>
    obtain ⟨rfl, rfl⟩ := Prod.mk.inj (Option.some.inj hst)
    exact ⟨(@onlineLicensed_iff codec s hI.1 _ (by simp)).mpr hC,
      by simpa [Manager.step] using hI.2⟩

/-- In online mode an online state without a license is enough for an unjustified answer. -/
theorem exists_unjustified (hn : ¬ s.OnlineLicensed) :
    ∃ now, (s.checkAuthorization codec now).2 = true ∧ ¬ Justified (s.license codec) now := by
  simp only [Manager.OnlineLicensed, Classical.not_imp] at hn
  obtain ⟨hm, ha, hl⟩ := hn
  have htrue : ∀ now, (s.checkAuthorization codec now).2 = true := by
    intro now
    simp [Manager.checkAuthorization, hm, Manager.checkOnlineAuthorization, ha]
  cases hh : s.handled with
  | none =>
    refine ⟨0, htrue 0, ?_⟩
    rintro ⟨m, hlic, -⟩
    simp [Manager.license, hm, hh] at hlic
  | some p =>
    refine ⟨p.2, htrue p.2, ?_⟩
    rintro ⟨m, hlic, hv⟩
    obtain rfl : p.1 = m := by simpa [Manager.license, hm, hh] using hlic
    exact hl ⟨p.1, p.2, hh, LicenseResp.authorizes_iff.mpr hv⟩

/-- **Authorization is fail-closed** in every run whose steps are; and a step that is not, at a time
no earlier than the last license, answers without justification or can be followed by a check that
does. -/
theorem authorization_is_failClosed (r : (manager codec).Run FailClosed s h) :
    (∀ now license, .answered now true license ∈ h → Justified license now) ∧
    ∀ x s' e, (manager codec).step s x = some (s', e) → ¬ FailClosed s x →
      (∀ now, x = .check now → ∀ m t, s.handled = some (m, t) → t ≤ now) →
      ∃ u k now license, (manager codec).Steps (fun _ _ => True) s' u k ∧
        .answered now true license ∈ e ++ k ∧ ¬ Justified license now := by
  obtain ⟨hI, hanswers⟩ := failClosed_of_run r
  refine ⟨hanswers, fun x s' e hst hC htime => ?_⟩
  by_cases hx : ∃ now, x = .check now
  · obtain ⟨now, rfl⟩ := hx
    obtain ⟨rfl, rfl⟩ := Prod.mk.inj (Option.some.inj hst)
    simp only [FailClosed, Classical.not_imp] at hC
    obtain ⟨hm, ha, -, hl⟩ := hC
    refine ⟨_, [], now, s.license codec, .refl, ?_, ?_⟩
    · simp [Manager.checkAuthorization, hm, Manager.checkOnlineAuthorization, ha]
    · rintro ⟨m, hlic, asset, hmem, hv⟩
      obtain ⟨m', t, hh, -⟩ := hI hm ha
      obtain rfl : m' = m := by simpa [Manager.license, hm, hh] using hlic
      exact hl ⟨m', t, hh, asset, hmem, isAssetValid_earlier (htime now rfl m' t hh) hv,
        (isAssetValid_iff.mp hv).2.1⟩
  · have hIff := @onlineLicensed_iff codec s hI x fun now h => hx ⟨now, h⟩
    obtain ⟨hs, -⟩ := Prod.mk.inj (Option.some.inj hst)
    obtain ⟨now, ha, hj⟩ := @exists_unjustified codec s' fun h => hC (hIff.mp (hs ▸ h))
    refine ⟨_, _, now, s'.license codec, .single (a := .check now) trivial rfl, ?_, hj⟩
    simp [ha]

/-- A license for one asset that does not expire at a date. -/
def demoLicense : LicenseResp := { assets := [{ remainingValidTimestamp := 60 }] }

/-- Protobuf on that license. -/
def demoCodec : Codec where
  serialize m := if m = demoLicense then some [0x12, 0x02, 0x50, 0x3c] else none
  parse data := if data = [0x12, 0x02, 0x50, 0x3c] then some demoLicense else none

/-- A license arrives and is persisted, the connection is lost, and both modes answer. -/
def onlineThenOffline : List ManagerAct :=
  [.setPersistenceFile "auth.dat", .start 0, .message demoLicense 100 true, .check 200,
    .streamDone false, .check 300]

theorem authorization_is_failClosed_onlineThenOffline : ∃ s h,
    (manager demoCodec).Run FailClosed s h ∧ h.length = 2 ∧ Justified (some demoLicense) 200 ∧
      Justified (some demoLicense) 300 :=
  have r := Machine.run_schedule (manager demoCodec) FailClosed onlineThenOffline rfl
  ⟨_, _, r, rfl, (authorization_is_failClosed r).1 200 _ (by decide),
    (authorization_is_failClosed r).1 300 _ (by decide)⟩

/-- A stream that the server closes in good order authorizes the client without any license. -/
theorem clean_close_authorizes : ¬ ∀ codec s h, (manager codec).Reach s h →
    ∀ now license, .answered now true license ∈ h → Justified license now := by
  intro hall
  have r := Machine.run_schedule (manager demoCodec) (fun _ _ => True)
    [.start 0, .streamDone true, .check 1] rfl
  obtain ⟨m, hm, -⟩ := hall _ _ _ r 1 none (by decide)
  exact nomatch hm

/-! ## The bus -/

/-- From `s` to `t` the state is updated at most once. -/
def Manager.Updates (s t : Manager) : Prop :=
  t.auth = s.auth ∨ ∃ newState, t.auth = s.auth.updateAuthState newState false

theorem updates_step (s : Manager) (x : ManagerAct) : s.Updates (s.step codec x).1 := by
  cases x with
  | message m now opened =>
    change s.Updates (s.handleMessage codec m now opened)
    unfold Manager.handleMessage
    rw [Manager.persistMessage_eq]
    simp only
    split_ifs
    · exact .inr ⟨_, rfl⟩
    · exact .inr ⟨_, rfl⟩
    · exact .inl rfl
  | streamDone ok =>
    change s.Updates (s.handleConnection ok)
    unfold Manager.handleConnection
    cases ok with
    | true => exact .inr ⟨_, rfl⟩
    | false =>
      simp only [Bool.false_eq_true, if_false]
      split_ifs <;> exact .inr ⟨_, rfl⟩
  | start now =>
    change s.Updates (s.start codec now)
    unfold Manager.start
    cases s.mode with
    | offline => exact .inr ⟨_, rfl⟩
    | _ => exact .inl rfl
  | check now =>
    change s.Updates (s.checkAuthorization codec now).1
    unfold Manager.checkAuthorization
    cases s.mode with
    | offline => exact .inr ⟨_, rfl⟩
    | _ => exact .inl rfl
  | _ => exact .inl rfl

/-- A run of the manager is a run of calls of `UpdateAuthState` one after the other. -/
theorem publisher_of_manager (r : (manager codec).Reach s h) :
    publisher.Run NewestLast s.auth [] ∧ s.auth.pending = [] := by
  refine Machine.Run.invariant
    (I := fun s _ => publisher.Run NewestLast s.auth [] ∧ s.auth.pending = []) ⟨.refl, rfl⟩ ?_ r
  intro s h x s' e _ hI _ hst
  obtain ⟨hs, -⟩ := Prod.mk.inj (Option.some.inj hst)
  rcases hs ▸ updates_step s x with hs | ⟨newState, hs⟩
  · rw [hs]
    exact hI
  · obtain ⟨hsteps, hpend⟩ := updateAuthState_steps hI.2 newState false
    rw [hs]
    exact ⟨hI.1.trans hsteps, hpend⟩

/-- **The bus tells what the manager says**, as long as its handlers do not overlap. -/
theorem bus_agrees_with_manager (r : (manager codec).Reach s h) :
    s.auth.bus.lastEvent = some ⟨s.auth.authState⟩ := by
  obtain ⟨hrun, hpend⟩ := publisher_of_manager r
  rcases newestStored_of_run hrun with hl | ⟨-, hl⟩
  · rw [hpend] at hl
    exact nomatch hl
  · exact hl

end Zurg.Auth
