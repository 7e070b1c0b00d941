import Zurg.Auth.Manager

/-!
# Zurg.Auth.Evaluate — the two evaluations of a license

`HandleMessage` evaluates the license it is given, `CheckOfflineAuthorization` the one it reads back
from the persistence file.  Both ask `IsAssetValid`, which lets an asset with a negative expiry date
pass at any time (`no_malformed_grant_iff`).  After any sequence of messages they agree about the
last one (`offline_agrees_with_online`).
-/

namespace Zurg.Auth

open Proto

/-! ## What grants an authorization -/

/-- The asset is not flagged as expired, and expires later, or never and has time left. -/
def Asset.Grants (asset : Asset) (now : ℤ) : Prop :=
  asset.isExpired = false ∧
    (now < asset.expireAt ∨ asset.expireAt = 0 ∧ 0 < asset.remainingValidTimestamp)

instance (asset : Asset) (now : ℤ) : Decidable (asset.Grants now) :=
  inferInstanceAs (Decidable (_ ∧ _))

/-- An expiry date before the epoch, and not flagged as expired. -/
def Asset.Malformed (asset : Asset) : Prop := asset.isExpired = false ∧ asset.expireAt < 0

instance (asset : Asset) : Decidable asset.Malformed := inferInstanceAs (Decidable (_ ∧ _))

theorem grants_or_malformed {asset : Asset} {now : ℤ} (h : isAssetValid asset now = true) :
    asset.Grants now ∨ asset.Malformed := by
  obtain ⟨hflag, hunexpired, hrest⟩ := isAssetValid_iff.mp h
  simp only [Asset.unexpired, Bool.or_eq_true, decide_eq_true_eq] at hunexpired
  by_cases hneg : asset.expireAt < 0
  · exact .inr ⟨hflag, hneg⟩
  · exact .inl ⟨hflag, by omega⟩

theorem isAssetValid_of_malformed {asset : Asset} (h : asset.Malformed) (now : ℤ) :
    isAssetValid asset now = true := by
  obtain ⟨hflag, hneg⟩ := h
  refine isAssetValid_iff.mpr ⟨hflag, ?_, .inr (by omega)⟩
  simp only [Asset.unexpired, Bool.or_eq_true, decide_eq_true_eq]
  omega

/-- Some asset of the license grants an authorization. -/
def LicenseResp.Grants (m : LicenseResp) (now : ℤ) : Prop := ∃ asset ∈ m.assets, asset.Grants now

theorem LicenseResp.authorizes_earlier {m : LicenseResp} {t now : ℤ} (ht : t ≤ now)
    (h : m.authorizes now = true) : m.authorizes t = true := by
  obtain ⟨asset, hmem, hvalid⟩ := LicenseResp.authorizes_iff.mp h
  exact LicenseResp.authorizes_iff.mpr ⟨asset, hmem, isAssetValid_earlier ht hvalid⟩

/-! ## The two evaluations -/

variable {codec : Codec} {s : Manager} {m : LicenseResp} {now : ℤ} {opened : Bool}

theorem authState_handleMessage (hmode : s.mode = .online) :
    (s.handleMessage codec m now opened).auth.authState =
      if m.authorizes now then .online else .offline := by
  unfold Manager.handleMessage
  rw [Manager.persistMessage_eq]
  simp only [if_pos hmode, Manager.authState_updateAuthState]

theorem online_handleMessage_iff (hmode : s.mode = .online) :
    (s.handleMessage codec m now opened).auth.authState = .online ↔ m.authorizes now = true := by
  rw [authState_handleMessage hmode]
  cases m.authorizes now <;> simp

/-- The check authorizes by a license in a file that is not empty. -/
theorem offlineAuthorized_iff : s.offlineAuthorized codec now = true ↔
    s.persistenceFile ≠ "" ∧ ∃ data m, s.files s.persistenceFile = .content data ∧ data ≠ [] ∧
      codec.parse data = some m ∧ m.authorizes now = true := by
  unfold Manager.offlineAuthorized
  by_cases hfile : s.persistenceFile = ""
  · simp [hfile]
  · rw [if_neg hfile]
    cases hdata : s.files s.persistenceFile with
    | missing => simp
    | unreadable => simp
    | content data =>
      by_cases hnil : data = []
      · simp [hnil]
      · cases hparse : codec.parse data with
        | none => simp [hnil, hfile, hparse]
        | some m => simp [hnil, hfile, hparse]

/-- No asset authorizes that does not grant it, on either path, and what has stopped to authorize
does not begin again. -/
structure NoMalformedGrant (codec : Codec) (m : LicenseResp) (now : ℤ) : Prop where
  online : ∀ (s : Manager) (opened : Bool), s.mode = .online →
    (s.handleMessage codec m now opened).auth.authState = .online → m.Grants now
  offline : ∀ s : Manager, s.persisted codec = some m →
    (s.checkOfflineAuthorization codec now).2 = true → m.Grants now
  stopped_online : ∀ (s s' : Manager) (opened opened' : Bool) (later : ℤ), now ≤ later →
    s.mode = .online → s'.mode = .online →
    (s.handleMessage codec m now opened).auth.authState ≠ .online →
    (s'.handleMessage codec m later opened').auth.authState ≠ .online
  stopped_offline : ∀ (s : Manager) (later : ℤ), now ≤ later → s.persisted codec = some m →
    (s.checkOfflineAuthorization codec now).2 = false →
    (s.checkOfflineAuthorization codec later).2 = false

/-- The check answers by the persisted license. -/
theorem authorizes_of_check (hm : s.persisted codec = some m)
    (h : (s.checkOfflineAuthorization codec now).2 = true) : m.authorizes now = true := by
  obtain ⟨m', hm', hauth⟩ := Manager.offlineAuthorized_persisted h
  rwa [Option.some.inj (hm.symm.trans hm')]

theorem offlineAuthorized_earlier {t : ℤ} (ht : t ≤ now)
    (h : s.offlineAuthorized codec now = true) : s.offlineAuthorized codec t = true := by
  obtain ⟨hfile, data, m, hdata, hne, hparse, hauth⟩ := offlineAuthorized_iff.mp h
  exact offlineAuthorized_iff.mpr
    ⟨hfile, data, m, hdata, hne, hparse, LicenseResp.authorizes_earlier ht hauth⟩

/-- **No malformed asset grants authorization** exactly if no asset that is not flagged as expired
has a negative expiry date, or another one grants it. -/
theorem no_malformed_grant_iff (codec : Codec) (m : LicenseResp) (now : ℤ) :
    NoMalformedGrant codec m now ↔
      (∀ asset ∈ m.assets, ¬ asset.Malformed) ∨ ∃ asset ∈ m.assets, asset.Grants now := by
  constructor
  · intro h
    by_cases hbad : ∃ asset ∈ m.assets, asset.Malformed
    · obtain ⟨asset, hmem, hasset⟩ := hbad
      have hauth : m.authorizes now = true :=
        LicenseResp.authorizes_iff.mpr ⟨asset, hmem, isAssetValid_of_malformed hasset now⟩
      let s : Manager := { mode := .online }
      exact .inr (h.online s true rfl ((online_handleMessage_iff rfl).mpr hauth))
    · exact .inl fun asset hmem hasset => hbad ⟨asset, hmem, hasset⟩
  · intro hcond
    have hgrants : m.authorizes now = true → m.Grants now := by
      intro hauth
      rcases hcond with hgood | hgrants
      · obtain ⟨asset, hmem, hvalid⟩ := LicenseResp.authorizes_iff.mp hauth
        exact ⟨asset, hmem, (grants_or_malformed hvalid).resolve_right (hgood asset hmem)⟩
      · exact hgrants
    refine ⟨fun s opened hmode hon => hgrants ((online_handleMessage_iff hmode).mp hon),
      fun s hm hon => hgrants (authorizes_of_check hm hon), ?_, ?_⟩
    · intro s s' opened opened' later hlater hmode hmode' hoff hon
      have hauth := (online_handleMessage_iff hmode').mp hon
      exact hoff ((online_handleMessage_iff hmode).mpr
        (LicenseResp.authorizes_earlier hlater hauth))
    · intro s later hlater hm hoff
      by_contra hon
      have hlate : (s.checkOfflineAuthorization codec later).2 = true := by simpa using hon
      have hearlier := offlineAuthorized_earlier hlater hlate
      exact Bool.false_ne_true (hoff.symm.trans hearlier)

/-- An asset that expired a second before the epoch authorizes today. -/
theorem malformed_grants : ¬ ∀ (codec : Codec) (m : LicenseResp) (now : ℤ), 0 ≤ now →
    NoMalformedGrant codec m now := by
  intro hall
  have h := hall demoCodec { assets := [{ expireAt := -1 }] } 1758970800 (by decide)
  have hcond := (no_malformed_grant_iff _ _ _).mp h
  exact absurd hcond (by decide)

/-! ## Online, then offline -/

/-- Messages handled one after the other, each with its time; every file can be written. -/
def Manager.handleMessages (codec : Codec) (s : Manager) (ms : List (LicenseResp × ℤ)) : Manager :=
  ms.foldl (fun s p => s.handleMessage codec p.1 p.2 true) s

/-- What protobuf has serialized it parses. -/
def Codec.Inverts (codec : Codec) (m : LicenseResp) : Prop :=
  ∃ data, codec.serialize m = some data ∧ codec.parse data = some m

theorem handleMessage_frame (codec : Codec) (s : Manager) (m : LicenseResp) (now : ℤ)
    (opened : Bool) : (s.handleMessage codec m now opened).mode = s.mode ∧
      (s.handleMessage codec m now opened).persistenceFile = s.persistenceFile := by
  unfold Manager.handleMessage
  rw [Manager.persistMessage_eq]
  dsimp only
  split_ifs <;> exact ⟨rfl, rfl⟩

theorem handleMessages_frame (codec : Codec) (s : Manager) (ms : List (LicenseResp × ℤ)) :
    (s.handleMessages codec ms).mode = s.mode ∧
      (s.handleMessages codec ms).persistenceFile = s.persistenceFile := by
  induction ms generalizing s with
  | nil => exact ⟨rfl, rfl⟩
  | cons p ms ih =>
    obtain ⟨hmode, hfile⟩ := handleMessage_frame codec s p.1 p.2 true
    obtain ⟨hmode', hfile'⟩ := ih (s.handleMessage codec p.1 p.2 true)
    exact ⟨hmode'.trans hmode, hfile'.trans hfile⟩

/-- The file has the last message, whatever it had before. -/
theorem files_handleMessage {data : Bytes} (hfile : s.persistenceFile ≠ "")
    (hdata : codec.serialize m = some data) :
    (s.handleMessage codec m now true).files s.persistenceFile = .content data := by
  have hpersist : (s.persistMessage codec m true).files s.persistenceFile = .content data := by
    simp [Manager.persistMessage, hfile, hdata, Manager.setFile]
  unfold Manager.handleMessage
  dsimp only
  split_ifs <;> exact hpersist

/-- What has just been persisted is evaluated as it was when it came. -/
theorem offlineAuthorized_handleMessage (hm : codec.Inverts m) (hempty : codec.parse [] = some {})
    (hfile : s.persistenceFile ≠ "") :
    (s.handleMessage codec m now true).offlineAuthorized codec now = m.authorizes now := by
  obtain ⟨data, hdata, hparse⟩ := hm
  have hcontent : (s.handleMessage codec m now true).files
      (s.handleMessage codec m now true).persistenceFile = .content data := by
    rw [(handleMessage_frame codec s m now true).2]
    exact files_handleMessage hfile hdata
  rw [Bool.eq_iff_iff, offlineAuthorized_iff, (handleMessage_frame codec s m now true).2]
  rw [(handleMessage_frame codec s m now true).2] at hcontent
  constructor
  · rintro ⟨-, data', m', hdata', -, hparse', hauth⟩
    obtain rfl := FileState.content.inj (hcontent.symm.trans hdata')
    rwa [Option.some.inj (hparse.symm.trans hparse')]
  · intro hauth
    refine ⟨hfile, data, m, hcontent, ?_, hparse, hauth⟩
    -- the empty file is the empty message, which authorizes nothing
    rintro rfl
    obtain rfl := Option.some.inj (hempty.symm.trans hparse)
    simp [LicenseResp.authorizes] at hauth

/-- **Online and offline decisions agree** after any sequence of messages. -/
theorem offline_agrees_with_online (ms : List (LicenseResp × ℤ)) (hmode : s.mode = .online)
    (hfile : s.persistenceFile ≠ "") (hm : codec.Inverts m) (hempty : codec.parse [] = some {}) :
    let t := s.handleMessages codec (ms ++ [(m, now)])
    (({ t with mode := .offline }.checkAuthorization codec now).2 = true ↔
        t.auth.authState = .online) ∧
      ({ t with mode := .offline }.checkAuthorization codec now).1.auth.authState =
        t.auth.authState := by
  have hlast : s.handleMessages codec (ms ++ [(m, now)]) =
      (s.handleMessages codec ms).handleMessage codec m now true := by
    simp [Manager.handleMessages]
  obtain ⟨hmode', hfile'⟩ := handleMessages_frame codec s ms
  rw [hlast]
  generalize s.handleMessages codec ms = u at *
  have hmodeU : u.mode = .online := hmode'.trans hmode
  have hoffline : ({ u.handleMessage codec m now true with mode := .offline } :
      Manager).offlineAuthorized codec now = m.authorizes now :=
    offlineAuthorized_handleMessage hm hempty (by rwa [hfile'])
  have hcheck : ({ u.handleMessage codec m now true with mode := .offline } :
      Manager).checkAuthorization codec now =
      ({ u.handleMessage codec m now true with mode := .offline } :
        Manager).checkOfflineAuthorization codec now := rfl
  dsimp only
  rw [hcheck]
  unfold Manager.checkOfflineAuthorization
  rw [hoffline]
  refine ⟨(online_handleMessage_iff hmodeU).symm, ?_⟩
  rw [Manager.authState_updateAuthState, authState_handleMessage hmodeU]

/-- `demoCodec`, with the empty message. -/
def demoCodecEmpty : Codec where
  serialize m := if m = {} then some [] else demoCodec.serialize m
  parse data := if data = [] then some {} else demoCodec.parse data

/-- A license, and then the empty message. -/
theorem offline_agrees_with_online_emptied :
    let t := ({ mode := .online, persistenceFile := "auth.dat" } : Manager).handleMessages
      demoCodecEmpty ([(demoLicense, 50)] ++ [(({} : LicenseResp), (100 : ℤ))])
    (({ t with mode := .offline }.checkAuthorization demoCodecEmpty 100).2 = true ↔
        t.auth.authState = .online) ∧
      ({ t with mode := .offline }.checkAuthorization demoCodecEmpty 100).1.auth.authState =
        t.auth.authState :=
  @offline_agrees_with_online demoCodecEmpty { mode := .online, persistenceFile := "auth.dat" }
    {} 100 [(demoLicense, 50)] rfl (by decide) ⟨[], rfl, rfl⟩ rfl

end Zurg.Auth
