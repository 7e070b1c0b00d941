import Zurg.Auth.Manager
import Zurg.Lib.History

/-!
# Zurg.Auth.Persist — `PersistMessage` and a check that reads the file meanwhile

`PersistMessage` truncates the file when it opens it, and writes the license in pieces;
`CheckOfflineAuthorization` reads the file in pieces, without the mutex.  A check answers for the old
license or for the new one, and a license that cannot be persisted leaves the old one in place, if
nothing is read while bytes of the new license are missing, the file is not truncated while it is
being read, and no write fails (`persisted_atomically`).

The model assumes that the check can open the file, which is there all the time.
-/

namespace Zurg.Auth

open Lib Proto

/-- Where `PersistMessage` stands. -/
inductive Writer
  /-- About to serialize the license, and to open the file. -/
  | opening
  /-- The file is open; these bytes are not in it yet. -/
  | writing (rest : Bytes)
  | ended
  deriving DecidableEq, Repr

/-- Where `CheckOfflineAuthorization` stands. -/
inductive Reader
  | idle
  /-- The file is open, and these bytes have been read. -/
  | reading (got : Bytes)
  /-- The end of the file has been found. -/
  | evaluating (data : Bytes)
  deriving DecidableEq, Repr

/-- The bytes that are not in the file yet. -/
def Writer.missing : Writer → Bytes
  | .writing rest => rest
  | _ => []

/-- The bytes that have been read before the end of the file has been found. -/
def Reader.got : Reader → Bytes
  | .reading got => got
  | _ => []

/-- The persistence file and its two users. -/
structure Persistence where
  file : Bytes
  writer : Writer := .opening
  reader : Reader := .idle
  deriving DecidableEq, Repr

inductive PersistAct
  /-- `SerializeToString` fails. -/
  | serializeFails
  /-- `PersistMessage` opens the file, if it can. -/
  | openWrite (ok : Bool)
  /-- Some of the missing bytes reach the file. -/
  | write (n : ℕ)
  | writeFails
  | close
  /-- A check opens the file. -/
  | openRead
  /-- It reads at most so many bytes. -/
  | read (n : ℕ)
  | evaluate (now : ℤ)
  deriving DecidableEq, Repr

inductive PersistEvent
  | persisted
  | failed
  /-- A check begins. -/
  | began
  | answered (now : ℤ) (authorized : Bool)
  deriving DecidableEq, Repr

/-- What `CheckOfflineAuthorization` makes of the bytes it has read. -/
def authorizedBy (codec : Codec) (data : Bytes) (now : ℤ) : Bool :=
  if data = [] then false
  else match codec.parse data with
    | none => false
    | some m => m.authorizes now

namespace Persistence

variable (codec : Codec) (m : LicenseResp) (s : Persistence)

def step : PersistAct → Option (Persistence × List PersistEvent)
  | .serializeFails =>
    if s.writer = .opening ∧ codec.serialize m = none then
      some ({ s with writer := .ended }, [.failed])
    else none
  | .openWrite ok =>
    match s.writer, codec.serialize m with
    | .opening, some data =>
      if ok then some ({ s with file := [], writer := .writing data }, [])
      else some ({ s with writer := .ended }, [.failed])
    | _, _ => none
  | .write n =>
    match s.writer with
    | .writing rest =>
      some ({ s with file := s.file ++ rest.take n, writer := .writing (rest.drop n) }, [])
    | _ => none
  | .writeFails =>
    match s.writer with
    | .writing _ => some ({ s with writer := .ended }, [.failed])
    | _ => none
  | .close =>
    if s.writer = .writing [] then some ({ s with writer := .ended }, [.persisted]) else none
  | .openRead =>
    if s.reader = .idle then some ({ s with reader := .reading [] }, [.began]) else none
  | .read n =>
    match s.reader with
    | .reading got =>
      if n = 0 then none
      else
        -- a read that brings nothing has found the end
        match (s.file.drop got.length).take n with
        | [] => some ({ s with reader := .evaluating got }, [])
        | piece => some ({ s with reader := .reading (got ++ piece) }, [])
    | _ => none
  | .evaluate now =>
    match s.reader with
    | .evaluating data =>
      some ({ s with reader := .idle }, [.answered now (authorizedBy codec data now)])
    | _ => none

end Persistence

/-- `PersistMessage` of `m`, and any number of checks one after the other. -/
def persistence (codec : Codec) (old : Bytes) (m : LicenseResp) :
    Machine Persistence PersistAct PersistEvent where
  init := { file := old }
  step s x := s.step codec m x

/-- Each check answers for the old license or for the new one; a check that begins after the new one
could not be persisted answers for the old one. -/
def Atomically (codec : Codec) (old : Bytes) (m : LicenseResp) : List PersistEvent → Prop :=
  Always fun pre x => ∀ now authorized, x = .answered now authorized →
    (authorized = authorizedBy codec old now ∨
      ∃ data, codec.serialize m = some data ∧ authorized = authorizedBy codec data now) ∧
    (.failed ∈ pre → Since .failed pre .began → authorized = authorizedBy codec old now)

/-- The file is truncated while no check has read part of it, nothing is read while bytes of the new
license are missing, and no write fails. -/
def Unmixed (s : Persistence) : PersistAct → Prop
  | .openWrite ok => ok = true → s.reader.got = []
  | .read _ => s.writer.missing = []
  | .writeFails => False
  | _ => True

instance (s : Persistence) : ∀ x, Decidable (Unmixed s x)
  | .openWrite _ => inferInstanceAs (Decidable (_ → _))
  | .read _ => inferInstanceAs (Decidable (_ = _))
  | .writeFails => .isFalse id
  | .serializeFails | .write _ | .close | .openRead | .evaluate _ => .isTrue trivial

variable {codec : Codec} {old : Bytes} {m : LicenseResp} {s t : Persistence}
  {h e : List PersistEvent}

/-- What the file holds, and what a check has of it. -/
structure PersistInv (codec : Codec) (old : Bytes) (m : LicenseResp) (s : Persistence)
    (h : List PersistEvent) : Prop where
  opening : s.writer = .opening → s.file = old ∧ .failed ∉ h
  writing : ∀ rest, s.writer = .writing rest →
    codec.serialize m = some (s.file ++ rest) ∧ .failed ∉ h
  ended : s.writer = .ended → s.file = old ∨ codec.serialize m = some s.file ∧ .failed ∉ h
  reading : ∀ got, s.reader = .reading got → got = [] ∨
    got <+: s.file ∧ s.writer.missing = []
  evaluating : ∀ data, s.reader = .evaluating data → data = old ∨
    codec.serialize m = some data ∧ s.writer ≠ .opening ∧ .failed ∉ h
  answers : Atomically codec old m h

theorem persistInv_init : PersistInv codec old m { file := old } [] where
  opening _ := ⟨rfl, by simp⟩
  writing := nofun
  ended := nofun
  reading := nofun
  evaluating := nofun
  answers := .nil

/-- An event that is no answer. -/
theorem Atomically.snoc {x : PersistEvent} (hA : Atomically codec old m h)
    (hx : ∀ now authorized, x ≠ .answered now authorized) : Atomically codec old m (h ++ [x]) :=
  Always.snoc hA fun now authorized heq => absurd heq (hx now authorized)

/-- The end of the file: all of it has been read. -/
theorem eq_of_read_nil {got file : Bytes} {n : ℕ} (hn : n ≠ 0) (hgot : got = [] ∨ got <+: file)
    (hread : (file.drop got.length).take n = []) : got = file := by
  have hdrop : file.drop got.length = [] := (List.take_eq_nil_iff.mp hread).resolve_left hn
  rcases hgot with rfl | hgot
  · simpa using hdrop.symm
  · exact hgot.eq_of_length_le (List.drop_eq_nil_iff.mp hdrop)

/-- What is read continues what has been read. -/
theorem isPrefix_read {got file : Bytes} (n : ℕ) (hgot : got = [] ∨ got <+: file) :
    got ++ (file.drop got.length).take n <+: file := by
  have hgot : got <+: file := hgot.elim (fun hnil => hnil ▸ List.nil_prefix) id
  obtain ⟨rest, rfl⟩ := hgot
  rw [List.drop_left, List.prefix_append_right_inj]
  exact List.take_prefix n rest

namespace PersistInv

/-- What is in the file while no bytes are missing. -/
theorem whole (hI : PersistInv codec old m s h) (hw : s.writer.missing = []) :
    s.file = old ∨ codec.serialize m = some s.file ∧ s.writer ≠ .opening ∧ .failed ∉ h := by
  cases hwriter : s.writer with
  | opening => exact .inl (hI.opening hwriter).1
  | writing rest =>
    obtain ⟨hfile, hfailed⟩ := hI.writing rest hwriter
    rw [hwriter] at hw
    rw [show rest = [] from hw, List.append_nil] at hfile
    exact .inr ⟨hfile, nofun, hfailed⟩
  | ended => exact (hI.ended hwriter).imp_right fun ⟨hfile, hfailed⟩ => ⟨hfile, nofun, hfailed⟩

/-- The license cannot be persisted, and the file has not been touched. -/
theorem failed (hI : PersistInv codec old m s h) (hw : s.writer = .opening) :
    PersistInv codec old m { s with writer := .ended } (h ++ [.failed]) where
  opening := nofun
  writing := nofun
  ended _ := .inl (hI.opening hw).1
  reading got hgot := (hI.reading got hgot).imp_right fun hp => ⟨hp.1, rfl⟩
  evaluating data hdata := .inl ((hI.evaluating data hdata).resolve_right fun hn => hn.2.1 hw)
  answers := hI.answers.snoc nofun

/-- The file is truncated, and no check has read part of it. -/
theorem truncated (hI : PersistInv codec old m s h) (hw : s.writer = .opening) {data : Bytes}
    (hdata : codec.serialize m = some data) (hread : s.reader.got = []) :
    PersistInv codec old m { s with writer := .writing data, file := [] } h where
  opening := nofun
  writing rest hrest := by
    obtain rfl := Writer.writing.inj hrest
    exact ⟨hdata, (hI.opening hw).2⟩
  ended := nofun
  reading got hgot := by
    rw [show s.reader = .reading got from hgot] at hread
    exact .inl hread
  evaluating data' hdata' := .inl ((hI.evaluating data' hdata').resolve_right fun hn => hn.2.1 hw)
  answers := hI.answers

theorem written (hI : PersistInv codec old m s h) {rest : Bytes} (hw : s.writer = .writing rest)
    (n : ℕ) :
    PersistInv codec old m
      { s with writer := .writing (rest.drop n), file := s.file ++ rest.take n } h := by
  obtain ⟨hfile, hfailed⟩ := hI.writing rest hw
  refine ⟨nofun, fun rest' hrest => ?_, nofun, fun got hgot => ?_, fun data hdata => ?_,
    hI.answers⟩
  · obtain rfl := Writer.writing.inj hrest
    rw [List.append_assoc, List.take_append_drop]
    exact ⟨hfile, hfailed⟩
  · refine (hI.reading got hgot).imp_right fun ⟨hp, hrest⟩ => ?_
    rw [hw] at hrest
    obtain rfl : rest = [] := hrest
    exact ⟨by simpa using hp, by simp [Writer.missing]⟩
  · exact (hI.evaluating data hdata).imp_right fun ⟨hd, _, hf⟩ => ⟨hd, nofun, hf⟩

theorem closed (hI : PersistInv codec old m s h) (hw : s.writer = .writing []) :
    PersistInv codec old m { s with writer := .ended } (h ++ [.persisted]) := by
  obtain ⟨hfile, hfailed⟩ := hI.writing [] hw
  rw [List.append_nil] at hfile
  refine ⟨nofun, nofun, fun _ => .inr ⟨hfile, by simpa using hfailed⟩, fun got hgot => ?_,
    fun data hdata => ?_, hI.answers.snoc nofun⟩
  · exact (hI.reading got hgot).imp_right fun hp => ⟨hp.1, rfl⟩
  · exact (hI.evaluating data hdata).imp_right fun ⟨hd, _, hf⟩ => ⟨hd, nofun, by simpa using hf⟩

/-- The steps of a check change nothing for the writer. -/
theorem reader (hI : PersistInv codec old m s h) {r : Reader} {e : List PersistEvent}
    (he : .failed ∉ e) (hreading : ∀ got, r = .reading got → got = [] ∨
      got <+: s.file ∧ s.writer.missing = [])
    (hevaluating : ∀ data, r = .evaluating data → data = old ∨
      codec.serialize m = some data ∧ s.writer ≠ .opening ∧ .failed ∉ h)
    (hanswers : Atomically codec old m (h ++ e)) :
    PersistInv codec old m { s with reader := r } (h ++ e) where
  opening hw := by simpa [he] using hI.opening hw
  writing rest hw := by simpa [he] using hI.writing rest hw
  ended hw := by simpa [he] using hI.ended hw
  reading := hreading
  evaluating data hdata := by simpa [he] using hevaluating data hdata
  answers := hanswers

theorem read (hI : PersistInv codec old m s h) {got : Bytes} (hr : s.reader = .reading got) (n : ℕ)
    (hn : n ≠ 0) (hwhole : s.writer.missing = []) :
    ((s.file.drop got.length).take n = [] →
      PersistInv codec old m { s with reader := .evaluating got } (h ++ [])) ∧
    PersistInv codec old m
      { s with reader := .reading (got ++ (s.file.drop got.length).take n) } (h ++ []) := by
  have hgot := (hI.reading got hr).imp_right And.left
  have hanswers : Atomically codec old m (h ++ []) := (List.append_nil h).symm ▸ hI.answers
  refine ⟨fun hread => ?_, ?_⟩
  · refine hI.reader (by simp) nofun (fun data hdata => ?_) hanswers
    obtain rfl := Reader.evaluating.inj hdata
    rw [eq_of_read_nil hn hgot hread]
    exact hI.whole hwhole
  · refine hI.reader (by simp) (fun got' hgot' => .inr ?_) nofun hanswers
    obtain rfl := Reader.reading.inj hgot'
    exact ⟨isPrefix_read n hgot, hwhole⟩

theorem evaluated (hI : PersistInv codec old m s h) {data : Bytes}
    (hr : s.reader = .evaluating data) (now : ℤ) :
    PersistInv codec old m { s with reader := .idle }
      (h ++ [.answered now (authorizedBy codec data now)]) := by
  refine hI.reader (by simp) nofun nofun (Always.snoc hI.answers fun now' authorized heq => ?_)
  obtain ⟨rfl, rfl⟩ := PersistEvent.answered.inj heq
  rcases hI.evaluating data hr with rfl | ⟨hdata, -, hfailed⟩
  · exact ⟨.inl rfl, fun _ _ => rfl⟩
  · exact ⟨.inr ⟨data, hdata, rfl⟩, fun hf => absurd hf hfailed⟩

theorem step {x : PersistAct} (hI : PersistInv codec old m s h) (hC : Unmixed s x)
    (hst : s.step codec m x = some (t, e)) : PersistInv codec old m t (h ++ e) := by
  cases x with
  | serializeFails =>
    obtain ⟨⟨hw, -⟩, rfl, rfl⟩ := Machine.guarded_iff.mp hst
    exact hI.failed hw
  | openWrite ok =>
    simp only [Persistence.step] at hst
    split at hst
    · next data hw hdata =>
      split_ifs at hst with hok <;> obtain ⟨rfl, rfl⟩ := Prod.mk.inj (Option.some.inj hst)
      · rw [List.append_nil]
        exact hI.truncated hw hdata (hC hok)
      · exact hI.failed hw
    · simp at hst
  | write n =>
    simp only [Persistence.step] at hst
    split at hst
    · next rest hw =>
      obtain ⟨rfl, rfl⟩ := Prod.mk.inj (Option.some.inj hst)
      rw [List.append_nil]
      exact hI.written hw n
    · simp at hst
  | writeFails => exact hC.elim
  | close =>
    obtain ⟨hw, rfl, rfl⟩ := Machine.guarded_iff.mp hst
    exact hI.closed hw
  | openRead =>
    obtain ⟨-, rfl, rfl⟩ := Machine.guarded_iff.mp hst
    exact hI.reader (by simp) (fun got hgot => .inl (Reader.reading.inj hgot).symm) nofun
      (hI.answers.snoc nofun)
  | read n =>
    simp only [Persistence.step] at hst
    split at hst
    · next got hr =>
      rw [Option.ite_none_left_eq_some] at hst
      obtain ⟨hn, hst⟩ := hst
      split at hst <;> obtain ⟨rfl, rfl⟩ := Prod.mk.inj (Option.some.inj hst)
      · next hread => exact (hI.read hr n hn hC).1 hread
      · exact (hI.read hr n hn hC).2
    · simp at hst
  | evaluate now =>
    simp only [Persistence.step] at hst
    split at hst
    · next data hr =>
      obtain ⟨rfl, rfl⟩ := Prod.mk.inj (Option.some.inj hst)
      exact hI.evaluated hr now
    · simp at hst

end PersistInv

theorem persistInv_of_run (r : (persistence codec old m).Run Unmixed s h) :
    PersistInv codec old m s h :=
  Machine.Run.invariant persistInv_init (fun _ hI hC hst => hI.step hC hst) r

/-! ## One after the other -/

/-- The answer of the manager in offline mode. -/
theorem Manager.offlineAuthorized_eq {a : Manager} {data : Bytes} {now : ℤ}
    (hpath : a.persistenceFile ≠ "") (hfile : a.files a.persistenceFile = .content data) :
    a.offlineAuthorized codec now = authorizedBy codec data now := by
  cases hparse : codec.parse data <;>
    simp [Manager.offlineAuthorized, authorizedBy, hpath, hfile, hparse]

/-- A check that nobody disturbs answers for what is in the file. -/
theorem steps_check (hr : s.reader = .idle) (now : ℤ) :
    (persistence codec old m).Steps (fun _ _ => True) s s
      [.began, .answered now (authorizedBy codec s.file now)] := by
  have hbegin : (persistence codec old m).Steps (fun _ _ => True) s
      { s with reader := .reading [] } [.began] :=
    .single (a := .openRead) trivial (by simp [persistence, Persistence.step, hr])
  have hread : (persistence codec old m).Steps (fun _ _ => True) { s with reader := .reading [] }
      { s with reader := .reading s.file } [] := by
    by_cases hnil : s.file = []
    · rw [hnil]
      exact .refl
    · refine .single (a := .read s.file.length) trivial ?_
      simp only [persistence, Persistence.step, List.length_nil, List.drop_zero, List.take_length,
        List.length_eq_zero_iff, if_neg hnil]
      rfl
  have hend : (persistence codec old m).Steps (fun _ _ => True)
      { s with reader := .reading s.file } { s with reader := .evaluating s.file } [] :=
    .single (a := .read 1) trivial (by simp [persistence, Persistence.step])
  have hanswer : (persistence codec old m).Steps (fun _ _ => True)
      { s with reader := .evaluating s.file } s
      [.answered now (authorizedBy codec s.file now)] := by
    refine .single (a := .evaluate now) trivial ?_
    simp only [persistence, Persistence.step, Option.some.injEq, Prod.mk.injEq, and_true]
    rw [← hr]
  exact ((hbegin.trans hread).trans hend).trans hanswer

/-- `PersistMessage` that nobody disturbs leaves the file as that of the manager does. -/
theorem persistMessage_reach {a : Manager} {opened : Bool} (hpath : a.persistenceFile ≠ "")
    (hfile : a.files a.persistenceFile = .content old) : ∃ file k,
      (persistence codec old m).Run Unmixed { file, writer := .ended } k ∧
      (a.persistMessage codec m opened).files a.persistenceFile = .content file := by
  unfold Manager.persistMessage
  rw [if_neg hpath]
  cases hdata : codec.serialize m with
  | none =>
    refine ⟨old, [.failed], .single (a := PersistAct.serializeFails) trivial ?_, hfile⟩
    simp [persistence, Persistence.step, hdata]
  | some data =>
    cases opened with
    | false =>
      refine ⟨old, [.failed], .single (a := PersistAct.openWrite false) nofun ?_, hfile⟩
      simp [persistence, Persistence.step, hdata]
    | true =>
      have hopen : (persistence codec old m).Run Unmixed { file := [], writer := .writing data }
          [] := by
        refine .single (a := PersistAct.openWrite true) (fun _ => rfl) ?_
        simp [persistence, Persistence.step, hdata]
      have hwrite : (persistence codec old m).Steps Unmixed { file := [], writer := .writing data }
          { file := data, writer := .writing [] } [] :=
        .single (a := PersistAct.write data.length) trivial
          (by simp [persistence, Persistence.step])
      have hclose : (persistence codec old m).Steps Unmixed { file := data, writer := .writing [] }
          { file := data, writer := .ended } [.persisted] :=
        .single (a := PersistAct.close) trivial (by simp [persistence, Persistence.step])
      exact ⟨data, _, (hopen.trans hwrite).trans hclose, by simp [Manager.setFile]⟩

/-! ## Atomicity -/

/-- **The license is replaced atomically** in every run in which the check and `PersistMessage` are
not mixed and no write fails.  But a check between the truncation and the first write answers no,
and so does a check after a write that has failed. -/
theorem persisted_atomically (r : (persistence codec old m).Run Unmixed s h) :
    Atomically codec old m h ∧
    ∀ data now, codec.serialize m = some data →
      (∃ t, (persistence codec old m).Reach t [.began, .answered now false]) ∧
      ∃ t, (persistence codec old m).Reach t [.failed, .began, .answered now false] := by
  refine ⟨(persistInv_of_run r).answers, fun data now hdata => ?_⟩
  have hopen : (persistence codec old m).Reach { file := [], writer := .writing data } [] := by
    refine .single (a := .openWrite true) trivial ?_
    simp [persistence, Persistence.step, hdata]
  have hlost : (persistence codec old m).Reach { file := [], writer := .ended } [.failed] :=
    Machine.Steps.trans (h := []) hopen (.single (a := .writeFails) trivial rfl)
  exact ⟨⟨_, Machine.Steps.trans (h := []) hopen (steps_check rfl now)⟩,
    ⟨_, hlost.trans (steps_check rfl now)⟩⟩

/-- A check before the file is opened for writing, and one after the license has been written. -/
def beforeAndAfter : List PersistAct :=
  [.openRead, .read 9, .evaluate 100, .openWrite true, .write 2, .write 2, .close, .openRead,
    .read 3, .read 3, .read 3, .evaluate 100]

theorem persisted_atomically_beforeAndAfter : ∃ s h,
    (persistence demoCodec [] demoLicense).Run Unmixed s h ∧ .answered 100 false ∈ h ∧
    .answered 100 true ∈ h ∧ Atomically demoCodec [] demoLicense h := by
  obtain ⟨s, h, r, hbefore, hafter⟩ := Machine.exists_run_schedule
    (persistence demoCodec [] demoLicense) Unmixed beforeAndAfter
    (P := fun q => .answered 100 false ∈ q.2 ∧ .answered 100 true ∈ q.2) (by decide +kernel)
  exact ⟨s, h, r, hbefore, hafter, (persisted_atomically r).1⟩

/-- Both licenses authorize the client, and a check in between finds the file empty. -/
theorem not_persisted_atomically : ¬ ∀ codec old new m s h, codec.serialize old = some new →
    (persistence codec new m).Reach s h → Atomically codec new m h := by
  intro hall
  have hserialize : demoCodec.serialize demoLicense = some [0x12, 0x02, 0x50, 0x3c] := rfl
  have hanswers : ∀ data, demoCodec.serialize demoLicense = some data →
      authorizedBy demoCodec data 100 = true := by
    intro data hdata
    obtain rfl := Option.some.inj (hserialize.symm.trans hdata)
    rfl
  have r := Machine.run_schedule (persistence demoCodec [0x12, 0x02, 0x50, 0x3c] demoLicense)
    (fun _ _ => True) [.openWrite true, .openRead, .read 1, .evaluate 100] rfl
  have hthird := (hall _ demoLicense _ demoLicense _ _ hserialize r [.began] _ [] rfl 100 false
    rfl).1
  rcases hthird with hold | ⟨data, hdata, hnew⟩
  · exact nomatch hold.trans (hanswers _ hserialize)
  · exact nomatch hnew.trans (hanswers data hdata)

end Zurg.Auth
