import Zurg.LoggerManager.Registry

/-!
# Zurg.LoggerManager.Deleter — the deleter of a logger and `st.mu`

A call destroys its temporary references with `st.mu` held, and `shutdown` those of spdlog's
registry, so none of them must be the last.  None is in every run in which a reference to a logger
is kept as long as a call has a temporary one, and users keep one to each logger that `shutdown`
takes from spdlog's registry; and only in these (`deleter_unlocked`).  `logger` hands its reference
to the caller, and is safe.
-/

namespace Zurg.Logging

open Lib

def Pc.isDeleting : Pc → Bool
  | .deleting _ _ => true
  | _ => false

/-- The call iterates over `st.loggers`. -/
def Call.Iterates (c : Call) : Prop :=
  match c.op, c.pc with
  | _, .cleaning _ => False
  | .init _, _ | .addSink _, _ | .listLoggers, _ => True
  | _, _ => False

namespace Process

variable (s : Process)

/-- The thread that holds `st.mu` has called the deleter, and waits for `st.mu`. -/
def DeletesLocked : Prop := ∃ c ∈ s.call, c.pc.isDeleting = true

instance : Decidable s.DeletesLocked := inferInstanceAs (Decidable (∃ _ ∈ s.call, _))

/-- Users have a reference to each logger that spdlog's registry has. -/
def UsersHold : Prop := ∀ id ∈ s.registered, s.UserHolds id

instance : Decidable s.UsersHold := inferInstanceAs (Decidable (∀ _ ∈ _, _))

end Process

/-- Neither a user nor `spdlog::drop` destroys the last reference beside the temporary one of a
call.  And users have a reference to each logger in spdlog's registry when `shutdown` is called, and
keep one until it has returned. -/
def KeepsHeld (s : Process) : Act → Prop
  | .release id => (s.held = some id → id ∈ s.refs.erase id) ∧
      (s.drops = true → ({ s with refs := s.refs.erase id } : Process).UsersHold)
  | .drop id => s.held = some id → id ∈ s.refs.erase id
  | .call .shutdown => s.UsersHold
  | _ => True

instance (s : Process) : ∀ x, Decidable (KeepsHeld s x)
  | .release _ => inferInstanceAs (Decidable ((_ → _) ∧ (_ → _)))
  | .drop _ => inferInstanceAs (Decidable (_ → _))
  | .call .shutdown => inferInstanceAs (Decidable s.UsersHold)
  | .call (.init _) | .call (.addSink _) | .call (.logger _) | .call (.setLevel _ _)
  | .call .listLoggers | .call (.removeLoggerInternal _ _) | .proceed | .acquire _ | .register _
  | .delete _ | .setSinkPattern _ _ => .isTrue trivial

/-- A reference is left beside the temporary one, and users have one to each logger that is taken
from spdlog's registry. -/
structure HeldInv (s : Process) : Prop where
  held : ∀ id, s.held = some id → id ∈ s.refs
  dropping : ∀ c rest, s.call = some c → c.pc = .dropping rest →
    rest = s.registered ∧ s.UsersHold
  unlocked : ¬ s.DeletesLocked

variable {s t : Process} {h e : List Event} {c : Call} {name : String} {id : ℕ}

theorem deletesLocked_iff (hc : s.call = some c) : s.DeletesLocked ↔ c.pc.isDeleting = true := by
  simp [Process.DeletesLocked, hc]

theorem heldInv_of_idle (hc : t.call = none) : HeldInv t where
  held id hid := by simp [Process.held, hc] at hid
  dropping c rest hc' := nomatch hc.symm.trans hc'
  unlocked := by simp [Process.DeletesLocked, hc]

theorem heldInv_of_call (hc : t.call = some c) (hheld : ∀ id, c.pc.temp = some id → id ∈ t.refs)
    (hpc : c.pc.isDeleting = false ∧ c.pc.isDropping = false) : HeldInv t where
  held id hid := hheld id (by rwa [Process.held_of_call hc] at hid)
  dropping c' rest hc' hpc' := by
    obtain rfl := Option.some.inj (hc.symm.trans hc')
    simp [hpc', Pc.isDropping] at hpc
  unlocked := by simp [deletesLocked_iff hc, hpc.1]

theorem heldInv_of_dropping {rest : List ℕ} (hc : t.call = some c) (hpc : c.pc = .dropping rest)
    (hreg : rest = t.registered) (huse : t.UsersHold) : HeldInv t where
  held id hid := by
    rw [Process.held_of_call hc, hpc] at hid
    exact nomatch hid
  dropping c' rest' hc' hpc' := by
    obtain rfl := Option.some.inj (hc.symm.trans hc')
    obtain rfl := Pc.dropping.inj (hpc.symm.trans hpc')
    exact ⟨hreg, huse⟩
  unlocked := by simp [deletesLocked_iff hc, hpc, Pc.isDeleting]

/-- What is left when spdlog's registry destroys the first of its references. -/
theorem usersHold_drop {refs rest : List ℕ}
    (huse : ∀ i ∈ id :: rest, (id :: rest).count i < refs.count i) :
    id ∈ refs.erase id ∧ ∀ i ∈ rest, rest.count i < (refs.erase id).count i := by
  have hid := huse id List.mem_cons_self
  rw [List.count_cons_self] at hid
  refine ⟨List.count_pos_iff.mp ?_, fun i hi => ?_⟩
  · rw [List.count_erase_self]
    omega
  · have hlt := huse i (List.mem_cons_of_mem _ hi)
    by_cases heq : i = id
    · subst heq
      rw [List.count_erase_self]
      omega
    · rw [List.count_cons_of_ne (Ne.symm heq)] at hlt
      rwa [List.count_erase_of_ne heq]

theorem refs_onLive (s : Process) (c : Call) (name : String) (id : ℕ) :
    (s.onLive c name id).1.refs = s.refs := by
  unfold Process.onLive
  split
  all_goals try rfl
  split_ifs <;> rfl

namespace HeldInv

theorem visit {rest : List String} (hc : s.call = some c) (hpc : c.pc = .visiting (name :: rest)) :
    HeldInv (s.visit c name rest).1 := by
  unfold Process.visit
  split
  · unfold Process.makeLoggerLocked
    split <;> exact heldInv_of_idle rfl
  · unfold Process.lookUp
    cases hlock : s.lock name with
    | some id =>
      -- the user of the logger is another one than this call
      have hid : id ∈ s.refs := (Process.lock_eq_some.mp hlock).2.resolve_right fun hheld => by
        rw [Process.held_of_call hc, hpc] at hheld
        exact nomatch hheld
      refine heldInv_of_call rfl (fun i hi => ?_) ⟨rfl, rfl⟩
      obtain rfl := Option.some.inj hi
      exact (refs_onLive s c name id).symm ▸ hid
    | none => exact heldInv_of_call rfl nofun ⟨rfl, rfl⟩

theorem proceed (hI : HeldInv s) (hc : s.call = some c) (hst : s.proceed c = some (t, e)) :
    HeldInv t := by
  unfold Process.proceed at hst
  split at hst
  · obtain ⟨rfl, rfl⟩ := Prod.mk.inj (Option.some.inj hst)
    exact heldInv_of_call rfl nofun ⟨rfl, rfl⟩
  · obtain ⟨rfl, rfl⟩ := Prod.mk.inj (Option.some.inj hst)
    exact heldInv_of_call rfl nofun ⟨rfl, rfl⟩
  · next hpc =>
    obtain ⟨rfl, rfl⟩ := Prod.mk.inj (Option.some.inj hst)
    exact visit hc hpc
  · obtain ⟨rfl, rfl⟩ := Prod.mk.inj (Option.some.inj hst)
    exact heldInv_of_idle rfl
  · next id rest hpc =>
    obtain ⟨rfl, rfl⟩ := Prod.mk.inj (Option.some.inj hst)
    have hid : id ∈ s.refs := hI.held id (by rw [Process.held_of_call hc, hpc]; rfl)
    rw [if_pos hid]
    exact heldInv_of_call rfl nofun ⟨rfl, rfl⟩
  · next id rest hpc =>
    obtain ⟨rfl, rfl⟩ := Prod.mk.inj (Option.some.inj hst)
    obtain ⟨hreg, huse⟩ := hI.dropping c _ hc hpc
    unfold Process.UsersHold Process.UserHolds at huse
    rw [← hreg] at huse
    obtain ⟨hid, huse'⟩ := usersHold_drop huse
    simp only [if_pos hid]
    exact heldInv_of_dropping rfl rfl rfl huse'
  · obtain ⟨rfl, rfl⟩ := Prod.mk.inj (Option.some.inj hst)
    exact heldInv_of_idle rfl
  · exact nomatch hst

theorem enter (hI : HeldInv s) (op : Op) (hC : op = .shutdown → s.UsersHold) :
    HeldInv (s.enter op).1 := by
  have hcleaning : ∀ {u : Process} {op : Op},
      HeldInv { u with call := some ⟨op, .cleaning u.loggers.keys, []⟩ } :=
    heldInv_of_call rfl nofun ⟨rfl, rfl⟩
  cases op with
  | shutdown => exact heldInv_of_dropping rfl rfl rfl (hC rfl)
  | init | listLoggers => exact hcleaning
  | addSink sink =>
    cases sink with
    | none => exact hI
    | some sink =>
      unfold Process.enter
      split_ifs
      · exact hI
      · exact hcleaning
  | logger | setLevel =>
    unfold Process.enter
    split_ifs
    · exact hI
    · exact hcleaning
  | removeLoggerInternal => exact hI

/-- The same call, and a reference to the logger it holds. -/
theorem same (hI : HeldInv s) (hcall : t.call = s.call)
    (hrefs : ∀ id, s.held = some id → id ∈ s.refs → id ∈ t.refs)
    (hdrop : s.drops = true → t.registered = s.registered ∧ t.UsersHold) : HeldInv t where
  held id hid := by
    have hid : s.held = some id := by rwa [Process.held, hcall] at hid
    exact hrefs id hid (hI.held id hid)
  dropping c rest hc hpc := by
    rw [hcall] at hc
    obtain ⟨hreg, huse⟩ := hdrop (by simp [Process.drops, hc, hpc, Pc.isDropping])
    exact ⟨(hI.dropping c rest hc hpc).1.trans hreg.symm, huse⟩
  unlocked := by
    rw [Process.DeletesLocked, hcall]
    exact hI.unlocked

theorem usersHold (hI : HeldInv s) (hd : s.drops = true) : s.UsersHold := by
  unfold Process.drops at hd
  cases hc : s.call with
  | none => simp [hc] at hd
  | some c =>
    cases hpc : c.pc with
    | dropping rest => exact (hI.dropping c rest hc hpc).2
    | _ => simp [hc, hpc, Pc.isDropping] at hd

/-- A reference is destroyed outside `st.mu`. -/
theorem release (hI : HeldInv s) {registered : List ℕ}
    (hheld : s.held = some id → id ∈ s.refs.erase id)
    (hdrop : s.drops = true → registered = s.registered ∧
      ({ s with refs := s.refs.erase id } : Process).UsersHold) :
    HeldInv (({ s with registered } : Process).release id) := by
  have hrefs : ∀ i, s.held = some i → i ∈ s.refs → i ∈ s.refs.erase id := by
    intro i hi hmem
    by_cases hid : i = id
    · exact hid ▸ hheld (hid ▸ hi)
    · exact (List.mem_erase_of_ne hid).mpr hmem
  have hdrop' : s.drops = true → registered = s.registered ∧
      ∀ i ∈ registered, registered.count i < (s.refs.erase id).count i := by
    intro hd
    obtain ⟨hreg, huse⟩ := hdrop hd
    exact ⟨hreg, hreg ▸ huse⟩
  unfold Process.release
  dsimp only
  split_ifs <;> exact hI.same rfl hrefs hdrop'

theorem step {x : Act} (hI : HeldInv s) (hC : KeepsHeld s x) (hst : s.step x = some (t, e)) :
    HeldInv t := by
  have hnot : ∀ {P : Prop}, s.drops = false → s.drops = true → P := fun hf ht =>
    absurd (hf.symm.trans ht) Bool.false_ne_true
  cases x with
  | call op =>
    obtain ⟨-, heq⟩ := Option.ite_none_right_eq_some.mp hst
    have hnext := hI.enter op (by rintro rfl; exact hC)
    rwa [Option.some.inj heq] at hnext
  | proceed =>
    obtain ⟨c, hc, hst⟩ := Option.bind_eq_some_iff.mp hst
    exact hI.proceed hc hst
  | acquire id =>
    obtain ⟨-, rfl, rfl⟩ := Machine.guarded_iff.mp hst
    refine hI.same rfl (fun _ _ => List.mem_cons_of_mem _) fun hd => ⟨rfl, fun i hi => ?_⟩
    exact Nat.lt_of_lt_of_le (hI.usersHold hd i hi) (List.count_le_count_cons)
  | release id =>
    obtain ⟨-, rfl, rfl⟩ := Machine.guarded_iff.mp hst
    exact hI.release hC.1 fun hd => ⟨rfl, hC.2 hd⟩
  | register id =>
    obtain ⟨⟨-, hd⟩, rfl, rfl⟩ := Machine.guarded_iff.mp hst
    exact hI.same rfl (fun _ _ => List.mem_cons_of_mem _) (hnot hd)
  | drop id =>
    obtain ⟨⟨-, -, hd⟩, rfl, rfl⟩ := Machine.guarded_iff.mp hst
    exact hI.release hC (hnot hd)
  | delete id =>
    obtain ⟨-, rfl, rfl⟩ := Machine.guarded_iff.mp hst
    exact heldInv_of_call rfl nofun ⟨rfl, rfl⟩
  | setSinkPattern sink pattern =>
    obtain ⟨rfl, rfl⟩ := Prod.mk.inj (Option.some.inj hst)
    exact hI.same rfl (fun _ _ hmem => hmem) fun hd => ⟨rfl, hI.usersHold hd⟩

end HeldInv

theorem heldInv_of_run (r : loggerManager.Run KeepsHeld s h) : HeldInv s :=
  Machine.Run.invariant (I := fun s _ => HeldInv s) (heldInv_of_idle rfl)
    (fun _ hI hC hst => hI.step hC hst) r

/-- The thread that holds `st.mu` is not stuck. -/
theorem proceeds (hI : HeldInv s) (hc : s.call = some c) :
    ∃ q, s.step .proceed = some q := by
  have hpc : c.pc.isDeleting = false := by
    simpa [deletesLocked_iff hc] using hI.unlocked
  simp only [Process.step, hc, Option.bind_some, Process.proceed]
  split
  any_goals exact ⟨_, rfl⟩
  next heq => simp [heq, Pc.isDeleting] at hpc

theorem loggers_visit {rest : List String} (hit : c.Iterates) :
    (s.visit c name rest).1.loggers = s.loggers := by
  unfold Process.visit Process.lookUp Process.onLive Process.onExpired
  unfold Call.Iterates at hit
  cases hop : c.op with
  | init | addSink | listLoggers => cases s.lock name <;> rfl
  | logger | setLevel | shutdown | removeLoggerInternal =>
    cases hpc : c.pc <;> simp [hop, hpc] at hit

/-- Nothing changes `st.loggers` while a call iterates over it. -/
theorem loggers_of_iterates (hc : s.call = some c) (hit : c.Iterates) {x : Act}
    (hst : s.step x = some (t, e)) : t.loggers = s.loggers := by
  cases x with
  | call op => simp [Process.step, hc] at hst
  | delete id => simp [Process.step, hc] at hst
  | acquire id =>
    obtain ⟨-, rfl, rfl⟩ := Machine.guarded_iff.mp hst
    rfl
  | setSinkPattern sink pattern =>
    obtain ⟨rfl, rfl⟩ := Prod.mk.inj (Option.some.inj hst)
    rfl
  | register id =>
    obtain ⟨-, rfl, rfl⟩ := Machine.guarded_iff.mp hst
    rfl
  | release id | drop id =>
    obtain ⟨-, rfl, rfl⟩ := Machine.guarded_iff.mp hst
    unfold Process.release
    dsimp only
    split_ifs <;> rfl
  | proceed =>
    simp only [Process.step, hc, Option.bind_some, Process.proceed] at hst
    split at hst
    · next hpc => simp [Call.Iterates, hpc] at hit
    · next hpc => simp [Call.Iterates, hpc] at hit
    · obtain ⟨rfl, rfl⟩ := Prod.mk.inj (Option.some.inj hst)
      exact loggers_visit hit
    · obtain ⟨rfl, rfl⟩ := Prod.mk.inj (Option.some.inj hst)
      rfl
    · obtain ⟨rfl, rfl⟩ := Prod.mk.inj (Option.some.inj hst)
      rfl
    · obtain ⟨rfl, rfl⟩ := Prod.mk.inj (Option.some.inj hst)
      rfl
    · obtain ⟨rfl, rfl⟩ := Prod.mk.inj (Option.some.inj hst)
      rfl
    · simp at hst

/-! ## The condition is necessary -/

/-- The deleter runs under `st.mu` in a state that can be reached. -/
def MayDelete (s : Process) : Prop :=
  ∃ u k, loggerManager.Steps (fun _ _ => True) s u k ∧ u.DeletesLocked

/-- The temporary reference of a call is the last one. -/
theorem mayDelete_of_held (hheld : s.held = some id) (hlast : id ∉ s.refs) : MayDelete s := by
  obtain ⟨c, hc, htemp⟩ := Option.bind_eq_some_iff.mp hheld
  obtain ⟨rest, hpc⟩ : ∃ rest, c.pc = .holding id rest := by
    cases hpc : c.pc <;> simp [hpc, Pc.temp] at htemp
    exact ⟨_, by rw [htemp]⟩
  refine ⟨s.goto c (.deleting id rest), [], .single (a := .proceed) trivial ?_,
    (deletesLocked_iff rfl).mpr rfl⟩
  simp [loggerManager, Process.step, hc, Process.proceed, hpc, hlast]

/-- Of the references that spdlog's registry still destroys one is the last. -/
theorem mayDelete_of_dropping {rest : List ℕ} (hc : s.call = some c) (hpc : c.pc = .dropping rest)
    (hid : id ∈ rest) (hle : s.refs.count id ≤ rest.count id) : MayDelete s := by
  induction rest generalizing s c with
  | nil => exact nomatch hid
  | cons j rest ih =>
    let w : Process := { s with refs := s.refs.erase j, registered := rest }
    have hst : loggerManager.step s .proceed =
        some (w.goto c (if j ∈ w.refs then .dropping rest else .deleting j []), []) := by
      simp [loggerManager, Process.step, hc, Process.proceed, hpc, w]
    by_cases hj : j ∈ s.refs.erase j
    · rw [if_pos hj] at hst
      obtain ⟨hmem, hle'⟩ : id ∈ rest ∧ (s.refs.erase j).count id ≤ rest.count id := by
        by_cases hjd : id = j
        · subst hjd
          have hpos := List.count_pos_iff.mpr hj
          rw [List.count_cons_self] at hle
          rw [List.count_erase_self] at hpos ⊢
          exact ⟨List.count_pos_iff.mp (by omega), by omega⟩
        · rw [List.count_cons_of_ne (Ne.symm hjd)] at hle
          rw [List.count_erase_of_ne hjd]
          exact ⟨(List.mem_cons.mp hid).resolve_left hjd, hle⟩
      obtain ⟨u, k, hu, hdel⟩ := ih (s := w.goto c (.dropping rest)) rfl rfl hmem hle'
      exact ⟨u, _, (Machine.Steps.single (a := .proceed) trivial hst).trans hu, hdel⟩
    · rw [if_neg hj] at hst
      exact ⟨_, _, .single (a := .proceed) trivial hst, (deletesLocked_iff rfl).mpr rfl⟩

theorem mayDelete_of_not_usersHold {rest : List ℕ} (hc : s.call = some c)
    (hpc : c.pc = .dropping rest) (hreg : rest = s.registered) (huse : ¬ s.UsersHold) :
    MayDelete s := by
  simp only [Process.UsersHold, Process.UserHolds, not_forall, Nat.not_lt] at huse
  obtain ⟨id, hid, hle⟩ := huse
  exact mayDelete_of_dropping hc hpc (hreg ▸ hid) (hreg ▸ hle)

/-- A step against the condition. -/
theorem mayDelete_of_not_keepsHeld {x : Act} (hI : HeldInv s) (hst : s.step x = some (t, e))
    (hC : ¬ KeepsHeld s x) : MayDelete t := by
  have hlast : ∀ {registered : List ℕ} {id : ℕ}, s.held = some id → id ∉ s.refs.erase id →
      MayDelete (({ s with registered } : Process).release id) := by
    intro registered id hheld hlast
    have hrel : ({ s with registered } : Process).release id =
        { s with registered, refs := s.refs.erase id } := by
      unfold Process.release
      exact if_pos (.inr hheld)
    rw [hrel]
    exact mayDelete_of_held hheld hlast
  cases x with
  | call op =>
    obtain ⟨-, heq⟩ := Option.ite_none_right_eq_some.mp hst
    cases op with
    | shutdown =>
      obtain ⟨rfl, -⟩ := Prod.mk.inj (Option.some.inj heq)
      exact mayDelete_of_not_usersHold (s := s.shutdown) rfl rfl rfl hC
    | _ => exact absurd trivial hC
  | drop id =>
    obtain ⟨hheld, hno⟩ := Classical.not_imp.mp hC
    obtain ⟨-, rfl, rfl⟩ := Machine.guarded_iff.mp hst
    exact hlast hheld hno
  | release id =>
    obtain ⟨-, rfl, rfl⟩ := Machine.guarded_iff.mp hst
    by_cases hA : s.held = some id → id ∈ s.refs.erase id
    · obtain ⟨hd, huse⟩ := Classical.not_imp.mp fun hB => hC ⟨hA, hB⟩
      -- `spdlog::shutdown` goes on
      obtain ⟨c, rest, hc, hpc⟩ : ∃ c rest, s.call = some c ∧ c.pc = .dropping rest := by
        unfold Process.drops at hd
        cases hc : s.call with
        | none => simp [hc] at hd
        | some c => cases hpc : c.pc <;> simp [hc, hpc, Pc.isDropping] at hd ⊢
      have hreg := (hI.dropping c rest hc hpc).1
      unfold Process.release
      dsimp only
      split_ifs <;> exact mayDelete_of_not_usersHold hc hpc hreg huse
    · obtain ⟨hheld, hno⟩ := Classical.not_imp.mp hA
      exact hlast hheld hno
  | _ => exact absurd trivial hC

/-- **The deleter never runs under `st.mu`** in a run in which what a call destroys is never the
last reference: the call that holds `st.mu` can always go on, and nothing changes `st.loggers` while
it iterates over it.  And after a step against this the deleter may run under `st.mu`. -/
theorem deleter_unlocked (r : loggerManager.Run KeepsHeld s h) :
    (¬ s.DeletesLocked ∧ ∀ c, s.call = some c →
      (∃ q, loggerManager.step s .proceed = some q) ∧
      (c.Iterates → ∀ x t e, loggerManager.step s x = some (t, e) → t.loggers = s.loggers)) ∧
    ∀ x t e, loggerManager.step s x = some (t, e) → ¬ KeepsHeld s x →
      ∃ u k, loggerManager.Steps (fun _ _ => True) t u k ∧ u.DeletesLocked := by
  have hI := heldInv_of_run r
  exact ⟨⟨hI.unlocked, fun c hc => ⟨proceeds hI hc, fun hit x t e hst =>
    loggers_of_iterates hc hit hst⟩⟩, fun x t e hst hC => mayDelete_of_not_keepsHeld hI hst hC⟩

/-- `list_loggers` while a user holds a logger. -/
def listed : List Act :=
  [.call (.logger "core"), .proceed, .proceed, .call .listLoggers, .proceed, .proceed, .proceed]

/-- It returns; the user registers the logger at spdlog, and `shutdown` takes it from there. -/
def listedAndShutDown : List Act :=
  listed ++ [.proceed, .proceed, .register 0, .call .shutdown, .proceed]

theorem deleter_unlocked_listedAndShutDown : ∃ s h, loggerManager.Run KeepsHeld s h ∧
    .shutDown ∈ h ∧ s.call ≠ none ∧ s.refs = [0] ∧ ¬ s.DeletesLocked := by
  obtain ⟨s, h, r, hshut, hcall, hrefs⟩ := Machine.exists_run_schedule loggerManager KeepsHeld
    listedAndShutDown (P := fun q => .shutDown ∈ q.2 ∧ q.1.call ≠ none ∧ q.1.refs = [0])
    (by decide +kernel)
  exact ⟨s, h, r, hshut, hcall, hrefs, (deleter_unlocked r).1.1⟩

/-- The user destroys its reference while `list_loggers` reads the level of the logger. -/
theorem deleter_locked : ¬ ∀ s h, loggerManager.Reach s h → ¬ s.DeletesLocked := by
  obtain ⟨s, h, r, hd⟩ := Machine.exists_run_schedule loggerManager (fun _ _ => True)
    (listed ++ [.release 0, .proceed]) (P := fun q => q.1.DeletesLocked) (by decide +kernel)
  exact fun hall => hall s h r hd

end Zurg.Logging
