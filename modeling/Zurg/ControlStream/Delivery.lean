import Zurg.Lib.History
import Zurg.ControlStream.Moves

/-!
# Zurg.ControlStream.Delivery — what has been written when a message is written

Between two clearings of `pending_writes_` the client is a FIFO channel: what has been enqueued is
what has been written, then the current write, then the pending ones (`Epoch`).  All of it is
written on one stream, since a stream that is left has been closed, and nothing written before a
clearing is on a stream that can still be written to.  So a message is written on a stream right
after all that was enqueued since the last clearing (`Delivered`).
-/

namespace Zurg.ControlStream

open Lib

variable {μ : Type} {s t : StreamClient μ} {x : StreamAct μ} {h e : List (StreamEvent μ)}

def StreamEvent.enqueuedMsg : StreamEvent μ → Option μ
  | .enqueued m => some m
  | _ => none

/-- The messages handed to `EnqueueWrite`. -/
def enqueues (h : List (StreamEvent μ)) : List μ := h.filterMap StreamEvent.enqueuedMsg

def StreamEvent.writtenMsg (k : ℕ) : StreamEvent μ → Option μ
  | .writeDone j m true => if j = k then some m else none
  | _ => none

/-- The messages written successfully on stream `k`. -/
def written (k : ℕ) (h : List (StreamEvent μ)) : List μ := h.filterMap (StreamEvent.writtenMsg k)

theorem enqueues_append (h k : List (StreamEvent μ)) :
    enqueues (h ++ k) = enqueues h ++ enqueues k := List.filterMap_append

theorem written_append (k : ℕ) (h h' : List (StreamEvent μ)) :
    written k (h ++ h') = written k h ++ written k h' := List.filterMap_append

theorem written_eq_nil {k : ℕ} (hk : ∀ m, .writeDone k m true ∉ h) : written k h = [] := by
  refine List.filterMap_eq_nil_iff.mpr fun v hv => ?_
  cases v with
  | writeDone j m ok =>
    cases ok with
    | false => rfl
    | true =>
      have hjk : j ≠ k := fun heq => hk m (heq ▸ hv)
      simp [StreamEvent.writtenMsg, hjk]
  | _ => rfl

/-- A point of the history at which nothing is pending. -/
def CutPoint (h : List (StreamEvent μ)) : Prop := h = [] ∨ ∃ h', h = h' ++ [.cleared]

/-- No further write on the latest stream can succeed. -/
def StreamClient.Dead (s : StreamClient μ) : Prop :=
  s.failed = true ∨ s.call ≠ .active ∧ s.call ≠ .notStarted

/-- `h₁` is the history since a cut point, and `h₀` what was before. -/
structure Epoch (s : StreamClient μ) (h₀ h₁ : List (StreamEvent μ)) : Prop where
  cut : CutPoint h₀
  uncut : .cleared ∉ h₁
  fifo : enqueues h₁ = written s.streams h₁ ++ s.currentWrite.toList ++ s.pendingWrites
  now : ∀ j m, .writeDone j m true ∈ h₁ → j = s.streams ∧ s.call = .active
  before : ∀ j m, .writeDone j m true ∈ h₀ → j < s.streams ∨ j = s.streams ∧ s.Dead

/-- A message written was enqueued since the last cut point, right after all that has been written
on the same stream. -/
def Delivered : List (StreamEvent μ) → Prop :=
  Always fun pre x => ∀ k m, x = .writeDone k m true →
    ∃ h₀ h₁ rest, pre = h₀ ++ h₁ ∧ CutPoint h₀ ∧ .cleared ∉ h₁ ∧
      enqueues h₁ = written k pre ++ m :: rest

structure DeliveryInv (s : StreamClient μ) (h : List (StreamEvent μ)) : Prop where
  stream : StreamInv s
  epoch : ∃ h₀ h₁, h = h₀ ++ h₁ ∧ Epoch s h₀ h₁
  delivered : Delivered h

/-- Steps that do not touch the writes. -/
theorem Epoch.frame {h₀ h₁ : List (StreamEvent μ)} (hE : Epoch s h₀ h₁)
    (hp : t.pendingWrites = s.pendingWrites) (hc : t.currentWrite = s.currentWrite)
    (hk : t.streams = s.streams) (ha : s.call = .active → t.call = .active)
    (hd : s.Dead → t.Dead) : Epoch t h₀ h₁ where
  cut := hE.cut
  uncut := hE.uncut
  fifo := by rw [hp, hc, hk, hE.fifo]
  now j m hm := ⟨hk ▸ (hE.now j m hm).1, ha (hE.now j m hm).2⟩
  before j m hm := hk ▸ (hE.before j m hm).imp_right (And.imp_right hd)

/-- Everything is dropped: a new epoch begins. -/
theorem Epoch.drop {h₀ h₁ : List (StreamEvent μ)} (hE : Epoch s h₀ h₁)
    (hp : t.pendingWrites = []) (hc : t.currentWrite = none) (hk : t.streams = s.streams)
    (hd : t.Dead) (he : ∀ j m, .writeDone j m true ∉ e) :
    Epoch t (h₀ ++ h₁ ++ (e ++ [.cleared])) [] where
  cut := .inr ⟨h₀ ++ h₁ ++ e, by simp⟩
  uncut := List.not_mem_nil
  fifo := by rw [hp, hc]; rfl
  now j m hm := nomatch hm
  before j m hm := by
    rw [hk]
    simp only [List.mem_append, List.mem_singleton, reduceCtorEq, or_false] at hm
    rcases hm with (hm | hm) | hm
    · exact (hE.before j m hm).imp_right fun h => ⟨h.1, hd⟩
    · exact .inr ⟨(hE.now j m hm).1, hd⟩
    · exact absurd hm (he j m)

theorem Epoch.move {h₀ h₁ : List (StreamEvent μ)} (hS : StreamInv s) (hE : Epoch s h₀ h₁)
    (hm : Move s x t e) : ∃ h₀' h₁', h₀ ++ h₁ ++ e = h₀' ++ h₁' ∧ Epoch t h₀' h₁' := by
  cases hm with
  | push m =>
    refine ⟨h₀, h₁ ++ [StreamEvent.enqueued m], List.append_assoc .., hE.cut,
      by simpa using hE.uncut, ?_, fun j m' hm => ?_, hE.before⟩
    · have hw : written s.streams [StreamEvent.enqueued m] = [] := rfl
      rw [enqueues_append, written_append, hE.fifo, hw]
      simp [enqueues, StreamEvent.enqueuedMsg]
    · exact hE.now j m' (by simpa using hm)
  | connect hr =>
    have hnone : ∀ k m, StreamEvent.writeDone k m true ∉ h₁ := fun k m hm =>
      nomatch (hE.now k m hm).2.symm.trans (hS.loopHead hr)
    refine ⟨h₀, h₁, List.append_nil _, hE.cut, hE.uncut, ?_,
      fun j m hm => absurd hm (hnone j m), fun j m hm => .inl ?_⟩
    · rw [hE.fifo, written_eq_nil (hnone _), written_eq_nil (hnone _)]
    · rcases hE.before j m hm with h | h
      · exact Nat.lt_succ_of_lt h
      · exact Nat.lt_succ_of_le (Nat.le_of_eq h.1)
  | startCall hr =>
    have hc := hS.installed hr
    refine ⟨h₀, h₁, List.append_nil _, hE.frame rfl rfl rfl (fun _ => rfl) ?_⟩
    exact fun hd => hd.imp_right fun h => absurd hc h.2
  | setReactor | readyReturn | kick =>
    exact ⟨h₀, h₁, List.append_nil _, hE.frame rfl rfl rfl id id⟩
  | @written m ho hc hf =>
    have hcur := (hS.outstanding m ho).1
    refine ⟨h₀, h₁ ++ [.writeDone s.streams m true], List.append_assoc .., hE.cut,
      by simpa using hE.uncut, ?_, fun j m' hm => ?_, hE.before⟩
    · have hw : ControlStream.written s.streams [StreamEvent.writeDone s.streams m true] = [m] := by
        simp [ControlStream.written, StreamEvent.writtenMsg]
      have he : enqueues [StreamEvent.writeDone s.streams m true] = [] := rfl
      rw [enqueues_append, written_append, hE.fifo, hcur, hw, he]
      simp
    · rcases List.mem_append.mp hm with hm | hm
      · exact hE.now j m' hm
      · obtain ⟨rfl, -, -⟩ := StreamEvent.writeDone.inj (List.mem_singleton.mp hm)
        exact ⟨rfl, hc⟩
  | @failed m ho hc =>
    exact ⟨_, [], (List.append_nil _).symm,
      hE.drop (e := [.writeDone s.streams m false]) rfl rfl rfl (.inl rfl) (by simp)⟩
  | closeClear hc ho =>
    exact ⟨_, [], (List.append_nil _).symm,
      hE.drop (e := []) rfl rfl rfl (.inr ⟨nofun, nofun⟩) (by simp)⟩
  | closeDetach hc | closeReturn hc | closeDone hc =>
    refine ⟨h₀, h₁, List.append_nil _, hE.frame rfl rfl rfl (fun h => ?_) fun _ => ?_⟩
    · exact nomatch hc.symm.trans h
    · exact .inr ⟨nofun, nofun⟩
  | waitReturn => exact ⟨h₀, h₁, List.append_nil _, hE.frame rfl rfl rfl id id⟩

theorem Epoch.start {h₀ h₁ : List (StreamEvent μ)} (hS : StreamInv s) (hE : Epoch s h₀ h₁)
    (hs : Start s t e) : ∃ h₀' h₁', h₀ ++ h₁ ++ e = h₀' ++ h₁' ∧ Epoch t h₀' h₁' := by
  cases hs with
  | nothing => exact ⟨h₀, h₁, List.append_nil _, hE⟩
  | @start k m rest hf hp hr =>
    have hcur : s.currentWrite = none := by
      have := hS.inFlight
      rw [hf] at this
      simpa using this.symm
    refine ⟨h₀, h₁ ++ [StreamEvent.startWrite k m], List.append_assoc .., hE.cut,
      by simpa using hE.uncut, ?_, fun j m' hm => ?_, hE.before⟩
    · have hw : ControlStream.written (s.started m rest).streams
          [StreamEvent.startWrite k m] = [] := rfl
      have he : enqueues [StreamEvent.startWrite k m] = [] := rfl
      rw [enqueues_append, written_append, hE.fifo, hcur, hp, hw, he]
      simp [StreamClient.started]
    · exact hE.now j m' (by simpa using hm)

/-- What a successful write says about the past. -/
theorem Epoch.delivered {h₀ h₁ : List (StreamEvent μ)} (hS : StreamInv s) (hE : Epoch s h₀ h₁)
    {m : μ} (ho : s.outstanding = some m) (hc : s.call = .active) (hf : s.failed = false) :
    enqueues h₁ = ControlStream.written s.streams (h₀ ++ h₁) ++ m :: s.pendingWrites := by
  have hold : ControlStream.written s.streams h₀ = [] := written_eq_nil fun m hm => by
    rcases hE.before _ m hm with h | ⟨-, h | h⟩
    · exact absurd h (Nat.lt_irrefl _)
    · exact nomatch hf.symm.trans h
    · exact h.1 hc
  rw [written_append, hold, hE.fifo, (hS.outstanding m ho).1]
  simp

theorem deliveryInv_move (hI : DeliveryInv s h) (hm : Move s x t e) : DeliveryInv t (h ++ e) := by
  obtain ⟨h₀, h₁, rfl, hE⟩ := hI.epoch
  refine ⟨streamInv_move hI.stream hm, hE.move hI.stream hm, ?_⟩
  refine Always.append hI.delivered ?_
  rintro pre _ post heq k m rfl
  cases hm with
  | written ho hc hf =>
    obtain ⟨rfl, hev⟩ : pre = [] ∧
        StreamEvent.writeDone k m true = .writeDone s.streams _ true := by
      cases pre with
      | nil => exact ⟨rfl, (List.cons.inj heq).1.symm⟩
      | cons a pre => simp at heq
    obtain ⟨rfl, rfl, -⟩ := StreamEvent.writeDone.inj hev
    rw [List.append_nil]
    exact ⟨h₀, h₁, _, rfl, hE.cut, hE.uncut, hE.delivered hI.stream ho hc hf⟩
  | _ =>
    have hmem : StreamEvent.writeDone k m true ∈ pre ++ StreamEvent.writeDone k m true :: post := by
      simp
    rw [← heq] at hmem
    simp at hmem

theorem deliveryInv_start (hI : DeliveryInv s h) (hs : Start s t e) : DeliveryInv t (h ++ e) := by
  obtain ⟨h₀, h₁, rfl, hE⟩ := hI.epoch
  refine ⟨streamInv_start hI.stream hs, hE.start hI.stream hs, ?_⟩
  refine Always.append hI.delivered ?_
  rintro pre _ post heq k m rfl
  have hmem : StreamEvent.writeDone k m true ∈ pre ++ StreamEvent.writeDone k m true :: post := by
    simp
  rw [← heq] at hmem
  cases hs <;> simp at hmem

/-- **Delivery.**  In every run, whatever is sent and whatever happens to the streams. -/
theorem delivered_of_reach (r : (streamClient μ).Reach s h) : Delivered h := by
  refine (invariant_of_moves (I := DeliveryInv) ?_ (fun hI _ hm => deliveryInv_move hI hm)
    (fun hI hs => deliveryInv_start hI hs) r).delivered
  exact ⟨.init, ⟨[], [], rfl, .inl rfl, List.not_mem_nil, rfl, nofun, nofun⟩, .nil⟩

/-! ## What a stream has got when a message is written -/

variable {q : μ → Bool} {k : ℕ} {m : μ} {pre : List (StreamEvent μ)}

/-- A message `q` had been enqueued when the pending writes were dropped. -/
def Dropped (q : μ → Bool) (h : List (StreamEvent μ)) : Prop :=
  ∃ h₀ h₁, h = h₀ ++ .cleared :: h₁ ∧ ∃ d ∈ enqueues h₀, q d = true

/-- The messages `q` enqueued before `m` have been written on stream `k`: all of them, in order. -/
def Complete (q : μ → Bool) (k : ℕ) (m : μ) (h : List (StreamEvent μ)) : Prop :=
  ∀ before after, enqueues h = before ++ m :: after → (written k h).filter q = before.filter q

theorem mem_enqueues : m ∈ enqueues h ↔ .enqueued m ∈ h := by
  rw [enqueues, List.mem_filterMap]
  refine ⟨?_, fun hm => ⟨_, hm, rfl⟩⟩
  rintro ⟨x, hx, hxm⟩
  cases x with
  | enqueued m' =>
    obtain rfl := Option.some.inj hxm
    exact hx
  | _ => exact nomatch hxm

/-- After a cut point, and until the next one, what has been dropped is what was enqueued before. -/
theorem dropped_iff {h₀ a : List (StreamEvent μ)} (hcut : CutPoint h₀) (hno : .cleared ∉ a) :
    Dropped q (h₀ ++ a) ↔ ∃ d ∈ enqueues h₀, q d = true := by
  constructor
  · rintro ⟨g₀, g₁, hg, d, hd, hq⟩
    refine ⟨d, ?_, hq⟩
    rcases List.append_eq_append_iff.mp hg with ⟨b, -, hb⟩ | ⟨b, rfl, -⟩
    · exact absurd (by simp [hb]) hno
    · rw [enqueues_append]
      exact List.mem_append_left _ hd
  · rintro ⟨d, hd, hq⟩
    rcases hcut with rfl | ⟨h', rfl⟩
    · exact nomatch hd
    · have hclear : enqueues [(.cleared : StreamEvent μ)] = [] := rfl
      rw [enqueues_append, hclear, List.append_nil] at hd
      exact ⟨h', a, by simp, d, hd, hq⟩

/-- Where an event that is not in `h₀` splits `h₀ ++ h₁`. -/
theorem split_of_not_mem {h₀ h₁ p₁ p₂ : List (StreamEvent μ)} {v : StreamEvent μ} (hv : v ∉ h₀)
    (heq : h₀ ++ h₁ = p₁ ++ v :: p₂) : ∃ a, p₁ = h₀ ++ a ∧ h₁ = a ++ v :: p₂ := by
  rcases List.append_eq_append_iff.mp heq with ⟨a, h⟩ | ⟨a, rfl, ha⟩
  · exact ⟨a, h⟩
  · cases a with
    | nil => exact ⟨[], by simpa using ha.symm⟩
    | cons x a => exact absurd (by simp [(List.cons.inj ha).1]) hv

/-- **Completeness.**  When a message that was enqueued once is written on a stream, everything
enqueued before it has been written there exactly if nothing of it was there to be dropped. -/
theorem complete_iff [BEq μ] [LawfulBEq μ] (hD : Delivered (pre ++ [.writeDone k m true]))
    (hone : (enqueues pre).count m ≤ 1) :
    Complete q k m pre ↔ ∀ p₁ p₂, pre = p₁ ++ .enqueued m :: p₂ → ¬ Dropped q p₁ := by
  obtain ⟨h₀, h₁, rest, rfl, hcut, huncut, hq⟩ := hD.last k m rfl
  have hall : enqueues (h₀ ++ h₁) = (enqueues h₀ ++ written k (h₀ ++ h₁)) ++ m :: rest := by
    rw [enqueues_append, hq, List.append_assoc]
  have hbefore : m ∉ enqueues h₀ ++ written k (h₀ ++ h₁) ∧ m ∉ rest := by
    rw [hall, List.count_append, List.count_cons_self] at hone
    exact ⟨List.count_eq_zero.mp (by omega), List.count_eq_zero.mp (by omega)⟩
  have huniq : ∀ before after, enqueues (h₀ ++ h₁) = before ++ m :: after →
      before = enqueues h₀ ++ written k (h₀ ++ h₁) := fun before after heq =>
    ((List.append_cons_inj_of_notMem hbefore.1 hbefore.2).mp (hall.symm.trans heq)).1.symm
  have hnil : Complete q k m (h₀ ++ h₁) ↔ ¬ ∃ d ∈ enqueues h₀, q d = true := by
    have hfilter : (enqueues h₀).filter q = [] ↔ ¬ ∃ d ∈ enqueues h₀, q d = true := by
      simp [List.filter_eq_nil_iff]
    rw [← hfilter]
    constructor
    · intro hC
      have := hC _ _ hall
      rwa [List.filter_append, List.self_eq_append_left] at this
    · intro hnil before after heq
      rw [huniq before after heq, List.filter_append, hnil, List.nil_append]
  have hdrop : ∀ p₁ p₂, h₀ ++ h₁ = p₁ ++ .enqueued m :: p₂ →
      (Dropped q p₁ ↔ ∃ d ∈ enqueues h₀, q d = true) := by
    intro p₁ p₂ heq
    have hm : .enqueued m ∉ h₀ := fun hm =>
      hbefore.1 (List.mem_append_left _ (mem_enqueues.mpr hm))
    obtain ⟨a, rfl, rfl⟩ := split_of_not_mem hm heq
    exact dropped_iff hcut fun hc => huncut (List.mem_append_left _ hc)
  rw [hnil]
  refine ⟨fun hno p₁ p₂ heq hd => hno ((hdrop p₁ p₂ heq).mp hd), fun hno hd => ?_⟩
  obtain ⟨a, b, hab⟩ := List.append_of_mem (mem_enqueues.mp (hq ▸ by simp : m ∈ enqueues h₁))
  have heq : h₀ ++ h₁ = (h₀ ++ a) ++ .enqueued m :: b := by rw [hab, List.append_assoc]
  exact hno _ _ heq ((hdrop _ _ heq).mpr hd)

end Zurg.ControlStream
