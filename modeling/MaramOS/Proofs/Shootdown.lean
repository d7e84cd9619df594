import Mathlib.Data.List.Basic
import MaramOS.Spec.Shootdown

/-! What holds of TLB shootdowns in every interleaving. An acknowledgement that an
initiator sees belongs to its own request, because a handler keeps the lock of the
mailbox from reading it until the flag is set. A request that times out can be
overwritten by the next one. -/

namespace MaramOS

open List

open Function (update update_of_ne update_self update_eq_self)

def HandlerStage.holdsLock {α : Type} : HandlerStage α → Bool
  | .idle => false
  | .entered => false
  | _ => true

namespace InitiatorStage

variable {ι : Type}

/-- The processors whose mailbox is still to be written. -/
def unposted : InitiatorStage ι → List ι
  | posting todo => todo
  | resetting _ todo => todo
  | waiting _ => []

/-- The processors whose flag is still to be reset. -/
def unreset : InitiatorStage ι → List ι
  | posting todo => todo
  | resetting c todo => c :: todo
  | waiting _ => []

def targets : InitiatorStage ι → List ι
  | posting todo => todo
  | resetting c todo => c :: todo
  | waiting todo => todo

def toSend : InitiatorStage ι → Bool
  | waiting _ => false
  | _ => true

end InitiatorStage

namespace TlbState

open Transition

variable {ι α : Type} {c cpu : ι} {call : TlbCall α} {history recent : List (TlbEvent ι α)} {e : TlbEvent ι α}
  {stage : InitiatorStage ι}

section History

def IsBegan (e : TlbEvent ι α) : Prop := ∃ cpu call, e = .began cpu call

/-- The latest request, and what has happened since. -/
def Latest (history : List (TlbEvent ι α)) (cpu : ι) (call : TlbCall α) (recent : List (TlbEvent ι α)) : Prop :=
  (∃ past, history = recent ++ .began cpu call :: past) ∧ ∀ e ∈ recent, ¬IsBegan e

/-- One flush of `c` has covered all that was requested. -/
def Answers (recent : List (TlbEvent ι α)) (c : ι) (call : TlbCall α) : Prop :=
  ∃ what, .flushed c what ∈ recent ∧ ∀ x, call.Requests x → what.Requests x

/-- Every acknowledgement that was seen had its flush. -/
def Justified (history : List (TlbEvent ι α)) : Prop :=
  ∀ later cpu c earlier, history = later ++ .sawAck cpu c :: earlier →
    ∃ call recent, Latest earlier cpu call recent ∧ Answers recent c call

theorem Latest.cons (h : Latest history cpu call recent) (he : ¬IsBegan e) :
    Latest (e :: history) cpu call (e :: recent) := by
  obtain ⟨⟨past, rfl⟩, hrecent⟩ := h
  refine ⟨⟨past, rfl⟩, fun e' he' => ?_⟩
  rcases mem_cons.1 he' with rfl | he'
  · exact he
  · exact hrecent e' he'

theorem Answers.cons (h : Answers recent c call) : Answers (e :: recent) c call := by
  obtain ⟨what, hmem, hcovers⟩ := h
  exact ⟨what, mem_cons_of_mem _ hmem, hcovers⟩

theorem Justified.cons (h : Justified history)
    (he : ∀ cpu c, e = .sawAck cpu c → ∃ call recent, Latest history cpu call recent ∧ Answers recent c call) :
    Justified (e :: history) := by
  intro later cpu c earlier heq
  cases later with
  | nil =>
    obtain ⟨rfl, rfl⟩ := List.cons.inj heq
    exact he cpu c rfl
  | cons e' later =>
    obtain ⟨-, hhistory⟩ := List.cons.inj heq
    exact h later cpu c earlier hhistory

theorem requests_flushOf {x : α} (h : call.Requests x) : (flushOf call.mailbox).Requests x := by
  cases call with
  | shootAll => trivial
  | shootdown addresses =>
    cases addresses with
    | nil => trivial
    | cons y ys => exact h

theorem unposted_of_unreset (h : c ∉ stage.unreset) : c ∉ stage.unposted := by
  cases stage with
  | posting todo => exact h
  | resetting c' todo => exact fun hmem => h (mem_cons_of_mem _ hmem)
  | waiting todo => exact h

end History

variable [DecidableEq ι] {cpus : List ι} {s s' : TlbState ι α} {a : TlbAction ι α}

inductive Stepped (cpus : List ι) (s : TlbState ι α) : TlbAction ι α → TlbState ι α → Prop
  | early {cpu : ι} {call : TlbCall α} : s.initiator = none → cpu ∈ cpus → s.returnsEarly cpus call = true →
      Stepped cpus s (.begin cpu call)
        { s with history := .finished cpu :: .flushed cpu call :: .began cpu call :: s.history }
  | begin {cpu : ι} {call : TlbCall α} : s.initiator = none → cpu ∈ cpus → s.returnsEarly cpus call = false →
      Stepped cpus s (.begin cpu call)
        { s with initiator := some ⟨cpu, call, .posting (others cpus cpu)⟩
                 history := .flushed cpu call :: .began cpu call :: s.history }
  | post {cpu c : ι} {call : TlbCall α} {todo : List ι} : s.initiator = some ⟨cpu, call, .posting (c :: todo)⟩ →
      s.mailboxLocked c = false →
      Stepped cpus s .post
        { s with initiator := some ⟨cpu, call, .resetting c todo⟩
                 tlbAddresses := update s.tlbAddresses c call.mailbox
                 mailboxLocked := update s.mailboxLocked c (keepsLock call) }
  | reset {cpu c : ι} {call : TlbCall α} {todo : List ι} : s.initiator = some ⟨cpu, call, .resetting c todo⟩ →
      Stepped cpus s .reset
        { s with initiator := some ⟨cpu, call, .posting todo⟩
                 ipiAck := update s.ipiAck c false
                 mailboxLocked := if keepsLock call then update s.mailboxLocked c false else s.mailboxLocked }
  | send {cpu : ι} {call : TlbCall α} : s.initiator = some ⟨cpu, call, .posting []⟩ →
      Stepped cpus s .send
        { s with initiator := some ⟨cpu, call, .waiting (others cpus cpu)⟩
                 pending := fun c => s.pending c || decide (c ∈ others cpus cpu) }
  | sawAck {cpu c : ι} {call : TlbCall α} {todo : List ι} : s.initiator = some ⟨cpu, call, .waiting (c :: todo)⟩ →
      s.ipiAck c = true →
      Stepped cpus s .sawAck
        { s with initiator := some ⟨cpu, call, .waiting todo⟩, history := .sawAck cpu c :: s.history }
  | timeOut {cpu c : ι} {call : TlbCall α} {todo : List ι} : s.initiator = some ⟨cpu, call, .waiting (c :: todo)⟩ →
      Stepped cpus s .timeOut { s with initiator := some ⟨cpu, call, .waiting todo⟩ }
  | finish {cpu : ι} {call : TlbCall α} : s.initiator = some ⟨cpu, call, .waiting []⟩ →
      Stepped cpus s .finish { s with initiator := none, history := .finished cpu :: s.history }
  | enter {c : ι} : s.handler c = .idle → s.pending c = true →
      Stepped cpus s (.enter c)
        { s with pending := update s.pending c false, handler := update s.handler c .entered }
  | lock {c : ι} : s.handler c = .entered → s.mailboxLocked c = false →
      Stepped cpus s (.lock c)
        { s with mailboxLocked := update s.mailboxLocked c true
                 handler := update s.handler c (.locked (s.tlbAddresses c)) }
  | flush {c : ι} {addresses : List α} : s.handler c = .locked addresses →
      Stepped cpus s (.flush c)
        { s with handler := update s.handler c .flushed
                 history := .flushed c (flushOf addresses) :: s.history }
  | ack {c : ι} : s.handler c = .flushed →
      Stepped cpus s (.ack c)
        { s with handler := update s.handler c .acked, ipiAck := update s.ipiAck c true }
  | leave {c : ι} : s.handler c = .acked →
      Stepped cpus s (.leave c)
        { s with handler := update s.handler c .idle
                 mailboxLocked := update s.mailboxLocked c false }
  | online : Stepped cpus s .online { s with onlineAps := s.onlineAps + 1 }

theorem initiatorStep_stepped {i : Initiator ι α} (hi : s.initiator = some i) (h : initiatorStep cpus s i a = some s') :
    Stepped cpus s a s' := by
  rcases i with ⟨cpu, call, stage⟩
  unfold initiatorStep at h
  split at h
  · split at h
    · rename_i hstage
      cases hstage
      split_ifs at h with hlocked
      cases h
      exact .post hi (Bool.not_eq_true _ ▸ hlocked)
    · cases h
  · split at h
    · rename_i hstage
      cases hstage
      cases h
      exact .reset hi
    · cases h
  · split at h
    · rename_i hstage
      cases hstage
      cases h
      exact .send hi
    · cases h
  · split at h
    · rename_i hstage
      cases hstage
      split_ifs at h with hack
      cases h
      exact .sawAck hi hack
    · cases h
  · split at h
    · rename_i hstage
      cases hstage
      cases h
      exact .timeOut hi
    · cases h
  · split at h
    · rename_i hstage
      cases hstage
      cases h
      exact .finish hi
    · cases h
  · cases h

theorem step_stepped (h : step cpus s a = some s') : Stepped cpus s a s' := by
  have hinitiator : ∀ {a}, (s.initiator = none → step cpus s a = none) →
      (∀ i, s.initiator = some i → step cpus s a = s.initiatorStep cpus i a) → step cpus s a = some s' →
      Stepped cpus s a s' := by
    intro a hnone hsome h
    cases hi : s.initiator with
    | none =>
      rw [hnone hi] at h
      cases h
    | some i =>
      rw [hsome i hi] at h
      exact initiatorStep_stepped hi h
  cases a with
  | begin cpu call =>
    simp only [step] at h
    split at h
    · cases h
    · rename_i hnone
      split_ifs at h with hmem hearly
      · cases h
        exact .early hnone hmem hearly
      · cases h
        exact .begin hnone hmem (Bool.not_eq_true _ ▸ hearly)
  | enter c =>
    simp only [step, handlerStep] at h
    split at h
    · rename_i hstage
      split_ifs at h with hpending
      cases h
      exact .enter hstage hpending
    · cases h
  | lock c =>
    simp only [step, handlerStep] at h
    split at h
    · rename_i hstage
      split_ifs at h with hlocked
      cases h
      exact .lock hstage (Bool.not_eq_true _ ▸ hlocked)
    · cases h
  | flush c =>
    simp only [step, handlerStep] at h
    split at h
    · rename_i hstage
      cases h
      exact .flush hstage
    · cases h
  | ack c =>
    simp only [step, handlerStep] at h
    split at h
    · rename_i hstage
      cases h
      exact .ack hstage
    · cases h
  | leave c =>
    simp only [step, handlerStep] at h
    split at h
    · rename_i hstage
      cases h
      exact .leave hstage
    · cases h
  | online =>
    cases h
    exact .online
  | post => exact hinitiator (fun hi => by simp only [step, hi]) (fun i hi => by simp only [step, hi]) h
  | reset => exact hinitiator (fun hi => by simp only [step, hi]) (fun i hi => by simp only [step, hi]) h
  | send => exact hinitiator (fun hi => by simp only [step, hi]) (fun i hi => by simp only [step, hi]) h
  | sawAck => exact hinitiator (fun hi => by simp only [step, hi]) (fun i hi => by simp only [step, hi]) h
  | timeOut => exact hinitiator (fun hi => by simp only [step, hi]) (fun i hi => by simp only [step, hi]) h
  | finish => exact hinitiator (fun hi => by simp only [step, hi]) (fun i hi => by simp only [step, hi]) h

section Locks

/-- A mailbox lock has one holder, and what a handler has read is still in the mailbox. -/
structure Exclusive (s : TlbState ι α) : Prop where
  handler : ∀ c, (s.handler c).holdsLock = true → s.mailboxLocked c = true
  read : ∀ c addresses, s.handler c = .locked addresses → addresses = s.tlbAddresses c
  initiator : ∀ cpu call c todo, s.initiator = some ⟨cpu, call, .resetting c todo⟩ → keepsLock call = true →
    s.mailboxLocked c = true ∧ (s.handler c).holdsLock = false

theorem Exclusive.handled (h : Exclusive s) {stage : HandlerStage α} {locked : Bool} (hi : s'.initiator = s.initiator)
    (haddresses : s'.tlbAddresses = s.tlbAddresses) (hlocked : s'.mailboxLocked = update s.mailboxLocked c locked)
    (hhandler : s'.handler = update s.handler c stage) (hheld : stage.holdsLock = true → locked = true)
    (hread : ∀ addresses, stage = .locked addresses → addresses = s.tlbAddresses c)
    (hout : ∀ cpu call todo, s.initiator = some ⟨cpu, call, .resetting c todo⟩ → keepsLock call = true →
      locked = true ∧ stage.holdsLock = false) : Exclusive s' := by
  refine ⟨fun c' hc' => ?_, fun c' addresses hread' => ?_, fun cpu call c' todo hi' hkeeps => ?_⟩
  · rw [hlocked]
    rw [hhandler] at hc'
    by_cases heq : c' = c
    · rw [heq, update_self] at hc' ⊢
      exact hheld hc'
    · rw [update_of_ne heq] at hc' ⊢
      exact h.handler c' hc'
  · rw [haddresses]
    rw [hhandler] at hread'
    by_cases heq : c' = c
    · rw [heq, update_self] at hread'
      rw [heq]
      exact hread addresses hread'
    · rw [update_of_ne heq] at hread'
      exact h.read c' addresses hread'
  · rw [hi] at hi'
    rw [hlocked, hhandler]
    by_cases heq : c' = c
    · rw [heq] at hi' ⊢
      rw [update_self, update_self]
      exact hout cpu call todo hi' hkeeps
    · rw [update_of_ne heq, update_of_ne heq]
      exact h.initiator cpu call c' todo hi' hkeeps

theorem Exclusive.step (h : Exclusive s) (hstep : Stepped cpus s a s') : Exclusive s' := by
  cases hstep with
  | early hnone _ _ => exact ⟨h.handler, h.read, h.initiator⟩
  | begin hnone _ _ => exact ⟨h.handler, h.read, fun _ _ _ _ hi => nomatch hi⟩
  | @post cpu c call todo hi hfree =>
    have hout : (s.handler c).holdsLock = false := by
      by_contra hheld
      rw [h.handler c (Bool.not_eq_false _ ▸ hheld)] at hfree
      cases hfree
    refine ⟨fun c' hc' => ?_, fun c' addresses hread => ?_, fun _ _ c' todo' hi' hkeeps => ?_⟩
    · by_cases heq : c' = c
      · rw [heq, hout] at hc'
        cases hc'
      · simp only [update_of_ne heq]
        exact h.handler c' hc'
    · by_cases heq : c' = c
      · rw [← heq, hread] at hout
        cases hout
      · simp only [update_of_ne heq]
        exact h.read c' addresses hread
    · cases hi'
      exact ⟨by simp only [update_self, hkeeps], hout⟩
  | @reset cpu c call todo hi =>
    refine ⟨fun c' hc' => ?_, h.read, fun _ _ _ _ hi' => nomatch hi'⟩
    simp only
    split_ifs with hkeeps
    · by_cases heq : c' = c
      · have hout := (h.initiator cpu call c todo hi hkeeps).2
        rw [← heq, hc'] at hout
        cases hout
      · rw [update_of_ne heq]
        exact h.handler c' hc'
    · exact h.handler c' hc'
  | send hi => exact ⟨h.handler, h.read, fun _ _ _ _ hi' => nomatch hi'⟩
  | sawAck hi _ => exact ⟨h.handler, h.read, fun _ _ _ _ hi' => nomatch hi'⟩
  | timeOut hi => exact ⟨h.handler, h.read, fun _ _ _ _ hi' => nomatch hi'⟩
  | finish hi => exact ⟨h.handler, h.read, fun _ _ _ _ hi' => nomatch hi'⟩
  | online => exact ⟨h.handler, h.read, h.initiator⟩
  | @enter c hidle hpending =>
    refine h.handled rfl rfl (update_eq_self c s.mailboxLocked).symm rfl (fun hheld => nomatch hheld)
      (fun _ hread => nomatch hread) fun cpu call todo hi hkeeps => ?_
    exact ⟨(h.initiator cpu call c todo hi hkeeps).1, rfl⟩
  | @lock c hentered hfree =>
    refine h.handled rfl rfl rfl rfl (fun _ => rfl) (fun _ hread => ?_) fun cpu call todo hi hkeeps => ?_
    · cases hread
      rfl
    · have hlocked := (h.initiator cpu call c todo hi hkeeps).1
      rw [hfree] at hlocked
      cases hlocked
  | @flush c _ hstage | @ack c hstage =>
    have hheld : (s.handler c).holdsLock = true := by rw [hstage]; rfl
    refine h.handled rfl rfl (update_eq_self c s.mailboxLocked).symm rfl (fun _ => h.handler c hheld)
      (fun _ hread => nomatch hread) fun cpu call todo hi hkeeps => ?_
    exact absurd (h.initiator cpu call c todo hi hkeeps).2 (by rw [hheld]; decide)
  | @leave c hstage =>
    have hheld : (s.handler c).holdsLock = true := by rw [hstage]; rfl
    refine h.handled rfl rfl rfl rfl (fun hidle => nomatch hidle) (fun _ hread => nomatch hread)
      fun cpu call todo hi hkeeps => ?_
    exact absurd (h.initiator cpu call c todo hi hkeeps).2 (by rw [hheld]; decide)

end Locks

section Acknowledgements

/-- What is known of the call that is being served. -/
structure Serving (cpus : List ι) (s : TlbState ι α) (cpu : ι) (call : TlbCall α) (stage : InitiatorStage ι)
    (recent : List (TlbEvent ι α)) : Prop where
  latest : Latest s.history cpu call recent
  targets : ∀ c ∈ stage.targets, c ∈ others cpus cpu
  posted : ∀ c ∈ others cpus cpu, c ∉ stage.unposted → s.tlbAddresses c = call.mailbox
  flushed : ∀ c ∈ others cpus cpu, c ∉ stage.unposted → s.handler c = .flushed → Answers recent c call
  acked : ∀ c ∈ others cpus cpu, c ∉ stage.unreset → s.ipiAck c = true → Answers recent c call

structure Answered (cpus : List ι) (s : TlbState ι α) : Prop where
  exclusive : Exclusive s
  serving : ∀ cpu call stage, s.initiator = some ⟨cpu, call, stage⟩ → ∃ recent, Serving cpus s cpu call stage recent
  seen : Justified s.history

theorem Serving.handler (h : Serving cpus s cpu call stage recent) {next : HandlerStage α} (hnext : next ≠ .flushed) :
    ∀ c' ∈ others cpus cpu, c' ∉ stage.unposted → update s.handler c next c' = .flushed → Answers recent c' call := by
  intro c' hc' hposted hflushed
  by_cases heq : c' = c
  · rw [heq, update_self] at hflushed
    exact absurd hflushed hnext
  · rw [update_of_ne heq] at hflushed
    exact h.flushed c' hc' hposted hflushed

theorem Serving.post {c : ι} {todo : List ι} (h : Serving cpus s cpu call (.posting (c :: todo)) recent)
    (hexclusive : Exclusive s) (hfree : s.mailboxLocked c = false) :
    Serving cpus { s with initiator := some ⟨cpu, call, .resetting c todo⟩
                          tlbAddresses := update s.tlbAddresses c call.mailbox
                          mailboxLocked := update s.mailboxLocked c (keepsLock call) }
      cpu call (.resetting c todo) recent where
  latest := h.latest
  targets := h.targets
  posted c' hc' hposted := by
    by_cases heq : c' = c
    · simp only [heq, update_self]
    · simp only [update_of_ne heq]
      exact h.posted c' hc' fun hmem => (mem_cons.1 hmem).elim heq hposted
  flushed c' hc' hposted hflushed := by
    have heq : c' ≠ c := by
      rintro rfl
      have hlocked := hexclusive.handler c' (by rw [hflushed]; rfl)
      rw [hfree] at hlocked
      cases hlocked
    exact h.flushed c' hc' (fun hmem => (mem_cons.1 hmem).elim heq hposted) hflushed
  acked := h.acked

theorem Serving.reset {c : ι} {todo : List ι} (h : Serving cpus s cpu call (.resetting c todo) recent) (locked : ι → Bool) :
    Serving cpus { s with initiator := some ⟨cpu, call, .posting todo⟩
                          ipiAck := update s.ipiAck c false
                          mailboxLocked := locked } cpu call (.posting todo) recent where
  latest := h.latest
  targets c' hc' := h.targets c' (mem_cons_of_mem _ hc')
  posted := h.posted
  flushed := h.flushed
  acked c' hc' hreset hack := by
    by_cases heq : c' = c
    · simp only [heq, update_self] at hack
      cases hack
    · simp only [update_of_ne heq] at hack
      exact h.acked c' hc' (fun hmem => (mem_cons.1 hmem).elim heq hreset) hack

theorem Serving.flush {addresses : List α} (h : Serving cpus s cpu call stage recent) (hexclusive : Exclusive s)
    (hstage : s.handler c = .locked addresses) :
    Serving cpus { s with handler := update s.handler c .flushed
                          history := .flushed c (flushOf addresses) :: s.history }
      cpu call stage (.flushed c (flushOf addresses) :: recent) where
  latest := h.latest.cons fun ⟨_, _, h⟩ => nomatch h
  targets := h.targets
  posted := h.posted
  flushed c' hc' hposted hflushed := by
    by_cases heq : c' = c
    · -- what the handler has read is the request
      refine ⟨flushOf addresses, by rw [heq]; exact mem_cons_self, fun x hx => ?_⟩
      rw [hexclusive.read c addresses hstage, ← heq, h.posted c' hc' hposted]
      exact requests_flushOf hx
    · simp only [update_of_ne heq] at hflushed
      exact (h.flushed c' hc' hposted hflushed).cons
  acked c' hc' hreset hack := (h.acked c' hc' hreset hack).cons

theorem Serving.ack (h : Serving cpus s cpu call stage recent) (hstage : s.handler c = .flushed) :
    Serving cpus { s with handler := update s.handler c .acked, ipiAck := update s.ipiAck c true }
      cpu call stage recent where
  latest := h.latest
  targets := h.targets
  posted := h.posted
  flushed := h.handler (by rintro ⟨⟩)
  acked c' hc' hreset hack := by
    by_cases heq : c' = c
    · rw [heq] at hc' hreset ⊢
      exact h.flushed c hc' (unposted_of_unreset hreset) hstage
    · simp only [update_of_ne heq] at hack
      exact h.acked c' hc' hreset hack

theorem Answered.start : Answered cpus (start : TlbState ι α) := by
  refine ⟨⟨?_, ?_, ?_⟩, ?_, ?_⟩
  · rintro c ⟨⟩
  · rintro c addresses ⟨⟩
  · rintro cpu call c todo ⟨⟩
  · rintro cpu call stage ⟨⟩
  · intro later cpu c earlier heq
    exact absurd heq.symm (append_ne_nil_of_right_ne_nil _ (cons_ne_nil _ _))

theorem Answered.step (h : Answered cpus s) (hstep : Stepped cpus s a s') : Answered cpus s' := by
  have hexclusive := h.exclusive.step hstep
  cases hstep with
  | early hnone _ _ =>
    refine ⟨hexclusive, fun cpu call stage hi => ?_, ?_⟩
    · exact absurd (hnone.symm.trans hi) (by rintro ⟨⟩)
    · exact ((h.seen.cons (by rintro _ _ ⟨⟩)).cons (by rintro _ _ ⟨⟩)).cons (by rintro _ _ ⟨⟩)
  | @begin cpu call hnone _ _ =>
    refine ⟨hexclusive, fun cpu' call' stage hi => ?_, ?_⟩
    · cases hi
      refine ⟨[.flushed cpu call], ⟨⟨s.history, rfl⟩, fun e he => ?_⟩, fun c hc => hc, fun c hc hposted => absurd hc hposted,
        fun c hc hposted => absurd hc hposted, fun c hc hreset => absurd hc hreset⟩
      rw [mem_singleton.1 he]
      rintro ⟨_, _, ⟨⟩⟩
    · exact (h.seen.cons (by rintro _ _ ⟨⟩)).cons (by rintro _ _ ⟨⟩)
  | @post cpu c call todo hi hfree =>
    refine ⟨hexclusive, fun cpu' call' stage hi' => ?_, h.seen⟩
    cases hi'
    obtain ⟨recent, hserving⟩ := h.serving _ _ _ hi
    exact ⟨recent, hserving.post h.exclusive hfree⟩
  | @reset cpu c call todo hi =>
    refine ⟨hexclusive, fun cpu' call' stage hi' => ?_, h.seen⟩
    cases hi'
    obtain ⟨recent, hserving⟩ := h.serving _ _ _ hi
    exact ⟨recent, hserving.reset _⟩
  | @send cpu call hi =>
    refine ⟨hexclusive, fun cpu' call' stage hi' => ?_, h.seen⟩
    cases hi'
    obtain ⟨recent, hserving⟩ := h.serving _ _ _ hi
    exact ⟨recent, hserving.latest, fun c hc => hc, hserving.posted, hserving.flushed, hserving.acked⟩
  | @sawAck cpu c call todo hi hack =>
    obtain ⟨recent, hserving⟩ := h.serving _ _ _ hi
    refine ⟨hexclusive, fun cpu' call' stage hi' => ?_, h.seen.cons fun cpu' c' heq => ?_⟩
    · cases hi'
      refine ⟨.sawAck cpu c :: recent, hserving.latest.cons (by rintro ⟨_, _, ⟨⟩⟩), fun c' hc' => ?_, hserving.posted,
        fun c' hc' hposted hflushed => ?_, fun c' hc' hreset hack' => ?_⟩
      · exact hserving.targets c' (mem_cons_of_mem _ hc')
      · exact (hserving.flushed c' hc' hposted hflushed).cons
      · exact (hserving.acked c' hc' hreset hack').cons
    · cases heq
      exact ⟨call, recent, hserving.latest, hserving.acked c (hserving.targets c mem_cons_self) not_mem_nil hack⟩
  | @timeOut cpu c call todo hi =>
    refine ⟨hexclusive, fun cpu' call' stage hi' => ?_, h.seen⟩
    cases hi'
    obtain ⟨recent, hserving⟩ := h.serving _ _ _ hi
    exact ⟨recent, hserving.latest, fun c' hc' => hserving.targets c' (mem_cons_of_mem _ hc'), hserving.posted,
      hserving.flushed, hserving.acked⟩
  | finish hi => exact ⟨hexclusive, fun _ _ _ hi' => (nomatch hi'), h.seen.cons fun _ _ h => nomatch h⟩
  | online =>
    refine ⟨hexclusive, fun cpu call stage hi => ?_, h.seen⟩
    obtain ⟨recent, hserving⟩ := h.serving cpu call stage hi
    exact ⟨recent, hserving.latest, hserving.targets, hserving.posted, hserving.flushed, hserving.acked⟩
  | enter | lock | leave =>
    refine ⟨hexclusive, fun cpu call stage hi => ?_, h.seen⟩
    obtain ⟨recent, hserving⟩ := h.serving cpu call stage hi
    exact ⟨recent, hserving.latest, hserving.targets, hserving.posted, hserving.handler (by rintro ⟨⟩), hserving.acked⟩
  | @flush c addresses hstage =>
    refine ⟨hexclusive, fun cpu call stage hi => ?_, h.seen.cons fun _ _ h => nomatch h⟩
    obtain ⟨recent, hserving⟩ := h.serving cpu call stage hi
    exact ⟨_, hserving.flush h.exclusive hstage⟩
  | @ack c hstage =>
    refine ⟨hexclusive, fun cpu call stage hi => ?_, h.seen⟩
    obtain ⟨recent, hserving⟩ := h.serving cpu call stage hi
    exact ⟨recent, hserving.ack hstage⟩

/-- Whenever an initiator saw the flag of a processor set, that processor has performed a flush that covers
the request, after the request began. -/
theorem ack_means_flushed (cpus : List ι) (h : Reaches (step cpus) (fun _ _ => True) start s) :
    ∀ later cpu c earlier, s.history = later ++ .sawAck cpu c :: earlier →
      ∃ call recent past, earlier = recent ++ .began cpu call :: past ∧ (∀ e ∈ recent, ¬IsBegan e) ∧
        ∃ what, .flushed c what ∈ recent ∧ ∀ x, call.Requests x → what.Requests x := by
  have hanswered : Answered cpus s :=
    h.invariant _ .start fun s a s' hs _ hstep => hs.step (step_stepped hstep)
  intro later cpu c earlier heq
  obtain ⟨call, recent, ⟨⟨past, hpast⟩, hrecent⟩, hanswers⟩ := hanswered.seen later cpu c earlier heq
  exact ⟨call, recent, past, hpast, hrecent, hanswers⟩

/-- Two processors, and a request that is answered. -/
def handshake : List (TlbAction ℕ ℕ) :=
  [.online, .begin 0 (.shootdown [7]), .post, .reset, .send, .enter 1, .lock 1, .flush 1, .ack 1, .sawAck]

theorem ack_means_flushed_pair :
    ∃ s, Transition.run (step [0, 1]) start handshake = some s ∧
      s.history = [.sawAck 0 1, .flushed 1 (.shootdown [7]), .flushed 0 (.shootdown [7]), .began 0 (.shootdown [7])] ∧
      ∃ call recent past, [.flushed 1 (.shootdown [7]), .flushed 0 (.shootdown [7]), .began 0 (.shootdown [7])] =
          recent ++ TlbEvent.began 0 call :: past ∧ (∀ e ∈ recent, ¬IsBegan e) ∧
        ∃ what, .flushed 1 what ∈ recent ∧ ∀ x, call.Requests x → what.Requests x := by
  obtain ⟨s, hrun, hhistory⟩ : ∃ s, Transition.run (step [0, 1]) start handshake = some s ∧
      s.history = [.sawAck 0 1, .flushed 1 (.shootdown [7]), .flushed 0 (.shootdown [7]), .began 0 (.shootdown [7])] :=
    ⟨_, rfl, rfl⟩
  have hreach := Reaches.start.run (fun _ _ _ => trivial) hrun
  exact ⟨s, hrun, hhistory, ack_means_flushed [0, 1] hreach [] 0 1 _ hhistory⟩

end Acknowledgements

end TlbState

end MaramOS
