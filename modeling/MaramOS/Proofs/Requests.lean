import MaramOS.Proofs.Shootdown

/-! Which requests for a TLB flush are carried out. A request that timed out is still
in the mailbox of its processor, and is lost when the next one overwrites it. -/

namespace MaramOS.TlbState

open List Transition
open Function (update update_of_ne update_self)

variable {ι α : Type} {c cpu : ι} {call : TlbCall α} {x : α}

def FlushedIn (events : List (TlbEvent ι α)) (c : ι) (x : α) : Prop := ∃ what, .flushed c what ∈ events ∧ what.Requests x

theorem FlushedIn.append_left {l l' : List (TlbEvent ι α)} (h : FlushedIn l c x) : FlushedIn (l ++ l') c x := by
  obtain ⟨what, hmem, hx⟩ := h
  exact ⟨what, mem_append_left _ hmem, hx⟩

theorem FlushedIn.append_right {l l' : List (TlbEvent ι α)} (h : FlushedIn l' c x) : FlushedIn (l ++ l') c x := by
  obtain ⟨what, hmem, hx⟩ := h
  exact ⟨what, mem_append_right _ hmem, hx⟩

theorem split_began {new old later earlier : List (TlbEvent ι α)} {b : ι} (hnew : ∀ e ∈ new, ¬IsBegan e)
    (h : new ++ old = later ++ .began b call :: earlier) :
    ∃ later', later = new ++ later' ∧ old = later' ++ .began b call :: earlier := by
  rcases append_eq_append_iff.1 h with ⟨l, hlater, hold⟩ | ⟨l, hnew', hold⟩
  · exact ⟨l, hlater, hold⟩
  · cases l with
    | nil =>
      rw [append_nil] at hnew'
      exact ⟨[], by rw [append_nil, hnew'], hold.symm⟩
    | cons e l =>
      obtain ⟨rfl, -⟩ := List.cons.inj hold
      exact absurd ⟨b, call, rfl⟩ (hnew _ (by rw [hnew']; exact mem_append_right _ mem_cons_self))

variable [DecidableEq ι] {cpus : List ι} {s s' : TlbState ι α} {a : TlbAction ι α}

/-- An address that another processor has asked `c` to flush, without success so far. -/
def Owed (s : TlbState ι α) (c : ι) (x : α) : Prop :=
  ∃ later b call earlier, s.history = later ++ .began b call :: earlier ∧ b ≠ c ∧ call.Requests x ∧ ¬FlushedIn later c x

/-- The handler of `c` is going to flush what is in the mailbox. -/
inductive Expected (cpus : List ι) (s : TlbState ι α) (c : ι) : Prop
  | pending : s.pending c = true → Expected cpus s c
  | entered : s.handler c = .entered → Expected cpus s c
  | locked (addresses : List α) : s.handler c = .locked addresses → Expected cpus s c
  | toSend (i : Initiator ι α) : s.initiator = some i → c ∈ others cpus i.cpu → i.stage.toSend = true → Expected cpus s c

/-- The mailbox of `c` has the address, and it is going to be read. -/
def Outstanding (cpus : List ι) (s : TlbState ι α) (c : ι) (x : α) : Prop :=
  (flushOf (s.tlbAddresses c)).Requests x ∧ Expected cpus s c

/-- Every request that has been posted to `c` is flushed there or outstanding. -/
def Kept (cpus : List ι) (s : TlbState ι α) (c : ι) : Prop :=
  ∀ later b call earlier, s.history = later ++ .began b call :: earlier → b ≠ c →
    (∀ i, s.initiator = some i → (∀ e ∈ later, ¬IsBegan e) → c ∉ i.stage.unposted) →
    ∀ x, call.Requests x → FlushedIn later c x ∨ Outstanding cpus s c x

/-- Calls that reach the other processors, and mailboxes that are only overwritten by a request which covers
all that is owed to their processor. -/
def Covering (cpus : List ι) (s : TlbState ι α) : TlbAction ι α → Prop
  | .begin _ call => s.returnsEarly cpus call = true → cpus.length ≤ 1 ∨ call = .shootdown []
  | .post => ∀ cpu call c todo, s.initiator = some ⟨cpu, call, .posting (c :: todo)⟩ → ∀ x, Owed s c x → call.Requests x
  | _ => True

theorem Kept.extend (h : Kept cpus s c) (new : List (TlbEvent ι α)) (hnew : ∀ e ∈ new, ¬IsBegan e)
    (hhistory : s'.history = new ++ s.history)
    (hunposted : (∀ i, s'.initiator = some i → c ∉ i.stage.unposted) → ∀ i, s.initiator = some i → c ∉ i.stage.unposted)
    (hout : ∀ x, Outstanding cpus s c x → FlushedIn new c x ∨ Outstanding cpus s' c x) : Kept cpus s' c := by
  intro later b call earlier heq hb hposted x hx
  rw [hhistory] at heq
  obtain ⟨later', rfl, hold⟩ := split_began hnew heq
  have hposted' : ∀ i, s.initiator = some i → (∀ e ∈ later', ¬IsBegan e) → c ∉ i.stage.unposted := by
    intro i hi hlater
    refine hunposted (fun i' hi' => hposted i' hi' fun e he => ?_) i hi
    rcases mem_append.1 he with he | he
    · exact hnew e he
    · exact hlater e he
  rcases h later' b call earlier hold hb hposted' x hx with hflushed | hx
  · exact .inl hflushed.append_right
  · rcases hout x hx with hflushed | hx
    · exact .inl hflushed.append_left
    · exact .inr hx

theorem mem_others : c ∈ others cpus cpu ↔ c ∈ cpus ∧ c ≠ cpu := by
  rw [others, mem_filter, decide_eq_true_eq]

theorem Outstanding.flushed (h : Outstanding cpus s c x) (hexclusive : Exclusive s) {addresses : List α}
    (hstage : s.handler c = .locked addresses) : FlushedIn [.flushed c (flushOf addresses)] c x := by
  refine ⟨_, mem_cons_self, ?_⟩
  rw [hexclusive.read c addresses hstage]
  exact h.1

theorem Expected.mono (h : Expected cpus s c)
    (hsend : ∀ i, s.initiator = some i → i.stage.toSend = true →
      ∃ i', s'.initiator = some i' ∧ i'.cpu = i.cpu ∧ i'.stage.toSend = true)
    (hpending : s'.pending = s.pending) (hhandler : s'.handler = s.handler) : Expected cpus s' c := by
  cases h with
  | pending hp => exact .pending (by rw [hpending]; exact hp)
  | entered hp => exact .entered (by rw [hhandler]; exact hp)
  | locked _ hp => exact .locked _ (by rw [hhandler]; exact hp)
  | toSend i hi hc hs =>
    obtain ⟨i', hi', hcpu, hs'⟩ := hsend i hi hs
    exact .toSend i' hi' (by rw [hcpu]; exact hc) hs'

theorem Kept.post {c' : ι} {todo : List ι} (h : Kept cpus s c) (hanswered : Answered cpus s)
    (hi : s.initiator = some ⟨cpu, call, .posting (c' :: todo)⟩) (hcovers : ∀ x, Owed s c' x → call.Requests x)
    (locked : ι → Bool) :
    Kept cpus { s with initiator := some ⟨cpu, call, .resetting c' todo⟩
                       tlbAddresses := update s.tlbAddresses c' call.mailbox
                       mailboxLocked := locked } c := by
  obtain ⟨recent, hserving⟩ := hanswered.serving _ _ _ hi
  by_cases heq : c = c'
  · -- the request that is posted covers all that is owed
    subst heq
    intro later b call' earlier hhistory hb hposted x hx
    by_cases hflushed : FlushedIn later c x
    · exact .inl hflushed
    · have hrequested : call.Requests x := hcovers x ⟨later, b, call', earlier, hhistory, hb, hx, hflushed⟩
      refine .inr ⟨?_, .toSend _ rfl (hserving.targets c mem_cons_self) rfl⟩
      simp only [update_self]
      exact requests_flushOf hrequested
  · refine h.extend [] (fun e he => absurd he not_mem_nil) rfl (fun hposted i hi' => ?_) fun x hx => .inr ?_
    · rw [hi] at hi'
      cases hi'
      exact fun hmem => (mem_cons.1 hmem).elim heq (hposted _ rfl)
    · refine ⟨by simp only [update_of_ne heq]; exact hx.1, hx.2.mono (fun i hi' _ => ?_) rfl rfl⟩
      rw [hi] at hi'
      cases hi'
      exact ⟨_, rfl, rfl, rfl⟩

theorem Kept.began (h : Kept cpus s c) (hc : c ∈ cpus) (hnone : s.initiator = none) :
    Kept cpus { s with initiator := some ⟨cpu, call, .posting (others cpus cpu)⟩
                       history := .flushed cpu call :: .began cpu call :: s.history } c := by
  intro later b call' earlier hhistory hb hposted x hx
  rcases later with _ | ⟨e1, _ | ⟨e2, later⟩⟩
  · cases hhistory
  · cases hhistory
    refine absurd (mem_others.2 ⟨hc, hb.symm⟩) (hposted _ rfl fun e he => ?_)
    rw [mem_singleton.1 he]
    rintro ⟨_, _, ⟨⟩⟩
  · simp only [cons_append, List.cons.injEq] at hhistory
    obtain ⟨rfl, rfl, hhistory⟩ := hhistory
    rcases h later b call' earlier hhistory hb (fun i hi => absurd (hnone.symm.trans hi) (by rintro ⟨⟩)) x hx with hx | hx
    · exact .inl (FlushedIn.append_right (l := [_, _]) hx)
    · exact .inr ⟨hx.1, hx.2.mono (fun i hi => absurd (hnone.symm.trans hi) (by rintro ⟨⟩)) rfl rfl⟩

theorem Kept.early (h : Kept cpus s c) (hc : c ∈ cpus) (hcpu : cpu ∈ cpus) (hnone : s.initiator = none)
    (hnothing : cpus.length ≤ 1 ∨ call = .shootdown []) :
    Kept cpus { s with history := .finished cpu :: .flushed cpu call :: .began cpu call :: s.history } c := by
  intro later b call' earlier hhistory hb hposted x hx
  rcases later with _ | ⟨e1, _ | ⟨e2, _ | ⟨e3, later⟩⟩⟩
  · cases hhistory
  · cases hhistory
  · cases hhistory
    rcases hnothing with hlen | rfl
    · -- there is no other processor
      match cpus, hlen with
      | [d], _ => exact absurd ((mem_singleton.1 hcpu).trans (mem_singleton.1 hc).symm) hb
    · exact absurd hx not_mem_nil
  · simp only [cons_append, List.cons.injEq] at hhistory
    obtain ⟨rfl, rfl, rfl, hhistory⟩ := hhistory
    rcases h later b call' earlier hhistory hb (fun i hi => absurd (hnone.symm.trans hi) (by rintro ⟨⟩)) x hx with hx | hx
    · exact .inl (FlushedIn.append_right (l := [_, _, _]) hx)
    · exact .inr ⟨hx.1, hx.2.mono (fun i hi => absurd (hnone.symm.trans hi) (by rintro ⟨⟩)) rfl rfl⟩

theorem Expected.handled (h : Expected cpus s c) {c' : ι} {next : HandlerStage α} (hi : s'.initiator = s.initiator)
    (hhandler : s'.handler = update s.handler c' next)
    (hpending : c ≠ c' → s'.pending c = s.pending c) (hself : c = c' → Expected cpus s c → Expected cpus s' c) :
    Expected cpus s' c := by
  by_cases heq : c = c'
  · exact hself heq h
  · cases h with
    | pending hp => exact .pending (by rw [hpending heq]; exact hp)
    | entered hp => exact .entered (by rw [hhandler, update_of_ne heq]; exact hp)
    | locked _ hp => exact .locked _ (by rw [hhandler, update_of_ne heq]; exact hp)
    | toSend i hi' hc hs => exact .toSend i (by rw [hi]; exact hi') hc hs

theorem Kept.step (h : Kept cpus s c) (hc : c ∈ cpus) (hanswered : Answered cpus s) (hok : Covering cpus s a)
    (hstep : Stepped cpus s a s') : Kept cpus s' c := by
  have hnil : ∀ e ∈ ([] : List (TlbEvent ι α)), ¬IsBegan e := fun e he => absurd he not_mem_nil
  cases hstep with
  | early hnone hcpu hearly => exact h.early hc hcpu hnone (hok hearly)
  | begin hnone _ _ => exact h.began hc hnone
  | post hi _ => exact h.post hanswered hi (hok _ _ _ _ hi) _
  | @reset cpu c' call todo hi =>
    refine h.extend [] hnil rfl (fun hposted i hi' => ?_) fun x hx => .inr ⟨hx.1, hx.2.mono (fun i hi' _ => ?_) rfl rfl⟩
    · rw [hi] at hi'
      cases hi'
      exact hposted ⟨cpu, call, .posting todo⟩ rfl
    · rw [hi] at hi'
      cases hi'
      exact ⟨_, rfl, rfl, rfl⟩
  | @send cpu call hi =>
    refine h.extend [] hnil rfl (fun hposted i hi' => ?_) fun x hx => .inr ⟨hx.1, ?_⟩
    · rw [hi] at hi'
      cases hi'
      exact not_mem_nil
    · cases hx.2 with
      | pending hp => exact .pending (by simp only [hp, Bool.true_or])
      | entered hp => exact .entered hp
      | locked _ hp => exact .locked _ hp
      | toSend i hi' hc _ =>
        rw [hi] at hi'
        cases hi'
        exact .pending (by simp only [decide_eq_true hc, Bool.or_true])
  | @timeOut cpu c' call todo hi =>
    refine h.extend [] hnil rfl (fun hposted i hi' => ?_) fun x hx => .inr ⟨hx.1, hx.2.mono (fun i hi' hs => ?_) rfl rfl⟩
    · rw [hi] at hi'
      cases hi'
      exact not_mem_nil
    · rw [hi] at hi'
      cases hi'
      cases hs
  | sawAck hi | finish hi =>
    refine h.extend [_] (fun e he => ?_) rfl (fun hposted i hi' => ?_)
      fun x hx => .inr ⟨hx.1, hx.2.mono (fun i hi' hs => ?_) rfl rfl⟩
    · rw [mem_singleton.1 he]
      rintro ⟨_, _, ⟨⟩⟩
    · rw [hi] at hi'
      cases hi'
      exact not_mem_nil
    · rw [hi] at hi'
      cases hi'
      cases hs
  | online =>
    exact h.extend [] hnil rfl (fun hposted => hposted) fun x hx =>
      .inr ⟨hx.1, hx.2.mono (fun i hi hs => ⟨i, hi, rfl, hs⟩) rfl rfl⟩
  | @enter c' hidle hpending =>
    refine h.extend [] hnil rfl (fun hposted => hposted) fun x hx => .inr ⟨hx.1, hx.2.handled rfl rfl (fun hne => ?_) ?_⟩
    · simp only [update_of_ne hne]
    · rintro rfl -
      exact .entered (by simp only [update_self])
  | @lock c' hentered hfree =>
    refine h.extend [] hnil rfl (fun hposted => hposted) fun x hx => .inr ⟨hx.1, hx.2.handled rfl rfl (fun _ => rfl) ?_⟩
    rintro rfl -
    exact .locked (s.tlbAddresses c) (by simp only [update_self])
  | @flush c' addresses hstage =>
    refine h.extend [.flushed c' (flushOf addresses)] (fun e he => ?_) rfl (fun hposted => hposted) fun x hx => ?_
    · rw [mem_singleton.1 he]
      rintro ⟨_, _, ⟨⟩⟩
    · by_cases heq : c = c'
      · subst heq
        exact .inl (hx.flushed hanswered.exclusive hstage)
      · exact .inr ⟨hx.1, hx.2.handled rfl rfl (fun _ => rfl) fun h => absurd h heq⟩
  | @ack c' hstage | @leave c' hstage =>
    refine h.extend [] hnil rfl (fun hposted => hposted) fun x hx => .inr ⟨hx.1, hx.2.handled rfl rfl (fun _ => rfl) ?_⟩
    rintro rfl hself
    cases hself with
    | pending hp => exact .pending hp
    | entered hp => exact absurd (hstage.symm.trans hp) (by rintro ⟨⟩)
    | locked _ hp => exact absurd (hstage.symm.trans hp) (by rintro ⟨⟩)
    | toSend i hi hc hs => exact .toSend i hi hc hs

/-- When no initiator is active and the handler of `c` has nothing to do, every address that another
processor asked for has been flushed on `c` since. -/
theorem requests_flushed (cpus : List ι) (h : Reaches (step cpus) (Covering cpus) start s) (hnone : s.initiator = none)
    (hc : c ∈ cpus) (hpending : s.pending c = false) (hidle : s.handler c = .idle) :
    ∀ later b call earlier, s.history = later ++ .began b call :: earlier → b ≠ c → ∀ x, call.Requests x →
      ∃ what, .flushed c what ∈ later ∧ what.Requests x := by
  have hkept : Answered cpus s ∧ Kept cpus s c := by
    refine h.invariant (fun s => Answered cpus s ∧ Kept cpus s c) ⟨.start, fun later b call earlier heq => ?_⟩
      fun s a s' hs hok hstep => ?_
    · exact absurd heq.symm (List.append_ne_nil_of_right_ne_nil _ (List.cons_ne_nil _ _))
    · have hstepped := step_stepped hstep
      exact ⟨hs.1.step hstepped, hs.2.step hc hs.1 hok hstepped⟩
  intro later b call earlier hhistory hb x hx
  rcases hkept.2 later b call earlier hhistory hb (fun i hi => absurd (hnone.symm.trans hi) (by rintro ⟨⟩)) x hx with hx | hx
  · exact hx
  · cases hx.2 with
    | pending hp => exact absurd (hpending.symm.trans hp) (by rintro ⟨⟩)
    | entered hp => exact absurd (hidle.symm.trans hp) (by rintro ⟨⟩)
    | locked _ hp => exact absurd (hidle.symm.trans hp) (by rintro ⟨⟩)
    | toSend i hi _ _ => exact absurd (hnone.symm.trans hi) (by rintro ⟨⟩)

/-- The first of two processors has begun a request, and posted it. -/
def begun : TlbState ℕ ℕ :=
  { start with
    initiator := some ⟨0, .shootdown [7], .posting [1]⟩
    onlineAps := 1
    history := [.flushed 0 (.shootdown [7]), .began 0 (.shootdown [7])] }

def posted : TlbState ℕ ℕ :=
  { begun with
    initiator := some ⟨0, .shootdown [7], .resetting 1 []⟩
    tlbAddresses := update (fun _ => []) 1 [7]
    mailboxLocked := update (fun _ => false) 1 true }

def answered : List (TlbAction ℕ ℕ) :=
  [.reset, .send, .enter 1, .lock 1, .flush 1, .ack 1, .sawAck, .finish, .leave 1]

theorem begun_covering : Covering [0, 1] begun .post := by
  intro cpu call c todo hi x hx
  cases hi
  -- the only request that is owed is the one to be posted
  obtain ⟨later, b, call', earlier, heq, -, hx, -⟩ := hx
  rcases later with _ | ⟨e1, _ | ⟨e2, later⟩⟩
  · cases heq
  · cases heq
    exact hx
  · simp [begun] at heq

theorem requests_flushed_pair :
    ∃ s, Transition.run (step [0, 1]) posted answered = some s ∧
      s.history = [.finished 0, .sawAck 0 1, .flushed 1 (.shootdown [7]), .flushed 0 (.shootdown [7])] ++
        [.began 0 (.shootdown [7])] ∧
      ∃ what, TlbEvent.flushed 1 what ∈
        [TlbEvent.finished 0, .sawAck 0 1, .flushed 1 (.shootdown [7]), .flushed 0 (.shootdown [7])] ∧ what.Requests 7 := by
  have honline : step [0, 1] (start : TlbState ℕ ℕ) .online = some { start with onlineAps := 1 } := rfl
  have hbegin : step [0, 1] { start with onlineAps := 1 } (.begin 0 (.shootdown [7])) = some begun := rfl
  have hpost : step [0, 1] begun .post = some posted := rfl
  have hearly : Covering [0, 1] ({ start with onlineAps := 1 } : TlbState ℕ ℕ) (.begin 0 (.shootdown [7])) :=
    fun h => nomatch h
  have hposted := ((Reaches.start.step trivial honline).step hearly hbegin).step begun_covering hpost
  obtain ⟨s, hrun, hnone, hpending, hidle, hhistory⟩ : ∃ s,
      Transition.run (step [0, 1]) posted answered = some s ∧
      s.initiator = none ∧ s.pending 1 = false ∧ s.handler 1 = .idle ∧
      s.history = [.finished 0, .sawAck 0 1, .flushed 1 (.shootdown [7]), .flushed 0 (.shootdown [7])] ++
        [.began 0 (.shootdown [7])] := ⟨_, rfl, rfl, rfl, rfl, rfl⟩
  have hfree : ∀ s, ∀ a ∈ answered, Covering [0, 1] s a := by simp [answered, Covering]
  have hreach := hposted.run hfree hrun
  exact ⟨s, hrun, hhistory, requests_flushed [0, 1] hreach hnone (by decide) hpending hidle _ 0 _ [] hhistory
    (by decide) 7 List.mem_cons_self⟩

/-- A request that times out, and another one before the handler has run. -/
def overtaken : List (TlbAction ℕ ℕ) :=
  [.online, .begin 0 (.shootdown [7]), .post, .reset, .send, .timeOut, .finish, .begin 0 (.shootdown [8]), .post, .reset,
    .send, .timeOut, .finish, .enter 1, .lock 1, .flush 1, .ack 1, .leave 1]

/-- The second request has overwritten the first one, which is never carried out. -/
theorem overtaken_lost :
    ∃ s later, Transition.run (step [0, 1]) start overtaken = some s ∧ s.initiator = none ∧ s.pending 1 = false ∧
      s.handler 1 = .idle ∧ s.history = later ++ [.began 0 (.shootdown [7])] ∧ ¬FlushedIn later 1 7 := by
  refine ⟨_, [.flushed 1 (.shootdown [8]), .finished 0, .flushed 0 (.shootdown [8]), .began 0 (.shootdown [8]),
    .finished 0, .flushed 0 (.shootdown [7])], rfl, rfl, rfl, rfl, rfl, ?_⟩
  rintro ⟨what, hmem, hx⟩
  obtain rfl : what = .shootdown [8] := by simpa using hmem
  exact absurd hx (by simp [TlbCall.Requests])

end MaramOS.TlbState
