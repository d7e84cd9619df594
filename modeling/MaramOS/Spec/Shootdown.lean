import Mathlib.Data.Nat.Notation
import Mathlib.Logic.Function.Basic
import MaramOS.Lib.Transition

/-! The TLB shootdowns of `smp/ipi.rs`. Every processor has a mailbox with its lock,
an acknowledgement flag and a pending interrupt. Initiators are serialised by
`IPI_LOCK`, and the handlers run at any time, so that one step here is what happens
under a lock or one access to a flag. -/

namespace MaramOS

/-- `tlb_shootdown` or `tlb_shoot_all`; also what a flush clears. -/
inductive TlbCall (α : Type)
  | shootdown (addresses : List α)
  | shootAll
  deriving DecidableEq, Repr

/-- The addresses that a call asks for. -/
def TlbCall.Requests {α : Type} (c : TlbCall α) (x : α) : Prop :=
  match c with
  | .shootdown addresses => x ∈ addresses
  | .shootAll => True

/-- What an initiator leaves in `tlb_addresses`. -/
def TlbCall.mailbox {α : Type} : TlbCall α → List α
  | .shootdown addresses => addresses
  | .shootAll => []

/-- What the handler flushes for a mailbox; an empty one means everything. -/
def flushOf {α : Type} : List α → TlbCall α
  | [] => .shootAll
  | addresses => .shootdown addresses

/-- Where an initiator is; the lists hold the processors that are still to come. -/
inductive InitiatorStage (ι : Type)
  | posting (todo : List ι)
  /-- The mailbox of `cpu` is written, and its flag is to be reset. -/
  | resetting (cpu : ι) (todo : List ι)
  /-- In `wait_acks`. -/
  | waiting (todo : List ι)
  deriving DecidableEq, Repr

structure Initiator (ι α : Type) where
  cpu : ι
  call : TlbCall α
  stage : InitiatorStage ι
  deriving DecidableEq, Repr

/-- Where `ipi_tlb_handler` is; from `locked` on it holds the lock of the mailbox, and `locked` has what it
read there. -/
inductive HandlerStage (α : Type)
  | idle
  | entered
  | locked (addresses : List α)
  | flushed
  | acked
  deriving DecidableEq, Repr

inductive TlbEvent (ι α : Type)
  | began (cpu : ι) (call : TlbCall α)
  | flushed (cpu : ι) (what : TlbCall α)
  /-- The initiator saw the flag of `cpu` set. -/
  | sawAck (initiator cpu : ι)
  | finished (cpu : ι)
  deriving DecidableEq, Repr

structure TlbState (ι α : Type) where
  /-- The holder of `IPI_LOCK`. -/
  initiator : Option (Initiator ι α)
  tlbAddresses : ι → List α
  mailboxLocked : ι → Bool
  ipiAck : ι → Bool
  pending : ι → Bool
  handler : ι → HandlerStage α
  onlineAps : ℕ
  /-- The latest event first. -/
  history : List (TlbEvent ι α)

inductive TlbAction (ι α : Type)
  | begin (cpu : ι) (call : TlbCall α)
  | post
  | reset
  | send
  | sawAck
  | timeOut
  | finish
  | enter (cpu : ι)
  | lock (cpu : ι)
  | flush (cpu : ι)
  | ack (cpu : ι)
  | leave (cpu : ι)
  /-- An application processor comes online. -/
  | online

namespace TlbState

variable {ι α : Type} [DecidableEq ι]

/-- The state after booting, before any processor but the first is online. -/
def start : TlbState ι α :=
  ⟨none, fun _ => [], fun _ => false, fun _ => false, fun _ => false, fun _ => .idle, 0, []⟩

/-- `&*CPUS` without the initiator. -/
def others (cpus : List ι) (cpu : ι) : List ι := cpus.filter fun c => c ≠ cpu

/-- The early returns of `tlb_shootdown` and `tlb_shoot_all`. -/
def returnsEarly (cpus : List ι) (s : TlbState ι α) : TlbCall α → Bool
  | .shootdown addresses => cpus.length ≤ 1 || addresses.isEmpty || s.onlineAps ≠ cpus.length - 1
  | .shootAll => cpus.length ≤ 1 || s.onlineAps ≠ cpus.length - 1

def keepsLock : TlbCall α → Bool
  | .shootdown _ => true
  | .shootAll => false

def atStage (s : TlbState ι α) (i : Initiator ι α) (stage : InitiatorStage ι) : TlbState ι α :=
  { s with initiator := some { i with stage := stage } }

/-- The steps of the processor that holds `IPI_LOCK`. -/
def initiatorStep (cpus : List ι) (s : TlbState ι α) (i : Initiator ι α) : TlbAction ι α → Option (TlbState ι α)
  | .post =>
    match i.stage with
    | .posting (c :: todo) =>
      -- `tlb_shootdown` keeps the lock until the flag is reset, `tlb_shoot_all` does not
      if s.mailboxLocked c then none
      else some (({ s with
        tlbAddresses := Function.update s.tlbAddresses c i.call.mailbox
        mailboxLocked := Function.update s.mailboxLocked c (keepsLock i.call) } : TlbState ι α).atStage i
          (.resetting c todo))
    | _ => none
  | .reset =>
    match i.stage with
    | .resetting c todo =>
      some (({ s with
        ipiAck := Function.update s.ipiAck c false
        mailboxLocked := if keepsLock i.call then Function.update s.mailboxLocked c false else s.mailboxLocked } :
          TlbState ι α).atStage i (.posting todo))
    | _ => none
  | .send =>
    match i.stage with
    | .posting [] =>
      some (({ s with pending := fun c => s.pending c || decide (c ∈ others cpus i.cpu) } : TlbState ι α).atStage i
        (.waiting (others cpus i.cpu)))
    | _ => none
  | .sawAck =>
    match i.stage with
    | .waiting (c :: todo) =>
      if s.ipiAck c then
        some (({ s with history := .sawAck i.cpu c :: s.history } : TlbState ι α).atStage i (.waiting todo))
      else none
    | _ => none
  | .timeOut =>
    match i.stage with
    | .waiting (_ :: todo) => some (s.atStage i (.waiting todo))
    | _ => none
  | .finish =>
    match i.stage with
    | .waiting [] => some { s with initiator := none, history := .finished i.cpu :: s.history }
    | _ => none
  | _ => none

/-- The steps of `ipi_tlb_handler` on `c`. -/
def handlerStep (s : TlbState ι α) (c : ι) : TlbAction ι α → Option (TlbState ι α)
  | .enter _ =>
    match s.handler c with
    | .idle =>
      if s.pending c then
        some { s with pending := Function.update s.pending c false, handler := Function.update s.handler c .entered }
      else none
    | _ => none
  | .lock _ =>
    match s.handler c with
    | .entered =>
      if s.mailboxLocked c then none
      else some { s with
        mailboxLocked := Function.update s.mailboxLocked c true
        handler := Function.update s.handler c (.locked (s.tlbAddresses c)) }
    | _ => none
  | .flush _ =>
    match s.handler c with
    | .locked addresses =>
      some { s with handler := Function.update s.handler c .flushed, history := .flushed c (flushOf addresses) :: s.history }
    | _ => none
  | .ack _ =>
    match s.handler c with
    | .flushed => some { s with handler := Function.update s.handler c .acked, ipiAck := Function.update s.ipiAck c true }
    | _ => none
  | .leave _ =>
    match s.handler c with
    | .acked =>
      some { s with
        handler := Function.update s.handler c .idle
        mailboxLocked := Function.update s.mailboxLocked c false }
    | _ => none
  | _ => none

def step (cpus : List ι) (s : TlbState ι α) (a : TlbAction ι α) : Option (TlbState ι α) :=
  match a with
  | .begin cpu call =>
    match s.initiator with
    | some _ => none
    | none =>
      if cpu ∉ cpus then none else
      -- the initiator flushes its own addresses first
      let history := .flushed cpu call :: .began cpu call :: s.history
      if s.returnsEarly cpus call then some { s with history := .finished cpu :: history }
      else some { s with initiator := some ⟨cpu, call, .posting (others cpus cpu)⟩, history := history }
  | .enter c => s.handlerStep c a
  | .lock c => s.handlerStep c a
  | .flush c => s.handlerStep c a
  | .ack c => s.handlerStep c a
  | .leave c => s.handlerStep c a
  | .online => some { s with onlineAps := s.onlineAps + 1 }
  | a =>
    match s.initiator with
    | none => none
    | some i => s.initiatorStep cpus i a

end TlbState

end MaramOS
