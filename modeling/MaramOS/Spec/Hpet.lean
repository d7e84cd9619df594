import MaramOS.Spec.Basic

/-! The clock: the timer of `acpi/hpet.rs`, the units of `helpers/time.rs` and the loop of
`helpers/mod.rs` that waits for a device. -/

namespace MaramOS

inductive ACPIError
  | hpetPeriodZero | madtEntryLengthZero | ioapicNotInitialized | gsiUnderflow
  deriving DecidableEq, Repr

inductive Time
  | nanoseconds (x : ℕ)
  | milliseconds (x : ℕ)
  | seconds (x : ℕ)
  | minutes (x : ℕ)
  | hours (x : ℕ)
  | days (x : ℕ)
  deriving DecidableEq, Repr

def Time.toNanos : Time → ℕ
  | .nanoseconds x => x
  | .milliseconds x => wmul x 1000000
  | .seconds x => wmul x 1000000000
  | .minutes x => wmul x 60000000000
  | .hours x => wmul x 3600000000000
  | .days x => wmul x 86400000000000

namespace Hpet

structure Registers where
  gcap : UInt64
  conf : UInt64
  deriving DecidableEq, Repr

/-- The period in femtoseconds that is stored, and the registers once the counter runs. -/
def init (regs : Registers) : Except ACPIError (ℕ × Registers) :=
  let period := (regs.gcap >>> 32).toNat
  if period = 0 then .error .hpetPeriodZero
  else .ok (period, { regs with conf := regs.conf ||| 1 })

/-- `passed_nanos` when the main counter is `raw`. -/
def passedNanos (period raw : ℕ) : ℕ := wmul raw period / 10 ^ 6

/-- One turn of a waiting loop: what its condition says, and the counter when it is read after that. -/
structure Poll where
  busy : Bool
  raw : ℕ
  deriving DecidableEq, Repr

/-- The loop of `wait_timeout`; `none` when it still runs after all of the turns. -/
def waitTimeoutLoop (period start : ℕ) (timeout : Time) : List Poll → Option Bool
  | [] => none
  | p :: polls =>
    if p.busy then
      if wsub (passedNanos period p.raw) start > timeout.toNanos then some false
      else waitTimeoutLoop period start timeout polls
    else some true

/-- `wait_timeout` that is called when the counter is `raw`. -/
def waitTimeout (period raw : ℕ) (timeout : Time) (polls : List Poll) : Option Bool :=
  waitTimeoutLoop period (passedNanos period raw) timeout polls

end Hpet

end MaramOS
