import SweptHeap.Double.Shortest
import SweptHeap.Layout

/-!
# Settings

When to collect, how much to keep, and who helps. After a cycle the next one is due when the bytes
in use have grown by the growth factor, and at the earliest at the first trigger.
-/

namespace SweptHeap

structure Settings where
  /-- Bytes in use that ask for the first collection. -/
  triggerBytes : Nat := 64 * 1024 * 1024
  targetGrowth : Double := .ofNat 2
  /-- How many threads help with a sweep. -/
  sweepAssistants : Nat := 0
  /-- Empty pages that each shelf keeps after a cycle. -/
  retainedEmptyPages : Nat := 4
  /-- How long a collection waits for a closed gate, in nanoseconds. -/
  suspendNanos : Nat := 10 * 1000 * 1000 * 1000

inductive SettingsError where
  | zeroTrigger
  | invalidGrowth (growth : Double)
  | tooManyAssistants (count : Nat)
  | zeroSuspendTimeout

/-- The settings that someone chose; the others keep their defaults. -/
structure SettingsInfo where
  triggerBytes : Option Nat := none
  targetGrowth : Option Double := none
  sweepAssistants : Option Nat := none
  retainedEmptyPages : Option Nat := none
  suspendNanos : Option Nat := none

namespace Settings

def mostAssistants : Nat := 64

end Settings

def SettingsError.message : SettingsError → String
  | zeroTrigger => "trigger_bytes must be > 0"
  | invalidGrowth growth => "target_growth must be a finite value >= 1.0, got " ++ growth.toText
  | tooManyAssistants count =>
    s!"at most {Settings.mostAssistants} sweep assistants are supported, got {count}"
  | zeroSuspendTimeout => "suspend_timeout must be non-zero"

namespace Settings

def validate (s : Settings) : Except SettingsError Unit :=
  if s.triggerBytes = 0 then .error .zeroTrigger
  else if !s.targetGrowth.isFinite || s.targetGrowth.lt .one then
    .error (.invalidGrowth s.targetGrowth)
  else if mostAssistants < s.sweepAssistants then .error (.tooManyAssistants s.sweepAssistants)
  else if s.suspendNanos = 0 then .error .zeroSuspendTimeout
  else .ok ()

/-- The defaults with what was chosen in their place. -/
def ofInfo (i : SettingsInfo) : Except SettingsError Settings :=
  let d : Settings := {}
  let s : Settings := ⟨i.triggerBytes.getD d.triggerBytes, i.targetGrowth.getD d.targetGrowth,
    i.sweepAssistants.getD d.sweepAssistants, i.retainedEmptyPages.getD d.retainedEmptyPages,
    i.suspendNanos.getD d.suspendNanos⟩
  s.validate.map fun _ => s

/-- Bytes in use that ask for the collection after one that left `liveBytes`. -/
def nextTrigger (s : Settings) (liveBytes : Nat) : Nat :=
  max ((Double.ofNat liveBytes).mul s.targetGrowth).toWord s.triggerBytes

end Settings

end SweptHeap
