import SweptHeap.Settings

/-!
# Errors of a collector

A collector is refused by its settings, and it can be started only once at a time.
-/

namespace SweptHeap

inductive CollectorError where
  | settings (error : SettingsError)
  | alreadyStarted

def CollectorError.message : CollectorError → String
  | settings error => error.message
  | alreadyStarted => "the collector is already running"

/-- The kind of an error in a word. -/
def CollectorError.name : CollectorError → String
  | settings .zeroTrigger => "ZeroTrigger"
  | settings (.invalidGrowth _) => "InvalidGrowth"
  | settings (.tooManyAssistants _) => "TooManyAssistants"
  | settings .zeroSuspendTimeout => "ZeroSuspendTimeout"
  | alreadyStarted => "AlreadyStarted"

end SweptHeap
