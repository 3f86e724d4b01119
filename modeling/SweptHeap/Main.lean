import SweptHeap.Stress.Summary

/-!
# The stress test as a program
-/

namespace SweptHeap.Stress

def complain (r : Refusal) : IO UInt32 := do
  r.lines.forM fun line => IO.eprintln line
  return r.exitCode.toUInt32

/-- Runs the test and takes the time of its two parts. -/
def runTimed (o : Options) : IO UInt32 := do
  match start o with
  | .error e => complain e
  | .ok l =>
    let begun ← IO.monoNanosNow
    match runLoad o l with
    | .error e => complain e
    | .ok l =>
      let loaded ← IO.monoNanosNow
      match sumUp o l with
      | .error e => complain e
      | .ok s =>
        let ended ← IO.monoNanosNow
        (s.lines (some ⟨ended - begun, ended - loaded⟩)).forM fun line => IO.println line
        return 0

end SweptHeap.Stress

open SweptHeap.Stress in
def main (args : List String) : IO UInt32 := do
  match read args with
  | .usage => complain .usage
  | .help =>
    helpLines.forM fun line => IO.println line
    return 0
  | .version =>
    IO.println (versionLine programName)
    return 0
  | .run o => runTimed o
