import SweptHeap.Stress.Options

/-!
# The help of the stress test

What the program says about itself: each option with what it means and the number it has unless one
is given.
-/

namespace SweptHeap.Stress

def programName : String := "heapstress"

/-- The line that names the version, under the name of the package that the program is built in. -/
def versionLine (package : String) : String := package ++ " 0.1.0"

namespace OptionName

def meaning : OptionName → String
  | threads => "Mutator threads"
  | objects => "Objects allocated per thread"
  | minSize => "Smallest payload in bytes"
  | maxSize => "Largest payload in bytes"
  | surviveEvery => "Every n-th object stays reachable until all mutators are done"
  | finalizeEvery => "Every n-th object gets a finalizer (0 disables)"
  | largeEvery =>
    "Every n-th object is a large array routed to single-object pages (0 disables)"
  | triggerBytes => "Allocation volume that triggers the first collection"
  | sweepAssistants => "Threads helping the collector sweep"
  | retainedEmptyPages => "Empty pages kept per store after a collection"

/-- What stands for the number of an option: the option's name in capitals. -/
def placeholder (n : OptionName) : String :=
  String.ofList (n.long.toList.map fun c => if c = '-' then '_' else c.toUpper)

end OptionName

/-- The two lines of an entry: the spellings, and below them what they mean. -/
def helpEntry (letter : Option Char) (long meaning : String) : List String :=
  let short := letter.elim "    " fun c => "-" ++ String.singleton c ++ ", "
  ["  " ++ short ++ "--" ++ long, "          " ++ meaning]

def OptionName.helpEntry (n : OptionName) : List String :=
  let default := (Options.get? {} n).elim "" fun v => s!" [default: {v}]"
  Stress.helpEntry n.letter (n.long ++ " <" ++ n.placeholder ++ ">") (n.meaning ++ default)

def helpLines : List String :=
  ["Multi-threaded allocation stress test for pageheap", "",
    "Usage: " ++ programName ++ " [OPTIONS]", "", "Options:"] ++
    OptionName.all.flatMap OptionName.helpEntry ++
    helpEntry (some 'h') "help" "Print help" ++ helpEntry (some 'V') "version" "Print version"

end SweptHeap.Stress
