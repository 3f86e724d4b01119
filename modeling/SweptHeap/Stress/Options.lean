import SweptHeap.Layout

/-!
# Options of the stress test

Every option takes a number, in the next argument or after an equals sign; an option with a letter
may have the number right behind the letter. No option is given twice. An argument may ask for the
help or the version instead.
-/

namespace SweptHeap.Stress

structure Options where
  /-- Mutator threads. -/
  threads : Nat := 4
  /-- Objects that each thread allocates. -/
  objects : Nat := 200000
  /-- Smallest payload. -/
  minSize : Nat := 8
  /-- Largest payload. -/
  maxSize : Nat := 512
  /-- Every so many objects one stays reachable until all threads are done. -/
  surviveEvery : Nat := 16
  /-- Every so many objects one gets a finalizer; none if zero. -/
  finalizeEvery : Nat := 32
  /-- Every so many objects one is a large array; none if zero. -/
  largeEvery : Nat := 5000
  triggerBytes : Option Nat := none
  sweepAssistants : Option Nat := none
  retainedEmptyPages : Option Nat := none

inductive OptionName where
  | threads
  | objects
  | minSize
  | maxSize
  | surviveEvery
  | finalizeEvery
  | largeEvery
  | triggerBytes
  | sweepAssistants
  | retainedEmptyPages
  deriving DecidableEq

namespace OptionName

def all : List OptionName :=
  [threads, objects, minSize, maxSize, surviveEvery, finalizeEvery, largeEvery, triggerBytes,
    sweepAssistants, retainedEmptyPages]

def long : OptionName → String
  | threads => "threads"
  | objects => "objects"
  | minSize => "min-size"
  | maxSize => "max-size"
  | surviveEvery => "survive-every"
  | finalizeEvery => "finalize-every"
  | largeEvery => "large-every"
  | triggerBytes => "trigger-bytes"
  | sweepAssistants => "sweep-assistants"
  | retainedEmptyPages => "retained-empty-pages"

def letter : OptionName → Option Char
  | threads => some 't'
  | objects => some 'o'
  | _ => none

def ofLong? (name : List Char) : Option OptionName := all.find? (·.long.toList = name)

def ofLetter? (c : Char) : Option OptionName := all.find? (·.letter = some c)

end OptionName

def Options.set (o : Options) (n : Nat) : OptionName → Options
  | .threads => { o with threads := n }
  | .objects => { o with objects := n }
  | .minSize => { o with minSize := n }
  | .maxSize => { o with maxSize := n }
  | .surviveEvery => { o with surviveEvery := n }
  | .finalizeEvery => { o with finalizeEvery := n }
  | .largeEvery => { o with largeEvery := n }
  | .triggerBytes => { o with triggerBytes := some n }
  | .sweepAssistants => { o with sweepAssistants := some n }
  | .retainedEmptyPages => { o with retainedEmptyPages := some n }

/-- The number of an option, if it has one. -/
def Options.get? (o : Options) : OptionName → Option Nat
  | .threads => some o.threads
  | .objects => some o.objects
  | .minSize => some o.minSize
  | .maxSize => some o.maxSize
  | .surviveEvery => some o.surviveEvery
  | .finalizeEvery => some o.finalizeEvery
  | .largeEvery => some o.largeEvery
  | .triggerBytes => o.triggerBytes
  | .sweepAssistants => o.sweepAssistants
  | .retainedEmptyPages => o.retainedEmptyPages

@[simp] theorem Options.get?_set (o : Options) (n : Nat) (name : OptionName) :
    (o.set n name).get? name = some n := by
  cases name <;> rfl

/-- Decimal digits that make up a machine word. -/
def digits? (cs : List Char) : Option Nat :=
  if cs.isEmpty || !cs.all Char.isDigit then none
  else
    let n := cs.foldl (fun n c => n * 10 + (c.toNat - '0'.toNat)) 0
    if n < wordLimit then some n else none

/-- A number: digits, with or without a plus sign. -/
def number? : List Char → Option Nat
  | '+' :: cs => digits? cs
  | cs => digits? cs

/-- An argument that names an option, and the number if it is part of the argument. -/
structure Mention where
  name : OptionName
  value : Option (List Char)

def mention? : List Char → Option Mention
  | '-' :: '-' :: cs => do
    let name ← OptionName.ofLong? (cs.takeWhile (· ≠ '='))
    match cs.dropWhile (· ≠ '=') with
    | [] => return ⟨name, none⟩
    | _ :: value => return ⟨name, some value⟩
  | '-' :: c :: cs => do
    let name ← OptionName.ofLetter? c
    match cs with
    | [] => return ⟨name, none⟩
    | '=' :: value => return ⟨name, some value⟩
    | value => return ⟨name, some value⟩
  | _ => none

/-- What the arguments ask for. -/
inductive Request where
  | run (o : Options)
  | help
  | version
  | usage

/-- What an argument asks for instead of a run. Behind the letter anything may stand. -/
def question? : List Char → Option Request
  | '-' :: 'h' :: _ => some .help
  | '-' :: 'V' :: _ => some .version
  | cs =>
    if cs = "--help".toList then some .help
    else if cs = "--version".toList then some .version
    else none

/-- Reads the arguments from the left, up to the first that asks for something else than a run or
cannot be read. -/
def readFrom (o : Options) (seen : List OptionName) : List String → Request
  | [] => .run o
  | arg :: rest =>
    if arg = "--" then if rest.isEmpty then .run o else .usage
    else match question? arg.toList, mention? arg.toList with
      | some request, _ => request
      | none, none => .usage
      | none, some ⟨name, value⟩ =>
        if seen.contains name then .usage
        else match value, rest with
          | some value, rest =>
            match number? value with
            | none => .usage
            | some n => readFrom (o.set n name) (name :: seen) rest
          | none, [] => .usage
          | none, next :: rest =>
            match number? next.toList with
            | none => .usage
            | some n => readFrom (o.set n name) (name :: seen) rest

def read (args : List String) : Request := readFrom {} [] args

end SweptHeap.Stress
