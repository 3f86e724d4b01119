import SweptHeap.Script.Ledger
import SweptHeap.World

/-!
# Scripts on the world

A script that registers threads, lets them change their mode and park, and stops and resumes the
world. A wait for the threads to become safe and a stop that has to wait its turn are numbered
together; after every step those that can end do so, the stops one after the other.
-/

namespace SweptHeap.Script

/-- A parked thread. The call that parked it gives back the mode before, if it changed the mode. -/
structure Parked where
  thread : Nat
  before : Option ThreadMode

structure WorldScript where
  world : World := {}
  /-- In the order of parking. -/
  parked : List Parked := []
  /-- Whether the script holds the world stopped. -/
  holds : Bool := false
  /-- How many waits and stops there have been. -/
  waits : Nat := 0
  waiting : List Nat := []
  stops : List (Nat × StopReason) := []
  journal : Journal := #[]

namespace WorldScript

inductive Step where
  | register
  | unregister (thread : Nat)
  | request (reason : Arg StopReason)
  | resume
  | setMode (thread : Nat) (mode : Arg ThreadMode)
  | poll (thread : Nat)
  | wait
  | stop (reason : Arg StopReason)
  /-- Resumes the world that the script holds. -/
  | release
  | stopLater (reason : Arg StopReason)
  | unknown

inductive Outcome where
  | done
  | thread (id : Nat)
  | granted (granted : Bool)
  | before (mode : Option ThreadMode)
  | parks
  | wait (id : Nat)

abbrev Result := Except Failure Outcome × WorldScript

/-- The thread that a step is about. -/
def Step.thread? : Step → Option Nat
  | unregister thread | setMode thread _ | poll thread => some thread
  | _ => none

/-- Whether a step may be taken while a stop waits its turn. -/
def Step.allowedWithStops : Step → Bool
  | resume | release | stopLater _ => true
  | _ => false

private def hasParked (s : WorldScript) (thread : Nat) : Bool := s.parked.any (·.thread = thread)

/-- Whether a stop would have to wait. -/
private def wouldBlock (s : WorldScript) : Bool :=
  s.holds || s.world.requested || !s.world.allSafe

private def parkThread (thread : Nat) (before : Option ThreadMode) (s : WorldScript) : Result :=
  (.ok .parks,
    { s with world := s.world.park thread, parked := s.parked ++ [⟨thread, before⟩] })

private def perform (s : WorldScript) : Step → Result
  | .register =>
    let (id, w) := s.world.register
    (.ok (.thread id), { s with world := w, journal := s.journal.push (.registered id) })
  | .unregister thread =>
    (.ok .done,
      { s with
        world := s.world.unregister thread
        journal := s.journal.push (.unregistered thread) })
  | .request (.ok reason) =>
    match s.world.request reason with
    | (false, _) => (.ok (.granted false), s)
    | (true, w) =>
      (.ok (.granted true),
        { s with world := w, journal := s.journal.push (.stopRequested reason) })
  | .resume => (.ok .done, { s with world := s.world.resume })
  | .setMode thread mode =>
    if s.hasParked thread then (.error (.refused .nodeParked), s)
    else match mode with
      | .error e => (.error e, s)
      | .ok mode =>
        let (before, w) := s.world.setMode thread mode
        let s := { s with world := w }
        if w.mustPark mode then s.parkThread thread (some before)
        else (.ok (.before (some before)), s)
  | .poll thread =>
    if s.hasParked thread then (.error (.refused .nodeParked), s)
    else if s.world.requested then s.parkThread thread none
    else (.ok (.before none), s)
  | .wait =>
    (.ok (.wait s.waits), { s with waits := s.waits + 1, waiting := s.waiting ++ [s.waits] })
  | .stop reason =>
    if s.wouldBlock then (.error (.refused .wouldBlock), s)
    else match reason with
      | .error e => (.error e, s)
      | .ok reason =>
        match s.world.stop? reason with
        | none => (.error (.refused .wouldBlock), s)
        | some w =>
          (.ok .done,
            { s with
              world := w
              holds := true
              journal := (s.journal.push (.stopRequested reason)).push .worldStopped })
  | .release =>
    if s.holds then (.ok .done, { s with world := s.world.resume, holds := false })
    else (.error (.refused .notStopped), s)
  | .stopLater reason =>
    if s.world.registered.isEmpty && s.parked.isEmpty then
      match reason with
      | .error e => (.error e, s)
      | .ok reason =>
        (.ok (.wait s.waits),
          { s with waits := s.waits + 1, stops := s.stops ++ [(s.waits, reason)] })
    else (.error (.refused .hasThreads), s)
  | .request (.error e) => (.error e, s)
  | .unknown => (.error (.refused .badRequest), s)

def step (s : WorldScript) (t : Step) : Result :=
  match t.thread?.bind fun thread => if thread < s.world.nodes.size then none else some thread with
  | some _ => (.error (.refused .noNode), s)
  | none =>
    if !s.stops.isEmpty && !t.allowedWithStops then (.error (.refused .stopPending), s)
    else s.perform t

/-- What came to an end after a step. -/
structure Ended where
  woke : List Parked := []
  /-- The stops and then the waits. -/
  finished : List Nat := []

/-- Lets the stops take their turns, each resuming the world again. -/
def takeTurns (w : World) : List (Nat × StopReason) → World × List Nat × List (Nat × StopReason)
  | [] => (w, [], [])
  | (id, reason) :: rest =>
    match w.stop? reason with
    | none => (w, [], (id, reason) :: rest)
    | some stopped =>
      let (w, finished, left) := takeTurns stopped.resume rest
      (w, id :: finished, left)

/-- Ends what can end. -/
def settle (s : WorldScript) : Ended × WorldScript :=
  let woke := if s.world.requested then [] else s.parked
  let w := woke.foldl (fun w p => w.unpark p.thread) s.world
  let (w, stopped, stops) := takeTurns w s.stops
  let (finished, waiting) := s.waiting.partition fun _ => w.allSafe
  (⟨woke, stopped ++ finished⟩,
    { s with
      world := w
      parked := if s.world.requested then s.parked else []
      waiting := waiting
      stops := stops })

/-- Numbers of the waits and stops under way. -/
def blocked (s : WorldScript) : List Nat := s.waiting ++ s.stops.map (·.1)

end WorldScript

end SweptHeap.Script
