import Mender.Datum.Access
import Mender.Text.Rows

/-! The part of each benchmark's time that is spent in the code under measurement. -/
namespace Mender.Measure
open Text

/-- The parts of time of benchmarks, in percent; a negative number stands for a failure. -/
structure RepoTime where
  shares : List (Datum × Float) := []
  /-- For some benchmarks, the other code that takes most time, with its parts in percent. -/
  hot : List (Datum × List (Float × Datum)) := []

namespace RepoTime

def limit : Float := 45.0

def hotSpot (d : Datum) : Except Fault (Float × Datum) := do
  match d with
  | .list [part, .text name] => return (← part.toFloat, .text name)
  | .list [part, .torn codes] => return (← part.toFloat, .torn codes)
  | _ => throw (.badValue "not enough values to unpack (expected 2, got 0)")

def ofDatum (d : Datum) : Except Fault RepoTime := do
  let shares ← (← d.field "repo_time_pct" (.dict [])).entries
  let hot ← (← d.field "hot_ext" (.dict [])).entries
  return {
    shares := ← shares.mapM fun (name, d) => do return (name, ← d.toFloat)
    hot := ← hot.mapM fun (name, d) => do return (name, ← (← d.members).mapM hotSpot) }

def isMeasured (share : Float) : Bool := 0.0 ≤ share

def isLow (share : Float) : Bool := isMeasured share && share < limit

def measured (t : RepoTime) : Nat := (t.shares.filter fun s => isMeasured s.2).length

def low (t : RepoTime) : Nat := (t.shares.filter fun s => isLow s.2).length

def low? (t : RepoTime) : Option Nat := if t.measured = 0 then none else some t.low

def hotText (spots : List (Float × Datum)) : Except Fault String := do
  if spots.isEmpty then return ""
  let items ← spots.mapM fun (part, name) => do
    let shown ← name.shown
    return s!"{shown} {Number.fixedText 0 part}%"
  return " (hot: " ++ join " " items ++ ")"

def row (t : RepoTime) (name : Datum) (share : Float) : Except Fault String := do
  let mark := if isLow share then "*" else " "
  let part := if isMeasured share then share else 0.0
  let spots := ((t.hot.find? fun e => e.1.same name).map (·.2)).getD []
  let note ←
    if !isMeasured share then pure "  <error>"
    else if isLow share then hotText spots
    else pure ""
  let shown ← name.shown
  return s!"  {mark} {padRight 32 shown} " ++ Number.padLeft 5 ' ' (Number.fixedText 1 part) ++
    "%" ++ note

/-- The lines of the table, lowest parts first; none if there are no benchmarks. -/
def table (t : RepoTime) : List (Except Fault String) :=
  if t.shares.isEmpty then []
  else
    let ordered := t.shares.mergeSort fun a b => !(b.2 < a.2)
    .ok "\nrepo_time (target 50%; * = below 45%):" ::
      ordered.map fun (name, share) => t.row name share

end RepoTime

end Mender.Measure
