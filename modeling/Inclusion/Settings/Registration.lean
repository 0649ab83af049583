import Inclusion.Settings.Snapshot
import Inclusion.Settings.Statement

/-!
# What a settings file registers

Pieces are scanned in order. An include statement stays open for bare names until a piece of another
kind comes; blanks change nothing. A bare name where no statement is open registers nothing and is
reported.

* `scan_append`: a scan goes on where an earlier one stopped.
-/
namespace Inclusion.Settings

open Text

/-- How far a scan has come. -/
structure Scan where
  snapshot : Snapshot := {}
  /-- Whether an include statement is open. -/
  continuing : Bool := false
  /-- The bare names met where no statement was open, as they were written. -/
  strays : List String := []
deriving DecidableEq, Repr

namespace Scan

/-- Takes up one piece, given what it is. -/
def take (s : Scan) (text : String) : Piece → Scan
  | .blank => s
  | .bareName name =>
    if s.continuing then { s with snapshot := s.snapshot.addInternal name }
    else { s with strays := s.strays ++ [String.ofList (trim text.toList)] }
  | .opening name => { s with snapshot := s.snapshot.addInternal name, continuing := true }
  | .binding name path =>
    { s with snapshot := s.snapshot.addExternal name path, continuing := false }
  | .other => { s with continuing := false }

def step (s : Scan) (text : String) : Scan := s.take text (Piece.ofText text)

end Scan

/-- Scans pieces in order. -/
def scan (pieces : List String) : Scan := pieces.foldl Scan.step {}

/-- The projects that pieces register. -/
def Snapshot.ofPieces (pieces : List String) : Snapshot := (scan pieces).snapshot

/-- The pieces of a line, which commas separate. -/
def pieces (line : String) : List String := (line.toList.splitOn ',').map String.ofList

/-- The projects that the lines of a settings file register. -/
def Snapshot.ofLines (lines : List String) : Snapshot := .ofPieces (lines.flatMap pieces)

theorem scan_append (ps qs : List String) : scan (ps ++ qs) = qs.foldl Scan.step (scan ps) := by
  simp [scan]

end Inclusion.Settings
