import ByteLexer.Input.Cursor
import ByteLexer.Pattern.Basic

/-!
# Sessions

A session works on one source step by step: it moves a cursor, keeps bytes, and puts checkpoints
and copies of the cursor aside under names to come back to. Every step gives a reply. A step that
asks for something never put aside does nothing.
-/

namespace ByteLexer

structure Session where
  cursor : Cursor
  kept : Array UInt8 := #[]
  checkpoints : List (String × Checkpoint) := []
  copies : List (String × Cursor) := []

namespace Session

inductive Step where
  | peek
  | advance
  | skip (n : Nat)
  | seek (p : Position)
  | reset
  | atEnd
  | offset
  | name
  | remaining
  | buffer
  | slice (first last : Nat)
  /-- Adds to the kept bytes without reading. -/
  | push (bytes : List UInt8)
  | clear
  /-- Puts a checkpoint aside. -/
  | save (key : String)
  /-- Goes back to a checkpoint that was put aside. -/
  | restore (key : String)
  | inspect (key : String)
  /-- Puts a copy of the cursor aside. -/
  | copy (key : String)
  /-- Exchanges the cursor with a copy that was put aside. -/
  | swap (key : String)
  /-- Runs a pattern on the cursor and the kept bytes. -/
  | parse (p : Pattern)
  /-- Runs a pattern on the cursor, keeping bytes apart from the others. -/
  | recognize (p : Pattern)
  | matchLength (a : Automaton)
  /-- Reads and keeps the longest word of a table. -/
  | find (t : KeywordTable Nat)

inductive Reply where
  | nothing
  | byte (b : UInt8)
  | flag (b : Bool)
  | number (n : Nat)
  | text (s : String)
  | bytes (bs : List UInt8)
  | checkpoint (c : Checkpoint) (moved : Bool)

def Reply.ofByte? : Option UInt8 → Reply := (·.elim nothing byte)

def Reply.ofNumber? : Option Nat → Reply := (·.elim nothing number)

/-- A session before the first byte of `src`. -/
def ofSource (src : Source) : Session := { cursor := .ofSource src }

/-- Where the session stands, as a scan. -/
def scan (s : Session) : Scan := ⟨s.cursor.position, s.kept⟩

/-- The session with place and kept bytes as in a scan. -/
def withScan (s : Session) (t : Scan) : Session :=
  { s with cursor.position := t.position, kept := t.kept }

def step (s : Session) : Step → Reply × Session
  | .peek => (.ofByte? s.cursor.peek, s)
  | .advance => (.ofByte? s.cursor.peek, { s with cursor := s.cursor.advance })
  | .skip n =>
    let moved := s.cursor.skip n
    (.number (moved.offset - s.cursor.offset), { s with cursor := moved })
  | .seek p => (.nothing, { s with cursor := s.cursor.seek p })
  | .reset => (.nothing, { s with cursor := s.cursor.reset })
  | .atEnd => (.flag s.cursor.atEnd, s)
  | .offset => (.number s.cursor.offset, s)
  | .name => (.text s.cursor.source.name, s)
  | .remaining => (.bytes s.cursor.remaining, s)
  | .buffer => (.bytes s.cursor.source.bytes.toList, s)
  | .slice first last => (.bytes (s.cursor.source.slice first last).toList, s)
  | .push bytes => (.nothing, { s with kept := s.kept ++ bytes })
  | .clear => (.nothing, { s with kept := #[] })
  | .save key => (.nothing, { s with checkpoints := (key, s.scan.checkpoint) :: s.checkpoints })
  | .restore key =>
    match s.checkpoints.lookup key with
    | some c => (.nothing, s.withScan (s.scan.restore s.cursor.source c))
    | none => (.nothing, s)
  | .inspect key =>
    match s.checkpoints.lookup key with
    | some c => (.checkpoint c (c.moved s.cursor.position), s)
    | none => (.nothing, s)
  | .copy key => (.nothing, { s with copies := (key, s.cursor) :: s.copies })
  | .swap key =>
    match s.copies.lookup key with
    | some c => (.nothing, { s with cursor := c, copies := (key, s.cursor) :: s.copies })
    | none => (.nothing, s)
  | .parse p =>
    let outcome := p.run s.cursor.source s.scan
    (.flag outcome.isMatch, s.withScan outcome.scan)
  | .recognize p =>
    let (found, stop) := p.recognize s.cursor.source s.cursor.position
    (found.elim .nothing (.bytes ·.toList), { s with cursor.position := stop })
  | .matchLength a => (.ofNumber? (a.longestMatch s.cursor.source s.cursor.position), s)
  | .find t =>
    let (tag, scan) := t.find s.cursor.source s.scan
    (.ofNumber? tag, s.withScan scan)

def run (s : Session) (steps : List Step) : Session := steps.foldl (fun s step => (s.step step).2) s

end Session

end ByteLexer
