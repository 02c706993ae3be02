import ByteLexer.Input.Checkpoint
import ByteLexer.Input.Source

/-!
# Scans and their outcomes

A scan reads a source and keeps what it reads; a recogniser runs on a scan and comes out either
matched or failed, and in both cases with a scan that says how far it has come and what it has
kept. Going back to a checkpoint moves the place and cuts the kept bytes to their old length.
-/

namespace ByteLexer

/-- The state of a scan: the place reached and the bytes kept. -/
structure Scan where
  position : Position
  kept : Array UInt8
deriving DecidableEq

namespace Scan

/-- A scan at `p` that has kept nothing yet. -/
def fresh (p : Position) : Scan := ⟨p, #[]⟩

def checkpoint (s : Scan) : Checkpoint := ⟨s.position, s.kept.size⟩

/-- Goes back to a checkpoint: to its place, and to as many kept bytes as there were. -/
def restore (src : Source) (c : Checkpoint) (s : Scan) : Scan :=
  ⟨src.seek c.position, s.kept.shrink c.consumed⟩

def keep (s : Scan) (byte : UInt8) : Scan := ⟨s.position.advance byte, s.kept.push byte⟩

def keepAll (s : Scan) (bytes : List UInt8) : Scan := bytes.foldl keep s

@[simp] theorem keepAll_nil (s : Scan) : s.keepAll [] = s := rfl

@[simp] theorem keepAll_cons (s : Scan) (byte : UInt8) (bytes : List UInt8) :
    s.keepAll (byte :: bytes) = (s.keep byte).keepAll bytes := rfl

theorem keepAll_append (s : Scan) (xs ys : List UInt8) :
    s.keepAll (xs ++ ys) = (s.keepAll xs).keepAll ys :=
  List.foldl_append

theorem position_keepAll (s : Scan) (bytes : List UInt8) :
    (s.keepAll bytes).position = s.position.advanceOver bytes := by
  induction bytes generalizing s with
  | nil => rfl
  | cons byte bytes ih => simp [ih, keep]

theorem kept_keepAll (s : Scan) (bytes : List UInt8) :
    (s.keepAll bytes).kept.toList = s.kept.toList ++ bytes := by
  induction bytes generalizing s with
  | nil => simp
  | cons byte bytes ih => simp [ih, keep]

end Scan

/-- How a recogniser came out, with the state of the scan where it stopped. -/
inductive Outcome where
  | matched (scan : Scan)
  | failed (scan : Scan)
deriving DecidableEq

namespace Outcome

def scan : Outcome → Scan
  | matched s => s
  | failed s => s

def isMatch : Outcome → Bool
  | matched _ => true
  | failed _ => false

/-- Goes on with `next` after a match; a failure stands as it is. -/
@[inline] def andThen (r : Outcome) (next : Scan → Outcome) : Outcome :=
  match r with
  | matched s => next s
  | failed s => failed s

@[simp] theorem andThen_matched (s : Scan) (next : Scan → Outcome) :
    (matched s).andThen next = next s := rfl

@[simp] theorem andThen_failed (s : Scan) (next : Scan → Outcome) :
    (failed s).andThen next = failed s := rfl

end Outcome

namespace Scan

/-- Reads and keeps the next byte if `test` holds of it. -/
def byteIf (src : Source) (test : UInt8 → Bool) (s : Scan) : Outcome :=
  match src.peek s.position with
  | some byte => if test byte then .matched (s.keep byte) else .failed s
  | none => .failed s

/-- Reads and keeps `n` bytes, or as many as are left when that is fewer, which is a failure. -/
def read (src : Source) : Nat → Scan → Outcome
  | 0, s => .matched s
  | n + 1, s => (s.byteIf src fun _ => true).andThen (read src n)

end Scan

end ByteLexer
