import ByteLexer.Automaton.LongestMatch
import ByteLexer.KeywordTable

/-!
# Patterns

Patterns read bytes eagerly. A pattern that fails may have read and kept something, and only
`attempt` takes that back. This matters to whatever tries something else after a failure: a choice
goes on to its second pattern, and an optional repetition ends in a match, only if the failed
pattern has not moved; otherwise the failure stands. `run` is defined by recursion on the pattern,
with the loops as functions of their own so that they can be reasoned about for any recogniser.
-/

namespace ByteLexer

/-- A description of what to read. -/
inductive Pattern where
  /-- One byte of a class, or nothing if that is what the class stands for. -/
  | ofClass (c : ByteClass)
  | satisfy (test : UInt8 → Bool)
  | literal (bytes : List UInt8)
  | seq (first second : Pattern)
  /-- The one, or the other if the first has failed without moving. -/
  | alt (first second : Pattern)
  /-- The pattern, going back to where it began if it fails. -/
  | attempt (p : Pattern)
  /-- At least `least` times the pattern and as often as possible up to `most` times. -/
  | repetition (p : Pattern) (least most : Nat)
  /-- `opening`, then `body` until `closing` is found. -/
  | bracket (opening body closing : Pattern)
  | eof
  | nop
  /-- The longest text an automaton matches. -/
  | automaton (a : Automaton)
  | keywords (t : KeywordTable Unit)

namespace Pattern

/-- Runs a recogniser `n` times; the first failure stands. -/
def exactly (p : Scan → Outcome) : Nat → Scan → Outcome
  | 0, s => .matched s
  | n + 1, s => (p s).andThen (exactly p n)

/-- What a recogniser does, with a checkpoint of where it began. The checkpoint is taken first, so
the bytes kept so far are the recogniser's alone and grow without being copied. -/
@[noinline] def marked (p : Scan → Outcome) (s : Scan) : Checkpoint × Outcome := (s.checkpoint, p s)

/-- Runs a recogniser up to `n` times, until it fails or stays where it is. A failure that has moved
stands, any other ends the repetition. -/
def upTo (p : Scan → Outcome) : Nat → Scan → Outcome
  | 0, s => .matched s
  | n + 1, s =>
    match marked p s with
    | (start, .matched t) => if start.moved t.position then upTo p n t else .matched t
    | (start, .failed t) => if start.moved t.position then .failed t else .matched t

/-- Runs `body` until `closing` matches, in at most `rounds` rounds. It fails if `body` fails or
stays at its offset. -/
def untilClosed (body closing : Scan → Outcome) : Nat → Scan → Outcome
  | 0, s => .failed s
  | rounds + 1, s =>
    match closing s with
    | .matched t => .matched t
    | .failed t =>
      match marked body t with
      | (start, .matched u) =>
        if u.position.offset = start.offset then .failed u else untilClosed body closing rounds u
      | (_, .failed u) => .failed u

/-- Runs `second` from where `first` failed, unless it moved. -/
def choice (first second : Scan → Outcome) (s : Scan) : Outcome :=
  match marked first s with
  | (_, .matched t) => .matched t
  | (start, .failed t) => if start.moved t.position then .failed t else second t

/-- Runs a recogniser and goes back to the beginning if it fails. -/
def speculate (src : Source) (p : Scan → Outcome) (s : Scan) : Outcome :=
  match marked p s with
  | (_, .matched t) => .matched t
  | (start, .failed t) => .failed (t.restore src start)

/-- Reads and keeps `bytes`, as far as they are there. -/
def readAll (src : Source) : List UInt8 → Scan → Outcome
  | [], s => .matched s
  | byte :: rest, s => (s.byteIf src (· == byte)).andThen (readAll src rest)

/-- Reads as many bytes as a match has, if there is one. -/
def readMatch (src : Source) (length : Option Nat) (s : Scan) : Outcome :=
  match length with
  | some n => s.read src n
  | none => .failed s

/-- What comes of a pattern, run on a source from some state of a scan. A bracket has one round for
each byte that is left and one more to find none. -/
def run (src : Source) : Pattern → Scan → Outcome
  | ofClass c, s => if c.isEpsilon then .matched s else s.byteIf src c.contains
  | satisfy test, s => s.byteIf src test
  | literal bytes, s => readAll src bytes s
  | seq first second, s => (first.run src s).andThen (second.run src)
  | alt first second, s => choice (first.run src) (second.run src) s
  | attempt p, s => speculate src (p.run src) s
  | repetition p least most, s =>
    (exactly (p.run src) least s).andThen (upTo (p.run src) (most - least))
  | bracket opening body closing, s =>
    (opening.run src s).andThen fun t =>
      untilClosed (body.run src) (closing.run src) (src.bytes.size - t.position.offset + 1) t
  | eof, s => if src.atEnd s.position then .matched s else .failed s
  | nop, s => .matched s
  | automaton a, s => readMatch src (a.longestMatch src s.position) s
  | keywords t, s => readMatch src ((t.longest src s.position).map (·.1)) s

/-- Runs a pattern on its own from a place: what it has kept if it matches, and where it stopped. -/
def recognize (p : Pattern) (src : Source) (pos : Position) : Option (Array UInt8) × Position :=
  match p.run src (.fresh pos) with
  | .matched s => (some s.kept, s.position)
  | .failed s => (none, s.position)

/-- As many times as a repetition without a bound of its own may run: the largest 64-bit number. -/
def unbounded : Nat := 0xFFFFFFFFFFFFFFFF

def zeroOrMore (p : Pattern) : Pattern := p.repetition 0 unbounded

def oneOrMore (p : Pattern) : Pattern := p.repetition 1 unbounded

def optional (p : Pattern) : Pattern := p.repetition 0 1

def times (p : Pattern) (n : Nat) : Pattern := p.repetition n n

def char (c : Char) : Pattern := ofClass (.char c)

def ofString (s : String) : Pattern := literal (Text.Utf8.encode s)

def oneOfWords (words : List (List UInt8)) : Pattern :=
  keywords (.ofList (words.map (·, ())))

instance : Coe ByteClass Pattern := ⟨ofClass⟩

instance : AndThen Pattern := ⟨fun p q => p.seq (q ())⟩

instance : OrElse Pattern := ⟨fun p q => p.alt (q ())⟩

end Pattern

end ByteLexer
