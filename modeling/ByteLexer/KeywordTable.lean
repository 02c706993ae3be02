import ByteLexer.Input.Scan

/-!
# Keyword tables

Tables of words with tags, matched by maximal munch. A table is a trie: a branch holds one byte, the
tag of the word that ends with it, the words that go on after it, and the words that have another
byte in its place. Looking up a word and finding the longest word ahead are both walks along the
branches; `get?_insert` says what a table holds.
-/

namespace ByteLexer

/-- A set of words, each with a tag. -/
inductive KeywordTable (α : Type) where
  | empty
  | branch (byte : UInt8) (tag : Option α) (longer others : KeywordTable α)

namespace KeywordTable

variable {α : Type}

/-- The table of one word. The empty word is in no table. -/
def single (tag : α) : List UInt8 → KeywordTable α
  | [] => empty
  | [byte] => branch byte (some tag) empty empty
  | byte :: rest => branch byte none (single tag rest) empty

/-- Gives `word` the tag `tag`, in place of the one it may have. -/
def insert (word : List UInt8) (tag : α) : KeywordTable α → KeywordTable α
  | empty => single tag word
  | branch byte old longer others =>
    match word with
    | [] => branch byte old longer others
    | first :: rest =>
      if first = byte then
        if rest.isEmpty then branch byte (some tag) longer others
        else branch byte old (longer.insert rest tag) others
      else branch byte old longer (others.insert word tag)

/-- The table of a list of words; a word listed more than once has its last tag. -/
def ofList (words : List (List UInt8 × α)) : KeywordTable α :=
  words.foldl (fun t (word, tag) => t.insert word tag) empty

def get? : KeywordTable α → List UInt8 → Option α
  | empty, _ => none
  | branch _ _ _ _, [] => none
  | branch byte tag longer others, first :: rest =>
    if first = byte then if rest.isEmpty then tag else longer.get? rest
    else others.get? (first :: rest)

def contains (t : KeywordTable α) (word : List UInt8) : Bool := (t.get? word).isSome

/-- Whether some word begins with all of a nonempty list of bytes. -/
def isPrefixOfWord : KeywordTable α → List UInt8 → Bool
  | empty, _ => false
  | branch _ _ _ _, [] => false
  | branch byte _ longer others, first :: rest =>
    if first = byte then rest.isEmpty || longer.isPrefixOfWord rest
    else others.isPrefixOfWord (first :: rest)

def toList : KeywordTable α → List (List UInt8 × α)
  | empty => []
  | branch byte tag longer others =>
    (tag.map ([byte], ·)).toList ++ longer.toList.map (fun (word, tag) => (byte :: word, tag)) ++
      others.toList

def size : KeywordTable α → Nat
  | empty => 0
  | branch _ tag longer others => tag.toList.length + longer.size + others.size

def isEmpty (t : KeywordTable α) : Bool := t.size == 0

/-- Walks the words along the text from the offset `first + read`, where `best` is the length and
the tag of the longest word seen so far. -/
def longestFrom (src : Source) (first : Nat) :
    KeywordTable α → (read : Nat) → (best : Option (Nat × α)) → Option (Nat × α)
  | empty, _, best => best
  | branch byte tag longer others, read, best =>
    if src.bytes[first + read]? = some byte then
      longer.longestFrom src first (read + 1) ((tag.map (read + 1, ·)).or best)
    else others.longestFrom src first read best

/-- The length and the tag of the longest word at a place. -/
def longest (t : KeywordTable α) (src : Source) (p : Position) : Option (Nat × α) :=
  t.longestFrom src p.offset 0 none

/-- Reads and keeps the longest word ahead and gives its tag; without one nothing is read. -/
def find (t : KeywordTable α) (src : Source) (s : Scan) : Option α × Scan :=
  match t.longest src s.position with
  | some (length, tag) => (some tag, (s.read src length).scan)
  | none => (none, s)

theorem get?_single (tag : α) (word w : List UInt8) :
    (single tag word).get? w = if w = word ∧ word ≠ [] then some tag else none := by
  induction word generalizing w with
  | nil => simp [single, get?]
  | cons byte rest ih =>
    cases w with
    | nil => cases rest <;> simp [single, get?]
    | cons first w => cases rest <;> grind [single, get?]

/-- Inserting a word changes the tag of that word only, and the empty word is never inserted. -/
theorem get?_insert (word : List UInt8) (tag : α) (t : KeywordTable α) (w : List UInt8) :
    (t.insert word tag).get? w = if w = word ∧ word ≠ [] then some tag else t.get? w := by
  induction t generalizing word w with
  | empty => simp [insert, get?_single, get?]
  | branch byte old longer others ihl iho =>
    cases word with
    | nil => simp [insert]
    | cons first rest =>
      cases w with
      | nil => grind [insert, get?]
      | cons b w => grind [insert, get?]

end KeywordTable

end ByteLexer
