import WordPlaces.Text.Quoted

/-!
# Spans

A span is a region of a source text, given by the positions in bytes at which it starts and
stops.  Every diagnostic carries one.

## Main definitions

* `splitBytes?` — cuts a text after a number of bytes.
* `Span` — a region, which never cuts through a character.
* `Span.of?`, `Span.dummy` — the region between two positions, and the one that points nowhere.
* `Span.text`, `Span.debugText` — what the region holds, and the region with its positions.
-/

set_option autoImplicit false

namespace WordPlaces

/-- Cuts a text after exactly `count` bytes of its encoding; there is no such cut inside a
character or beyond the end. -/
def splitBytes? (count : Nat) : List Char → Option (List Char × List Char)
  | [] => if count = 0 then some ([], []) else none
  | c :: cs =>
    if count = 0 then some ([], c :: cs)
    else if c.utf8Size ≤ count then
      (splitBytes? (count - c.utf8Size) cs).map fun (left, right) => (c :: left, right)
    else none

/-- The characters between two byte positions. -/
def sliceBytes? (src : String) (start stop : Nat) : Option (List Char) :=
  if start ≤ stop then do
    let (_, rest) ← splitBytes? start src.toList
    let (slice, _) ← splitBytes? (stop - start) rest
    return slice
  else none

/-- A region of a source text. -/
structure Span where
  src : String
  start : Nat
  stop : Nat
  /-- The region lies within the text and cuts through no character. -/
  isSlice : (sliceBytes? src start stop).isSome = true
  deriving DecidableEq

namespace Span

/-- The region between two byte positions. -/
def of? (src : String) (start stop : Nat) : Option Span :=
  if h : (sliceBytes? src start stop).isSome = true then some ⟨src, start, stop, h⟩ else none

/-- The region that points nowhere, for code without a source of its own. -/
def dummy : Span := ⟨"", 0, 0, rfl⟩

instance : Inhabited Span := ⟨dummy⟩

/-- What the region holds. -/
def text (s : Span) : String := String.ofList ((sliceBytes? s.src s.start s.stop).get s.isSlice)

/-- Regions are ordered by their texts, then by where they start, then by where they stop. -/
instance : Ord Span where
  compare a b :=
    (compare a.src b.src).then <| (compare a.start b.start).then (compare a.stop b.stop)

/-- The region with its positions, for logs. -/
def debugText (s : Span) : String :=
  s!"Span \x7b start: {s.start}, end: {s.stop}, as_str: {Text.quoted s.text} \x7d"

end Span

end WordPlaces
