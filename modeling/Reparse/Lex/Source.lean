import Reparse.Text.Utf8
/-!
# Byte sources

The lexer asks a source for the bytes from an offset on and gets a chunk, as long or as short as the
source likes; an empty chunk is the end. A source may keep state and change it with every request.
Bytes that encode no character read as replacement characters, one byte each.
-/
namespace Reparse

/-- The bytes of an array from `start` up to, not including, `stop`. -/
structure Chunk where
  bytes : ByteArray
  start : Nat
  stop : Nat

namespace Chunk

def empty : Chunk := ⟨.empty, 0, 0⟩

def ofBytes (bytes : ByteArray) : Chunk := ⟨bytes, 0, bytes.size⟩

def size (c : Chunk) : Nat := min c.stop c.bytes.size - c.start

def get? (c : Chunk) (i : Nat) : Option UInt8 :=
  if h : c.start + i < c.bytes.size then
    if c.start + i < c.stop then some c.bytes[c.start + i] else none
  else none

/-- The first `n` bytes, fewer if the chunk is shorter. -/
def take (c : Chunk) (n : Nat) : List UInt8 := (List.range n).filterMap c.get?

/-- Without the first `n` bytes. -/
def drop (c : Chunk) (n : Nat) : Chunk := { c with start := c.start + n }

/-- At most the first `n` bytes. -/
def clip (c : Chunk) (n : Nat) : Chunk := { c with stop := min c.stop (c.start + n) }

theorem size_clip_le (c : Chunk) (n : Nat) : (c.clip n).size ≤ n := by
  simp only [clip, size]; omega

theorem get?_clip_eq_none (c : Chunk) {n i : Nat} (h : n ≤ i) : (c.clip n).get? i = none := by
  by_cases hBytes : c.start + i < c.bytes.size
  · have hStop : ¬ c.start + i < min c.stop (c.start + n) := by omega
    simp [get?, clip, hBytes, hStop]
  · simp [get?, clip, hBytes]

end Chunk

structure Source (σ : Type) where
  /-- No byte lies at or past this offset. -/
  size : Nat
  chunkAt : Nat → σ → Chunk × σ

/-- A character read from a source, with the bytes it took. -/
structure Decoded where
  char : Char
  width : Nat
  width_pos : 0 < width

namespace Source

variable {σ : Type}

/-- A whole text at hand. -/
def ofBytes (bytes : ByteArray) : Source σ where
  size := bytes.size
  chunkAt offset s := ((Chunk.ofBytes bytes).drop offset, s)

/-- The last chunk that a callback gave, and its offset. -/
structure Cache where
  chunk : Chunk
  offset : Nat

def Cache.empty : Cache := ⟨.empty, 0⟩

/-- A text of `size` bytes read through a callback. The last chunk is kept, and the callback is asked
only for offsets outside it. -/
def chunked (size : Nat) (call : Nat → σ → ByteArray × σ) : Source (Cache × σ) where
  size := size
  chunkAt offset := fun (cache, s) =>
    if cache.offset ≤ offset ∧ offset < cache.offset + cache.chunk.size then
      (cache.chunk.drop (offset - cache.offset), (cache, s))
    else
      let (bytes, s) := call offset s
      let chunk := Chunk.ofBytes bytes
      (chunk, (⟨chunk, offset⟩, s))

/-- The chunk at an offset, without what would lie past the end. -/
def read (src : Source σ) (offset : Nat) (s : σ) : Chunk × σ :=
  let (chunk, s) := src.chunkAt offset s
  (chunk.clip (src.size - offset), s)

theorem size_read_le (src : Source σ) (offset : Nat) (s : σ) :
    (src.read offset s).1.size ≤ src.size - offset :=
  Chunk.size_clip_le _ _

/-- Completes `front` with the `missing` bytes from `offset` on, from as many chunks as it takes; none
if the text ends before. -/
def gather (src : Source σ) (missing offset : Nat) (front : List UInt8) (s : σ) :
    Option (List UInt8) × σ :=
  if missing = 0 then (some front, s)
  else
    let (chunk, s) := src.read offset s
    if chunk.size = 0 then (none, s)
    else
      let n := min missing chunk.size
      gather src (missing - n) (offset + n) (front ++ chunk.take n) s
termination_by missing
decreasing_by omega

/-- The replacement character, standing for one byte. -/
def illFormed : Decoded := ⟨Utf8.replacement, 1, Nat.one_pos⟩

/-- The character whose bytes start at `offset`; none at the end. -/
def charAt (src : Source σ) (offset : Nat) (s : σ) : Option Decoded × σ :=
  let (chunk, s) := src.read offset s
  match chunk.get? 0 with
  | none => (none, s)
  | some lead =>
    let width := Utf8.width lead
    if h : 0 < width then
      let n := min width chunk.size
      let (bytes, s) := gather src (width - n) (offset + n) (chunk.take n) s
      match bytes.bind Utf8.decode? with
      | some c => (some ⟨c, width, h⟩, s)
      | none => (some illFormed, s)
    else (some illFormed, s)

/-- A character is read only inside the text. -/
theorem lt_size_of_charAt {src : Source σ} {offset : Nat} {s : σ} {d : Decoded}
    (h : (src.charAt offset s).1 = some d) : offset < src.size := by
  by_cases hlt : offset < src.size
  · exact hlt
  · have hNone : (src.read offset s).1.get? 0 = none := Chunk.get?_clip_eq_none _ (by omega)
    rw [charAt] at h
    simp only [hNone] at h
    cases h

/-- The end of the text, found by taking chunk after chunk from `offset` on. -/
def endFrom (src : Source σ) (offset : Nat) (s : σ) : Nat × σ :=
  match _h : src.read offset s with
  | (chunk, s') =>
    if chunk.size = 0 then (offset, s')
    else endFrom src (offset + chunk.size) s'
termination_by src.size - offset
decreasing_by
  have := size_read_le src offset s
  rw [_h] at this
  change chunk.size ≤ _ at this
  omega

end Source
end Reparse
