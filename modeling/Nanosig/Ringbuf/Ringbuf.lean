import Nanosig.Lib.ByteStore
import Nanosig.Lib.RingStore
import Nanosig.Status

/-! The byte ring of ns_ringbuf.c: `r` and `w` count modulo twice the size, so that an
empty and a full ring differ. The arithmetic is that of `uint32_t`, with the casts to
`int32_t` of the source. -/
namespace Nanosig.Ringbuf

open ByteStore

def uint32Max : Nat := 2 ^ 32 - 1

def add32 (a b : Nat) : Nat := (a + b) % 2 ^ 32

def sub32 (a b : Nat) : Nat := (a + (2 ^ 32 - b)) % 2 ^ 32

def mul32 (a b : Nat) : Nat := a * b % 2 ^ 32

/- `(int32_t)x` and `(uint32_t)x` -/
def toInt32 (x : Nat) : Int := if x < 2 ^ 31 then x else (x : Int) - 2 ^ 32

def toUint32 (x : Int) : Nat := (x % 2 ^ 32).toNat

/- `ns_ringbuf_t` -/
structure RingBuffer where
  buf : Store
  size : Nat
  r : Nat
  w : Nat

/- `ns_ringbuf_fix` -/
def fix (size pos : Nat) : Nat := pos % mul32 size 2

/- What the calls that take `status` return: `NS_E_RANGE` is the only code among counts. -/
def rangeCode : Int := -12

def init (buf : Option Store) (size : Nat) : Except Status RingBuffer :=
  match buf with
  | none => .error .inval
  | some buf =>
      if size = 0 then .error .inval
      else if size > uint32Max / 3 then .error .param
      else .ok ⟨buf, size, 0, 0⟩

def totalSize (rb : RingBuffer) : Int := toInt32 rb.size

def dataSizeOf (size w r : Nat) : Int :=
  if w ≥ r then toInt32 (sub32 w r) else toInt32 (sub32 (mul32 size 2) (sub32 r w))

/- `ns_ringbuf_size` -/
def dataSize (rb : RingBuffer) : Int := dataSizeOf rb.size rb.w rb.r

/- `size - (uint32_t)ns_ringbuf_data_size(size, w, r)` -/
def freeSizeOf (size w r : Nat) : Nat := sub32 size (toUint32 (dataSizeOf size w r))

/- `ns_ringbuf_free_size` -/
def freeSize (rb : RingBuffer) : Int := toInt32 (freeSizeOf rb.size rb.w rb.r)

/- One or two `memcpy` into the ring from the index `w` on. -/
def copyIn (m : Store) (size w : Nat) (buf : Store) (wl : Nat) : Store :=
  let writeSizeFirstMax := sub32 size w
  if wl ≤ writeSizeFirstMax then write m w (read buf 0 wl)
  else write (write m w (read buf 0 writeSizeFirstMax)) 0 (read buf writeSizeFirstMax (wl - writeSizeFirstMax))

/- One or two `memcpy` out of the ring from the index `r` on. -/
def copyOut (m : Store) (size r : Nat) (buf : Store) (rl : Nat) : Store :=
  let readSizeFirstMax := sub32 size r
  if rl ≤ readSizeFirstMax then write buf 0 (read m r rl)
  else write (write buf 0 (read m r readSizeFirstMax)) readSizeFirstMax (read m 0 (rl - readSizeFirstMax))

/- `len > limit ? limit : len` -/
def clip (len limit : Nat) : Nat := if len > limit then limit else len

/- `ns_ringbuf_write`; a caller's buffer is its memory from the pointer on, or none for NULL. -/
def writeBytes (rb : RingBuffer) (buf : Option Store) (len : Nat) : RingBuffer × Int :=
  match buf with
  | none => (rb, 0)
  | some buf =>
      if len = 0 then (rb, 0)
      else
        let wl := clip len (freeSizeOf rb.size rb.w rb.r)
        if wl = 0 then (rb, 0)
        else ({ rb with buf := copyIn rb.buf rb.size (rb.w % rb.size) buf wl, w := fix rb.size (add32 rb.w wl) }, toInt32 wl)

def draftWrite (rb : RingBuffer) (offset : Nat) (buf : Option Store) (len : Nat) : RingBuffer × Int :=
  match buf with
  | none => (rb, 0)
  | some buf =>
      if len = 0 then (rb, 0)
      else
        let freeSize := freeSizeOf rb.size rb.w rb.r
        if offset ≥ freeSize then (rb, rangeCode)
        else
          let wl := clip len (freeSize - offset)
          if wl = 0 then (rb, 0)
          else ({ rb with buf := copyIn rb.buf rb.size (add32 rb.w offset % rb.size) buf wl }, toInt32 wl)

def writeSkip (rb : RingBuffer) (len : Nat) : RingBuffer × Int :=
  if len = 0 then (rb, 0)
  else
    let wl := clip len (freeSizeOf rb.size rb.w rb.r)
    if wl = 0 then (rb, 0) else ({ rb with w := fix rb.size (add32 rb.w wl) }, toInt32 wl)

/- `ns_ringbuf_read`: the ring, the caller's memory and the result. -/
def readBytes (rb : RingBuffer) (buf : Option Store) (len : Nat) : RingBuffer × Option Store × Int :=
  match buf with
  | none => (rb, none, 0)
  | some buf =>
      if len = 0 then (rb, some buf, 0)
      else
        let rl := clip len (toUint32 (dataSize rb))
        if rl = 0 then (rb, some buf, 0)
        else ({ rb with r := fix rb.size (add32 rb.r rl) }, some (copyOut rb.buf rb.size (rb.r % rb.size) buf rl), toInt32 rl)

def readSkip (rb : RingBuffer) (len : Nat) : RingBuffer × Int :=
  if len = 0 then (rb, 0)
  else
    let rl := clip len (toUint32 (dataSize rb))
    if rl = 0 then (rb, 0) else ({ rb with r := fix rb.size (add32 rb.r rl) }, toInt32 rl)

/- What `ns_ringbuf_peek` returns: a pointer into the ring or the caller's buffer, which it filled. -/
inductive Peeked where
  | null
  | inRing (place : Nat) (len : Nat)
  | copied (buf : Store) (len : Nat)

/- `ns_ringbuf_peek`; `len` is none for a NULL pointer. -/
def peek (rb : RingBuffer) (offset : Nat) (buf : Option Store) (len : Option Nat) : Peeked :=
  match buf, len with
  | some buf, some rl =>
      let dataSize := toUint32 (dataSize rb)
      if offset ≥ dataSize then .null
      else
        let dataSize := dataSize - offset
        if dataSize < rl then .null
        else
          let r := add32 rb.r offset % rb.size
          let readSizeFirstMax := sub32 rb.size r
          if rl ≤ readSizeFirstMax then .inRing r (clip dataSize readSizeFirstMax)
          else .copied (copyOut rb.buf rb.size r buf rl) rl
  | _, _ => .null

def peekCopy (rb : RingBuffer) (offset : Nat) (buf : Option Store) (len : Nat) : Option Store × Int :=
  match buf with
  | none => (none, 0)
  | some buf =>
      if len = 0 then (some buf, 0)
      else
        let dataSize := toUint32 (dataSize rb)
        if offset ≥ dataSize then (some buf, 0)
        else
          let dataSize := dataSize - offset
          if dataSize < len then (some buf, 0)
          else (some (copyOut rb.buf rb.size (add32 rb.r offset % rb.size) buf len), toInt32 len)

def clear (rb : RingBuffer) : RingBuffer := { rb with r := rb.w }

def reset (rb : RingBuffer) : RingBuffer := { rb with r := 0, w := 0 }

end Nanosig.Ringbuf
