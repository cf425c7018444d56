import Swig.DOH.Text
import Swig.Lib.ByteBlock

/-!
The string object of DOH (`string.c`) with its buffer.

`str` is the allocated buffer, all of its bytes. An operation gives `none` when
it reads or writes outside a buffer, uses one that has been freed, copies a
part of a buffer over itself with `memcpy`, does not return, or fails one of
its assertions. `int` is not bounded. The file of a string is left out.
-/

namespace Swig.DOH

open ByteBlock

def DOH_BEGIN : ℤ := -1

def DOH_END : ℤ := -2

def INIT_MAXSIZE : ℤ := 16

structure DohString where
  line : ℤ
  maxsize : ℤ
  len : ℤ
  hashkey : ℤ
  sp : ℤ
  str : Block
  deriving DecidableEq

namespace DohString

/-- The newlines among the `n` bytes from `p` on. -/
def countNewlines (b : Block) : ℤ → ℕ → Option ℤ
  | _, 0 => some 0
  | p, n + 1 => do
      let c ← load b p
      let k ← countNewlines b (p + 1) n
      return if c = chr '\n' then k + 1 else k

/-- `String_data`, which writes the terminator. -/
def stringData (s : DohString) : Option DohString := do
  let b ← store s.str s.len 0
  return { s with str := b }

/-- `CopyString`. -/
def copyString (junk : ℕ → Byte) (s : DohString) : Option DohString := do
  let b ← malloc junk (s.len + 1)
  let bytes ← loadBytes s.str 0 s.len
  let b ← storeBytes b 0 bytes
  let b ← store b s.len 0
  return { s with maxsize := s.len, str := b }

/-- A buffer of `newmaxsize` bytes. -/
def setMaxsize (junk : ℕ → Byte) (s : DohString) (newmaxsize : ℤ) : Option DohString := do
  let b ← realloc junk s.str newmaxsize
  return { s with str := b, maxsize := newmaxsize }

/-- The buffer of `DohString_append` for `newlen` bytes, the terminator included. -/
def appendRoom (junk : ℕ → Byte) (s : DohString) (newlen : ℤ) : Option DohString :=
  if newlen ≥ s.maxsize - 1 then
    let newmaxsize := 2 * s.maxsize
    s.setMaxsize junk (if newlen ≥ newmaxsize - 1 then newlen + 1 else newmaxsize)
  else some s

/-- `DohString_append` of a string in another buffer. -/
def append (junk : ℕ → Byte) (s : DohString) (newstr : List Byte) : Option DohString := do
  let l : ℤ := newstr.length
  let oldlen := s.len
  let s ← s.appendRoom junk (oldlen + l + 1)
  let b ← storeBytes s.str oldlen (newstr ++ [0])
  if s.sp ≥ oldlen then do
    -- the loop runs down to zero, so it does not end from a negative start
    guard (0 ≤ oldlen + l - s.sp)
    let k ← countNewlines b s.sp (oldlen + l - s.sp).toNat
    return { s with
      str := b, hashkey := -1, len := s.len + l, sp := oldlen + l, line := s.line + k }
  else
    return { s with str := b, hashkey := -1, len := s.len + l }

/-- `String_clear`. -/
def clear (s : DohString) : Option DohString := do
  let b ← store s.str 0 0
  return { s with hashkey := -1, len := 0, str := b, sp := 0, line := 1 }

/-- The loop of `String_insert` that doubles the buffer until it exceeds `need`. -/
def grow (junk : ℕ → Byte) (need : ℤ) : ℕ → DohString → Option DohString
  | 0, _ => none
  | n + 1, s =>
      if s.maxsize ≤ need then do
        let s ← s.setMaxsize junk (2 * s.maxsize)
        grow junk need n s
      else some s

/-- `String_insert` for a position other than `DOH_END`. `own` says that the
data stand in the buffer of the string itself. -/
def insert (junk : ℕ → Byte) (s : DohString) (pos : ℤ) (data : List Byte) (own : Bool) :
    Option DohString := do
  let len : ℤ := data.length
  let pos := if pos < 0 then 0 else if pos > s.len then s.len else pos
  -- a buffer that has moved, or a `memcpy` within it
  guard ¬(own = true ∧ (s.maxsize ≤ s.len + len ∨ pos < len))
  let s ← grow junk (s.len + len) ((s.len + len).toNat + 2) s
  let b ← memmove s.str (pos + len) pos (s.len - pos)
  let b ← storeBytes b pos data
  let (line, sp) :=
    if s.sp ≥ pos then (s.line + data.count (chr '\n'), s.sp + len) else (s.line, s.sp)
  let b ← store b (s.len + len) 0
  return { s with str := b, hashkey := -1, line := line, sp := sp, len := s.len + len }

/-- Position and line when the byte at `pos` goes. -/
def delitemPosition (s : DohString) (pos : ℤ) : Option DohString :=
  if s.sp > pos then do
    guard (0 ≤ s.sp - 1)
    let c ← load s.str pos
    return { s with sp := s.sp - 1, line := if c = chr '\n' then s.line - 1 else s.line }
  else some s

/-- `String_delitem`. -/
def delitem (s : DohString) (pos : ℤ) : Option DohString :=
  let pos := if pos = DOH_END then s.len - 1 else pos
  let pos := if pos = DOH_BEGIN then 0 else pos
  if s.len = 0 then some { s with hashkey := -1 }
  else do
    let s ← s.delitemPosition pos
    let b ← memmove s.str pos (pos + 1) (s.len - 1 - pos)
    let b ← store b (s.len - 1) 0
    return { s with str := b, hashkey := -1, len := s.len - 1 }

/-- Position and line when the bytes from `sindex` to `eindex` go. -/
def delslicePosition (s : DohString) (sindex eindex : ℤ) : Option DohString :=
  if s.sp > sindex then do
    let stop := if s.sp > eindex then eindex else s.sp
    let sp := if s.sp > eindex then s.sp - (eindex - sindex) else sindex
    let k ← countNewlines s.str sindex (stop - sindex).toNat
    guard (0 ≤ sp)
    return { s with sp := sp, line := s.line - k }
  else some s

/-- `String_delslice`. -/
def delslice (s : DohString) (sindex eindex : ℤ) : Option DohString :=
  if s.len = 0 then some s
  else do
    let eindex := if eindex = DOH_END then s.len else eindex
    let sindex := if sindex = DOH_BEGIN then 0 else sindex
    let size := eindex - sindex
    let s ← s.delslicePosition sindex eindex
    let b ← memmove s.str sindex eindex (s.len - eindex)
    let b ← store b (s.len - size) 0
    return { s with str := b, hashkey := -1, len := s.len - size }

/-- `String_read`: the bytes read. -/
def read (s : DohString) (len : ℤ) : Option (List Byte × DohString) :=
  let reallen := if s.sp + len > s.len then s.len - s.sp else len
  if reallen > 0 then do
    let bytes ← loadBytes s.str s.sp reallen
    return (bytes, { s with sp := s.sp + reallen })
  else some ([], s)

/-- The buffer and the length of `String_write` for `len` bytes at the position. -/
def writeRoom (junk : ℕ → Byte) (s : DohString) (len : ℤ) : Option DohString := do
  let newlen := s.sp + len + 1
  let s ← (if newlen > s.maxsize then
      (s.setMaxsize junk newlen).map fun s => { s with len := s.sp + len }
    else some s)
  return { s with len := if s.sp + len > s.len then s.sp + len else s.len }

/-- `String_write` of the bytes of another buffer. -/
def write (junk : ℕ → Byte) (s : DohString) (buffer : List Byte) : Option DohString := do
  let len : ℤ := buffer.length
  let s ← { s with sp := if s.sp > s.len then s.len else s.sp }.writeRoom junk len
  let b ← storeBytes s.str s.sp buffer
  let b ← store b s.len 0
  return { s with str := b, hashkey := -1, sp := s.sp + len }

/-- The position `String_seek` moves to. -/
def seekTarget (s : DohString) (offset : ℤ) (whence : Whence) : ℤ :=
  let nsp := match whence with
    | .set => offset
    | .cur => s.sp + offset
    | .end_ => s.len - offset
  let nsp := if nsp < 0 then 0 else nsp
  if 0 < s.len ∧ nsp > s.len then s.len else nsp

/-- `String_seek`. Forwards it looks at every byte it arrives at, backwards at
every byte it passes. -/
def seek (s : DohString) (offset : ℤ) (whence : Whence) : Option DohString := do
  let nsp := s.seekTarget offset whence
  let k ← (if nsp > s.sp then countNewlines s.str (s.sp + 1) (nsp - s.sp).toNat
    else (countNewlines s.str nsp (s.sp - nsp).toNat).map (- ·))
  guard (0 ≤ nsp)
  return { s with sp := nsp, line := s.line + k }

/-- The buffer of `String_putc`. -/
def putcRoom (junk : ℕ → Byte) (s : DohString) : Option DohString :=
  if s.len > s.maxsize - 2 then s.setMaxsize junk (s.maxsize * 2) else some s

/-- `String_putc`. -/
def putc (junk : ℕ → Byte) (s : DohString) (ch : Byte) : Option DohString :=
  let line := if ch = chr '\n' then s.line + 1 else s.line
  if s.sp ≥ s.len then do
    let s ← s.putcRoom junk
    let b ← store s.str s.sp ch
    let b ← store b (s.sp + 1) 0
    return { s with str := b, hashkey := -1, len := s.sp + 1, sp := s.sp + 1, line := line }
  else do
    let b ← store s.str s.sp ch
    return { s with str := b, hashkey := -1, sp := s.sp + 1, line := line }

/-- `String_getc`: `none` in the result is `EOF`. -/
def getc (s : DohString) : Option (Option Byte × DohString) :=
  if s.sp ≥ s.len then some (none, s)
  else do
    let c ← load s.str s.sp
    return (some c, { s with
      sp := s.sp + 1, line := if c = chr '\n' then s.line + 1 else s.line })

/-- `String_ungetc`. -/
def ungetc (s : DohString) (ch : Option Byte) : DohString :=
  match ch with
  | none => s
  | some ch =>
      if s.sp ≤ 0 then s
      else { s with sp := s.sp - 1, line := if ch = chr '\n' then s.line - 1 else s.line }

/-- The loop of `String_chop`; every round takes a byte off, so `len` rounds
are enough. -/
def chopLoop : ℕ → DohString → Option DohString
  | 0, s => some s
  | n + 1, s =>
      if 0 < s.len then do
        let c ← load s.str (s.len - 1)
        if isspace c then
          chopLoop n <|
            if s.sp ≥ s.len then
              { s with
                sp := s.sp - 1, len := s.len - 1
                line := if c = chr '\n' then s.line - 1 else s.line }
            else { s with len := s.len - 1 }
        else some s
      else some s

/-- `String_chop`. -/
def chop (s : DohString) : Option DohString := do
  let s ← chopLoop s.len.toNat s
  let b ← store s.str s.len 0
  guard (0 ≤ s.sp)
  return { s with str := b, hashkey := -1 }

/-- `DohNewString` from a C string of `strlen` `txt.length`; `l` and `hashkey`
are those of the string object, if it is one. -/
def newString (junk : ℕ → Byte) (so : Option (List Byte × ℤ × ℤ)) : Option DohString :=
  match so with
  | none => do
      let b ← malloc junk INIT_MAXSIZE
      let b ← store b 0 0
      return { hashkey := -1, sp := 0, line := 1, maxsize := INIT_MAXSIZE, len := 0, str := b }
  | some (txt, l, hashkey) => do
      let max := if l + 1 > INIT_MAXSIZE then l + 1 else INIT_MAXSIZE
      let b ← malloc junk max
      let b ← storeBytes b 0 (txt ++ [0])
      return { hashkey := hashkey, sp := l, line := 1, maxsize := max, len := l, str := b }

/-- `DohNewStringEmpty`. -/
def newStringEmpty (junk : ℕ → Byte) : Option DohString := do
  let b ← malloc junk INIT_MAXSIZE
  let b ← store b 0 0
  return { hashkey := 0, sp := 0, line := 1, maxsize := INIT_MAXSIZE, len := 0, str := b }

/-- `DohNewStringWithSize`. `strncpy` writes exactly `len` bytes, padding a
shorter string with terminators and leaving a longer one without. -/
def newStringWithSize (junk : ℕ → Byte) (so : Option (List Byte)) (len : ℤ) : Option DohString :=
  match so with
  | none => do
      let b ← malloc junk INIT_MAXSIZE
      let b ← store b 0 0
      return { hashkey := -1, sp := 0, line := 1, maxsize := INIT_MAXSIZE, len := 0, str := b }
  | some txt => do
      let max := if len + 1 > INIT_MAXSIZE then len + 1 else INIT_MAXSIZE
      let b ← malloc junk max
      guard (0 ≤ len)
      let b ← storeBytes b 0 (txt.take len.toNat ++ List.replicate (len.toNat - txt.length) 0)
      return { hashkey := -1, sp := len, line := 1, maxsize := max, len := len, str := b }

end DohString

end Swig.DOH
