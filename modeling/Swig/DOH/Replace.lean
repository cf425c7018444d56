import Swig.DOH.String

/-!
`String_replace` (`string.c`). Pointers into the buffer are offsets from `base`;
every search reads from its start up to the terminator it meets.
-/

namespace Swig.DOH

open ByteBlock

def DOH_REPLACE_NOQUOTE : ℕ := 0x02
def DOH_REPLACE_ID : ℕ := 0x04
def DOH_REPLACE_FIRST : ℕ := 0x08
def DOH_REPLACE_ID_BEGIN : ℕ := 0x10
def DOH_REPLACE_ID_END : ℕ := 0x20

def isIdent (c : Byte) : Bool := isalnum c || c == chr '_'

def isQuote (c : Byte) : Bool := c == chr '"' || c == chr '\''

/-- `(s > base) && (isalnum(*(s - 1)) || *(s - 1) == '_')`. -/
def identBefore (b : Block) (s : ℕ) : Option Bool :=
  if s > 0 then (load b (s - 1 : ℕ)).map isIdent else some false

def identAt (b : Block) (s : ℕ) : Option Bool := (load b s).map isIdent

/-- Which neighbours of the token a match function looks at. -/
structure MatchRule where
  left : Bool
  right : Bool
  deriving DecidableEq

/-- `match_identifier` and its variants; `fuel` bounds the rounds. -/
def matchToken (r : MatchRule) (b : Block) (token : List Byte) : ℕ → ℕ → Option (Option ℕ)
  | 0, _ => none
  | fuel + 1, s => do
      match ← strstr b s token with
      | none => return none
      | some s =>
          if r.left && (← identBefore b s) then matchToken r b token fuel (s + token.length)
          else if r.right && (← identAt b (s + token.length)) then
            matchToken r b token fuel (s + token.length)
          else return some s

def match_simple : MatchRule := ⟨false, false⟩

def match_identifier : MatchRule := ⟨true, true⟩

def match_identifier_begin : MatchRule := ⟨true, false⟩

def match_identifier_end : MatchRule := ⟨false, true⟩

/-- `end_quote(qs)`, with the search at `s`. -/
def endQuote (b : Block) (qs : ℕ) : ℕ → ℕ → Option (Option ℕ)
  | 0, _ => none
  | fuel + 1, s => do
      let q ← findByte isQuote b (s + 1)
      let nl ← findByte (· == chr '\n') b (s + 1)
      match q, nl with
      | none, none => return none
      | none, some _ => return some qs
      | some q, none => endAt fuel q
      | some q, some nl =>
          if nl < q then
            if (← load b (nl - 1 : ℕ)) = chr '\\' then endQuote b qs fuel (nl + 1)
            -- String was terminated by a newline. Wing it
            else return some qs
          else endAt fuel q
where
  /-- The quote at `q` ends the string, or the search goes on there. -/
  endAt (fuel q : ℕ) : Option (Option ℕ) := do
    if (← load b q) = (← load b qs) ∧ (← load b (q - 1 : ℕ)) ≠ chr '\\' then return some q
    else endQuote b qs fuel q

/-- The loop `while (q && (q < c))`, which looks for a match outside of quotes. The
flag is `noquote` afterwards. -/
def skipQuoted (r : MatchRule) (b : Block) (token : List Byte) :
    ℕ → ℕ → Option ℕ → Option (Option ℕ × Bool)
  | 0, _, _ => none
  | _ + 1, _, none => some (none, true)
  | fuel + 1, q, some c =>
      if q < c then do
        match ← endQuote b q b.length q with
        | none => return (none, true)
        | some q2 =>
            match ← (if q2 > c then matchToken r b token b.length (q2 + 1) else some (some c)) with
            | none => return (none, true)
            | some c =>
                match ← findByte isQuote b (q2 + 1) with
                | none => return (some c, false)
                | some q => skipQuoted r b token fuel q (some c)
      else some (some c, true)

/-- The next match from `s` on, and `noquote` afterwards. -/
def nextMatch (r : MatchRule) (b : Block) (token : List Byte) (noquote : Bool) (s : ℕ) :
    Option (Option ℕ × Bool) := do
  let c ← matchToken r b token b.length s
  if noquote then
    match ← findByte isQuote b s with
    | none => return (c, false)
    | some q => skipQuoted r b token b.length q c
  else return (c, false)

/-- The loop that replaces in place, from a match at `s`: the buffer and the
number of replacements. `once` says that `count` is 1; otherwise it is -1. -/
def shrinkLoop (r : MatchRule) (token rep : List Byte) (len : ℤ) (once : Bool) :
    ℕ → Block → ℕ → ℕ → Bool → Option (Block × ℕ)
  | 0, _, _, _, _ => none
  | fuel + 1, b, t, s, noquote => do
      let b ← storeBytes b t rep
      let t := t + rep.length
      let s := s + token.length
      let shrinks := rep.length < token.length
      if once then
        let b ← (if shrinks then memmove b t s (len - s + 1) else some b)
        return (b, 1)
      else
        let (c, noquote) ← nextMatch r b token noquote s
        match c with
        | none =>
            let b ← (if shrinks then memmove b t s (len - s + 1) else some b)
            return (b, 1)
        | some c =>
            let b ← (if shrinks then memmove b t s (c - s) else some b)
            let (b, rcount) ← shrinkLoop r token rep len once fuel b (t + (c - s)) c noquote
            return (b, rcount + 1)

/-- The loop that counts the replacements behind `s`, and `noquote` afterwards. -/
def countLoop (r : MatchRule) (b : Block) (token : List Byte) : ℕ → ℕ → Bool → Option (ℕ × Bool)
  | 0, _, _ => none
  | fuel + 1, s, noquote => do
      match ← matchToken r b token b.length s with
      | none => return (0, noquote)
      | some c =>
          let (c, noquote) ← (if noquote then do
              match ← findByte isQuote b s with
              | none => return (none, noquote)
              | some q => skipQuoted r b token b.length q (some c)
            else some (some c, noquote))
          match c with
          | none => return (0, noquote)
          | some c =>
              let (rcount, noquote) ← countLoop r b token fuel (c + token.length) noquote
              return (rcount + 1, noquote)

/-- `while ((str->len + expand) >= newsize) newsize *= 2`. -/
def doubleSize (need : ℤ) : ℕ → ℤ → Option ℤ
  | 0, _ => none
  | fuel + 1, newsize => if need ≥ newsize then doubleSize need fuel (newsize * 2) else some newsize

/-- The loop that copies into the new buffer, with `k` replacements behind the
one at `s`. -/
def copyLoop (r : MatchRule) (b : Block) (token rep : List Byte) (len : ℤ) :
    ℕ → Block → ℕ → ℕ → Bool → Option Block
  | k, ns, t, s, noquote => do
      let ns ← storeBytes ns t rep
      let t := t + rep.length
      let s := s + token.length
      let (c, noquote) ← nextMatch r b token noquote s
      match k with
      | 0 => storeBytes ns t (← loadBytes b s (len - s + 1))
      | k + 1 =>
          -- with a null `c` the size is no size
          let c ← c
          let ns ← storeBytes ns t (← loadBytes b s (c - s))
          copyLoop r b token rep len k ns (t + (c - s)) c noquote

namespace DohString

/-- The branch of `replace_simple` that replaces in place. -/
def replaceInPlace (r : MatchRule) (token rep : List Byte) (once : Bool) (first : ℕ)
    (noquote : Bool) (s : DohString) : Option (ℕ × DohString) := do
  let (b, rcount) ← shrinkLoop r token rep s.len once s.str.length s.str first first noquote
  let expand := ((rep.length : ℤ) - token.length) * rcount
  let len := s.len + expand
  let b ← store b len 0
  return (rcount, { s with str := b, len := len, sp := if s.sp ≥ len then s.sp + expand else s.sp })

/-- The branch of `replace_simple` that replaces into a new buffer. -/
def replaceExpanding (r : MatchRule) (token rep : List Byte) (once : Bool) (junk : ℕ → Byte)
    (first : ℕ) (noquote : Bool) (s : DohString) : Option (ℕ × DohString) := do
  let (more, noquote) ← (if once then some (0, noquote)
    else countLoop r s.str token s.str.length (first + token.length) noquote)
  let expand := ((rep.length : ℤ) - token.length) * (more + 1)
  let newsize ← doubleSize (s.len + expand) ((s.len + expand).toNat + 2) s.maxsize
  let ns ← malloc junk newsize
  let ns ← storeBytes ns 0 (← loadBytes s.str 0 first)
  let ns ← copyLoop r s.str token rep s.len more ns first first noquote
  let ns ← store ns (s.len + expand) 0
  return (more + 1, { s with
    str := ns, sp := if s.sp ≥ s.len then s.sp + expand else s.sp
    len := s.len + expand, maxsize := newsize })

/-- `replace_simple`. -/
def replaceSimple (junk : ℕ → Byte) (s : DohString) (token rep : List Byte) (noquote once : Bool)
    (r : MatchRule) : Option (ℕ × DohString) := do
  if token = [] then return (0, s)
  match ← matchToken r s.str token s.str.length 0 with
  | none => return (0, s)
  | some _ =>
      let s := { s with hashkey := -1 }
      let (first, noquote) ← nextMatch r s.str token noquote 0
      match first with
      | none => return (0, s)
      | some first =>
          if rep.length ≤ token.length then s.replaceInPlace r token rep once first noquote
          else s.replaceExpanding r token rep once junk first noquote

/-- `String_replace`. -/
def replace (junk : ℕ → Byte) (s : DohString) (token rep : List Byte) (flags : ℕ) :
    Option (ℕ × DohString) :=
  let once := flags &&& DOH_REPLACE_FIRST ≠ 0
  let noquote := flags &&& DOH_REPLACE_NOQUOTE ≠ 0
  if flags &&& DOH_REPLACE_ID_END ≠ 0 then
    s.replaceSimple junk token rep noquote once match_identifier_end
  else if flags &&& DOH_REPLACE_ID_BEGIN ≠ 0 then
    s.replaceSimple junk token rep noquote once match_identifier_begin
  else if flags &&& DOH_REPLACE_ID ≠ 0 then
    s.replaceSimple junk token rep noquote once match_identifier
  else s.replaceSimple junk token rep noquote once match_simple

end DohString

end Swig.DOH
