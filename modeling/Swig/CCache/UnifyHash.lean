import Swig.CCache.Unify

/-!
How the unifier feeds the checksum (`pushchar` and `unify_hash` in `unify.c`).

The bytes wait in a buffer of 64. A zero byte empties the buffer and ends the
message, also when it comes from the file.
-/

namespace Swig.CCache

/-- The buffer of `pushchar`, and the checksum. -/
structure Pushing where
  buf : List Byte
  md : MdFour

def pushchar (st : Pushing) (c : Byte) : Pushing :=
  if c = 0 then
    let md := if st.buf ≠ [] then mdfourUpdate st.md (some st.buf) else st.md
    ⟨[], mdfourUpdate md none⟩
  else
    let buf := st.buf ++ [c]
    if buf.length = 64 then ⟨[], mdfourUpdate st.md (some buf)⟩ else ⟨buf, st.md⟩

/-- The checksum after a file, which is empty again when `unify` returns. -/
def unifyHash (md : MdFour) (p : List Byte) : Option MdFour :=
  (unify p).map fun out => ((out ++ [0]).foldl pushchar ⟨[], md⟩).md

/-- A byte without the buffer. -/
def feed (md : MdFour) (c : Byte) : MdFour :=
  if c = 0 then mdfourUpdate md none else mdfourUpdate md (some [c])

/-- The checksum with what waits in the buffer. -/
def Pushing.flushed (st : Pushing) : MdFour := mdfourUpdate st.md (some st.buf)

theorem pushchar_zero (st : Pushing) : pushchar st 0 = ⟨[], mdfourUpdate st.flushed none⟩ := by
  rw [pushchar, if_pos rfl, Pushing.flushed]
  split_ifs with hbuf
  · rfl
  · rw [not_not.mp hbuf, mdfourUpdate_nil]

theorem pushchar_flushed (st : Pushing) (c : Byte) : (pushchar st c).flushed = feed st.flushed c := by
  by_cases hc : c = 0
  · rw [hc, pushchar_zero, Pushing.flushed, mdfourUpdate_nil, feed, if_pos rfl]
  · rw [feed, if_neg hc, Pushing.flushed.eq_def st, mdfourUpdate_append, pushchar, if_neg hc]
    dsimp only
    split_ifs
    · exact mdfourUpdate_nil _
    · rfl

theorem foldl_pushchar (st : Pushing) (out : List Byte) :
    (out.foldl pushchar st).flushed = out.foldl feed st.flushed := by
  induction out generalizing st with
  | nil => rfl
  | cons c out ih => rw [List.foldl_cons, List.foldl_cons, ih, pushchar_flushed]

theorem foldl_feed {out : List Byte} (h : 0 ∉ out) (md : MdFour) : out.foldl feed md = mdfourUpdate md (some out) := by
  induction out generalizing md with
  | nil => exact (mdfourUpdate_nil md).symm
  | cons c out ih =>
      obtain ⟨hc, hout⟩ := not_or.mp (mt List.mem_cons.mpr h)
      rw [List.foldl_cons, ih hout, feed, if_neg (Ne.symm hc), mdfourUpdate_append, List.singleton_append]

/-- The buffer is not seen in the checksum: a file does what its unified text does
byte by byte, with the end of the message behind it. -/
theorem unifyHash_eq (md : MdFour) (p : List Byte) :
    unifyHash md p = (unify p).map fun out => mdfourUpdate (out.foldl feed md) none := by
  refine Option.map_congr fun out _ => ?_
  have h := foldl_pushchar ⟨[], md⟩ out
  rw [show Pushing.flushed ⟨[], md⟩ = md from mdfourUpdate_nil md] at h
  rw [List.foldl_append, List.foldl_cons, List.foldl_nil, pushchar_zero, h]

end Swig.CCache
