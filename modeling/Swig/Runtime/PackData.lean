import Swig.DOH.CType
import Swig.Lib.ByteBlock

/-!
Pointers and blocks of bytes as text: `SWIG_PackData` and its inverse.

A buffer is a block of bytes, and `none` stands for an access outside of it. The
pointer or block packed is the list of its bytes in memory. Sizes are sizes of
objects in memory, so their sums do not wrap around.
-/

namespace Swig.Runtime

open ByteBlock

/-- `hex[i]`. -/
def hexDigit (i : Byte) : Byte := (lit "0123456789abcdef").getD i.toNat 0

/-- `SWIG_PackData`: the buffer and the position behind the digits. -/
def packData (buff : Block) (c : ℕ) : List Byte → Option (Block × ℕ)
  | [] => some (buff, c)
  | uu :: u => do
      let buff ← store buff c (hexDigit ((uu &&& 0xf0) >>> 4))
      let buff ← store buff (c + 1 : ℕ) (hexDigit (uu &&& 0xf))
      packData buff (c + 2) u

/-- The value of a digit, or none for a character that is no digit. -/
def unhex (d : Byte) : Option Byte :=
  if chr '0' ≤ d ∧ d ≤ chr '9' then some (d - chr '0')
  else if chr 'a' ≤ d ∧ d ≤ chr 'f' then some (d - (chr 'a' - 10))
  else none

/-- `SWIG_UnpackData` into the block `ptr`: the position behind the digits, or none
for a null pointer, and the block afterwards. -/
def unpackData (s : Block) (c : ℕ) : List Byte → Option (Option ℕ × List Byte)
  | [] => some (some c, [])
  | u :: ptr => do
      match unhex (← load s c) with
      | none => return (none, u :: ptr)
      | some hi =>
          match unhex (← load s (c + 1 : ℕ)) with
          | none => return (none, u :: ptr)
          | some lo =>
              let (r, ptr) ← unpackData s (c + 2) ptr
              return (r, (hi <<< 4 ||| lo) :: ptr)

/-- `SWIG_PackVoidPtr`, and whether it returns the buffer or a null pointer. -/
def packVoidPtr (buff : Block) (ptr name : List Byte) (bsz : ℕ) : Option (Bool × Block) := do
  if 2 * ptr.length + 2 > bsz then return (false, buff)
  let buff ← store buff 0 (chr '_')
  let (buff, r) ← packData buff 1 ptr
  if name.length + 1 > bsz - r then return (false, buff)
  let buff ← storeBytes buff r (name ++ [0])
  return (true, buff)

/-- `SWIG_PackDataName`; the name may be a null pointer. -/
def packDataName (buff : Block) (ptr : List Byte) (name : Option (List Byte)) (bsz : ℕ) :
    Option (Bool × Block) := do
  let lname := (name.getD []).length
  if 2 * ptr.length + 2 + lname > bsz then return (false, buff)
  let buff ← store buff 0 (chr '_')
  let (buff, r) ← packData buff 1 ptr
  let buff ← (if lname ≠ 0 then storeBytes buff r (name.getD [] ++ [0]) else store buff r 0)
  return (true, buff)

/-- What the unpack functions return: a null pointer, a position in the string or
the argument `name`. -/
inductive Unpacked
  | null
  | at_ (c : ℕ)
  | name
  deriving DecidableEq

/-- The body of `SWIG_UnpackVoidPtr` and `SWIG_UnpackDataName`. -/
def unpackName (s : Block) (c : ℕ) (ptr : List Byte) : Option (Unpacked × List Byte) := do
  if (← load s c) ≠ chr '_' then
    if strcmp (← cstring s c) (lit "NULL") = .eq then return (.name, List.replicate ptr.length 0)
    else return (.null, ptr)
  else
    let (r, ptr) ← unpackData s (c + 1) ptr
    return (r.elim .null .at_, ptr)

/-- `SWIG_UnpackVoidPtr` with the bytes of a pointer. -/
def unpackVoidPtr (s : Block) (c : ℕ) (ptr : List Byte) : Option (Unpacked × List Byte) :=
  unpackName s c ptr

/-- `SWIG_UnpackDataName` with `sz` the number of bytes of `ptr`. -/
def unpackDataName (s : Block) (c : ℕ) (ptr : List Byte) : Option (Unpacked × List Byte) :=
  unpackName s c ptr

/-! ### Digits -/

/-- The digits of a byte. -/
def hexByte (u : Byte) : List Byte := [hexDigit ((u &&& 0xf0) >>> 4), hexDigit (u &&& 0xf)]

def hexBytes (u : List Byte) : List Byte := u.flatMap hexByte

/-- A lower-case hexadecimal digit. -/
def lowerHex (d : Byte) : Bool := isdigit d || (chr 'a' ≤ d && d ≤ chr 'f')

theorem length_hexBytes (u : List Byte) : (hexBytes u).length = 2 * u.length := by
  induction u with
  | nil => rfl
  | cons x u ih =>
      rw [hexBytes, List.flatMap_cons, List.length_append, ← hexBytes, ih, List.length_cons, hexByte]
      simp only [List.length_cons, List.length_nil]
      omega

theorem unhex_hexByte : ∀ u : Byte, ∃ hi lo, unhex (hexDigit ((u &&& 0xf0) >>> 4)) = some hi ∧
    unhex (hexDigit (u &&& 0xf)) = some lo ∧ hi <<< 4 ||| lo = u := by
  have h : ∀ u : Byte, (unhex (hexDigit ((u &&& 0xf0) >>> 4))).bind (fun hi =>
      (unhex (hexDigit (u &&& 0xf))).map fun lo => hi <<< 4 ||| lo) = some u :=
    forall_byte (by decide +kernel)
  intro u
  obtain ⟨hi, hhi, hlo⟩ := Option.bind_eq_some_iff.mp (h u)
  obtain ⟨lo, hlo, hu⟩ := Option.map_eq_some_iff.mp hlo
  exact ⟨hi, lo, hhi, hlo, hu⟩

theorem hexByte_ne_zero (u : Byte) : ∀ d ∈ hexByte u, d ≠ 0 := by
  have h : ∀ u : Byte, (0 : Byte) ∉ hexByte u := forall_byte (by decide +kernel)
  exact fun d hd => ne_of_mem_of_not_mem hd (h u)

theorem unhex_of_not_lowerHex {d : Byte} (h : ¬ lowerHex d) : unhex d = none := by
  simp only [lowerHex, isdigit, Bool.or_eq_true, Bool.and_eq_true, decide_eq_true_eq, not_or] at h
  rw [unhex, if_neg h.1, if_neg h.2]

theorem hexBytes_ne_zero (u : List Byte) : ∀ d ∈ hexBytes u, d ≠ 0 := by
  intro d hd
  obtain ⟨x, -, hd⟩ := List.mem_flatMap.mp hd
  exact hexByte_ne_zero x d hd

/-! ### Packing -/

theorem packData_cons (x w : Block) (c₁ c₂ uu : Byte) (u : List Byte) :
    packData (x ++ c₁ :: c₂ :: w) x.length (uu :: u) = packData (x ++ hexByte uu ++ w) (x ++ hexByte uu).length u := by
  have hfirst := store_append (x := x) (y := c₂ :: w) c₁ (hexDigit ((uu &&& 0xf0) >>> 4))
  have hsecond := store_append (x := x ++ [hexDigit ((uu &&& 0xf0) >>> 4)]) (y := w) c₂ (hexDigit (uu &&& 0xf))
  simp only [List.append_assoc, List.singleton_append, List.length_append, List.length_singleton] at hsecond
  rw [packData, hfirst, Option.bind_eq_bind, Option.bind_some, hsecond, Option.bind_some]
  simp [hexByte]

theorem packData_append (u : List Byte) {x y z : Block} (hy : y.length = 2 * u.length) :
    packData (x ++ (y ++ z)) x.length u = some (x ++ (hexBytes u ++ z), x.length + 2 * u.length) := by
  induction u generalizing x y with
  | nil =>
      obtain rfl : y = [] := List.length_eq_zero_iff.mp hy
      rfl
  | cons uu u ih =>
      obtain ⟨c₁, c₂, y, rfl⟩ : ∃ c₁ c₂ y', y = c₁ :: c₂ :: y' := by
        match y, hy with
        | c₁ :: c₂ :: y', _ => exact ⟨c₁, c₂, y', rfl⟩
      have hlen : y.length = 2 * u.length := by
        simp only [List.length_cons] at hy
        omega
      rw [List.cons_append, List.cons_append, packData_cons, ih hlen]
      simp only [hexBytes, List.flatMap_cons, List.append_assoc, List.length_append, List.length_cons]
      rw [show (hexByte uu).length = 2 from rfl]
      congr 2
      omega

/-- The underscore and the digits. -/
theorem pack_digits {buff : Block} (ptr : List Byte) (h : 2 * ptr.length + 2 ≤ buff.length) :
    ∃ z buff', buff = buff.take (2 * ptr.length + 1) ++ z ∧ store buff 0 (chr '_') = some buff' ∧
      packData buff' 1 ptr = some (chr '_' :: hexBytes ptr ++ z, 1 + 2 * ptr.length) := by
  obtain ⟨c, w, rfl⟩ : ∃ c w, buff = c :: w := List.exists_cons_of_length_pos (by omega)
  refine ⟨w.drop (2 * ptr.length), chr '_' :: w, ?_, ?_, ?_⟩
  · rw [List.take_succ_cons, List.cons_append, List.take_append_drop]
  · exact store_append (x := []) (y := w) c (chr '_')
  · have hlen : (w.take (2 * ptr.length)).length = 2 * ptr.length := by
      rw [List.length_take]
      rw [List.length_cons] at h
      omega
    have hpack := packData_append ptr (x := [chr '_']) (z := w.drop (2 * ptr.length)) hlen
    rw [List.take_append_drop] at hpack
    exact hpack

/-! ### Unpacking -/

theorem unpackData_hexBytes {s : Block} {c : ℕ} {u old rest : List Byte}
    (hs : HasString s c (hexBytes u ++ rest)) (hold : old.length = u.length) :
    unpackData s c old = some (some (c + 2 * u.length), u) := by
  induction u generalizing c old with
  | nil =>
      obtain rfl : old = [] := List.length_eq_zero_iff.mp hold
      rfl
  | cons uu u ih =>
      obtain ⟨o, old, rfl⟩ := List.exists_cons_of_length_eq_add_one hold
      obtain ⟨hi, lo, hhi, hlo, huu⟩ := unhex_hexByte uu
      have hs : HasString s c (hexDigit ((uu &&& 0xf0) >>> 4) :: hexDigit (uu &&& 0xf) :: (hexBytes u ++ rest)) := hs
      have hrest := ih hs.tail.tail (Nat.succ.inj hold)
      rw [unpackData, hs.load_cons, Option.bind_eq_bind, Option.bind_some, hhi]
      dsimp only
      rw [hs.tail.load_cons, Option.bind_some, hlo]
      dsimp only
      rw [hrest]
      show some (some (c + 2 + 2 * u.length), (hi <<< 4 ||| lo) :: u) = _
      rw [huu, List.length_cons, show c + 2 + 2 * u.length = c + 2 * (u.length + 1) by omega]

/-- Anything but the digits of a whole block is refused. -/
theorem unpackData_refuses {s : Block} {c : ℕ} {txt old : List Byte} (hs : HasString s c txt)
    (h : ¬ ∃ ds rest, txt = ds ++ rest ∧ ds.length = 2 * old.length ∧ ∀ d ∈ ds, lowerHex d) :
    ∃ ptr, unpackData s c old = some (none, ptr) := by
  induction old generalizing c txt with
  | nil => exact absurd ⟨[], txt, rfl, rfl, fun d hd => absurd hd List.not_mem_nil⟩ h
  | cons o old ih =>
      rw [unpackData]
      cases txt with
      | nil =>
          rw [hs.load_nil]
          exact ⟨_, rfl⟩
      | cons d₁ txt =>
          rw [hs.load_cons, Option.bind_eq_bind, Option.bind_some]
          cases hd₁ : unhex d₁ with
          | none => exact ⟨_, rfl⟩
          | some hi =>
              dsimp only
              cases txt with
              | nil =>
                  rw [hs.tail.load_nil]
                  exact ⟨_, rfl⟩
              | cons d₂ txt =>
                  rw [hs.tail.load_cons, Option.bind_some]
                  cases hd₂ : unhex d₂ with
                  | none => exact ⟨_, rfl⟩
                  | some lo =>
                      have hlower {d v : Byte} (hd : unhex d = some v) : lowerHex d := by
                        by_contra hne
                        cases (unhex_of_not_lowerHex hne).symm.trans hd
                      obtain ⟨ptr, hptr⟩ := ih hs.tail.tail (by
                        rintro ⟨ds, rest, htxt, hlen, hds⟩
                        refine h ⟨d₁ :: d₂ :: ds, rest, by rw [htxt]; rfl, ?_, ?_⟩
                        · simp only [List.length_cons, hlen]
                          omega
                        · exact List.forall_mem_cons.mpr ⟨hlower hd₁, List.forall_mem_cons.mpr ⟨hlower hd₂, hds⟩⟩)
                      dsimp only
                      rw [hptr]
                      exact ⟨_, rfl⟩

/-- The text of a block with a name, read back into a block of the same size. -/
theorem unpackName_packed {s : Block} {c : ℕ} {ptr old name : List Byte}
    (hs : HasString s c (chr '_' :: hexBytes ptr ++ name)) (hold : old.length = ptr.length) :
    unpackName s c old = some (.at_ (c + (1 + 2 * ptr.length)), ptr) ∧
      HasString s (c + (1 + 2 * ptr.length)) name := by
  constructor
  · have hdigits := unpackData_hexBytes hs.tail hold
    rw [unpackName, hs.load_cons, Option.bind_eq_bind, Option.bind_some, if_neg (by simp), hdigits]
    show some (Unpacked.at_ (c + 1 + 2 * ptr.length), ptr) = _
    rw [Nat.add_assoc]
  · have hlen : (chr '_' :: hexBytes ptr).length = 1 + 2 * ptr.length := by
      rw [List.length_cons, length_hexBytes, Nat.add_comm]
    have hdrop := hs.drop (k := 1 + 2 * ptr.length) (by rw [List.length_append, hlen]; omega)
    rwa [← hlen, List.drop_left, hlen] at hdrop

/-- `_` and the digits of a block of `sz` bytes stand at the beginning of the text. -/
def StartsPacked (sz : ℕ) (txt : List Byte) : Prop :=
  ∃ ds rest, txt = chr '_' :: ds ++ rest ∧ ds.length = 2 * sz ∧ ∀ d ∈ ds, lowerHex d

/-- A text that is none of a block of this size is refused, and so is any other
text but `NULL`. -/
theorem unpackName_refuses {s : Block} {c : ℕ} {txt old : List Byte} (hs : HasString s c txt)
    (h : ¬ StartsPacked old.length txt) :
    ∃ ptr, unpackName s c old = some (if txt = lit "NULL" then .name else .null, ptr) ∧
      (txt = lit "NULL" → ptr = List.replicate old.length 0) := by
  have hother (hload : ∃ d, load s c = some d ∧ d ≠ chr '_') :
      ∃ ptr, unpackName s c old = some (if txt = lit "NULL" then .name else .null, ptr) ∧
        (txt = lit "NULL" → ptr = List.replicate old.length 0) := by
    obtain ⟨d, hd, hne⟩ := hload
    rw [unpackName, hd, Option.bind_eq_bind, Option.bind_some, if_pos hne, hs.cstring, Option.bind_eq_bind,
      Option.bind_some]
    by_cases hnull : txt = lit "NULL"
    · rw [if_pos (strcmp_eq_iff.mpr hnull), if_pos hnull]
      exact ⟨_, rfl, fun _ => rfl⟩
    · rw [if_neg fun heq => hnull (strcmp_eq_iff.mp heq), if_neg hnull]
      exact ⟨_, rfl, fun heq => absurd heq hnull⟩
  match txt, hs with
  | [], hs => exact hother ⟨0, hs.load_nil, by decide⟩
  | d :: txt, hs =>
      by_cases hd : d = chr '_'
      · obtain ⟨ptr, hptr⟩ := @unpackData_refuses _ _ _ old hs.tail fun ⟨ds, rest, htxt, hlen, hds⟩ =>
          h ⟨ds, rest, by rw [hd, htxt]; rfl, hlen, hds⟩
        have hnull : d :: txt ≠ lit "NULL" := by
          rintro heq
          cases hd.symm.trans (List.cons.inj heq).1
        rw [unpackName, hs.load_cons, Option.bind_eq_bind, Option.bind_some, if_neg (by simp [hd]), hptr, if_neg hnull]
        exact ⟨ptr, rfl, fun heq => absurd heq hnull⟩
      · exact hother ⟨d, hs.load_cons, hd⟩

/-! ### The round trip -/

/-- The buffer is written within its first `bsz` bytes, and when it is returned the
text in it gives the block and the name back. -/
def Packs (buff : Block) (ptr name : List Byte) (bsz : ℕ) (r : Option (Bool × Block))
    (unpack : Block → ℕ → List Byte → Option (Unpacked × List Byte)) : Prop :=
  ∃ ok buff', r = some (ok, buff') ∧ (∀ k, bsz ≤ k → buff'[k]? = buff[k]?) ∧
    (ok = true → ∀ old : List Byte, old.length = ptr.length → ∃ k,
      unpack buff' 0 old = some (.at_ k, ptr) ∧ HasString buff' k name ∧ k + name.length < bsz)

theorem getElem?_behind {x d w z : Block} (hd : d.length = x.length) {k : ℕ}
    (hk : d.length + w.length ≤ k) : (d ++ (w ++ z.drop w.length))[k]? = (x ++ z)[k]? := by
  rw [List.getElem?_append_right (by omega), List.getElem?_append_right (by omega),
    List.getElem?_append_right (by omega), List.getElem?_drop]
  congr 1
  omega

/-- The digits and then the name with its terminator. -/
theorem packs_text {buff x z : Block} {ptr name : List Byte} {bsz : ℕ} (hname : ∀ c ∈ name, c ≠ 0)
    (hbuff : buff = x ++ z) (hx : x.length = 2 * ptr.length + 1) (hz : name.length + 1 ≤ z.length)
    (hbsz : 2 * ptr.length + 2 + name.length ≤ bsz) :
    Packs buff ptr name bsz
      ((storeBytes (chr '_' :: hexBytes ptr ++ z) (1 + 2 * ptr.length : ℕ) (name ++ [0])).bind fun b => some (true, b))
      unpackName := by
  have hlen : (chr '_' :: hexBytes ptr).length = 1 + 2 * ptr.length := by
    rw [List.length_cons, length_hexBytes, Nat.add_comm]
  have hname0 : (name ++ [0]).length = name.length + 1 := by simp
  rw [← hlen, storeBytes_append (by omega), Option.bind_some]
  refine ⟨true, _, rfl, fun k hk => ?_, fun _ old hold => ⟨1 + 2 * ptr.length, ?_⟩⟩
  · rw [hbuff]
    exact getElem?_behind (by omega) (by omega)
  · have hs : HasString (chr '_' :: hexBytes ptr ++ (name ++ [0] ++ z.drop (name ++ [0]).length)) 0
        (chr '_' :: hexBytes ptr ++ name) := by
      refine ⟨⟨z.drop (name ++ [0]).length, by simp⟩, fun c hc => ?_⟩
      rcases List.mem_append.mp hc with hc | hc
      · rcases List.mem_cons.mp hc with rfl | hc
        · decide
        · exact hexBytes_ne_zero ptr c hc
      · exact hname c hc
    obtain ⟨hunpack, hcursor⟩ := unpackName_packed hs hold
    rw [Nat.zero_add] at hunpack hcursor
    exact ⟨hunpack, hcursor, by omega⟩

theorem length_behind_digits {buff z : Block} {n : ℕ} (hz : buff = buff.take n ++ z) (hn : n ≤ buff.length) :
    z.length = buff.length - n := by
  have hlen := congrArg List.length hz
  rw [List.length_append, List.length_take] at hlen
  omega

theorem packVoidPtr_packs {buff : Block} (ptr : List Byte) {name : List Byte} {bsz : ℕ}
    (hname : ∀ c ∈ name, c ≠ 0) (hbuff : bsz ≤ buff.length) :
    Packs buff ptr name bsz (packVoidPtr buff ptr name bsz) unpackVoidPtr := by
  by_cases hshort : 2 * ptr.length + 2 > bsz
  · refine ⟨false, buff, ?_, fun _ _ => rfl, nofun⟩
    rw [packVoidPtr, if_pos hshort]
    rfl
  · obtain ⟨z, buff', hz, hstore, hpack⟩ := pack_digits ptr (show 2 * ptr.length + 2 ≤ buff.length by omega)
    have hzlen := length_behind_digits hz (by omega)
    have htake : (buff.take (2 * ptr.length + 1)).length = 2 * ptr.length + 1 := List.length_take_of_le (by omega)
    by_cases hlong : name.length + 1 > bsz - (1 + 2 * ptr.length)
    · refine ⟨false, chr '_' :: hexBytes ptr ++ z, ?_, fun k hk => ?_, nofun⟩
      · rw [packVoidPtr, if_neg hshort, hstore]
        dsimp only [Option.bind_eq_bind, Option.bind_some]
        rw [hpack]
        dsimp only [Option.bind_some]
        rw [if_pos hlong]
        rfl
      · have hdigits : (chr '_' :: hexBytes ptr).length = 2 * ptr.length + 1 := by
          rw [List.length_cons, length_hexBytes]
        have hbehind := getElem?_behind (d := chr '_' :: hexBytes ptr) (w := []) (z := z) (k := k)
          (hdigits.trans htake.symm) (by rw [List.length_nil]; omega)
        rwa [← hz] at hbehind
    · have hpacks := packs_text hname hz htake (by omega) (show 2 * ptr.length + 2 + name.length ≤ bsz by omega)
      rw [packVoidPtr, if_neg hshort, hstore]
      dsimp only [Option.bind_eq_bind, Option.bind_some]
      rw [hpack]
      dsimp only [Option.bind_some]
      rw [if_neg hlong]
      exact hpacks

theorem packDataName_packs {buff : Block} (ptr : List Byte) {name : Option (List Byte)} {bsz : ℕ}
    (hname : ∀ c ∈ name.getD [], c ≠ 0) (hbuff : bsz ≤ buff.length) :
    Packs buff ptr (name.getD []) bsz (packDataName buff ptr name bsz) unpackDataName := by
  by_cases hshort : 2 * ptr.length + 2 + (name.getD []).length > bsz
  · refine ⟨false, buff, ?_, fun _ _ => rfl, nofun⟩
    rw [packDataName, if_pos hshort]
    rfl
  · obtain ⟨z, buff', hz, hstore, hpack⟩ := pack_digits ptr (show 2 * ptr.length + 2 ≤ buff.length by omega)
    have hzlen := length_behind_digits hz (by omega)
    have htake : (buff.take (2 * ptr.length + 1)).length = 2 * ptr.length + 1 := List.length_take_of_le (by omega)
    have hpacks := packs_text hname hz htake (by omega) (show 2 * ptr.length + 2 + (name.getD []).length ≤ bsz by omega)
    rw [packDataName, if_neg hshort, hstore]
    dsimp only [Option.bind_eq_bind, Option.bind_some]
    rw [hpack]
    dsimp only [Option.bind_some]
    by_cases hempty : (name.getD []).length ≠ 0
    · rw [if_pos hempty]
      exact hpacks
    · rw [if_neg hempty, ← storeBytes_singleton]
      rw [List.eq_nil_of_length_eq_zero (not_not.mp hempty)] at hpacks ⊢
      exact hpacks

/-- What is packed comes back, and what is not packed is refused. -/
theorem packed_unpacks {buff : Block} {bsz : ℕ} (ptr : List Byte) (hbuff : bsz ≤ buff.length) :
    (∀ name : List Byte, (∀ c ∈ name, c ≠ 0) →
      Packs buff ptr name bsz (packVoidPtr buff ptr name bsz) unpackVoidPtr) ∧
    (∀ name : Option (List Byte), (∀ c ∈ name.getD [], c ≠ 0) →
      Packs buff ptr (name.getD []) bsz (packDataName buff ptr name bsz) unpackDataName) ∧
    ∀ unpack ∈ [unpackVoidPtr, unpackDataName], ∀ s c txt, HasString s c txt → ¬ StartsPacked ptr.length txt →
      ∃ ptr', unpack s c ptr = some (if txt = lit "NULL" then .name else .null, ptr') ∧
        (txt = lit "NULL" → ptr' = List.replicate ptr.length 0) := by
  refine ⟨fun name hname => packVoidPtr_packs ptr hname hbuff,
    fun name hname => packDataName_packs ptr hname hbuff, fun unpack hunpack s c txt hs hnot => ?_⟩
  have hrefuses := @unpackName_refuses _ _ _ ptr hs hnot
  rcases List.mem_cons.mp hunpack with rfl | hunpack
  · exact hrefuses
  · rcases List.mem_singleton.mp hunpack with rfl
    exact hrefuses

/-- Four bytes are enough for one byte without a name. -/
theorem one_byte_unpacks :
    Packs [1, 1, 1, 1, 1] [0xab] [] 4 (packVoidPtr [1, 1, 1, 1, 1] [0xab] [] 4) unpackVoidPtr ∧
      ∃ ptr', unpackDataName [chr '_', chr '0', 0] 0 [0xab] = some (.null, ptr') := by
  obtain ⟨hvoid, -, hrefuses⟩ := @packed_unpacks [1, 1, 1, 1, 1] 4 [0xab] (by decide)
  refine ⟨hvoid [] nofun, ?_⟩
  have hnot : ¬ StartsPacked 1 [chr '_', chr '0'] := by
    rintro ⟨ds, rest, htxt, hlen, -⟩
    have htwo := congrArg List.length htxt
    simp only [List.length_cons, List.length_append, List.length_nil] at htwo
    omega
  obtain ⟨ptr', hptr, -⟩ := hrefuses unpackDataName (List.mem_cons_of_mem _ (List.mem_singleton_self _))
    [chr '_', chr '0', 0] 0 [chr '_', chr '0'] ⟨⟨[], rfl⟩, fun _ hc => ne_of_mem_of_not_mem hc (by decide)⟩ hnot
  exact ⟨ptr', hptr⟩

end Swig.Runtime
