import Swig.DOH.HashMap
import Swig.DOH.SoundString

/-!
The cached hash value of the string objects over whole runs. Every operation
that changes the contents of a string drops the cached value or takes it along
with them, so equal strings have equal hash values.
-/

namespace Swig.DOH

open ByteBlock

variable {h h' : StringHeap} {junk : ℕ → Byte}

/-- A C string has no terminator in front of its end. -/
def Arg.NulFree : Arg → Prop
  | .cstr txt => ∀ c ∈ txt, c ≠ 0
  | .obj _ => True

/-- The contents of an argument. -/
def StringHeap.contents (h : StringHeap) : Arg → Option (List Byte)
  | .cstr txt => some txt
  | .obj i => (h[i]?).map DohString.contents

/-- The operation is on data without terminators: none among the bytes it is
given, none that `strncpy` pads a short string with, and none in memory not
written yet, where a slice or a position behind the contents leads to. -/
def StringOp.NulFree (h : StringHeap) : StringOp → Prop
  | .newString so => ∀ a ∈ so, a.NulFree
  | .newStringWithSize so len => ∀ a ∈ so, a.NulFree ∧ ∀ txt ∈ h.contents a, len ≤ txt.length
  | .append _ str => str.NulFree
  | .insert _ _ str => str.NulFree
  | .delslice so sindex _ => ∀ s ∈ h[so]?, sindex ≤ s.len
  | .replace _ _ rep _ => rep.NulFree
  | .seek so offset whence => ∀ s ∈ h[so]?, s.seekTarget offset whence ≤ s.len
  | .putc _ ch => ch ≠ 0
  | .write _ buffer => ∀ c ∈ buffer, c ≠ 0
  | _ => True

/-- The objects after some operations on data without terminators. -/
inductive StringHeap.Reachable : StringHeap → Prop
  | empty : Reachable []
  | step {h h' : StringHeap} (junk : ℕ → Byte) (op : StringOp) (hreach : Reachable h) (hop : op.NulFree h)
      (hstep : op.step junk h = some h') : Reachable h'

namespace StringHeap

def Sound (h : StringHeap) : Prop := ∀ s ∈ h, s.Sound

theorem Sound.get (hh : Sound h) {i : ℕ} {s : DohString} (hi : h[i]? = some s) : s.Sound :=
  hh s (List.mem_of_getElem? hi)

theorem Sound.set (hh : Sound h) {s : DohString} (hs : s.Sound) (i : ℕ) : Sound (h.set i s) := by
  intro t ht
  rcases List.mem_or_eq_of_mem_set ht with ht | rfl
  · exact hh t ht
  · exact hs

theorem Sound.push (hh : Sound h) {s : DohString} (hs : s.Sound) : Sound (h ++ [s]) := by
  intro t ht
  rcases List.mem_append.mp ht with ht | ht
  · exact hh t ht
  · rw [List.mem_singleton.mp ht]
    exact hs

theorem Sound.modify (hh : Sound h) {so : ℕ} {f : DohString → Option DohString}
    (hf : ∀ s s', h[so]? = some s → s.Sound → f s = some s' → s'.Sound)
    (hs : h.modify so f = some h') : Sound h' := by
  simp only [StringHeap.modify, Option.bind_eq_bind, Option.bind_eq_some_iff] at hs
  obtain ⟨s, hso, s', hs', hs⟩ := hs
  cases hs
  exact hh.set (hf s s' hso (hh.get hso) hs') so

/-! ### Arguments -/

/-- The terminator `String_data` writes changes no contents. -/
theorem Sound.data (hh : Sound h) {i : ℕ} {s : DohString} (hi : h[i]? = some s) :
    ∃ b, h.data i = some ({ s with str := b }, h.set i { s with str := b }) ∧
      ({ s with str := b } : DohString).Sound ∧ b.take s.len.toNat = s.contents ∧
      EndsAt b 0 s.len.toNat ∧
        ∀ a, StringHeap.contents (h.set i { s with str := b }) a = h.contents a := by
  obtain ⟨b, hb, hsound, htake, hends⟩ := (hh.get hi).stringData
  refine ⟨b, by simp [StringHeap.data, hi, hb], hsound, htake, hends, fun a => ?_⟩
  cases a with
  | cstr txt => rfl
  | obj j =>
      by_cases hij : i = j
      · subst hij
        obtain ⟨hlt, rfl⟩ := List.getElem?_eq_some_iff.mp hi
        simp [contents, DohString.contents, htake, hlt]
      · simp [contents, List.getElem?_set_ne hij]

theorem Sound.char (hh : Sound h) {a : Arg} {txt : List Byte} (ha : h.contents a = some txt) :
    ∃ h', h.char a = some (txt, h') ∧ Sound h' ∧ ∀ b, h'.contents b = h.contents b := by
  cases a with
  | cstr c =>
      cases ha
      exact ⟨h, rfl, hh, fun _ => rfl⟩
  | obj i =>
      obtain ⟨s, hi, rfl⟩ := Option.map_eq_some_iff.mp ha
      obtain ⟨b, hdata, hsound, htake, hends, hsame⟩ := hh.data hi
      refine ⟨_, ?_, hh.set hsound i, hsame⟩
      simp [StringHeap.char, hdata, hends.cstring, htake]

theorem Sound.text (hh : Sound h) {a : Arg} {txt : List Byte} (ha : h.contents a = some txt) :
    ∃ h', h.text a = some (txt, h') ∧ Sound h' ∧ ∀ b, h'.contents b = h.contents b := by
  cases a with
  | cstr c =>
      cases ha
      exact ⟨h, rfl, hh, fun _ => rfl⟩
  | obj i =>
      obtain ⟨s, hi, rfl⟩ := Option.map_eq_some_iff.mp ha
      obtain ⟨b, hdata, hsound, htake, hends, hsame⟩ := hh.data hi
      refine ⟨_, ?_, hh.set hsound i, hsame⟩
      have hbytes := DohString.bytes_eq hsound
      simp only [StringHeap.text, hdata, Option.bind_eq_bind, Option.bind_some, hbytes]
      simp [DohString.contents, htake]

theorem Sound.nulFree (hh : Sound h) {a : Arg} (hnul : a.NulFree) {txt : List Byte}
    (ha : h.contents a = some txt) : ∀ c ∈ txt, c ≠ 0 := by
  cases a with
  | cstr c =>
      cases ha
      exact hnul
  | obj i =>
      obtain ⟨s, hi, rfl⟩ := Option.map_eq_some_iff.mp ha
      exact (hh.get hi).mem_contents

/-- An argument that was read has contents. -/
theorem contents_of_char {a : Arg} {txt : List Byte} (hh : Sound h)
    (ha : h.char a = some (txt, h')) :
    h.contents a = some txt ∧ Sound h' ∧ ∀ b, h'.contents b = h.contents b := by
  cases hc : h.contents a with
  | none =>
      cases a with
      | cstr c => cases hc
      | obj i =>
          have hi : h[i]? = none := Option.map_eq_none_iff.mp hc
          simp [char, data, hi] at ha
  | some txt' =>
      obtain ⟨h'', hchar, hsound, hsame⟩ := hh.char hc
      rw [hchar] at ha
      cases ha
      exact ⟨rfl, hsound, hsame⟩

theorem contents_of_text {a : Arg} {txt : List Byte} (hh : Sound h)
    (ha : h.text a = some (txt, h')) : h.contents a = some txt ∧ Sound h' := by
  cases hc : h.contents a with
  | none =>
      cases a with
      | cstr c => cases hc
      | obj i =>
          have hi : h[i]? = none := Option.map_eq_none_iff.mp hc
          simp [text, data, hi] at ha
  | some txt' =>
      obtain ⟨h'', htext, hsound, -⟩ := hh.text hc
      rw [htext] at ha
      cases ha
      exact ⟨rfl, hsound⟩

/-! ### The operations -/

theorem Sound.append (hh : Sound h) {so : ℕ} {str : Arg} (hstr : str.NulFree)
    (hs : h.append junk so str = some h') : Sound h' := by
  simp only [StringHeap.append, Option.bind_eq_bind, Option.bind_eq_some_iff] at hs
  obtain ⟨u, -, ⟨newstr, h₁⟩, htext, hs⟩ := hs
  obtain ⟨hc, hh₁⟩ := contents_of_text hh htext
  exact hh₁.modify (fun s s' _ hs h => hs.append (hh.nulFree hstr hc) h) hs

theorem Sound.replace (hh : Sound h) {so flags : ℕ} {token rep : Arg} (hrep : rep.NulFree)
    (hs : h.replace junk so token rep flags = some h') : Sound h' := by
  simp only [StringHeap.replace, Option.bind_eq_bind, Option.bind_eq_some_iff] at hs
  obtain ⟨⟨t, h₁⟩, ht, ⟨r, h₂⟩, hr, s, hso, ⟨rcount, s'⟩, hs', u, -, hs⟩ := hs
  cases hs
  obtain ⟨-, hh₁, -⟩ := contents_of_char hh ht
  obtain ⟨hc, hh₂, -⟩ := contents_of_char hh₁ hr
  exact hh₂.set ((hh₂.get hso).replace (hh₁.nulFree hrep hc) hs') so

theorem Sound.newString (hh : Sound h) {so : Option Arg} (hso : ∀ a ∈ so, a.NulFree)
    {source : Option (List Byte × ℤ × ℤ)} (hsource : h.newStringSource so = some (source, h'))
    {s : DohString} (hs : DohString.newString junk source = some s) : Sound (h' ++ [s]) := by
  match so with
  | none =>
      cases hsource
      exact hh.push (DohString.sound_newString_null hs)
  | some (.cstr txt) =>
      cases hsource
      exact hh.push (DohString.sound_newString (hso _ rfl) (.inl rfl) hs)
  | some (.obj i) =>
      simp only [newStringSource, Option.bind_eq_bind] at hsource
      cases hi : h[i]? with
      | none => simp [StringHeap.data, hi] at hsource
      | some t =>
          obtain ⟨b, hdata, hsound, htake, hends, -⟩ := hh.data hi
          have htxt : cstring b 0 = some t.contents := by
            rw [hends.cstring]
            simp [htake]
          simp only [hdata, Option.bind_some, htxt] at hsource
          cases hsource
          -- the text, its length and its hash value are copied together
          rw [← DohString.length_contents (hh.get hi)] at hs
          exact (hh.set hsound i).push
            (DohString.sound_newString (hh.get hi).mem_contents (hh.get hi).hashkey hs)

theorem Sound.newStringWithSize (hh : Sound h) {so : Option Arg} {len : ℤ}
    (hso : ∀ a ∈ so, a.NulFree ∧ ∀ txt ∈ h.contents a, len ≤ txt.length)
    {source : Option (List Byte)} (hsource : h.newStringWithSizeSource so = some (source, h'))
    {s : DohString} (hs : DohString.newStringWithSize junk source len = some s) :
    Sound (h' ++ [s]) := by
  cases so with
  | none =>
      cases hsource
      exact hh.push (DohString.sound_newStringWithSize_null hs)
  | some a =>
      obtain ⟨⟨txt, h₁⟩, hchar, hsource⟩ := Option.bind_eq_some_iff.mp hsource
      cases hsource
      obtain ⟨hc, hh₁, -⟩ := contents_of_char hh hchar
      obtain ⟨hnul, hlen⟩ := hso a rfl
      exact hh₁.push (DohString.sound_newStringWithSize (hh.nulFree hnul hc) (hlen txt hc) hs)

/-! ### Comparing -/

theorem strcmpInt_eq_zero_iff {t1 t2 : List Byte} : strcmpInt t1 t2 = 0 ↔ t1 = t2 := by
  rw [← strcmp_eq_iff, strcmpInt]
  cases strcmp t1 t2 <;> simp

/-- `strcmp` of the strings of two arguments. -/
theorem Sound.strcmp_char (hh : Sound h) {a b : Arg} {t1 t2 : List Byte}
    (ha : h.contents a = some t1) (hb : h.contents b = some t2) :
    ∃ h₁, (do
      let (t1, h) ← h.char a
      let (t2, h) ← h.char b
      return (strcmpInt t1 t2, h)) = some (strcmpInt t1 t2, h₁) ∧ Sound h₁ := by
  obtain ⟨h₁, hchar₁, hh₁, hsame⟩ := hh.char ha
  obtain ⟨h₂, hchar₂, hh₂, -⟩ := hh₁.char ((hsame b).trans hb)
  exact ⟨h₂, by simp [hchar₁, hchar₂], hh₂⟩

theorem Sound.equalCstr (hh : Sound h) {i : ℕ} {t1 : List Byte} (t2 : List Byte)
    (hi : h.contents (.obj i) = some t1) :
    ∃ e h₁, h.equalCstr i t2 = some (e, h₁) ∧ Sound h₁ ∧ (e = true ↔ t1 = t2) := by
  obtain ⟨s, hs, rfl⟩ := Option.map_eq_some_iff.mp hi
  have hlen := DohString.length_contents (hh.get hs)
  by_cases heq : s.len = t2.length
  · obtain ⟨b, hdata, hsound, htake, -, -⟩ := hh.data hs
    have hbytes := DohString.bytes_eq hsound
    refine ⟨s.contents == t2, _, ?_, hh.set hsound i, by simp⟩
    have hcontents : ({ s with str := b } : DohString).contents = s.contents := htake
    rw [hcontents] at hbytes
    unfold StringHeap.equalCstr
    rw [hs]
    dsimp only [Option.bind_eq_bind, Option.bind_some]
    rw [if_pos heq, hdata, Option.bind_some, hbytes]
    rfl
  · refine ⟨false, h, ?_, hh, ?_⟩
    · simp [StringHeap.equalCstr, hs, heq]
    · simp only [Bool.false_eq_true, false_iff]
      rintro rfl
      exact heq hlen.symm

/-- What `Cmp` and `Equal` do with two arguments. -/
theorem Sound.compare (hh : Sound h) {a b : Arg} {t1 t2 : List Byte} (ha : h.contents a = some t1)
    (hb : h.contents b = some t2) : ∃ c h₁ e h₂, h.dohCmp (some a) (some b) = some (c, h₁) ∧
      h.dohEqual (some a) (some b) = some (e, h₂) ∧ Sound h₁ ∧ Sound h₂ ∧
      (c = 0 ↔ t1 = t2) ∧ (e = true ↔ t1 = t2) := by
  match a, b with
  | .obj i, .obj j =>
      obtain ⟨s, hs, rfl⟩ := Option.map_eq_some_iff.mp ha
      obtain ⟨t, ht, rfl⟩ := Option.map_eq_some_iff.mp hb
      have hbs := DohString.bytes_eq (hh.get hs)
      have hbt := DohString.bytes_eq (hh.get ht)
      exact ⟨stringCmp s.contents t.contents, h, stringEqual s.contents t.contents, h,
        by simp [dohCmp, hs, ht, DohString.cmp, hbs, hbt],
        by simp [dohEqual, hs, ht, DohString.equal, hbs, hbt], hh, hh, stringCmp_eq_zero_iff,
        stringEqual_iff⟩
  | .obj i, .cstr c =>
      cases hb
      obtain ⟨h₁, hcmp, hh₁⟩ := hh.strcmp_char ha (show h.contents (.cstr t2) = some t2 from rfl)
      obtain ⟨e, h₂, hequal, hh₂, he⟩ := hh.equalCstr t2 ha
      exact ⟨_, h₁, e, h₂, hcmp, hequal, hh₁, hh₂, strcmpInt_eq_zero_iff, he⟩
  | .cstr c, .obj j =>
      cases ha
      obtain ⟨h₁, hcmp, hh₁⟩ := hh.strcmp_char (show h.contents (.cstr t1) = some t1 from rfl) hb
      obtain ⟨e, h₂, hequal, hh₂, he⟩ := hh.equalCstr t1 hb
      exact ⟨_, h₁, e, h₂, hcmp, hequal, hh₁, hh₂, strcmpInt_eq_zero_iff, he.trans eq_comm⟩
  | .cstr c, .cstr d =>
      cases ha
      cases hb
      refine ⟨_, h, strcmp t1 t2 == .eq, h, rfl, rfl, hh, hh, strcmpInt_eq_zero_iff, ?_⟩
      rw [beq_iff_eq, strcmp_eq_iff]

theorem Sound.strcmp_sound (hh : Sound h) {a b : Arg} {c : ℤ} (hs : (do
      let (t1, h) ← h.char a
      let (t2, h) ← h.char b
      return (strcmpInt t1 t2, h)) = some (c, h')) : Sound h' := by
  simp only [Option.bind_eq_bind, Option.bind_eq_some_iff] at hs
  obtain ⟨⟨t1, h₁⟩, h₁eq, ⟨t2, h₂⟩, h₂eq, hs⟩ := hs
  cases hs
  exact (contents_of_char (contents_of_char hh h₁eq).2.1 h₂eq).2.1

theorem Sound.dohCmp (hh : Sound h) {obj1 obj2 : Option Arg} {c : ℤ}
    (hs : h.dohCmp obj1 obj2 = some (c, h')) : Sound h' := by
  match obj1, obj2 with
  | none, none | none, some _ | some _, none =>
      cases hs
      exact hh
  | some (.obj i), some (.obj j) =>
      simp only [StringHeap.dohCmp, Option.bind_eq_bind, Option.bind_eq_some_iff] at hs
      obtain ⟨s, -, t, -, c, -, hs⟩ := hs
      cases hs
      exact hh
  | some (.obj i), some (.cstr c) | some (.cstr c), some (.obj i) | some (.cstr c), some (.cstr d) =>
      exact hh.strcmp_sound hs

theorem Sound.equalCstr_sound (hh : Sound h) {i : ℕ} {cobj : List Byte} {e : Bool}
    (hs : h.equalCstr i cobj = some (e, h')) : Sound h' := by
  cases hi : h[i]? with
  | none => simp [StringHeap.equalCstr, hi] at hs
  | some s =>
      obtain ⟨e', h₁, hequal, hh₁, -⟩ :=
        hh.equalCstr cobj (show h.contents (.obj i) = some s.contents by simp [contents, hi])
      rw [hequal] at hs
      cases hs
      exact hh₁

theorem Sound.dohEqual (hh : Sound h) {obj1 obj2 : Option Arg} {e : Bool}
    (hs : h.dohEqual obj1 obj2 = some (e, h')) : Sound h' := by
  match obj1, obj2 with
  | none, _ | some (.cstr _), none | some (.obj _), none | some (.cstr _), some (.cstr _) =>
      cases hs
      exact hh
  | some (.obj i), some (.obj j) =>
      simp only [StringHeap.dohEqual, Option.bind_eq_bind, Option.bind_eq_some_iff] at hs
      obtain ⟨s, -, t, -, c, -, hs⟩ := hs
      cases hs
      exact hh
  | some (.obj i), some (.cstr c) | some (.cstr c), some (.obj i) => exact hh.equalCstr_sound hs

end StringHeap

/-! ### Runs -/

open StringHeap

theorem StringOp.step_sound {op : StringOp} (hh : Sound h) (hop : op.NulFree h)
    (hs : op.step junk h = some h') : Sound h' := by
  cases op with
  | newString so =>
      simp only [step, Option.bind_eq_bind, Option.bind_eq_some_iff] at hs
      obtain ⟨⟨source, h₁⟩, hsource, s, hnew, hs⟩ := hs
      cases hs
      exact hh.newString hop hsource hnew
  | newStringEmpty =>
      simp only [step, Option.bind_eq_bind, Option.bind_eq_some_iff] at hs
      obtain ⟨s, hnew, hs⟩ := hs
      cases hs
      exact hh.push (DohString.sound_newStringEmpty hnew)
  | newStringWithSize so len =>
      simp only [step, Option.bind_eq_bind, Option.bind_eq_some_iff] at hs
      obtain ⟨⟨source, h₁⟩, hsource, s, hnew, hs⟩ := hs
      cases hs
      exact hh.newStringWithSize hop hsource hnew
  | copy so =>
      simp only [step, Option.bind_eq_bind, Option.bind_eq_some_iff] at hs
      obtain ⟨s, hso, s', hcopy, hs⟩ := hs
      cases hs
      exact hh.push ((hh.get hso).copyString hcopy)
  | append so str => exact hh.append hop hs
  | insert so pos str =>
      rw [step] at hs
      split at hs
      · exact hh.append hop hs
      · obtain ⟨⟨data, h₁⟩, htext, hs⟩ := Option.bind_eq_some_iff.mp hs
        obtain ⟨hc, hh₁⟩ := contents_of_text hh htext
        exact hh₁.modify (fun s s' _ hs h => hs.insert (hh.nulFree hop hc) h) hs
  | delitem so pos => exact hh.modify (fun s s' _ hs h => hs.delitem h) hs
  | delslice so sindex eindex =>
      exact hh.modify (fun s s' hso hs h => hs.delslice (hop s hso) h) hs
  | replace so token rep flags => exact hh.replace hop hs
  | chop so => exact hh.modify (fun s s' _ hs h => hs.chop h) hs
  | clear so => exact hh.modify (fun s s' _ hs h => hs.clear h) hs
  | seek so offset whence =>
      exact hh.modify (fun s s' hso hs h => hs.seek (hop s hso) h) hs
  | putc so ch => exact hh.modify (fun s s' _ hs h => hs.putc hop h) hs
  | getc so =>
      refine hh.modify (fun s s' _ hs h => ?_) hs
      obtain ⟨⟨c, t⟩, hc, rfl⟩ := Option.map_eq_some_iff.mp h
      exact hs.getc hc
  | ungetc so ch =>
      refine hh.modify (fun s s' _ hs h => ?_) hs
      cases h
      exact hs.ungetc ch
  | read so len =>
      refine hh.modify (fun s s' _ hs h => ?_) hs
      obtain ⟨⟨y, t⟩, hy, rfl⟩ := Option.map_eq_some_iff.mp h
      exact hs.read hy
  | write so buffer => exact hh.modify (fun s s' _ hs h => hs.write hop h) hs
  | hashval so =>
      refine hh.modify (fun s s' _ hs h => ?_) hs
      obtain ⟨t, ht, hsound⟩ := hs.hash
      rw [ht] at h
      cases h
      exact hsound
  | cmp obj1 obj2 =>
      obtain ⟨⟨c, h₁⟩, hcmp, rfl⟩ := Option.map_eq_some_iff.mp hs
      exact hh.dohCmp hcmp
  | equal obj1 obj2 =>
      obtain ⟨⟨e, h₁⟩, hequal, rfl⟩ := Option.map_eq_some_iff.mp hs
      exact hh.dohEqual hequal

theorem StringHeap.Reachable.sound (hreach : Reachable h) : Sound h := by
  induction hreach with
  | empty => exact fun s hs => by cases hs
  | step junk op hreach hop hstep ih => exact StringOp.step_sound ih hop hstep

/-- An argument that is null, a C string or an object made before. -/
def StringHeap.Live (h : StringHeap) (obj : Option Arg) : Prop :=
  ∀ a ∈ obj, (h.contents a).isSome

/-- Whatever operations there were, a cached hash value is that of the contents.
So strings with equal contents have equal hash values, and `Equal` agrees with
`Cmp`. -/
theorem StringHeap.Reachable.hashkey_coherent (hreach : Reachable h) :
    (∀ s ∈ h, s.hashkey = -1 ∨ s.hashkey = stringHash s.contents) ∧
      (∀ s ∈ h, ∀ t ∈ h, s.contents = t.contents →
        ∃ k s' t', s.hash = some (k, s') ∧ t.hash = some (k, t')) ∧
      ∀ obj1 obj2 : Option Arg, h.Live obj1 → h.Live obj2 →
        ∃ c h₁ e h₂, h.dohCmp obj1 obj2 = some (c, h₁) ∧ h.dohEqual obj1 obj2 = some (e, h₂) ∧
          (e = true ↔ c = 0) := by
  have hh := hreach.sound
  refine ⟨fun s hs => (hh s hs).hashkey, fun s hs t ht heq => ?_, fun obj1 obj2 h1 h2 => ?_⟩
  · obtain ⟨s', hs', -⟩ := (hh s hs).hash
    obtain ⟨t', ht', -⟩ := (hh t ht).hash
    exact ⟨_, s', t', hs', by rw [heq, ht']⟩
  · match obj1, obj2 with
    | none, none => exact ⟨0, h, true, h, rfl, rfl, by simp⟩
    | none, some b => exact ⟨-1, h, false, h, rfl, rfl, by simp⟩
    | some a, none => exact ⟨1, h, false, h, by cases a <;> rfl, by cases a <;> rfl, by simp⟩
    | some a, some b =>
        obtain ⟨t1, ha⟩ := Option.isSome_iff_exists.mp (h1 a rfl)
        obtain ⟨t2, hb⟩ := Option.isSome_iff_exists.mp (h2 b rfl)
        obtain ⟨c, h₁, e, h₂, hcmp, hequal, -, -, hc, he⟩ := hh.compare ha hb
        exact ⟨c, h₁, e, h₂, hcmp, hequal, he.trans hc.symm⟩

/-- A string that was hashed, and a new string made of it. -/
theorem hashkey_coherent_newString :
    ∃ h : StringHeap, h.map (·.hashkey) = [3202, 3202] ∧
      ∀ s ∈ h, ∀ t ∈ h, s.contents = t.contents →
        ∃ k s' t', s.hash = some (k, s') ∧ t.hash = some (k, t') := by
  have hnew : Reachable [⟨1, 16, 2, -1, 2, 97 :: 98 :: List.replicate 14 0⟩] :=
    .step (fun _ => 0) (.newString (some (.cstr [97, 98]))) .empty
      (fun a ha => by cases ha; simp [Arg.NulFree]) rfl
  have hhash : Reachable [⟨1, 16, 2, 3202, 2, 97 :: 98 :: List.replicate 14 0⟩] :=
    .step (fun _ => 0) (.hashval 0) hnew trivial rfl
  have hcopy : Reachable [⟨1, 16, 2, 3202, 2, 97 :: 98 :: List.replicate 14 0⟩,
      ⟨1, 16, 2, 3202, 2, 97 :: 98 :: List.replicate 14 0⟩] :=
    .step (fun _ => 0) (.newString (some (.obj 0))) hhash
      (fun a ha => by cases ha; simp [Arg.NulFree]) rfl
  exact ⟨_, rfl, hcopy.hashkey_coherent.2.1⟩

end Swig.DOH
