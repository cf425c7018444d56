import Swig.DOH.Sprintf
import Swig.Errors.FilterText
import Mathlib.Data.List.TakeWhile
import Mathlib.Data.Nat.Notation
import Mathlib.Logic.Function.Basic
import Mathlib.Logic.Relation
import Mathlib.Tactic.Common

/-!
Compilations that share a cache (`from_cache` and `to_cache` in `ccache.c`, and
`commit_to_cache`, `copy_file` and `safe_rename` in `util.c`, without zlib and
without hard links).

Any number of compilations run at once, each one system call at a time, while
cleanups delete files of the cache at any moment. A file is written under a name of
its own and renamed when it is complete, and is not written to after that, so a file
that was opened can be read to its end in one step.
-/

namespace Swig.CCache

open Swig.Errors (decimal decimal_ne_nil isdigit_of_mem_decimal)

abbrev Content := List Byte

/-- The files of the cache: those of the entry `h`, in the order in which the compiler
lists them, the list itself, what the compiler printed, and the file a compilation is
writing. `mkstemp` finds a name that no other file has. -/
inductive Path (H : Type*)
  | part (h : H) (i : ℕ)
  | outfiles (h : H)
  | stderr (h : H)
  | tmp (p : ℕ)
  deriving DecidableEq

/-- What stands behind the name of an entry in the names of its files, and what the
files that are being written are called is left open. -/
def Path.suffix {H : Type*} : Path H → Option (H × List Byte)
  | .part h 0 => some (h, [])
  | .part h (i + 1) => some (h, chr '.' :: decimal (i + 1))
  | .outfiles h => some (h, chr '.' :: lit "outfiles")
  | .stderr h => some (h, chr '.' :: lit "stderr")
  | .tmp _ => none

/-- The file of an entry whose name is a text. -/
def Path.fileName (path : Path (List Byte)) : Option (List Byte) := path.suffix.map fun r => r.1 ++ r.2

/-- Which file of an entry has this end of its name. -/
def Path.ofSuffix {H : Type*} (r : H × List Byte) : Path H :=
  if r.2 = [] then .part r.1 0
  else if r.2 = chr '.' :: lit "outfiles" then .outfiles r.1
  else if r.2 = chr '.' :: lit "stderr" then .stderr r.1
  else .part r.1 (Errors.digitsVal r.2.tail)

theorem Path.ofSuffix_suffix {H : Type*} {path : Path H} {r : H × List Byte} (h : path.suffix = some r) :
    ofSuffix r = path ∧ ∀ c ∈ r.2.head?, c = chr '.' := by
  cases path with
  | part h' i =>
      cases i with
      | zero =>
          obtain rfl := Option.some.inj h
          exact ⟨if_pos rfl, by rintro _ ⟨⟩⟩
      | succ i =>
          obtain rfl := Option.some.inj h
          have hdigits (t : List Byte) (ht : ∃ c ∈ t, isdigit c = false) : chr '.' :: decimal (i + 1) ≠ chr '.' :: t := by
            rintro heq
            obtain ⟨c, hc, hfalse⟩ := ht
            rw [← (List.cons.inj heq).2] at hc
            rw [isdigit_of_mem_decimal hc] at hfalse
            cases hfalse
          refine ⟨?_, by rintro _ ⟨⟩; rfl⟩
          rw [ofSuffix, if_neg (List.cons_ne_nil _ _), if_neg (hdigits _ ⟨chr 'o', by decide, by decide⟩),
            if_neg (hdigits _ ⟨chr 's', by decide, by decide⟩), List.tail_cons, DOH.digitsVal_decimal]
  | outfiles h' =>
      obtain rfl := Option.some.inj h
      exact ⟨if_neg (List.cons_ne_nil _ _) |>.trans (if_pos rfl), by rintro _ ⟨⟩; rfl⟩
  | stderr h' =>
      obtain rfl := Option.some.inj h
      have hne : lit "stderr" ≠ lit "outfiles" := by decide
      refine ⟨?_, by rintro _ ⟨⟩; rfl⟩
      rw [ofSuffix, if_neg (List.cons_ne_nil _ _), if_neg fun heq => hne (List.cons.inj heq).2, if_pos rfl]
  | tmp p => cases h

theorem takeWhile_dot {h s : List Byte} (hh : chr '.' ∉ h) (hs : ∀ c ∈ s.head?, c = chr '.') :
    (h ++ s).takeWhile (· != chr '.') = h := by
  have hall : ∀ c ∈ h, (c != chr '.') = true := fun c hc => bne_iff_ne.mpr (ne_of_mem_of_not_mem hc hh)
  rw [List.takeWhile_append_of_pos hall]
  cases s with
  | nil => exact List.append_nil h
  | cons c s =>
      rw [hs c rfl, List.takeWhile_cons_of_neg (by decide), List.append_nil]

/-- Two files of the cache never share a name: the name of an entry has no dot in it. -/
theorem Path.fileName_injective {x y : Path (List Byte)} {n : List Byte} (hx : x.fileName = some n)
    (hy : y.fileName = some n) (hxdot : ∀ r ∈ x.suffix, chr '.' ∉ r.1) (hydot : ∀ r ∈ y.suffix, chr '.' ∉ r.1) :
    x = y := by
  obtain ⟨r, hr, rfl⟩ := Option.map_eq_some_iff.mp hx
  obtain ⟨r', hr', heq⟩ := Option.map_eq_some_iff.mp hy
  obtain ⟨hofx, hheadx⟩ := ofSuffix_suffix hr
  obtain ⟨hofy, hheady⟩ := ofSuffix_suffix hr'
  have htake := congrArg (List.takeWhile (· != chr '.')) heq
  rw [takeWhile_dot (hydot r' hr') hheady, takeWhile_dot (hxdot r hr) hheadx] at htake
  have hrr : r' = r := Prod.ext htake (List.append_cancel_left (htake ▸ heq))
  rw [← hofx, ← hofy, hrr]

/-- What the compiler does for the source text and the options with the hash `h`. -/
structure Build (H : Type*) where
  swig : H → Bool
  /-- The name after `-o`, when the compiler is not SWIG. -/
  outputFile : H → List Byte
  /-- The list of files that SWIG writes. -/
  outfiles : H → Content
  made : H → List Byte → Content
  stderr : H → Content

/-- One line of the list with `fgets`: the name, and what is left. A line that does not
fit or does not end is `none`. -/
def readName (s : Content) : Option (List Byte × Content) :=
  let line := (s.take 4095).takeWhile (· != chr '\n')
  if line.length < (s.take 4095).length then
    some (if line.getLast? = some (chr '\r') then line.dropLast else line, s.drop (line.length + 1))
  else none

/-- The names of the list, and whether the list was read to its end. -/
def readNames : ℕ → Content → List (List Byte) × Bool
  | 0, s => ([], s.isEmpty)
  | fuel + 1, s =>
      if s = [] then ([], true)
      else
        match readName s with
        | none => ([], false)
        | some (name, rest) => (name :: (readNames fuel rest).1, (readNames fuel rest).2)

/-- The files to go into the cache or to come from it. -/
def namesOf (swig : Bool) (outputFile : List Byte) (outfiles : Content) : List (List Byte) × Bool :=
  if swig then readNames outfiles.length outfiles else ([outputFile], true)

/-- Files with their names. -/
abbrev Files := List (List Byte × Content)

/-- Where a compilation is. `got` are the files it has made or taken from the cache,
`todo` the names that are still to be copied, and `ok` says whether that is all. -/
inductive Pc
  /-- `open(stderr_file)`, after the compilation if `got` is there. -/
  | openStderr (got : Option Files)
  | statObject (got : Option Files) (err : Content)
  /-- `unlink(stderr_file)`, and `from_cache` returns. -/
  | dropStderr (got : Option Files)
  | openOutfiles (err : Content)
  | retrieve (err : Content) (todo : List (List Byte)) (ok : Bool) (got : Files)
  | compile
  /-- `commit_to_cache`: the old file goes away, a new one is created, written in parts,
  and renamed when the old one is gone once more. -/
  | commit (todo : List (List Byte)) (ok : Bool) (got : Files)
  | create (name : List Byte) (todo : List (List Byte)) (ok : Bool) (got : Files)
  | copy (name : List Byte) (todo : List (List Byte)) (ok : Bool) (got : Files) (k : ℕ)
  | unlink (name : List Byte) (todo : List (List Byte)) (ok : Bool) (got : Files)
  | rename (name : List Byte) (todo : List (List Byte)) (ok : Bool) (got : Files)
  | linkOutfiles (got : Files)
  | linkStderr (got : Files)
  | done (got : Files) (err : Content)
  /-- The real compiler has taken over, or the process was killed. -/
  | real

variable {H : Type*}

variable (b : Build H)

/-- The names that the compiler lists for `h`. -/
def Build.names (h : H) : List (List Byte) × Bool := namesOf (b.swig h) (b.outputFile h) (b.outfiles h)

/-! ### What is in the files -/

/-- The files of `h` as the compiler makes them. -/
def Build.all (h : H) : Files := (b.names h).1.map fun name => (name, b.made h name)

def Right : Path H → Content → Prop
  | .part h i, c => ∃ name, (b.names h).1[i]? = some name ∧ c = b.made h name
  | .outfiles h, c => c = b.outfiles h
  | .stderr h, c => c = b.stderr h
  | .tmp _, _ => True

/-- `todo` is what is left of the names after those of `got`. -/
def Progress (h : H) (todo : List (List Byte)) (ok : Bool) (got : Files) : Prop :=
  ∃ front, b.names h = (front ++ todo, ok) ∧ got = front.map fun name => (name, b.made h name)

/-- What a compilation has read and made is right, and so is the part of a file that
it has written. -/
def PcRight (h : H) (own : Option Content) : Pc → Prop
  | .openStderr got | .dropStderr got => ∀ g ∈ got, g = b.all h
  | .statObject got err => (∀ g ∈ got, g = b.all h) ∧ err = b.stderr h
  | .openOutfiles err => b.swig h = true ∧ err = b.stderr h
  | .retrieve err todo ok got => Progress b h todo ok got ∧ err = b.stderr h
  | .commit todo ok got => Progress b h todo ok got
  | .create name todo ok got => Progress b h (name :: todo) ok got
  | .copy name todo ok got k => Progress b h (name :: todo) ok got ∧ ∀ c ∈ own, c = (b.made h name).take k
  | .unlink name todo ok got | .rename name todo ok got =>
      Progress b h (name :: todo) ok got ∧ ∀ c ∈ own, c = b.made h name
  | .linkOutfiles got | .linkStderr got => got = b.all h
  | .done got err => got = b.all h ∧ err = b.stderr h
  | .compile | .real => True

variable {b} {h : H} {pc : Pc} {todo : List (List Byte)} {ok : Bool} {got : Files}
  {name : List Byte}

theorem Progress.start (h : H) : Progress b h (b.names h).1 (b.names h).2 [] := ⟨[], rfl, rfl⟩

theorem Progress.all (hp : Progress b h [] ok got) : got = b.all h := by
  obtain ⟨front, hnames, hgot⟩ := hp
  rw [Build.all, hnames, List.append_nil, hgot]

theorem Progress.next (hp : Progress b h (name :: todo) ok got) :
    Progress b h todo ok (got ++ [(name, b.made h name)]) := by
  obtain ⟨front, hnames, hgot⟩ := hp
  exact ⟨front ++ [name], by rw [hnames, List.append_assoc]; rfl, by rw [hgot, List.map_append]; rfl⟩

theorem Progress.right (hp : Progress b h (name :: todo) ok got) : (b.names h).1[got.length]? = some name := by
  obtain ⟨front, hnames, hgot⟩ := hp
  rw [hnames, hgot, List.length_map]
  rw [List.getElem?_append_right (Nat.le_refl _), Nat.sub_self]
  rfl

/-- A file may be deleted under a process. -/
theorem PcRight.mono {own own' : Option Content} (hown : ∀ c ∈ own', c ∈ own) (hpc : PcRight b h own pc) :
    PcRight b h own' pc := by
  cases pc with
  | copy => exact ⟨hpc.1, fun c hc => hpc.2 c (hown c hc)⟩
  | unlink => exact ⟨hpc.1, fun c hc => hpc.2 c (hown c hc)⟩
  | rename => exact ⟨hpc.1, fun c hc => hpc.2 c (hown c hc)⟩
  | _ => exact hpc

/-! ### The system calls -/

/-- The files of the cache that are there. -/
abbrev Dir (H : Type*) := Path H → Option Content

/-- Where `from_cache` returns to. -/
def notFound : Option Files → Pc
  | none => .compile
  | some _ => .real

def Entries (b : Build H) (files : Dir H) : Prop := ∀ path c, files path = some c → Right b path c

variable {p : ℕ} {files : Dir H}

theorem pcRight_notFound {own : Option Content} (got : Option Files) : PcRight b h own (notFound got) := by
  cases got with
  | none => trivial
  | some got => trivial

/-- What a system call does: the entries stay right, nobody else's file is touched,
and the compilation has read and made what is right. -/
structure Advances (b : Build H) (h : H) (p : ℕ) (files : Dir H) (r : Pc × Dir H) : Prop where
  entries : Entries b r.2
  others : ∀ q, q ≠ p → r.2 (.tmp q) = files (.tmp q)
  pc : PcRight b h (r.2 (.tmp p)) r.1

/-- A call that changes no file. -/
theorem Advances.same (hf : Entries b files) (hpc : PcRight b h (files (.tmp p)) pc) :
    Advances b h p files (pc, files) := ⟨hf, fun _ _ => rfl, hpc⟩

/-- A call that changes an entry of the cache. -/
theorem Advances.entry {files' : Dir H} (hf : Entries b files') (htmp : ∀ q, files' (.tmp q) = files (.tmp q))
    (hpc : PcRight b h (files (.tmp p)) pc) : Advances b h p files (pc, files') :=
  ⟨hf, fun q _ => htmp q, by
    dsimp only
    rwa [htmp p]⟩

variable [DecidableEq H]

/-- `link`, which leaves a file that is there alone. -/
def link (files : Dir H) (path : Path H) (c : Content) : Dir H :=
  if (files path).isSome then files else Function.update files path (some c)

variable (b)

/-- The next system call of the compilation `p` of `h`. A call of `write` writes
`chunk` bytes more, and `miss` is an entry that is not to be used: it is compressed,
or is to be made again, or cannot be copied. -/
def advance (h : H) (p chunk : ℕ) (miss : Bool) (files : Dir H) : Pc → Pc × Dir H
  | .openStderr got =>
      match files (.stderr h) with
      | none => (notFound got, files)
      | some err => (.statObject got err, files)
  | .statObject got err =>
      if (files (.part h 0)).isNone ∨ miss then (.dropStderr got, files)
      else
        match got with
        | some got => (.done got err, files)
        | none => (if b.swig h then .openOutfiles err else .retrieve err [b.outputFile h] true [], files)
  | .dropStderr got => (notFound got, Function.update files (.stderr h) none)
  | .openOutfiles err =>
      match files (.outfiles h) with
      | none => (.dropStderr none, files)
      | some list => (.retrieve err (readNames list.length list).1 (readNames list.length list).2 [], files)
  | .retrieve err [] ok got => (if ok ∧ got ≠ [] then .done got err else .dropStderr none, files)
  | .retrieve err (name :: todo) ok got =>
      match files (.part h got.length) with
      | none => (.dropStderr none, files)
      | some c => (if miss then .dropStderr none else .retrieve err todo ok (got ++ [(name, c)]), files)
  | .compile => (.commit (b.names h).1 (b.names h).2 [], files)
  | .commit [] ok got =>
      (if ok ∧ got ≠ [] then (if b.swig h then .linkOutfiles got else .linkStderr got) else .real, files)
  | .commit (name :: todo) ok got => (.create name todo ok got, Function.update files (.part h got.length) none)
  | .create name todo ok got => (.copy name todo ok got 0, Function.update files (.tmp p) (some []))
  | .copy name todo ok got k =>
      if (b.made h name).length ≤ k then (.unlink name todo ok got, files)
      else (.copy name todo ok got (k + chunk),
        Function.update files (.tmp p) ((files (.tmp p)).map fun _ => (b.made h name).take (k + chunk)))
  | .unlink name todo ok got => (.rename name todo ok got, Function.update files (.part h got.length) none)
  | .rename name todo ok got =>
      match files (.tmp p) with
      | none => (.real, files)
      | some c => (.commit todo ok (got ++ [(name, b.made h name)]),
          Function.update (Function.update files (.tmp p) none) (.part h got.length) (some c))
  | .linkOutfiles got => (.linkStderr got, link files (.outfiles h) (b.outfiles h))
  | .linkStderr got => (.openStderr (some got), link files (.stderr h) (b.stderr h))
  | .done got err => (.done got err, files)
  | .real => (.real, files)

structure System (H : Type*) where
  files : Dir H
  pc : ℕ → Pc

/-- The compilation `p` is for the hash `request p`. -/
inductive Step (request : ℕ → H) : System H → System H → Prop
  | run (s : System H) (p chunk : ℕ) (miss : Bool) : Step request s
      ⟨(advance b (request p) p chunk miss s.files (s.pc p)).2,
        Function.update s.pc p (advance b (request p) p chunk miss s.files (s.pc p)).1⟩
  /-- A call fails, or the process is killed. -/
  | quit (s : System H) (p : ℕ) : Step request s ⟨s.files, Function.update s.pc p .real⟩
  /-- A cleanup, or `ccache -C`, deletes a file. -/
  | clean (s : System H) (path : Path H) : Step request s ⟨Function.update s.files path none, s.pc⟩

/-- An empty cache, and compilations that have computed their hash. -/
def System.start : System H := ⟨fun _ => none, fun _ => .openStderr none⟩

def System.Reachable (request : ℕ → H) (s : System H) : Prop :=
  Relation.ReflTransGen (Step b request) .start s

/-! ### Every run -/

variable {b} {chunk : ℕ} {miss : Bool} {request : ℕ → H} {s t : System H}

theorem Entries.delete (hf : Entries b files) (path : Path H) : Entries b (Function.update files path none) := by
  intro path' c hc
  by_cases hpath : path' = path
  · rw [hpath, Function.update_self] at hc
    cases hc
  · rw [Function.update_of_ne hpath] at hc
    exact hf path' c hc

theorem Entries.put (hf : Entries b files) {path : Path H} {o : Option Content} (ho : ∀ c ∈ o, Right b path c) :
    Entries b (Function.update files path o) := by
  intro path' c hc
  by_cases hpath : path' = path
  · rw [hpath, Function.update_self] at hc
    rw [hpath]
    exact ho c hc
  · rw [Function.update_of_ne hpath] at hc
    exact hf path' c hc

theorem Entries.link (hf : Entries b files) {path : Path H} {c : Content} (hc : Right b path c) :
    Entries b (link files path c) := by
  rw [CCache.link]
  split_ifs
  · exact hf
  · exact hf.put (by rintro _ ⟨⟩; exact hc)

theorem link_tmp {path : Path H} (hpath : ∀ q, path ≠ .tmp q) (c : Content) (q : ℕ) :
    link files path c (.tmp q) = files (.tmp q) := by
  rw [link]
  split_ifs
  · rfl
  · exact Function.update_of_ne (hpath q).symm _ _

theorem Advances.delete (hf : Entries b files) {path : Path H} (hpath : ∀ q, path ≠ .tmp q)
    (hpc : PcRight b h (files (.tmp p)) pc) : Advances b h p files (pc, Function.update files path none) :=
  .entry (hf.delete path) (fun q => Function.update_of_ne (hpath q).symm _ _) hpc

theorem Advances.link (hf : Entries b files) {path : Path H} (hpath : ∀ q, path ≠ .tmp q) {c : Content}
    (hc : Right b path c) (hpc : PcRight b h (files (.tmp p)) pc) : Advances b h p files (pc, link files path c) :=
  .entry (hf.link hc) (link_tmp hpath c) hpc

/-- A call that changes the file the process is writing. -/
theorem Advances.own (hf : Entries b files) {o : Option Content} (hpc : PcRight b h o pc) :
    Advances b h p files (pc, Function.update files (.tmp p) o) := by
  refine ⟨hf.put fun _ _ => trivial, fun q hq => Function.update_of_ne ?_ _ _, ?_⟩
  · rintro ⟨⟩
    exact hq rfl
  · dsimp only
    rwa [Function.update_self]

theorem advance_spec (hf : Entries b files) (hpc : PcRight b h (files (.tmp p)) pc) :
    Advances b h p files (advance b h p chunk miss files pc) := by
  cases pc with
  | openStderr got =>
      rw [advance]
      cases herr : files (.stderr h) with
      | none => exact .same hf (pcRight_notFound got)
      | some err => exact .same hf ⟨hpc, hf _ _ herr⟩
  | statObject got err =>
      cases got with
      | some got =>
          rw [advance]
          split_ifs with hmiss
          · exact .same hf hpc.1
          · exact .same hf ⟨hpc.1 got rfl, hpc.2⟩
      | none =>
          rw [advance]
          split_ifs with hmiss hswig
          · exact .same hf hpc.1
          · exact .same hf ⟨hswig, hpc.2⟩
          · refine .same hf ⟨⟨[], ?_, rfl⟩, hpc.2⟩
            rw [Build.names, namesOf, if_neg hswig]
            rfl
  | dropStderr got => exact .delete hf (by rintro _ ⟨⟩) (pcRight_notFound got)
  | openOutfiles err =>
      rw [advance]
      cases hlist : files (.outfiles h) with
      | none => exact .same hf (by rintro _ ⟨⟩)
      | some list =>
          refine .same hf ⟨⟨[], ?_, rfl⟩, hpc.2⟩
          rw [Build.names, namesOf, if_pos hpc.1, ← hf _ _ hlist]
          rfl
  | retrieve err todo ok got =>
      cases todo with
      | nil =>
          rw [advance]
          split_ifs with hok
          · exact .same hf ⟨hpc.1.all, hpc.2⟩
          · exact .same hf (by rintro _ ⟨⟩)
      | cons name todo =>
          rw [advance]
          cases hpart : files (.part h got.length) with
          | none => exact .same hf (by rintro _ ⟨⟩)
          | some c =>
              -- the file that is read is the one that the compiler makes under this name
              obtain ⟨name', hname', rfl⟩ := hf _ _ hpart
              obtain rfl := Option.some.inj (hpc.1.right.symm.trans hname')
              dsimp only
              split_ifs
              · exact .same hf (by rintro _ ⟨⟩)
              · exact .same hf ⟨hpc.1.next, hpc.2⟩
  | compile => exact .same hf (Progress.start h)
  | commit todo ok got =>
      cases todo with
      | nil =>
          rw [advance]
          split_ifs
          · exact .same hf hpc.all
          · exact .same hf hpc.all
          · exact .same hf trivial
      | cons name todo => exact .delete hf (by rintro _ ⟨⟩) hpc
  | create name todo ok got => exact .own hf ⟨hpc, by rintro _ ⟨⟩; rfl⟩
  | copy name todo ok got k =>
      rw [advance]
      split_ifs with hk
      · refine .same hf ⟨hpc.1, fun c hc => ?_⟩
        rw [hpc.2 c hc, List.take_of_length_le hk]
      · refine .own hf ⟨hpc.1, fun c hc => ?_⟩
        obtain ⟨_, -, hc⟩ := Option.map_eq_some_iff.mp hc
        exact hc.symm
  | unlink name todo ok got => exact .delete hf (by rintro _ ⟨⟩) hpc
  | rename name todo ok got =>
      rw [advance]
      cases hown : files (.tmp p) with
      | none => exact .same hf trivial
      | some c =>
          have hc : c = b.made h name := hpc.2 c hown
          refine ⟨(hf.delete _).put (by rintro _ ⟨⟩; exact ⟨name, hpc.1.right, hc⟩), fun q hq => ?_, hpc.1.next⟩
          dsimp only
          rw [Function.update_of_ne (by rintro ⟨⟩), Function.update_of_ne]
          rintro ⟨⟩
          exact hq rfl
  | linkOutfiles got => exact .link hf (by rintro _ ⟨⟩) rfl hpc
  | linkStderr got => exact .link hf (by rintro _ ⟨⟩) rfl (by rintro _ ⟨⟩; exact hpc)
  | done got err => exact .same hf hpc
  | real => exact .same hf trivial

/-- The entries of the cache, and what every compilation has read and made. -/
structure Inv (b : Build H) (request : ℕ → H) (s : System H) : Prop where
  entries : Entries b s.files
  pc : ∀ p, PcRight b (request p) (s.files (.tmp p)) (s.pc p)

omit [DecidableEq H] in
theorem Inv.start : Inv b request .start where
  entries _ _ h := by cases h
  pc _ := by rintro _ ⟨⟩

theorem Inv.step (hs : Inv b request s) (hstep : Step b request s t) : Inv b request t := by
  cases hstep with
  | run p chunk miss =>
      have h : Advances b (request p) p s.files (advance b (request p) p chunk miss s.files (s.pc p)) :=
        advance_spec hs.entries (hs.pc p)
      refine ⟨h.entries, fun q => ?_⟩
      by_cases hq : q = p
      · dsimp only
        rw [hq, Function.update_self]
        exact h.pc
      · dsimp only
        rw [Function.update_of_ne hq, h.others q hq]
        exact hs.pc q
  | quit p =>
      refine ⟨hs.entries, fun q => ?_⟩
      by_cases hq : q = p
      · dsimp only
        rw [hq, Function.update_self]
        trivial
      · dsimp only
        rw [Function.update_of_ne hq]
        exact hs.pc q
  | clean path =>
      refine ⟨hs.entries.delete path, fun q => (hs.pc q).mono fun c hc => ?_⟩
      dsimp only at hc
      by_cases hpath : Path.tmp q = path
      · rw [hpath, Function.update_self] at hc
        cases hc
      · rwa [Function.update_of_ne hpath] at hc

theorem System.Reachable.inv (h : System.Reachable b request s) : Inv b request s := by
  induction h with
  | refl => exact .start
  | tail _ hstep ih => exact ih.step hstep

/-- The system calls of some processes, one after the other. -/
def System.runs (b : Build H) (request : ℕ → H) (s : System H) (calls : List (ℕ × ℕ)) : System H :=
  calls.foldl (fun s c => ⟨(advance b (request c.1) c.1 c.2 false s.files (s.pc c.1)).2,
    Function.update s.pc c.1 (advance b (request c.1) c.1 c.2 false s.files (s.pc c.1)).1⟩) s

theorem System.reachable_runs (calls : List (ℕ × ℕ)) :
    System.Reachable b request (System.runs b request .start calls) := by
  induction calls using List.reverseRecOn with
  | nil => exact .refl
  | append_singleton calls c ih =>
      rw [System.runs, List.foldl_append]
      exact ih.tail (.run _ c.1 c.2 false)

/-- A compiler that makes `o` of `x` and warns. -/
def onlyBuild : Build Unit := ⟨fun _ => false, fun _ => lit "x.o", fun _ => [], fun _ _ => lit "o", fun _ => lit "w"⟩

end Swig.CCache
