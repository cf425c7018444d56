import Swig.DOH.Sprintf
import Swig.Errors.FilterText
import Swig.Lib.LockedUpdate
import Mathlib.Data.List.FinRange
import Mathlib.Data.List.TakeWhile

/-!
The counters of a directory of the compiler cache (`stats.c`): a file of 23 numbers
that every compilation reads, changes and writes back while it holds the file's lock.

The file is never cut short, so what an older and longer text left behind stays in
it. `long` has 64 bits.
-/

namespace Swig.CCache

open LockedUpdate
open Swig.Errors (decimal digitsVal decimal_ne_nil isdigit_of_mem_decimal)

abbrev STATS_END : ℕ := 23

/-- `enum stats`. -/
abbrev Stat := Fin STATS_END

def STATS_NONE : Stat := 0
def STATS_TOCACHE : Stat := 4
def STATS_NUMFILES : Stat := 11
def STATS_TOTALSIZE : Stat := 12
def STATS_MAXFILES : Stat := 13
def STATS_MAXSIZE : Stat := 14

abbrev Counters := Stat → UInt32

/-- `strtol(s, &end, 10)`: the value, which stops at the ends of `long`, and what is
left; all of `s` when there is no number. -/
def strtol (s : List Byte) : ℤ × List Byte :=
  let t := s.dropWhile isspace
  let u := if t.head? = some (chr '-') ∨ t.head? = some (chr '+') then t.tail else t
  let ds := u.takeWhile isdigit
  if ds = [] then (0, s)
  else
    let v : ℤ := if t.head? = some (chr '-') then -digitsVal ds else digitsVal ds
    (max (-2 ^ 63) (min v (2 ^ 63 - 1)), u.dropWhile isdigit)

/-- `counters[i] += v` for a `long`. -/
def addLong (c : UInt32) (v : ℤ) : UInt32 := c + UInt32.ofInt v

/-- The loop of `parse_stats` over the counters that are left. -/
def parseLoop : List Stat → Counters → List Byte → Counters
  | [], counters, _ => counters
  | i :: is, counters, p =>
      let (v, p2) := strtol p
      let counters := Function.update counters i (addLong (counters i) v)
      if p2 = p then counters else parseLoop is counters p2

def parseStats (counters : Counters) (buf : List Byte) : Counters := parseLoop (List.finRange STATS_END) counters buf

/-- `snprintf` into the buffer of 1024 bytes, item by item. `none` is the call of
`fatal`. -/
def printLoop : List (List Byte) → List Byte → Option (List Byte)
  | [], buf => some buf
  | item :: items, buf => if 1023 ≤ (buf ++ item).length then none else printLoop items (buf ++ item)

/-- What `%u ` prints for the counters, and the end of the line. -/
def items (counters : Counters) : List (List Byte) :=
  (List.finRange STATS_END).map (fun i => decimal (counters i).toNat ++ [chr ' ']) ++ [[chr '\n']]

/-- The file after the text is written over its beginning. -/
def writeStats (file : List Byte) (counters : Counters) : Option (List Byte) :=
  (printLoop (items counters) []).map fun buf => buf ++ file.drop buf.length

/-- The default limit of the cache, for one of its 16 directories. -/
def statsDefault (counters : Counters) : Counters :=
  Function.update counters STATS_MAXSIZE (counters STATS_MAXSIZE + 1000 * 1000 / 16)

/-- The first 1023 bytes, up to a zero byte. -/
def statsReadFd (file : List Byte) (counters : Counters) : Counters :=
  let buf := file.take 1023
  if buf = [] then statsDefault counters else parseStats counters (buf.takeWhile (· != 0))

/-! ### The changes -/

/-- What is done to the counters between reading and writing: one compilation, `-z`,
`-F` and `-M`, and the end of a cleanup. -/
inductive Change
  | update (stat : Stat) (size numfiles : UInt32)
  | zero
  | setLimits (maxfiles maxsize : Option UInt32)
  | setSizes (numFiles totalSize : UInt32)

/-- The counters that `-z` keeps: those with `FLAG_NOZERO`, and the one that is not
in `stats_info`. -/
def noZero : List Stat := [STATS_NONE, STATS_NUMFILES, STATS_TOTALSIZE, STATS_MAXFILES, STATS_MAXSIZE]

def Change.apply (counters : Counters) : Change → Counters
  | .update stat size numfiles =>
      let counters := Function.update counters stat (counters stat + 1)
      if stat = STATS_TOCACHE then
        let counters := Function.update counters STATS_NUMFILES (counters STATS_NUMFILES + numfiles)
        Function.update counters STATS_TOTALSIZE (counters STATS_TOTALSIZE + size)
      else counters
  | .zero => fun i => if i ∈ noZero then counters i else 0
  | .setLimits maxfiles maxsize =>
      let counters := (maxfiles.map (Function.update counters STATS_MAXFILES)).getD counters
      (maxsize.map (Function.update counters STATS_MAXSIZE)).getD counters
  | .setSizes numFiles totalSize =>
      Function.update (Function.update counters STATS_NUMFILES numFiles) STATS_TOTALSIZE totalSize

/-! ### Reading what was written -/

/-- The text of the counters. -/
def statsText (counters : Counters) : List Byte := (items counters).flatten

variable {counters : Counters} {s rest : List Byte}

theorem printLoop_eq {items : List (List Byte)} {buf : List Byte} (h : (buf ++ items.flatten).length < 1023) :
    printLoop items buf = some (buf ++ items.flatten) := by
  induction items generalizing buf with
  | nil => rw [printLoop, List.flatten_nil, List.append_nil]
  | cons item items ih =>
      rw [List.flatten_cons, ← List.append_assoc] at h ⊢
      rw [printLoop, if_neg, ih h]
      rw [List.length_append] at h
      omega

theorem length_decimal_le {n : ℕ} (hn : n < 2 ^ 32) : (decimal n).length ≤ 11 :=
  DOH.length_numeral (b := 10) (by decide) hn

theorem length_flatten_le {items : List (List Byte)} {k : ℕ} (h : ∀ item ∈ items, item.length ≤ k) :
    items.flatten.length ≤ k * items.length := by
  induction items with
  | nil => exact Nat.zero_le _
  | cons item items ih =>
      have hitem := h item List.mem_cons_self
      have hitems := ih fun item hmem => h item (List.mem_cons_of_mem _ hmem)
      rw [List.flatten_cons, List.length_append, List.length_cons, Nat.mul_succ]
      omega

theorem length_statsText (counters : Counters) : (statsText counters).length ≤ 288 := by
  refine (length_flatten_le (k := 12) fun item hitem => ?_).trans ?_
  · rcases List.mem_append.mp hitem with h | h
    · obtain ⟨i, -, rfl⟩ := List.mem_map.mp h
      have := length_decimal_le (counters i).toNat_lt
      rw [List.length_append, List.length_singleton]
      omega
    · rw [List.mem_singleton.mp h]
      decide
  · rw [items, List.length_append, List.length_map, List.length_finRange]
    rfl

/-- The text always fits into the buffer. -/
theorem writeStats_eq (file : List Byte) (counters : Counters) :
    writeStats file counters = some (statsText counters ++ file.drop (statsText counters).length) := by
  have hlen := length_statsText counters
  rw [writeStats, printLoop_eq (by rw [List.nil_append, ← statsText]; omega), List.nil_append, Option.map_some]
  rfl

/-- The file after the counters are written. -/
def written (file : List Byte) (counters : Counters) : List Byte := (writeStats file counters).getD file

theorem not_blank_of_isdigit : ∀ d : Byte, isdigit d = true → isspace d = false ∧ d ≠ chr '-' ∧ d ≠ chr '+' := by
  decide +kernel

/-- A number with a blank behind it. -/
theorem strtol_decimal {ws : List Byte} {n : ℕ} (rest : List Byte) (hws : ∀ c ∈ ws, isspace c = true)
    (hn : n < 2 ^ 32) :
    strtol (ws ++ (decimal n ++ chr ' ' :: rest)) = ((n : ℤ), chr ' ' :: rest) := by
  obtain ⟨d, ds, hd⟩ := List.exists_cons_of_ne_nil (decimal_ne_nil (n := n))
  have hall : ∀ c ∈ decimal n, isdigit c = true := fun c hc => isdigit_of_mem_decimal hc
  obtain ⟨hspace, hminus, hplus⟩ := not_blank_of_isdigit d (hall d (hd ▸ List.mem_cons_self))
  have hdrop : (ws ++ (decimal n ++ chr ' ' :: rest)).dropWhile isspace = decimal n ++ chr ' ' :: rest := by
    rw [List.dropWhile_append_of_pos hws, hd, List.cons_append, List.dropWhile_cons_of_neg (by simp [hspace])]
  have hhead : (decimal n ++ chr ' ' :: rest).head? = some d := by rw [hd]; rfl
  have hsign (c : Byte) (hc : d ≠ c) : (decimal n ++ chr ' ' :: rest).head? ≠ some c := by
    rw [hhead]
    exact fun h => hc (Option.some.inj h)
  have htake : (decimal n ++ chr ' ' :: rest).takeWhile isdigit = decimal n := by
    rw [List.takeWhile_append_of_pos hall, List.takeWhile_cons_of_neg (by decide), List.append_nil]
  have hafter : (decimal n ++ chr ' ' :: rest).dropWhile isdigit = chr ' ' :: rest := by
    rw [List.dropWhile_append_of_pos hall, List.dropWhile_cons_of_neg (by decide)]
  rw [strtol, hdrop]
  dsimp only
  rw [if_neg (not_or.mpr ⟨hsign _ hminus, hsign _ hplus⟩), htake, if_neg decimal_ne_nil, if_neg (hsign _ hminus), hafter,
    DOH.digitsVal_decimal]
  refine Prod.ext ?_ rfl
  dsimp only
  omega

theorem addLong_zero (x : UInt32) : addLong 0 (x.toNat : ℤ) = x := by
  rw [addLong, UInt32.zero_add, UInt32.ofInt, ← UInt32.toNat_inj]
  have := x.toNat_lt
  rw [UInt32.toNat_ofNat']
  omega

/-- The counters that are left are read one by one. -/
theorem parseLoop_items (rest : List Byte) (v : Counters) (is : List Stat) (hnodup : is.Nodup) (counters : Counters)
    (hzero : ∀ i ∈ is, counters i = 0) {ws : List Byte} (hws : ∀ c ∈ ws, isspace c = true) :
    parseLoop is counters (ws ++ ((is.map fun i => decimal (v i).toNat ++ [chr ' ']).flatten ++ rest)) =
      fun j => if j ∈ is then v j else counters j := by
  induction is generalizing counters ws with
  | nil => exact funext fun j => (if_neg List.not_mem_nil).symm
  | cons i is ih =>
      obtain ⟨hi, hnodup⟩ := List.nodup_cons.mp hnodup
      have hread := strtol_decimal ((is.map fun i => decimal (v i).toNat ++ [chr ' ']).flatten ++ rest)
        hws (v i).toNat_lt
      have hmoves : chr ' ' :: ((is.map fun i => decimal (v i).toNat ++ [chr ' ']).flatten ++ rest) ≠
          ws ++ (decimal (v i).toNat ++
            chr ' ' :: ((is.map fun i => decimal (v i).toNat ++ [chr ' ']).flatten ++ rest)) := by
        intro heq
        have hlen := congrArg List.length heq
        have hpos := List.length_pos_of_ne_nil (decimal_ne_nil (n := (v i).toNat))
        rw [List.length_append, List.length_append] at hlen
        omega
      rw [List.map_cons, List.flatten_cons, List.append_assoc, List.append_assoc, List.singleton_append, parseLoop, hread]
      dsimp only
      rw [if_neg hmoves, hzero i List.mem_cons_self, addLong_zero]
      have hblank : ∀ c ∈ [chr ' '], isspace c = true := fun c hc => by
        rw [List.mem_singleton.mp hc]
        decide
      have hnext := ih hnodup (Function.update counters i (v i))
        (fun j hj => by
          rw [Function.update_of_ne (ne_of_mem_of_not_mem hj hi)]
          exact hzero j (List.mem_cons_of_mem _ hj))
        hblank
      rw [List.singleton_append] at hnext
      rw [hnext]
      funext j
      by_cases hj : j ∈ is
      · rw [if_pos hj, if_pos (List.mem_cons_of_mem _ hj)]
      · rw [if_neg hj]
        by_cases hji : j = i
        · rw [hji, Function.update_self, if_pos List.mem_cons_self]
        · rw [Function.update_of_ne hji, if_neg (not_or.mpr ⟨hji, hj⟩ ∘ List.mem_cons.mp)]

theorem statsText_ne_zero : ∀ c ∈ statsText counters, c ≠ 0 := by
  have hdigit : ∀ c : Byte, isdigit c = true → c ≠ 0 := by decide +kernel
  intro c hc
  obtain ⟨item, hitem, hc⟩ := List.mem_flatten.mp hc
  rcases List.mem_append.mp hitem with h | h
  · obtain ⟨i, -, rfl⟩ := List.mem_map.mp h
    rcases List.mem_append.mp hc with hc | hc
    · exact hdigit c (isdigit_of_mem_decimal hc)
    · rw [List.mem_singleton.mp hc]
      decide
  · rw [List.mem_singleton.mp h] at hc
    rw [List.mem_singleton.mp hc]
    decide

theorem statsText_ne_nil : statsText counters ≠ [] := by
  rw [statsText, items, List.flatten_append]
  exact List.append_ne_nil_of_right_ne_nil _ (List.cons_ne_nil _ _)

/-- What is written over any file is read back, whatever is left of that file. -/
theorem statsReadFd_written (file : List Byte) (counters : Counters) :
    statsReadFd (written file counters) (fun _ => 0) = counters := by
  have hlen := length_statsText counters
  have hbuf : ((statsText counters ++ file.drop (statsText counters).length).take 1023).takeWhile (· != 0) =
      statsText counters ++
        ((file.drop (statsText counters).length).take (1023 - (statsText counters).length)).takeWhile (· != 0) := by
    rw [List.take_append, List.take_of_length_le (by omega), List.takeWhile_append_of_pos fun c hc =>
      bne_iff_ne.mpr (statsText_ne_zero c hc)]
  have hne : (statsText counters ++ file.drop (statsText counters).length).take 1023 ≠ [] := by
    rw [List.take_append, List.take_of_length_le (by omega)]
    exact List.append_ne_nil_of_left_ne_nil statsText_ne_nil _
  rw [written, writeStats_eq, Option.getD_some, statsReadFd, if_neg hne, hbuf]
  -- whatever stands behind the text
  generalize ((file.drop (statsText counters).length).take (1023 - (statsText counters).length)).takeWhile (· != 0) = tail
  have hnone : ∀ c ∈ ([] : List Byte), isspace c = true := by rintro _ ⟨⟩
  have hparse := parseLoop_items (chr '\n' :: tail) counters (List.finRange STATS_END) (List.nodup_finRange _)
    (fun _ => 0) (fun _ _ => rfl) hnone
  rw [parseStats, statsText, items, List.flatten_append, List.append_assoc]
  exact hparse.trans (funext fun j => if_pos (List.mem_finRange j))

/-! ### Many compilations at once -/

/-- The counters of a file. -/
def countersOf (file : List Byte) : Counters := statsReadFd file fun _ => 0

/-- The processes that change the file: each locks it, reads it, and writes it back. -/
abbrev StatsReachable : List Byte → State (List Byte) Counters Change → Prop :=
  LockedUpdate.Reachable countersOf written Change.apply

/-- A counter that no limit and no size is kept in. -/
def Event (stat : Stat) : Prop := stat ∉ noZero

def Change.counts (stat : Stat) : Change → Bool
  | .update stat' _ _ => stat' == stat
  | _ => false

theorem apply_event {stat : Stat} (hstat : Event stat) (counters : Counters) {change : Change} (hzero : change ≠ .zero) :
    change.apply counters stat = counters stat + if change.counts stat then 1 else 0 := by
  have hne (i : Stat) (hi : i ∈ noZero) : stat ≠ i := fun h => hstat (h ▸ hi)
  have hfiles := hne STATS_NUMFILES (by decide)
  have hsize := hne STATS_TOTALSIZE (by decide)
  have hmaxfiles := hne STATS_MAXFILES (by decide)
  have hmaxsize := hne STATS_MAXSIZE (by decide)
  cases change with
  | update stat' size numfiles =>
      have hbump : (Function.update counters stat' (counters stat' + 1)) stat =
          counters stat + if Change.counts stat (.update stat' size numfiles) then 1 else 0 := by
        by_cases heq : stat' = stat
        · rw [heq, Function.update_self, Change.counts, beq_self_eq_true, if_pos rfl]
        · rw [Function.update_of_ne (Ne.symm heq), Change.counts, beq_false_of_ne heq, if_neg Bool.false_ne_true,
            UInt32.add_zero]
      rw [← hbump, Change.apply]
      dsimp only
      split_ifs
      · rw [Function.update_of_ne hsize, Function.update_of_ne hfiles]
      · rfl
  | zero => exact absurd rfl hzero
  | setLimits maxfiles maxsize =>
      have hcounts : Change.counts stat (.setLimits maxfiles maxsize) = false := rfl
      rw [Change.apply, hcounts, if_neg Bool.false_ne_true, UInt32.add_zero]
      cases maxfiles with
      | none =>
          cases maxsize with
          | none => rfl
          | some _ => exact Function.update_of_ne hmaxsize _ _
      | some _ =>
          cases maxsize with
          | none => exact Function.update_of_ne hmaxfiles _ _
          | some _ => exact (Function.update_of_ne hmaxsize _ _).trans (Function.update_of_ne hmaxfiles _ _)
  | setSizes numFiles totalSize =>
      have hcounts : Change.counts stat (.setSizes numFiles totalSize) = false := rfl
      rw [Change.apply, Function.update_of_ne hsize, Function.update_of_ne hfiles, hcounts, if_neg Bool.false_ne_true,
        UInt32.add_zero]

theorem foldl_event {stat : Stat} (hstat : Event stat) {log : List Change} (hzero : ∀ change ∈ log, change ≠ .zero)
    (counters : Counters) :
    log.foldl Change.apply counters stat = counters stat + (log.countP (Change.counts stat)).toUInt32 := by
  induction log generalizing counters with
  | nil => exact (UInt32.add_zero _).symm
  | cons change log ih =>
      obtain ⟨hchange, hlog⟩ := List.forall_mem_cons.mp hzero
      have hadd (a b : ℕ) : (a + b).toUInt32 = b.toUInt32 + a.toUInt32 := by
        rw [Nat.add_comm]
        exact UInt32.ofNat_add b a
      rw [List.foldl_cons, ih hlog, apply_event hstat counters hchange, List.countP_cons, UInt32.add_assoc, hadd]
      congr 2
      split_ifs
      · rfl
      · rfl

/-- However many processes update the counters in whatever order, and wherever some
of them are killed: the file holds what the written changes give one after the
other, and an event has been counted once for each update. -/
theorem stats_of_reachable {file : List Byte} {s : State (List Byte) Counters Change} (h : StatsReachable file s) :
    countersOf s.file = s.log.foldl Change.apply (countersOf file) ∧
      ∀ stat, Event stat → (∀ change ∈ s.log, change ≠ .zero) →
        countersOf s.file stat = countersOf file stat + (s.log.countP (Change.counts stat)).toUInt32 := by
  have hfile := (LockedUpdate.Reachable.inv statsReadFd_written h).file
  refine ⟨hfile, fun stat hstat hzero => ?_⟩
  rw [hfile]
  exact foldl_event hstat hzero _

def oneHit : Change := .update 8 0 0

theorem stats_of_reachable_two_hits : ∃ s, StatsReachable [] s ∧ s.log = [oneHit, oneHit] ∧
    countersOf s.file 8 = countersOf [] 8 + 2 := by
  have h : StatsReachable [] _ := Relation.ReflTransGen.refl
    |>.tail (.lock _ 0 oneHit rfl rfl) |>.tail (.load _ 0 oneHit rfl) |>.tail (.store _ 0 oneHit _ rfl)
    |>.tail (.unlock _ 0 rfl)
    |>.tail (.lock _ 1 oneHit rfl rfl) |>.tail (.load _ 1 oneHit rfl) |>.tail (.store _ 1 oneHit _ rfl)
  refine ⟨_, h, rfl, (stats_of_reachable h).2 8 (by rw [Event]; decide) ?_⟩
  intro change hchange
  rcases List.mem_cons.mp hchange with rfl | hchange
  · rintro ⟨⟩
  · rw [List.mem_singleton.mp hchange]
    rintro ⟨⟩

end Swig.CCache
