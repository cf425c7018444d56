import Swig.CParse.Expr

/-!
When the text of a constant expression has the tokens of its source. The actions write
most operators without blanks, so that an operator may run into the operand on its
right, and a number into the sign behind it.
-/

namespace Swig.CParse

open SType Lexing

/-! ### Names -/

def IsIdentifier (id : List Byte) : Prop := ∃ c cs, id = c :: cs ∧ isIdStart c = true ∧ ∀ d ∈ cs, isIdChar d = true

/-- `::` as a token before an identifier. -/
def scopedPieces (id : List Byte) : List (Piece Byte) := [.token (lit "::"), .token id]

/-- Identifiers with `::` between them, and possibly before them. -/
def namePieces (global : Bool) (id : List Byte) (ids : List (List Byte)) : List (Piece Byte) :=
  (if global then [.token (lit "::")] else []) ++ .token id :: ids.flatMap scopedPieces

/-- A name, possibly qualified. -/
def IsName (v : List Byte) : Prop :=
  ∃ global id ids, (∀ i ∈ id :: ids, IsIdentifier i) ∧ v = text (namePieces global id ids)

/-! ### Expressions over numbers and names -/

/-- The leaves are numbers and names; the type of a cast or a `sizeof` is any. -/
def Expr.WellFormed : Expr → Prop
  | .num _ text => IsNumber text
  | .type t enumitem => IsName (Expr.type t enumitem).val
  | .string _ => False
  | .charconst _ => False
  | .sizeof _ _ => True
  | .paren e => e.WellFormed
  | .cast _ _ e => e.WellFormed
  | .unary _ e => e.WellFormed
  | .binary _ a b => a.WellFormed ∧ b.WellFormed
  | .cond a b c => a.WellFormed ∧ b.WellFormed ∧ c.WellFormed

/-- The first byte of an expression. -/
def Expr.first : Expr → Option Byte
  | .num _ text => text.head?
  | .type t none => t.head?
  | .type _ (some (q, _)) => (q ++ lit "::").head?
  | .string text => text.head?
  | .charconst text => text.head?
  | .sizeof _ _ => some (chr 's')
  | .paren _ => some (chr '(')
  | .cast _ _ _ => some (chr '(')
  | .unary op _ => op.text.head?
  | .binary _ a _ => a.first
  | .cond a _ _ => a.first

/-- The expression ends in a number that ends in an `e`, such as `0xE`. -/
def Expr.endsInExponent : Expr → Bool
  | .num _ text => CParse.endsInExponent text
  | .cast _ _ e => e.endsInExponent
  | .unary _ e => e.endsInExponent
  | .binary _ _ b => b.endsInExponent
  | .cond _ _ c => c.endsInExponent
  | .type _ _ => false
  | .string _ => false
  | .charconst _ => false
  | .sizeof _ _ => false
  | .paren _ => false

/-- The first byte of an operand that the operator runs into. -/
def UnaryOp.merges : UnaryOp → Option Byte
  | .and => some (chr '&')
  | .minus => some (chr '-')
  | .plus => some (chr '+')
  | _ => none

def BinaryOp.merges : BinaryOp → Option Byte
  | .plus => some (chr '+')
  | .minus => some (chr '-')
  | .slash => some (chr '*')
  | .modulus => some (chr ':')
  | .and => some (chr '&')
  | _ => none

def BinaryOp.isSign (op : BinaryOp) : Bool := op == .plus || op == .minus

/-- The operator does not run into its operand. -/
def Clear (merges first : Option Byte) : Prop := ∀ c ∈ merges, first ≠ some c

/-- No operator runs into the operand on its right, and no sign into a number before it. -/
def Expr.Apart : Expr → Prop
  | .paren e => e.Apart
  | .cast _ _ e => e.Apart
  | .unary op e => Clear op.merges e.first ∧ e.Apart
  | .binary op a b =>
      a.Apart ∧ ¬ (a.endsInExponent = true ∧ op.isSign = true) ∧ Clear op.merges b.first ∧ b.Apart
  | .cond a b c => a.Apart ∧ b.Apart ∧ Clear (some (chr ':')) c.first ∧ c.Apart
  | .num _ _ => True
  | .type _ _ => True
  | .string _ => True
  | .charconst _ => True
  | .sizeof _ _ => True

/-- The types of casts and `sizeof` are spelled without comments and open literals. -/
def Expr.Readable : Expr → Prop
  | .sizeof t declarator => (plainTokens (sizeofText t declarator)).isSome
  | .paren e => e.Readable
  | .cast t suffix e => (plainTokens (suffix.spell t.typeCode t.val)).isSome ∧ e.Readable
  | .unary _ e => e.Readable
  | .binary _ a b => a.Readable ∧ b.Readable
  | .cond a b c => a.Readable ∧ b.Readable ∧ c.Readable
  | .num _ _ => True
  | .type _ _ => True
  | .string _ => True
  | .charconst _ => True

/-! ### The pieces that are written -/

def UnaryOp.pieces (op : UnaryOp) : List (Piece Byte) := [.token op.text]

def BinaryOp.pieces (op : BinaryOp) : List (Piece Byte) :=
  if op.text.head? = some (chr ' ') then
    [.skip (lit " "), .token (op.text.filter (!isspace ·)), .skip (lit " ")]
  else [.token op.text]

def CastSuffix.pieces (suffix : CastSuffix) (type : ℕ) : List (Piece Byte) :=
  if suffix.blank type = [] then [] else [.skip (lit " ")]

def Expr.pieces : Expr → Option (List (Piece Byte))
  | .num _ text => some [.token text]
  | .type t enumitem => plainPieces (Expr.type t enumitem).val
  | .string _ => none
  | .charconst _ => none
  | .sizeof t declarator =>
      (plainPieces (sizeofText t declarator)).map fun ps =>
        .token (lit "sizeof") :: .token (lit "(") :: ps ++ [.token (lit ")")]
  | .paren e => e.pieces.map fun ps => .token (lit "(") :: ps ++ [.token (lit ")")]
  | .cast t suffix e =>
      (plainPieces (suffix.spell t.typeCode t.val)).bind fun type => e.pieces.map fun ps =>
        .token (lit "(") :: type ++ .token (lit ")") :: suffix.pieces t.typeCode ++ ps
  | .unary op e => e.pieces.map fun ps => op.pieces ++ ps
  | .binary op a b => a.pieces.bind fun as => b.pieces.map fun bs => as ++ op.pieces ++ bs
  | .cond a b c =>
      a.pieces.bind fun as => b.pieces.bind fun bs => c.pieces.map fun cs =>
        as ++ .token (lit "?") :: bs ++ .token (lit ":") :: cs

@[simp]
theorem tokens_unary (op : UnaryOp) : tokens op.pieces = op.tokens := by cases op <;> rfl

@[simp]
theorem tokens_binary (op : BinaryOp) : tokens op.pieces = op.tokens := by cases op <;> rfl

@[simp]
theorem tokens_suffix (suffix : CastSuffix) (type : ℕ) : tokens (suffix.pieces type) = [] := by
  rw [CastSuffix.pieces]
  split <;> rfl

theorem Expr.tokens_eq (e : Expr) : e.tokens = e.pieces.map Lexing.tokens := by
  induction e with
  | num | string | charconst | type => rfl
  | sizeof t declarator =>
      rw [tokens, pieces, plainTokens, Option.map_map, Option.map_map]
      refine congrArg (Option.map · _) (funext fun ps => ?_)
      simp
  | paren e ih =>
      rw [tokens, pieces, ih, Option.map_map, Option.map_map]
      refine congrArg (Option.map · _) (funext fun ps => ?_)
      simp
  | cast t suffix e iht ih =>
      rw [tokens, pieces, ih, plainTokens]
      cases plainPieces (suffix.spell t.typeCode t.val) <;> cases e.pieces <;> simp
  | unary op e ih =>
      rw [tokens, pieces, ih]
      cases e.pieces <;> simp
  | binary op a b iha ihb =>
      rw [tokens, pieces, iha, ihb]
      cases a.pieces <;> cases b.pieces <;> simp
  | cond a b c iha ihb ihc =>
      rw [tokens, pieces, iha, ihb, ihc]
      cases a.pieces <;> cases b.pieces <;> cases c.pieces <;> simp

/-! ### The text of the pieces -/

theorem promoteType_le {t : ℕ} (h : t ≤ T_DBLCPLX) : promoteType t ≤ T_DBLCPLX := by
  rw [promoteType]
  split
  · decide
  · exact h

theorem promote_le {a b : ℕ} (ha : a ≤ T_DBLCPLX) (hb : b ≤ T_DBLCPLX) : promote a b ≤ T_DBLCPLX :=
  max_le (promoteType_le ha) (promoteType_le hb)

theorem BinaryOp.type_le (op : BinaryOp) {a b : ℕ} (ha : a ≤ T_DBLCPLX) (hb : b ≤ T_DBLCPLX) :
    op.type a b ≤ T_DBLCPLX := by
  cases op
  case lshift | rshift => exact promoteType_le ha
  case land | lor | equalto | notequalto | greaterthanorequalto | lessthanorequalto =>
    exact Nat.le_of_ble_eq_true rfl
  all_goals exact promote_le ha hb

/-- An expression over numbers and names is a number. -/
theorem Expr.typeCode_le (e : Expr) (h : e.WellFormed) : e.typeCode ≤ T_DBLCPLX := by
  induction e with
  | num token =>
      cases token <;> exact Nat.le_of_ble_eq_true rfl
  | type => exact Nat.le_of_ble_eq_true rfl
  | string => exact h.elim
  | charconst => exact h.elim
  | sizeof => exact Nat.le_of_ble_eq_true rfl
  | paren e ih => exact ih h
  | cast t suffix e _ ih => exact ih h
  | unary op e ih =>
      cases op
      case lnot => exact Nat.le_of_ble_eq_true rfl
      all_goals exact ih h
  | binary op a b iha ihb => exact op.type_le (iha h.1) (ihb h.2)
  | cond a b c _ ihb ihc => exact promote_le (ihb h.2.1) (ihc h.2.2)

theorem Expr.val_cast {t e : Expr} {suffix : CastSuffix} (h : e.WellFormed) : (Expr.cast t suffix e).val =
    lit "(" ++ suffix.spell t.typeCode t.val ++ lit ")" ++ suffix.blank t.typeCode ++ e.val := by
  have hle := e.typeCode_le h
  rw [val, if_pos]
  intro heq
  rw [heq] at hle
  exact absurd hle (by decide)

theorem text_suffix (suffix : CastSuffix) (type : ℕ) : text (suffix.pieces type) = suffix.blank type := by
  rw [CastSuffix.pieces]
  cases suffix with
  | none =>
      rw [CastSuffix.blank]
      split <;> rfl
  | _ => rfl

theorem text_unary (op : UnaryOp) : text op.pieces = op.text := by cases op <;> rfl

theorem text_binary (op : BinaryOp) : text op.pieces = op.text := by cases op <;> rfl

theorem Expr.text_pieces {e : Expr} (h : e.WellFormed) {ps : List (Piece Byte)} (hps : e.pieces = some ps) :
    text ps = e.val := by
  induction e generalizing ps with
  | num token t =>
      cases hps
      exact List.append_nil t
  | type => exact (plainPieces_spec hps).1
  | string => exact h.elim
  | charconst => exact h.elim
  | sizeof t declarator =>
      obtain ⟨ts, hts, rfl⟩ := Option.map_eq_some_iff.mp hps
      rw [val, ← (plainPieces_spec hts).1]
      simp [Piece.text, lit]
  | paren e ih =>
      obtain ⟨es, hes, rfl⟩ := Option.map_eq_some_iff.mp hps
      rw [val, ← ih h hes]
      simp [Piece.text]
  | cast t suffix e _ ih =>
      obtain ⟨ts, hts, hmap⟩ := Option.bind_eq_some_iff.mp hps
      obtain ⟨es, hes, rfl⟩ := Option.map_eq_some_iff.mp hmap
      rw [val_cast (e := e) h, ← ih h hes, ← (plainPieces_spec hts).1, ← text_suffix]
      simp [Piece.text]
  | unary op e ih =>
      obtain ⟨es, hes, rfl⟩ := Option.map_eq_some_iff.mp hps
      rw [val, ← ih h hes, text_append, text_unary]
  | binary op a b iha ihb =>
      obtain ⟨as, has, hmap⟩ := Option.bind_eq_some_iff.mp hps
      obtain ⟨bs, hbs, rfl⟩ := Option.map_eq_some_iff.mp hmap
      rw [val, ← iha h.1 has, ← ihb h.2 hbs, text_append, text_append, text_binary]
  | cond a b c iha ihb ihc =>
      obtain ⟨as, has, hbind⟩ := Option.bind_eq_some_iff.mp hps
      obtain ⟨bs, hbs, hmap⟩ := Option.bind_eq_some_iff.mp hbind
      obtain ⟨cs, hcs, rfl⟩ := Option.map_eq_some_iff.mp hmap
      rw [val, ← iha h.1 has, ← ihb h.2.1 hbs, ← ihc h.2.2 hcs]
      simp [Piece.text]

/-! ### Single pieces -/

variable {q : List (Piece Byte)}

/-- What is written behind an expression: nothing, an operator, a blank or a parenthesis. -/
def Follows (q : List (Piece Byte)) : Prop := ∀ c ∈ (text q).head?, c ∈ lit " +-*/%&|^=!?:)"

theorem Follows.ends (h : Follows q) : Ends (text q) ∧ (text q).head? ≠ some (chr '.') := by
  have hall : (lit " +-*/%&|^=!?:)").all (fun c => !isIdChar c && c != chr '.') = true := by decide
  have hq (c : Byte) (hc : c ∈ (text q).head?) : isIdChar c = false ∧ c ≠ chr '.' := by
    simpa using List.all_eq_true.mp hall c (h c hc)
  exact ⟨fun c hc => (hq c hc).1, fun hdot => (hq _ hdot).2 rfl⟩

theorem stands_identifier {id : List Byte} (hid : IsIdentifier id) (hq : Ends (text q)) :
    cpp.Stands (.token id :: q) ↔ cpp.Stands q := by
  obtain ⟨c, cs, rfl, hc, hcs⟩ := hid
  exact and_iff_right (nextPiece_identifier hc hcs hq)

theorem stands_blank : cpp.Stands (.skip (lit " ") :: q) ↔ cpp.Stands q := and_iff_right rfl

theorem stands_operator {c : Byte} (hc : c ∈ singleOperators) :
    cpp.Stands (.token [c] :: q) ↔ (text q).head?.any (fuses c) = false ∧ cpp.Stands q :=
  and_congr_left' (nextPiece_operator hc)

theorem fuses_paren {c : Byte} (hc : c = chr '(' ∨ c = chr ')') (d : Byte) : fuses c d = false := by
  have hall : longOperators.all (fun op => op.head? != some (chr '(') && op.head? != some (chr ')')) = true := by
    decide +kernel
  have hmem : [c, d] ∉ longOperators := by
    intro hop
    have hhead := List.all_eq_true.mp hall _ hop
    rcases hc with rfl | rfl <;> simp at hhead
  have hslash : c ≠ chr '/' := by rcases hc with rfl | rfl <;> decide
  simp [fuses, hmem, hslash]

theorem stands_paren {c : Byte} (hc : c = chr '(' ∨ c = chr ')') :
    cpp.Stands (.token [c] :: q) ↔ cpp.Stands q := by
  have hmem : c ∈ singleOperators := by rcases hc with rfl | rfl <;> decide
  rw [stands_operator hmem, and_iff_right]
  cases (text q).head? with
  | none => rfl
  | some d => exact fuses_paren hc d

/-! ### Names -/

theorem stands_scoped {id : List Byte} (hid : IsIdentifier id) (hq : Ends (text q)) :
    cpp.Stands (scopedPieces id ++ q) ↔ cpp.Stands q := by
  rw [← stands_identifier hid hq]
  obtain ⟨c, cs, rfl, -, -⟩ := hid
  exact and_iff_right rfl

theorem ends_scoped {ids : List (List Byte)} (hq : Ends (text q)) : Ends (text (ids.flatMap scopedPieces ++ q)) := by
  cases ids with
  | nil => exact hq
  | cons id ids =>
      rintro c ⟨⟩
      decide

theorem stands_scopes {ids : List (List Byte)} (hids : ∀ i ∈ ids, IsIdentifier i) (hq : Ends (text q)) :
    cpp.Stands (ids.flatMap scopedPieces ++ q) ↔ cpp.Stands q := by
  induction ids with
  | nil => rfl
  | cons id ids ih =>
      rw [List.flatMap_cons, List.append_assoc, stands_scoped (hids id List.mem_cons_self) (ends_scoped hq),
        ih fun i hi => hids i (List.mem_cons_of_mem _ hi)]

theorem stands_name {global : Bool} {id : List Byte} {ids : List (List Byte)} (hids : ∀ i ∈ id :: ids, IsIdentifier i)
    (hq : Ends (text q)) : cpp.Stands (namePieces global id ids ++ q) ↔ cpp.Stands q := by
  have hid := hids id List.mem_cons_self
  have hscopes := stands_scopes (fun i hi => hids i (List.mem_cons_of_mem _ hi)) hq
  rw [namePieces, List.append_assoc, List.cons_append, ← hscopes]
  cases global with
  | false => exact stands_identifier hid (ends_scoped hq)
  | true => exact stands_scoped hid (ends_scoped hq)

theorem isPlain_name (global : Bool) (id : List Byte) (ids : List (List Byte)) :
    (namePieces global id ids).all isPlain = true := by
  cases global <;> simp [namePieces, scopedPieces, isPlain]

theorem plainPieces_name {global : Bool} {id : List Byte} {ids : List (List Byte)}
    (hids : ∀ i ∈ id :: ids, IsIdentifier i) :
    plainPieces (text (namePieces global id ids)) = some (namePieces global id ids) := by
  have hstands : cpp.Stands (namePieces global id ids) := by
    have h := (@stands_name [] global id ids hids fun _ hc => by cases hc).mpr trivial
    rwa [List.append_nil] at h
  rw [plainPieces, hstands.lex, Option.filter_some, if_pos (isPlain_name global id ids)]

/-! ### Operators and operands -/

/-- A byte that an expression may start with. -/
def isFirst (c : Byte) : Bool := isIdChar c || (lit ".:(&*-+~!").contains c

theorem isFirst_of_startsNumber {c : Byte} {cs : List Byte} (h : startsNumber c cs = true) : isFirst c = true := by
  have hdigit : ∀ d : Byte, isdigit d = true → isFirst d = true := forall_byte (by decide +kernel)
  rw [startsNumber, Bool.or_eq_true] at h
  rcases h with h | h
  · exact hdigit c h
  · rw [eq_of_beq (Bool.and_eq_true_iff.mp h).1]
    decide

theorem IsName.first {v : List Byte} (h : IsName v) : ∃ c rest, v = c :: rest ∧ isFirst c = true := by
  obtain ⟨global, id, ids, hids, rfl⟩ := h
  obtain ⟨c, cs, rfl, hc, -⟩ := hids id List.mem_cons_self
  cases global with
  | false => exact ⟨c, _, rfl, by rw [isFirst, isIdChar_of_isIdStart hc, Bool.true_or]⟩
  | true => exact ⟨chr ':', _, rfl, by decide⟩

theorem Expr.first_spec {e : Expr} (h : e.WellFormed) : ∃ c rest, e.val = c :: rest ∧ e.first = some c ∧ isFirst c = true := by
  induction e with
  | num token t =>
      obtain ⟨c, cs, rfl, hc, -⟩ := h
      exact ⟨c, cs, rfl, rfl, isFirst_of_startsNumber hc⟩
  | type t enumitem =>
      obtain ⟨c, rest, hval, hc⟩ := IsName.first h
      refine ⟨c, rest, hval, ?_, hc⟩
      cases enumitem with
      | none =>
          rw [val] at hval
          rw [first, hval, List.head?_cons]
      | some item =>
          obtain ⟨q, name⟩ := item
          have hhead := congrArg List.head? hval
          cases q <;> exact hhead
  | string => exact h.elim
  | charconst => exact h.elim
  | sizeof => exact ⟨chr 's', _, rfl, rfl, by decide⟩
  | paren => exact ⟨chr '(', _, rfl, rfl, by decide⟩
  | cast t suffix e => exact ⟨chr '(', _, val_cast (e := e) h, rfl, by decide⟩
  | unary op e => cases op <;> exact ⟨_, _, rfl, rfl, by decide⟩
  | binary op a b iha =>
      obtain ⟨c, rest, hval, hfirst, hc⟩ := iha h.1
      exact ⟨c, _, by rw [val, hval]; rfl, hfirst, hc⟩
  | cond a b c iha =>
      obtain ⟨d, rest, hval, hfirst, hd⟩ := iha h.1
      exact ⟨d, _, by rw [val, hval]; rfl, hfirst, hd⟩

/-- An expression starts with its first byte, whatever follows it. -/
theorem Expr.head_pieces {e : Expr} (h : e.WellFormed) {ps : List (Piece Byte)} (hps : e.pieces = some ps)
    (q : List (Piece Byte)) : (text (ps ++ q)).head? = e.first ∧ ∀ c ∈ e.first, isFirst c = true := by
  obtain ⟨c, rest, hval, hfirst, hc⟩ := Expr.first_spec h
  rw [text_append, text_pieces h hps, hval, hfirst]
  refine ⟨rfl, ?_⟩
  rintro _ ⟨⟩
  exact hc

/-- The byte that an operator runs into at the start of an operand. -/
def runsInto (c : Byte) : Option Byte :=
  if c ∈ lit "+-&" then some c
  else if c = chr '/' then some (chr '*')
  else if c ∈ lit "%:" then some (chr ':')
  else none

theorem fuses_isIdChar {c d : Byte} (hd : isIdChar d = true) : fuses c d = false := by
  have hall : longOperators.all (fun op => op.all (!isIdChar ·)) = true := by decide +kernel
  have hmem : [c, d] ∉ longOperators := by
    intro hop
    have hops := List.all_eq_true.mp hall _ hop
    simp [hd] at hops
  have hstar : d ≠ chr '*' := by
    rintro rfl
    cases hd
  have hslash : d ≠ chr '/' := by
    rintro rfl
    cases hd
  simp [fuses, hmem, hstar, hslash]

theorem isIdChar_runsInto {c d : Byte} (hc : c ∈ singleOperators) (h : d ∈ runsInto c) : isIdChar d = false := by
  have hall : singleOperators.all (fun c => (runsInto c).all (!isIdChar ·)) = true := by decide +kernel
  have hruns := List.all_eq_true.mp hall c hc
  rw [Option.mem_def] at h
  simpa [h] using hruns

theorem fuses_eq {c d : Byte} (hc : c ∈ singleOperators) (hd : isFirst d = true) :
    fuses c d = (runsInto c == some d) := by
  have hall : singleOperators.all (fun c => (lit ".:(&*-+~!").all fun d => fuses c d == (runsInto c == some d)) = true := by
    decide +kernel
  rw [isFirst, Bool.or_eq_true] at hd
  rcases hd with hd | hd
  · rw [fuses_isIdChar hd, eq_comm, beq_eq_false_iff_ne]
    intro hruns
    rw [isIdChar_runsInto hc hruns] at hd
    cases hd
  · exact eq_of_beq (List.all_eq_true.mp (List.all_eq_true.mp hall c hc) d (by simpa using hd))

theorem stands_clear {c : Byte} (hc : c ∈ singleOperators) (hq : ∀ d ∈ (text q).head?, isFirst d = true) :
    cpp.Stands (.token [c] :: q) ↔ Clear (runsInto c) (text q).head? ∧ cpp.Stands q := by
  rw [stands_operator hc]
  refine and_congr_left' ?_
  cases hhead : (text q).head? with
  | none => exact iff_of_true rfl fun _ _ => nofun
  | some d =>
      rw [Option.any_some, fuses_eq hc (hq d hhead), Clear, beq_eq_false_iff_ne]
      cases runsInto c with
      | none => exact iff_of_true nofun nofun
      | some a => simp [eq_comm]

theorem stands_unary (op : UnaryOp) (hq : ∀ d ∈ (text q).head?, isFirst d = true) :
    cpp.Stands (op.pieces ++ q) ↔ Clear op.merges (text q).head? ∧ cpp.Stands q := by
  cases op <;> exact stands_clear (by decide) hq

theorem stands_binary (op : BinaryOp) (hq : ∀ d ∈ (text q).head?, isFirst d = true) :
    cpp.Stands (op.pieces ++ q) ↔ Clear op.merges (text q).head? ∧ cpp.Stands q := by
  cases op
  case plus | minus | star | slash | modulus | and | or | xor =>
    exact stands_clear (by decide) hq
  case land | lor | equalto | notequalto =>
    exact (and_iff_right rfl).trans (and_iff_right nofun).symm
  case lshift | rshift =>
    refine .trans ?_ (and_iff_right nofun).symm
    exact (and_iff_right rfl).trans ((and_iff_right rfl).trans stands_blank)
  case greaterthanorequalto | lessthanorequalto =>
    refine .trans ?_ (and_iff_right nofun).symm
    exact (and_iff_right rfl).trans ((and_iff_right rfl).trans stands_blank)

/-! ### Expressions -/

/-- A token is written behind the expression, and no sign. -/
theorem follows_token {c : Byte} {t : List Byte} (hc : c ∈ lit " +-*/%&|^=!?:)") :
    Follows (.token (c :: t) :: q) := by
  rintro _ ⟨⟩
  exact hc

theorem binary_follows (op : BinaryOp) (q : List (Piece Byte)) :
    Follows (op.pieces ++ q) ∧ (text (op.pieces ++ q)).head?.any isSign = op.isSign := by
  obtain ⟨c, hc, hmem, hsign⟩ : ∃ c, (text (op.pieces ++ q)).head? = some c ∧ c ∈ lit " +-*/%&|^=!?:)" ∧
      isSign c = op.isSign := by
    cases op <;> refine ⟨_, rfl, ?_, rfl⟩ <;> decide
  rw [Follows, hc]
  refine ⟨?_, hsign⟩
  rintro _ ⟨⟩
  exact hmem

theorem stands_question (hq : ∀ d ∈ (text q).head?, isFirst d = true) :
    cpp.Stands (.token (lit "?") :: q) ↔ cpp.Stands q :=
  (@stands_clear q (chr '?') (by decide) hq).trans (and_iff_right nofun)

theorem stands_colon (hq : ∀ d ∈ (text q).head?, isFirst d = true) :
    cpp.Stands (.token (lit ":") :: q) ↔ Clear (some (chr ':')) (text q).head? ∧ cpp.Stands q :=
  @stands_clear q (chr ':') (by decide) hq

/-- A type in parentheses. -/
theorem stands_type {t : List Byte} {ts : List (Piece Byte)} (hts : plainPieces t = some ts) :
    cpp.Stands (.token (lit "(") :: (ts ++ .token (lit ")") :: q)) ↔ cpp.Stands q := by
  obtain ⟨-, hstands, hplain⟩ := plainPieces_spec hts
  have hopen : cpp.Stands (.token (lit "(") :: (ts ++ .token (lit ")") :: q)) ↔
      cpp.Stands (ts ++ .token (lit ")") :: q) := stands_paren (.inl rfl)
  have hclose : cpp.Stands (.token (lit ")") :: q) ↔ cpp.Stands q := stands_paren (.inr rfl)
  exact hopen.trans ((stands_closing hplain hstands rfl).trans hclose)

theorem stands_suffix (suffix : CastSuffix) (type : ℕ) :
    cpp.Stands (suffix.pieces type ++ q) ↔ cpp.Stands q := by
  rw [CastSuffix.pieces]
  split
  · rfl
  · exact stands_blank

/-- The pieces of an expression stand where the operators are apart, and what follows
is not taken for a part of its last number. -/
theorem Expr.stands_iff {e : Expr} (h : e.WellFormed) {ps : List (Piece Byte)} (hps : e.pieces = some ps)
    (hq : Follows q) : cpp.Stands (ps ++ q) ↔
      e.Apart ∧ ¬ (e.endsInExponent = true ∧ (text q).head?.any isSign = true) ∧ cpp.Stands q := by
  induction e generalizing ps q with
  | num token t =>
      cases hps
      rw [Apart, true_and]
      exact and_congr_left' (nextPiece_number h hq.ends.1 hq.ends.2)
  | type t enumitem =>
      obtain ⟨global, id, ids, hids, hval⟩ := h
      rw [pieces, hval, plainPieces_name hids] at hps
      cases hps
      rw [stands_name hids hq.ends.1]
      simp [Apart, endsInExponent]
  | string => exact h.elim
  | charconst => exact h.elim
  | sizeof t declarator =>
      obtain ⟨ts, hts, rfl⟩ := Option.map_eq_some_iff.mp hps
      have hsizeof : cpp.Stands (.token (lit "sizeof") :: .token (lit "(") :: (ts ++ .token (lit ")") :: q)) ↔
          cpp.Stands q := (and_iff_right rfl).trans (stands_type hts)
      simpa [Apart, endsInExponent] using hsizeof
  | paren e ih =>
      obtain ⟨es, hes, rfl⟩ := Option.map_eq_some_iff.mp hps
      have hopen : cpp.Stands (.token (lit "(") :: (es ++ .token (lit ")") :: q)) ↔
          cpp.Stands (es ++ .token (lit ")") :: q) := stands_paren (.inl rfl)
      have hclose : cpp.Stands (.token (lit ")") :: q) ↔ cpp.Stands q := stands_paren (.inr rfl)
      have hsign : ((text (.token (lit ")") :: q)).head?.any isSign) = false := rfl
      have hfollows : Follows (.token (lit ")") :: q) := @follows_token q (chr ')') [] (by decide)
      rw [ih h hes hfollows, hsign, hclose] at hopen
      simpa [Apart, endsInExponent] using hopen
  | cast t suffix e _ ih =>
      obtain ⟨ts, hts, hmap⟩ := Option.bind_eq_some_iff.mp hps
      obtain ⟨es, hes, rfl⟩ := Option.map_eq_some_iff.mp hmap
      have hcast : cpp.Stands (.token (lit "(") :: (ts ++ .token (lit ")") :: (suffix.pieces t.typeCode ++ (es ++ q)))) ↔
          cpp.Stands (es ++ q) := (stands_type hts).trans (stands_suffix suffix _)
      rw [ih h hes hq] at hcast
      simpa [Apart, endsInExponent] using hcast
  | unary op e ih =>
      obtain ⟨es, hes, rfl⟩ := Option.map_eq_some_iff.mp hps
      obtain ⟨hhead, hfirst⟩ := head_pieces (e := e) h hes q
      rw [List.append_assoc, stands_unary op (by rwa [hhead]), hhead, ih h hes hq, Apart, endsInExponent, and_assoc]
  | binary op a b iha ihb =>
      obtain ⟨as, has, hmap⟩ := Option.bind_eq_some_iff.mp hps
      obtain ⟨bs, hbs, rfl⟩ := Option.map_eq_some_iff.mp hmap
      obtain ⟨hhead, hfirst⟩ := head_pieces h.2 hbs q
      obtain ⟨hfollows, hsign⟩ := binary_follows op (bs ++ q)
      rw [List.append_assoc, List.append_assoc, iha h.1 has hfollows, hsign, stands_binary op (by rwa [hhead]), hhead,
        ihb h.2 hbs hq, Apart, endsInExponent]
      simp only [and_assoc]
  | cond a b c iha ihb ihc =>
      obtain ⟨as, has, hbind⟩ := Option.bind_eq_some_iff.mp hps
      obtain ⟨bs, hbs, hmap⟩ := Option.bind_eq_some_iff.mp hbind
      obtain ⟨cs, hcs, rfl⟩ := Option.map_eq_some_iff.mp hmap
      obtain ⟨hb, hfirstb⟩ := head_pieces h.2.1 hbs (.token (lit ":") :: (cs ++ q))
      obtain ⟨hc, hfirstc⟩ := head_pieces h.2.2 hcs q
      have hquestion := @stands_question (bs ++ .token (lit ":") :: (cs ++ q)) (by rwa [hb])
      have hcolon := @stands_colon (cs ++ q) (by rwa [hc])
      have hfollowsa : Follows (.token (lit "?") :: (bs ++ .token (lit ":") :: (cs ++ q))) :=
        @follows_token _ (chr '?') [] (by decide)
      have hfollowsb : Follows (.token (lit ":") :: (cs ++ q)) := @follows_token _ (chr ':') [] (by decide)
      have hsigna : (text (.token (lit "?") :: (bs ++ .token (lit ":") :: (cs ++ q)))).head?.any isSign = false := rfl
      have hsignb : (text (.token (lit ":") :: (cs ++ q))).head?.any isSign = false := rfl
      have hcond := iha h.1 has hfollowsa
      rw [hsigna, hquestion, ihb h.2.1 hbs hfollowsb, hsignb, hcolon, hc, ihc h.2.2 hcs hq] at hcond
      simpa [Apart, endsInExponent, and_assoc] using hcond

theorem Expr.readable_iff {e : Expr} (h : e.WellFormed) : e.Readable ↔ e.pieces.isSome = true := by
  induction e with
  | num => exact iff_of_true trivial rfl
  | type t enumitem =>
      obtain ⟨global, id, ids, hids, hval⟩ := h
      rw [pieces, hval, plainPieces_name hids]
      exact iff_of_true trivial rfl
  | string => exact h.elim
  | charconst => exact h.elim
  | sizeof => rw [Readable, pieces, plainTokens, Option.isSome_map, Option.isSome_map]
  | paren e ih => rw [Readable, pieces, Option.isSome_map, ih h]
  | cast t suffix e _ ih =>
      rw [Readable, pieces, ih h, plainTokens, Option.isSome_map]
      cases plainPieces (suffix.spell t.typeCode t.val) <;> cases e.pieces <;> simp
  | unary op e ih => rw [Readable, pieces, Option.isSome_map, ih h]
  | binary op a b iha ihb =>
      rw [Readable, pieces, iha h.1, ihb h.2]
      cases a.pieces <;> cases b.pieces <;> simp
  | cond a b c iha ihb ihc =>
      rw [Readable, pieces, iha h.1, ihb h.2.1, ihc h.2.2]
      cases a.pieces <;> cases b.pieces <;> cases c.pieces <;> simp

/-! ### The tokens of the text -/

theorem plain_token {c : Byte} {cs : List Byte} (h : isspace c = false) : cpp.Plain (.token (c :: cs)) := ⟨c, cs, rfl, h⟩

theorem plain_blank : cpp.Plain (.skip (lit " ")) := ⟨chr ' ', rfl, rfl⟩

theorem plain_unary (op : UnaryOp) : ∀ p ∈ op.pieces, cpp.Plain p := by
  cases op <;> exact List.forall_mem_singleton.mpr (plain_token rfl)

theorem plain_binary (op : BinaryOp) : ∀ p ∈ op.pieces, cpp.Plain p := by
  have hblanks {c : Byte} {cs : List Byte} (h : isspace c = false) :
      ∀ p ∈ [.skip (lit " "), .token (c :: cs), .skip (lit " ")], cpp.Plain p :=
    List.forall_mem_cons.mpr ⟨plain_blank, List.forall_mem_cons.mpr
      ⟨plain_token h, List.forall_mem_singleton.mpr plain_blank⟩⟩
  cases op
  case lshift | rshift | greaterthanorequalto | lessthanorequalto => exact hblanks rfl
  all_goals exact List.forall_mem_singleton.mpr (plain_token rfl)

theorem plain_suffix (suffix : CastSuffix) (type : ℕ) : ∀ p ∈ suffix.pieces type, cpp.Plain p := by
  rw [CastSuffix.pieces]
  split
  · exact fun _ hp => absurd hp List.not_mem_nil
  · exact List.forall_mem_singleton.mpr plain_blank

theorem Expr.plain_pieces {e : Expr} (h : e.WellFormed) {ps : List (Piece Byte)} (hps : e.pieces = some ps) :
    ∀ p ∈ ps, cpp.Plain p := by
  have hopen : cpp.Plain (.token (lit "(")) := plain_token rfl
  have hclose : cpp.Plain (.token (lit ")")) := plain_token rfl
  induction e generalizing ps with
  | num token t =>
      cases hps
      obtain ⟨c, cs, rfl, hstart, -⟩ := h
      exact List.forall_mem_singleton.mpr (plain_token (startsNumber_first hstart).2.1)
  | type => exact (plainPieces_spec hps).2.2
  | string => exact h.elim
  | charconst => exact h.elim
  | sizeof t declarator =>
      obtain ⟨ts, hts, rfl⟩ := Option.map_eq_some_iff.mp hps
      have hsizeof : cpp.Plain (.token (lit "sizeof")) := plain_token rfl
      simpa [or_imp, forall_and, hsizeof, hopen, hclose] using (plainPieces_spec hts).2.2
  | paren e ih =>
      obtain ⟨es, hes, rfl⟩ := Option.map_eq_some_iff.mp hps
      simpa [or_imp, forall_and, hopen, hclose] using ih h hes
  | cast t suffix e _ ih =>
      obtain ⟨ts, hts, hmap⟩ := Option.bind_eq_some_iff.mp hps
      obtain ⟨es, hes, rfl⟩ := Option.map_eq_some_iff.mp hmap
      have hsuffix := plain_suffix suffix t.typeCode
      simpa [or_imp, forall_and, hopen, hclose] using ⟨(plainPieces_spec hts).2.2, hsuffix, ih h hes⟩
  | unary op e ih =>
      obtain ⟨es, hes, rfl⟩ := Option.map_eq_some_iff.mp hps
      exact List.forall_mem_append.mpr ⟨plain_unary op, ih h hes⟩
  | binary op a b iha ihb =>
      obtain ⟨as, has, hmap⟩ := Option.bind_eq_some_iff.mp hps
      obtain ⟨bs, hbs, rfl⟩ := Option.map_eq_some_iff.mp hmap
      exact List.forall_mem_append.mpr
        ⟨List.forall_mem_append.mpr ⟨iha h.1 has, plain_binary op⟩, ihb h.2 hbs⟩
  | cond a b c iha ihb ihc =>
      obtain ⟨as, has, hbind⟩ := Option.bind_eq_some_iff.mp hps
      obtain ⟨bs, hbs, hmap⟩ := Option.bind_eq_some_iff.mp hbind
      obtain ⟨cs, hcs, rfl⟩ := Option.map_eq_some_iff.mp hmap
      have hquestion : cpp.Plain (.token (lit "?")) := plain_token rfl
      have hcolon : cpp.Plain (.token (lit ":")) := plain_token rfl
      simpa [or_imp, forall_and, hquestion, hcolon] using ⟨iha h.1 has, ihb h.2.1 hbs, ihc h.2.2 hcs⟩

/-- The text of an expression has the tokens of its source exactly when the types in it
can be read and no operator runs into what is beside it. -/
theorem Expr.val_tokens_iff (e : Expr) (h : e.WellFormed) :
    (∃ ts, e.tokens = some ts ∧ cpp.tokenise e.val = some ts) ↔ e.Readable ∧ e.Apart := by
  rw [readable_iff h, tokens_eq]
  cases hps : e.pieces with
  | none => simp
  | some ps =>
      have hstands := stands_iff h hps (q := []) (fun _ hc => by cases hc)
      have htext := Scanner.tokenise_text_iff (plain_pieces h hps)
      rw [text_pieces h hps] at htext
      rw [List.append_nil] at hstands
      simpa [hstands, Scanner.Stands] using htext

/-- `1 + -x`. -/
def plusMinus : Expr := .binary .plus (.num .int (lit "1")) (.unary .minus (.type (lit "x") none))

theorem plusMinus_wellFormed : plusMinus.WellFormed := by
  refine ⟨⟨chr '1', [], rfl, rfl, rfl⟩, false, lit "x", [], ?_, rfl⟩
  exact List.forall_mem_singleton.mpr ⟨chr 'x', [], rfl, rfl, fun _ hd => absurd hd List.not_mem_nil⟩

theorem plusMinus_val_tokens : plusMinus.WellFormed ∧
    ((∃ ts, plusMinus.tokens = some ts ∧ cpp.tokenise plusMinus.val = some ts) ↔ plusMinus.Readable ∧ plusMinus.Apart) :=
  ⟨plusMinus_wellFormed, plusMinus.val_tokens_iff plusMinus_wellFormed⟩

/-- `1 - -1`. -/
def minusMinus : Expr := .binary .minus (.num .int (lit "1")) (.unary .minus (.num .int (lit "1")))

/-- The text `1--1` has another token. -/
theorem minusMinus_val : minusMinus.WellFormed ∧
    ¬ ∃ ts, minusMinus.tokens = some ts ∧ cpp.tokenise minusMinus.val = some ts := by
  refine ⟨⟨⟨chr '1', [], rfl, rfl, rfl⟩, chr '1', [], rfl, rfl, rfl⟩, ?_⟩
  rintro ⟨ts, hts, htok⟩
  cases hts
  have hval : cpp.tokenise minusMinus.val = some [lit "1", lit "--", lit "1"] := rfl
  rw [hval] at htok
  exact absurd (congrArg (Option.map List.length) htok) (by decide)

end Swig.CParse
