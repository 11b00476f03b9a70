import Mathlib.Data.Int.Notation
import Mathlib.Data.Nat.Notation
import Mathlib.Tactic.Common

/-!
# `fnmatch`

The matching of a string against a glob pattern, as `dir.c` does it on single bytes. A pointer
into a C string is the list of the bytes from there on, without the terminating NUL.

## Main definitions

* `Flags` — the `FNM_` flags.
* `bracket` — a set, against one byte.
* `helperTurn`, `fnmatchHelper` — the loop over one path element, with its place to go back to.
* `fnmatchTurn`, `fnmatch` — the loop over the path elements, with its own.

Both loops are given `turns p s` turns, and `fnmatchHelper` and `fnmatch` are `none` if that were
not enough.
-/

namespace MacRuby.Dir

/-- The flags. -/
structure Flags where
  noescape : Bool
  pathname : Bool
  dotmatch : Bool
  casefold : Bool
  deriving DecidableEq, Repr

namespace Flags

/-- `!(flags & FNM_NOESCAPE)` -/
def escape (fl : Flags) : Bool := !fl.noescape

/-- `!(flags & FNM_DOTMATCH)` -/
def period (fl : Flags) : Bool := !fl.dotmatch

end Flags

/-- `ISUPPER(c)`. -/
def isUpper (c : UInt8) : Bool := 65 ≤ c && c ≤ 90

/-- `downcase(c)`. -/
def downcase (nocase : Bool) (c : UInt8) : UInt8 := if nocase && isUpper c then c + 32 else c

/-- `Compare(p1, p2)`, on the bytes that are pointed at. -/
def compare (nocase : Bool) (c d : UInt8) : ℤ :=
  ((downcase nocase c).toNat : ℤ) - (downcase nocase d).toNat

/-! ## Sets -/

/-- A byte of a set, which may be escaped, and what follows it. -/
def setChar (escape : Bool) : List UInt8 → Option (UInt8 × List UInt8)
  | [] => none
  | c :: p => if escape && c == 92 then p.head?.map fun d => (d, p.tail) else some (c, p)

theorem setChar_length {escape : Bool} {p q : List UInt8} {c : UInt8}
    (h : setChar escape p = some (c, q)) : q.length < p.length := by
  cases p with
  | nil => cases h
  | cons b p =>
      rw [setChar] at h
      split_ifs at h
      · cases p with
        | nil => cases h
        | cons d p =>
            cases h
            rw [List.tail_cons, List.length_cons, List.length_cons]
            omega
      · cases h
        simp

/-- The loop of `bracket`; `s` is the byte of the string. -/
def bracketLoop (fl : Flags) (s : UInt8) (not : Bool) (p : List UInt8) (ok : Bool) :
    Option (List UInt8) :=
  if p.head? = some 93 then if ok = not then none else some p.tail
  else
    match _h1 : setChar fl.escape p with
    | none => none
    | some (t1, p1) =>
        if p1.head? = some 45 ∧ p1.tail.head? ≠ some 93 then
          match _h2 : setChar fl.escape p1.tail with
          | none => none
          | some (t2, p2) =>
              bracketLoop fl s not p2
                (ok || (compare fl.casefold t1 s ≤ 0 && compare fl.casefold s t2 ≤ 0))
        else bracketLoop fl s not p1 (ok || compare fl.casefold t1 s == 0)
termination_by p.length
decreasing_by
  · have hlt := setChar_length _h1
    have hlt' := setChar_length _h2
    rw [List.length_tail] at hlt'
    omega
  · exact setChar_length _h1

/-- `bracket(p, s, flags)`; `p` is what stands after the `[`. -/
def bracket (fl : Flags) (p : List UInt8) (s : UInt8) : Option (List UInt8) :=
  if p.head? = some 33 ∨ p.head? = some 94 then bracketLoop fl s true p.tail false
  else bracketLoop fl s false p false

/-! ## One path element -/

/-- `UNESCAPE(p)`. -/
def unescape (escape : Bool) (p : List UInt8) : List UInt8 :=
  if escape && p.head? == some 92 then p.tail else p

/-- `ISEND(p)`. -/
def isEnd (pathname : Bool) (p : List UInt8) : Bool :=
  p.isEmpty || (pathname && p.head? == some 47)

/-- The variables of a loop; `tmp` is `ptmp` and `stmp`. -/
structure Cursor where
  p : List UInt8
  s : List UInt8
  tmp : Option (List UInt8 × List UInt8)
  deriving DecidableEq, Repr

/-- `RETURN(val)`: the value, and what `*pcur` and `*scur` are set to. -/
structure Returned where
  val : ℕ
  p : List UInt8
  s : List UInt8
  deriving DecidableEq, Repr

/-- The label `failed` of `fnmatch_helper`. -/
def failed (c : Cursor) : Cursor ⊕ Returned :=
  match c.tmp with
  | some (ptmp, stmp) => .inl ⟨ptmp, stmp.tail, some (ptmp, stmp.tail)⟩
  | none => .inr ⟨1, c.p, c.s⟩

/-- `case '*'` -/
def starTurn (fl : Flags) (c : Cursor) : Cursor ⊕ Returned :=
  let p := c.p.dropWhile (· == 42)
  if isEnd fl.pathname (unescape fl.escape p) then .inr ⟨0, unescape fl.escape p, c.s⟩
  else if isEnd fl.pathname c.s then .inr ⟨1, p, c.s⟩
  else .inl ⟨p, c.s, some (p, c.s)⟩

/-- `case '?'` -/
def anyTurn (fl : Flags) (c : Cursor) : Cursor ⊕ Returned :=
  if isEnd fl.pathname c.s then .inr ⟨1, c.p, c.s⟩ else .inl ⟨c.p.tail, c.s.tail, c.tmp⟩

/-- `case '['` -/
def setTurn (fl : Flags) (c : Cursor) : Cursor ⊕ Returned :=
  if isEnd fl.pathname c.s then .inr ⟨1, c.p, c.s⟩
  else
    match bracket fl c.p.tail (c.s.headD 0) with
    | some t => .inl ⟨t, c.s.tail, c.tmp⟩
    | none => failed c

/-- An ordinary byte. -/
def ordinaryTurn (fl : Flags) (c : Cursor) : Cursor ⊕ Returned :=
  let p := unescape fl.escape c.p
  if isEnd fl.pathname c.s then .inr ⟨if isEnd fl.pathname p then 0 else 1, p, c.s⟩
  else if isEnd fl.pathname p then failed ⟨p, c.s, c.tmp⟩
  else if compare fl.casefold (p.headD 0) (c.s.headD 0) ≠ 0 then failed ⟨p, c.s, c.tmp⟩
  else .inl ⟨p.tail, c.s.tail, c.tmp⟩

/-- One turn of the loop of `fnmatch_helper`. -/
def helperTurn (fl : Flags) (c : Cursor) : Cursor ⊕ Returned :=
  if c.p.head? = some 42 then starTurn fl c
  else if c.p.head? = some 63 then anyTurn fl c
  else if c.p.head? = some 91 then setTurn fl c
  else ordinaryTurn fl c

/-- The loop of `fnmatch_helper`. -/
def helperLoop (fl : Flags) : ℕ → Cursor → Option Returned
  | 0, _ => none
  | n + 1, c =>
      match helperTurn fl c with
      | .inl c => helperLoop fl n c
      | .inr r => some r

/-- The turns that are enough for a pattern and a string. -/
def turns (p s : List UInt8) : ℕ := (s.length + 2) * (p.length + 1)

/-- `fnmatch_helper(&p, &s, flags)`. -/
def fnmatchHelper (fl : Flags) (p s : List UInt8) : Option Returned :=
  if fl.period && s.head? == some 46 && (unescape fl.escape p).head? != some 46 then some ⟨1, p, s⟩
  else helperLoop fl (turns p s) ⟨p, s, none⟩

/-! ## Paths -/

/-- `do { p += 3; } while (p[0] == '*' && p[1] == '*' && p[2] == '/')`, if it stands there. -/
def skipRecursive : List UInt8 → List UInt8
  | 42 :: 42 :: 47 :: p => skipRecursive p
  | p => p

attribute [grind =] skipRecursive

/-- The end of a turn of `fnmatch`: try next recursion. -/
def nextRecursion (fl : Flags) (tmp : Option (List UInt8 × List UInt8)) : Cursor ⊕ ℕ :=
  match tmp with
  | some (ptmp, stmp) =>
      if fl.period && stmp.head? == some 46 then .inr 1
      else
        match stmp.dropWhile (· != 47) with
        | [] => .inr 1
        | _ :: stmp => .inl ⟨ptmp, stmp, some (ptmp, stmp)⟩
  | none => .inr 1

/-- One turn of the loop of `fnmatch`. -/
def fnmatchTurn (fl : Flags) (c : Cursor) : Option (Cursor ⊕ ℕ) :=
  let p := skipRecursive c.p
  let tmp := if p = c.p then c.tmp else some (p, c.s)
  match fnmatchHelper fl p c.s with
  | none => none
  | some r =>
      let s := r.s.dropWhile (· != 47)
      some (if r.val = 0 ∧ r.p ≠ [] ∧ s ≠ [] then .inl ⟨r.p.tail, s.tail, tmp⟩
        else if r.val = 0 ∧ r.p = [] ∧ s = [] then .inr 0
        else nextRecursion fl tmp)

/-- The loop of `fnmatch`. -/
def fnmatchLoop (fl : Flags) : ℕ → Cursor → Option ℕ
  | 0, _ => none
  | n + 1, c =>
      match fnmatchTurn fl c with
      | none => none
      | some (.inl c) => fnmatchLoop fl n c
      | some (.inr r) => some r

/-- `fnmatch(p, s, flags)`. -/
def fnmatch (fl : Flags) (p s : List UInt8) : Option ℕ :=
  if fl.pathname then fnmatchLoop fl (turns p s) ⟨p, s, none⟩
  else (fnmatchHelper fl p s).map Returned.val

end MacRuby.Dir
