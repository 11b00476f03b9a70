import MacRuby.Bignum.Bitwise
import MacRuby.Lib.Result
import MacRuby.Numeric.Integer
import MacRuby.Util.Strtoul

/-!
# Reading Integers

`rb_cstr_to_inum`. The string is passed over by hand up to the first digit that counts. What is left
is read by `strtoul` if it is short and has no underscores, and digit by digit into a buffer
otherwise. The buffer is as long as the bytes that are left need, each of them counted with the bits
of a digit; the product is a `long`, so it wraps.

## Main definitions

* `inumBase`, `skipPrefix`, `squeeze` — the steps before the digits.
* `wordParse`, `bigparse` — the two paths.
* `rbCstrToInum` — the function.

## Main results

* `mulAdd_spec` — a digit is added, or there is no room for it.
* `readDigits_spec` — what the digits come to, and where they end.
* `wordParse_spec`, `bigparse_spec` — the paths.
-/

namespace MacRuby

open Result

/-! ## The code -/

/-- How reading an Integer can fail. -/
inductive ParseError
  /-- `rb_invalid_str(s, type)`; no string stands for a null pointer. -/
  | invalidStr (s : Option (List UInt8)) (type : String)
  /-- `ArgumentError`: "invalid radix %d". -/
  | invalidRadix (base : ℤ)
  /-- A digit is written where there is no buffer. -/
  | outOfBounds
  deriving DecidableEq, Repr

section Code

variable (L : LongSize)

/-- What is left after a sign, and whether the number is not negative. -/
def skipSign (str : List UInt8) : Bool × List UInt8 :=
  if str.headD 0 = 43 then (true, str.tail)
  else if str.headD 0 = 45 then (false, str.tail)
  else (true, str)

/-- The base that a string has. -/
def inumBase (base : ℤ) (str : List UInt8) : ℤ :=
  if base ≤ 0 then
    if str.headD 0 = 48 then
      let c := str.tail.headD 0
      if c = 120 ∨ c = 88 then 16
      else if c = 98 ∨ c = 66 then 2
      else if c = 111 ∨ c = 79 then 8
      else if c = 100 ∨ c = 68 then 10
      else 8
    else if base < -1 then (-base).bmod (2 ^ 32)
    else 10
  else base

/-- The bits that are counted for a digit, if there are digits to the base. -/
def digitBits (base : ℤ) : Option ℕ :=
  if base < 2 ∨ 36 < base then none
  else if base = 2 then some 1
  else if base = 3 then some 2
  else if base ≤ 8 then some 3
  else if base ≤ 16 then some 4
  else if base ≤ 32 then some 5
  else some 6

/-- The letter of the prefix for a base. -/
def isPrefixLetter (base : ℤ) (c : UInt8) : Bool :=
  (base = 2 && (c = 98 || c = 66)) || (base = 8 && (c = 111 || c = 79)) ||
    (base = 10 && (c = 100 || c = 68)) || (base = 16 && (c = 120 || c = 88))

/-- What is left after the prefix for the base. -/
def skipPrefix (base : ℤ) (str : List UInt8) : List UInt8 :=
  if str.headD 0 = 48 ∧ isPrefixLetter base (str.tail.headD 0) then str.drop 2 else str

/-- The loop that squeezes preceding zeros, with the byte before the string. -/
def squeezeZeros (us : ℕ) (prev : UInt8) : List UInt8 → List UInt8
  | [] => [prev]
  | c :: cs =>
      if c = 48 then squeezeZeros 0 c cs
      else if c = 95 then
        if us + 1 ≥ 2 then c :: cs else squeezeZeros (us + 1) c cs
      else if isSpace c then prev :: c :: cs
      else c :: cs

/-- What is left after preceding zeros; one is kept if there is nothing else. -/
def squeeze (str : List UInt8) : List UInt8 :=
  if str.headD 0 = 48 then squeezeZeros 0 48 str.tail else str

/-- The loop that multiplies the digits in a buffer by the base and adds a number; `blen` of them
are in use, and there is no result if it leaves the buffer. -/
def mulAdd (base : ℤ) : List BDigit → ℕ → ℤ → Option (List BDigit × ℕ)
  | [], blen, num => if blen = 0 ∧ num = 0 then some ([], 0) else none
  | z :: zds, blen, num =>
      if blen = 0 ∧ num = 0 then some (z :: zds, 0)
      else
        let num := toDbl (num + toDbl (z.toNat * base))
        (mulAdd base zds (blen - 1) (bigdn num)).map fun r => (biglo num :: r.1, r.2 + 1)

/-- The loop over the digits, and what it stops at. -/
def readDigits (bad : ParseError) (base : ℤ) (badcheck : Bool) :
    List UInt8 → Bool → List BDigit → ℕ → Except ParseError (List BDigit × List UInt8)
  | [], _, zds, _ => .ok (zds, [])
  | c :: cs, nondigit, zds, blen =>
      if c = 95 then
        if nondigit then if badcheck then .error bad else .ok (zds, c :: cs)
        else readDigits bad base badcheck cs true zds blen
      else if digitTable c < 0 then .ok (zds, c :: cs)
      else if digitTable c ≥ base then .ok (zds, c :: cs)
      else
        match mulAdd base zds blen (digitTable c) with
        | none => .error .outOfBounds
        | some (zds, blen) => readDigits bad base badcheck cs false zds blen

/-- `len = (len/BITSPERDIG)+1` -/
def bufferLen (len : ℤ) : ℤ := len.tdiv 32 + 1

/-- `bigparse:`, for digits of `str`, which is the end of `s`. -/
def bigparse (sign badcheck : Bool) (s : List UInt8) (base len : ℤ) (str : List UInt8) :
    Except ParseError (Inum L) :=
  let bad := .invalidStr (some s) "Integer"
  let len := bufferLen len
  if badcheck ∧ str.headD 0 = 95 then .error bad
  -- the loop that clears the buffer goes on below it
  else if len < 0 then .error .outOfBounds
  else do
    let (zds, str) ← readDigits bad base badcheck str false (List.replicate len.toNat 0) 1
    let p := s.length - str.length
    if badcheck ∧ 1 < p ∧ s.getD (p - 1) 0 = 95 then .error bad
    else if badcheck ∧ str.dropWhile isSpace ≠ [] then .error bad
    else pure (bignorm L ⟨sign, zds⟩)

/-- The Integer for a word. -/
def wordInum (sign : Bool) (val : ℕ) : Inum L :=
  if (val : ℤ) < L.fixnumMax + 1 then .fixnum (long2fix L (if sign then val else -val))
  else bignorm L { rbUint2big L val with sign := sign }

/-- The path of `strtoul`, if it does not go on at `bigparse`. -/
def wordParse (sign badcheck : Bool) (s : List UInt8) (base : ℤ) (str : List UInt8) :
    Option (Except ParseError (Inum L)) :=
  let bad := .invalidStr (some s) "Integer"
  let val := rubyStrtoul L str base.toNat
  let n := val.endptr.getD 0
  let tail := str.drop n
  if 0 < n ∧ tail.headD 0 = 95 then none
  else if badcheck ∧ (n = 0 ∨ tail.dropWhile isSpace ≠ []) then some (.error bad)
  else some (.ok (wordInum L sign val.value))

/-- The two paths, for digits with `bits` bits each. -/
def parseDigits (sign badcheck : Bool) (s : List UInt8) (base : ℤ) (bits : ℕ) (str : List UInt8) :
    Except ParseError (Inum L) :=
  let len := L.toLong (bits * str.length)
  -- the comparison is one of unsigned numbers
  if len % 2 ^ L.bits ≤ L.bits then
    (wordParse L sign badcheck s base str).getD (bigparse L sign badcheck s base len str)
  else bigparse L sign badcheck s base len str

/-- `rb_cstr_to_inum(str, base, badcheck)`; no string stands for a null pointer. -/
def rbCstrToInum (str : Option (List UInt8)) (base : ℤ) (badcheck : Bool) :
    Except ParseError (Inum L) :=
  let fail := if badcheck then .error (.invalidStr str "Integer") else .ok (.zero L)
  match str with
  | none => fail
  | some s =>
      let (sign, str) := skipSign (s.dropWhile isSpace)
      if str.headD 0 = 43 ∨ str.headD 0 = 45 then fail
      else
        let base := inumBase base str
        match digitBits base with
        | none => .error (.invalidRadix base)
        | some bits =>
            let str := squeeze (skipPrefix base str)
            let c := digitTable (str.headD 0)
            if c < 0 ∨ base ≤ c then fail else parseDigits L sign badcheck s base bits str

end Code

/-! ## Digits of a buffer -/

section Buffer

/-- The digits of a buffer that are not in use are zero. -/
structure InUse (zds : List BDigit) (blen : ℕ) : Prop where
  le_length : blen ≤ zds.length
  zero : ∀ z ∈ zds.drop blen, z = 0

theorem magnitude_of_zero {zds : List BDigit} (h : ∀ z ∈ zds, z = 0) : magnitude zds = 0 := by
  induction zds with
  | nil => rfl
  | cons z zds ih =>
      have hz : z = 0 := h z (List.mem_cons_self ..)
      rw [magnitude_cons, ih fun y hy => h y (List.mem_cons_of_mem _ hy), hz]
      rfl

theorem InUse.tail {z : BDigit} {zds : List BDigit} {blen : ℕ} (h : InUse (z :: zds) blen) :
    InUse zds (blen - 1) := by
  have hlen := h.le_length
  rw [List.length_cons] at hlen
  refine ⟨by omega, fun y hy => ?_⟩
  cases blen with
  | zero => exact h.zero y (List.mem_cons_of_mem _ hy)
  | succ n => exact h.zero y hy

/-- **A digit is added** to the number in a buffer, or the buffer is too short for the result. -/
theorem mulAdd_spec {b : ℤ} (hb0 : 0 ≤ b) (hb : b ≤ 36) {zds : List BDigit} {blen : ℕ} {num : ℤ}
    (huse : InUse zds blen) (h0 : 0 ≤ num) (h1 : num < bigrad) :
    (magnitude zds * b + num < bigrad ^ zds.length → ∃ zds' blen',
      mulAdd b zds blen num = some (zds', blen') ∧ magnitude zds' = magnitude zds * b + num ∧
        zds'.length = zds.length ∧ InUse zds' blen') ∧
    (bigrad ^ zds.length ≤ magnitude zds * b + num → mulAdd b zds blen num = none) := by
  induction zds generalizing blen num with
  | nil =>
      have hblen : blen = 0 := Nat.le_zero.mp huse.le_length
      have hmag : magnitude [] = 0 := rfl
      subst hblen
      rw [mulAdd, hmag, zero_mul, zero_add, List.length_nil, pow_zero]
      refine ⟨fun h => ?_, fun h => if_neg (by omega)⟩
      rw [if_pos ⟨rfl, by omega⟩]
      exact ⟨[], 0, rfl, by omega, rfl, huse⟩
  | cons z zds ih =>
      by_cases hstop : blen = 0 ∧ num = 0
      · have hmag : magnitude (z :: zds) = 0 := magnitude_of_zero fun y hy => huse.zero y (by
          rw [hstop.1]
          exact hy)
        have hpos : 0 < bigrad ^ (z :: zds).length := pow_pos bigrad_pos _
        rw [mulAdd, if_pos hstop, hmag, hstop.2]
        refine ⟨fun _ => ⟨_, _, rfl, ?_, rfl, hstop.1 ▸ huse⟩, fun h => by omega⟩
        rw [hmag]
        ring
      · have hz := z.toNat_lt
        have hrad : bigrad = 2 ^ 32 := rfl
        have hprod : (z.toNat : ℤ) * b ≤ (bigrad - 1) * 36 :=
          mul_le_mul (by omega) hb hb0 (by omega)
        have hprod0 : 0 ≤ (z.toNat : ℤ) * b := mul_nonneg (Int.natCast_nonneg _) hb0
        have hwrap : toDbl (num + toDbl (z.toNat * b)) = num + z.toNat * b := by
          rw [toDbl, toDbl, Int.emod_eq_of_lt hprod0 (by omega),
            Int.emod_eq_of_lt (by omega) (by omega)]
        set n := num + (z.toNat : ℤ) * b with hn
        have hhi0 : 0 ≤ bigdn n := Int.ediv_nonneg (by omega) bigrad_pos.le
        have hsq : bigrad * bigrad = 2 ^ 64 := by norm_num [bigrad]
        have hhi : bigdn n < bigrad := Int.ediv_lt_of_lt_mul bigrad_pos (by omega)
        obtain ⟨hfits, hover⟩ := ih huse.tail hhi0 hhi
        have hsplit := emod_add_bigdn n
        have hlo0 := Int.emod_nonneg n bigrad_pos.ne'
        have hlo := Int.emod_lt_of_pos n bigrad_pos
        have htotal : magnitude (z :: zds) * b + num =
            n % bigrad + bigrad * (magnitude zds * b + bigdn n) := by
          rw [magnitude_cons]
          linear_combination hn - hsplit
        have hpow : bigrad ^ (z :: zds).length = bigrad * bigrad ^ zds.length := pow_succ' _ _
        rw [mulAdd, if_neg hstop]
        dsimp only
        rw [hwrap, htotal, hpow]
        refine ⟨fun h => ?_, fun h => ?_⟩
        · have hlt : magnitude zds * b + bigdn n < bigrad ^ zds.length := by
            by_contra hle
            have := mul_le_mul_of_nonneg_left (not_lt.mp hle) bigrad_pos.le
            omega
          obtain ⟨zds', blen', hrun, hmag, hlen, huse'⟩ := hfits hlt
          refine ⟨biglo n :: zds', blen' + 1, ?_, ?_, ?_, ?_⟩
          · rw [hrun]
            rfl
          · rw [magnitude_cons, toNat_biglo, hmag]
          · rw [List.length_cons, List.length_cons, hlen]
          · exact ⟨Nat.succ_le_succ huse'.le_length, huse'.zero⟩
        · have hle : bigrad ^ zds.length ≤ magnitude zds * b + bigdn n := by
            by_contra hlt
            have := mul_le_mul_of_nonneg_left (Int.add_one_le_of_lt (not_le.mp hlt)) bigrad_pos.le
            rw [mul_add, mul_one] at this
            omega
          rw [hover hle]
          rfl

end Buffer

/-! ## Digits of a string -/

section Digits

variable {b : ℕ}

instance (base : ℕ) (c : UInt8) : Decidable (IsDigitOf base c) :=
  inferInstanceAs (Decidable (_ ∧ _))

theorem not_isDigitOf_underscore (b : ℕ) : ¬ IsDigitOf b 95 := fun h => absurd h.1 (by decide)

/-- The digits with which a string goes on after a digit; an underscore is among them if it is
followed by a digit. -/
def moreDigits (b : ℕ) : List UInt8 → List UInt8
  | [] => []
  | c :: cs =>
      if IsDigitOf b c then c :: moreDigits b cs
      else if c = 95 ∧ ∃ d ∈ cs.head?, IsDigitOf b d then c :: moreDigits b cs
      else []

attribute [grind =] moreDigits

theorem moreDigits_digit {c : UInt8} (hc : IsDigitOf b c) (cs : List UInt8) :
    moreDigits b (c :: cs) = c :: moreDigits b cs := by
  rw [moreDigits, if_pos hc]

theorem moreDigits_underscore {d : UInt8} (hd : IsDigitOf b d) (cs : List UInt8) :
    moreDigits b (95 :: d :: cs) = 95 :: d :: moreDigits b cs := by
  rw [moreDigits, if_neg (not_isDigitOf_underscore b), if_pos ⟨rfl, d, rfl, hd⟩,
    moreDigits_digit hd]

theorem moreDigits_stop {c : UInt8} {cs : List UInt8} (hc : ¬ IsDigitOf b c)
    (hstop : c = 95 → ∀ d ∈ cs.head?, ¬ IsDigitOf b d) : moreDigits b (c :: cs) = [] := by
  rw [moreDigits, if_neg hc, if_neg]
  rintro ⟨h95, d, hd, hdigit⟩
  exact hstop h95 d hd hdigit

/-- The digits are the beginning of the string. -/
theorem moreDigits_append_drop (b : ℕ) (u : List UInt8) :
    moreDigits b u ++ u.drop (moreDigits b u).length = u := by
  induction u with
  | nil => rfl
  | cons c cs ih =>
      rw [moreDigits]
      split_ifs
      · rw [List.cons_append, List.length_cons, List.drop_succ_cons, ih]
      · rw [List.cons_append, List.length_cons, List.drop_succ_cons, ih]
      · rfl

/-- The number that digits with underscores between them stand for, after a number `n`. -/
def underscored (b n : ℕ) (ds : List UInt8) : ℕ := numeral b n (ds.filter (· ≠ 95))

theorem underscored_digit {c : UInt8} (hc : IsDigitOf b c) (n : ℕ) (ds : List UInt8) :
    underscored b n (c :: ds) = underscored b (n * b + (digitTable c).toNat) ds := by
  have hne : c ≠ 95 := by
    rintro rfl
    exact not_isDigitOf_underscore b hc
  rw [underscored, List.filter_cons_of_pos (by exact decide_eq_true hne)]
  rfl

theorem underscored_underscore (b n : ℕ) (ds : List UInt8) :
    underscored b n (95 :: ds) = underscored b n ds := by
  rw [underscored, List.filter_cons_of_neg (by decide)]
  rfl

theorem le_underscored (hb : 0 < b) (n : ℕ) (ds : List UInt8) : n ≤ underscored b n ds :=
  le_numeral hb n _

/-- What the loop over the digits ends with, where `rest` is left of the string: it notices an
underscore by the byte after it. -/
def readStop (bad : ParseError) (badcheck : Bool) (zds : List BDigit) (rest : List UInt8) :
    Except ParseError (List BDigit × List UInt8) :=
  if rest.headD 0 = 95 then
    if rest.tail.headD 0 = 95 ∧ badcheck then .error bad else .ok (zds, rest.tail)
  else .ok (zds, rest)

/-- What the loop over the digits of `u` is required to give, from a buffer with the number `n`: the
number with the digits added, and the end of the digits, if there is room for it. -/
structure ReadsDigits (bad : ParseError) (b : ℕ) (badcheck : Bool) (u : List UInt8)
    (zds : List BDigit) (n : ℕ) (run : Except ParseError (List BDigit × List UInt8)) : Prop where
  fits : (underscored b n (moreDigits b u) : ℤ) < bigrad ^ zds.length → ∃ zds',
    magnitude zds' = underscored b n (moreDigits b u) ∧
      run = readStop bad badcheck zds' (u.drop (moreDigits b u).length)
  exceeds : bigrad ^ zds.length ≤ (underscored b n (moreDigits b u) : ℤ) → run = .error .outOfBounds

variable {bad : ParseError} {badcheck : Bool} {u : List UInt8} {zds : List BDigit} {blen n : ℕ}
  {run : Except ParseError (List BDigit × List UInt8)}

/-- At the end of the digits the buffer is as it was. -/
theorem ReadsDigits.of_end (hn : magnitude zds = n) (hmore : moreDigits b u = [])
    (hrun : run = readStop bad badcheck zds u) : ReadsDigits bad b badcheck u zds n run := by
  have hlt := magnitude_lt zds
  rw [hn] at hlt
  refine ⟨fun _ => ⟨zds, ?_, ?_⟩, fun h => ?_⟩
  · rw [hmore, hn]
    rfl
  · rw [hmore, hrun]
    rfl
  · rw [hmore] at h
    exact absurd h (not_le.mpr hlt)

/-- An underscore before a digit is passed over. -/
theorem ReadsDigits.underscore {d : UInt8} (hd : IsDigitOf b d)
    (h : ReadsDigits bad b badcheck (d :: u) zds n run) :
    ReadsDigits bad b badcheck (95 :: d :: u) zds n run := by
  have hmore : moreDigits b (95 :: d :: u) = 95 :: moreDigits b (d :: u) := by
    rw [moreDigits_underscore hd, moreDigits_digit hd]
  refine ⟨fun hlt => ?_, fun hle => ?_⟩
  · rw [hmore, underscored_underscore] at hlt ⊢
    obtain ⟨zds', hval, hrun⟩ := h.fits hlt
    exact ⟨zds', hval, hrun⟩
  · rw [hmore, underscored_underscore] at hle
    exact h.exceeds hle

/-- A digit is read. -/
theorem ReadsDigits.digit {c : UInt8} {zds' : List BDigit} (hc : IsDigitOf b c)
    (hlen : zds'.length = zds.length)
    (h : ReadsDigits bad b badcheck u zds' (n * b + (digitTable c).toNat) run) :
    ReadsDigits bad b badcheck (c :: u) zds n run := by
  refine ⟨fun hlt => ?_, fun hle => ?_⟩
  · rw [moreDigits_digit hc, underscored_digit hc] at hlt ⊢
    rw [← hlen] at hlt
    obtain ⟨zds'', hval, hrun⟩ := h.fits hlt
    exact ⟨zds'', hval, hrun⟩
  · rw [moreDigits_digit hc, underscored_digit hc, ← hlen] at hle
    exact h.exceeds hle

/-- **The loop reads the digits to their end**, unless the buffer is too short for them. -/
theorem readDigits_spec (bad : ParseError) (hb : 2 ≤ b) (hb' : b ≤ 36) (badcheck : Bool)
    (u : List UInt8) (huse : InUse zds blen) (hn : magnitude zds = n) :
    ReadsDigits bad b badcheck u zds n (readDigits bad b badcheck u false zds blen) := by
  induction u generalizing zds blen n with
  | nil => exact .of_end hn rfl rfl
  | cons c cs ih =>
      by_cases hc : IsDigitOf b c
      · have hne : c ≠ 95 := fun h => not_isDigitOf_underscore b (h ▸ hc)
        have h0 := hc.1
        have h1 := hc.2
        obtain ⟨hfits, hover⟩ := mulAdd_spec (b := b) (by omega) (by omega) huse h0
          (h1.trans (by unfold bigrad; omega))
        have hval : magnitude zds * b + digitTable c
          = ((n * b + (digitTable c).toNat : ℕ) : ℤ) := by
          rw [hn]
          push_cast
          rw [Int.toNat_of_nonneg h0]
        rw [hval] at hfits hover
        rw [readDigits, if_neg hne, if_neg (not_lt.mpr h0), if_neg (not_le.mpr h1)]
        by_cases hroom : ((n * b + (digitTable c).toNat : ℕ) : ℤ) < bigrad ^ zds.length
        · obtain ⟨zds', blen', hrun, hmag, hlen, huse'⟩ := hfits hroom
          rw [hrun]
          exact .digit hc hlen (ih huse' hmag)
        · rw [hover (not_lt.mp hroom)]
          refine ⟨fun hlt => absurd ?_ hroom, fun _ => rfl⟩
          rw [moreDigits_digit hc, underscored_digit hc] at hlt
          exact lt_of_le_of_lt (by exact_mod_cast le_underscored (by omega) _ _) hlt
      · by_cases h95 : c = 95
        · subst h95
          rw [readDigits, if_pos rfl, if_neg Bool.false_ne_true]
          cases cs with
          | nil => exact .of_end hn (moreDigits_stop hc fun _ d hd => nomatch hd) rfl
          | cons d ds =>
              by_cases hd : IsDigitOf b d
              · refine .underscore hd ?_
                have hne : d ≠ 95 := fun h => not_isDigitOf_underscore b (h ▸ hd)
                have hflag : readDigits bad b badcheck (d :: ds) true zds blen =
                    readDigits bad b badcheck (d :: ds) false zds blen := by
                  rw [readDigits, readDigits, if_neg hne, if_neg hne]
                rw [hflag]
                exact ih huse hn
              · refine .of_end hn (moreDigits_stop hc fun _ e he => ?_) ?_
                · cases he
                  exact hd
                · have hstop : readStop bad badcheck zds (95 :: d :: ds) =
                      if d = 95 ∧ badcheck then .error bad else .ok (zds, d :: ds) := if_pos rfl
                  rw [readDigits, hstop]
                  by_cases hd95 : d = 95
                  · rw [if_pos hd95, if_pos rfl]
                    simp only [hd95, true_and]
                  · have hand : ¬ (d = 95 ∧ badcheck = true) := fun h => hd95 h.1
                    rw [if_neg hd95, if_neg hand]
                    by_cases h0 : digitTable d < 0
                    · exact if_pos h0
                    · rw [if_neg h0]
                      exact if_pos (not_lt.mp fun h => hd ⟨not_lt.mp h0, h⟩)
        · refine .of_end hn (moreDigits_stop hc fun h => absurd h h95) ?_
          rw [readDigits, if_neg h95, readStop, List.headD_cons, if_neg h95]
          by_cases h0 : digitTable c < 0
          · exact if_pos h0
          · rw [if_neg h0]
            exact if_pos (not_lt.mp fun h => hc ⟨not_lt.mp h0, h⟩)

/-- The last of the digits is no underscore. -/
theorem moreDigits_last (b : ℕ) (u : List UInt8) :
    moreDigits b u = [] ∨ ∃ ds d, moreDigits b u = ds ++ [d] ∧ IsDigitOf b d := by
  induction u with
  | nil => exact .inl rfl
  | cons c cs ih =>
      rw [moreDigits]
      split_ifs with hc hunder
      · rcases ih with hnil | ⟨ds, d, hds, hd⟩
        · exact .inr ⟨[], c, by rw [hnil]; rfl, hc⟩
        · exact .inr ⟨c :: ds, d, by rw [hds]; rfl, hd⟩
      · obtain ⟨-, d, hd, hdigit⟩ := hunder
        cases cs with
        | nil => cases hd
        | cons e es =>
            cases hd
            rcases ih with hnil | ⟨ds, d, hds, hd⟩
            · rw [moreDigits_digit hdigit] at hnil
              cases hnil
            · exact .inr ⟨c :: ds, d, by rw [hds]; rfl, hd⟩
      · exact .inl rfl

end Digits

/-! ## The two paths -/

section Paths

variable {L : LongSize} {b : ℕ} {sign badcheck : Bool} {s u : List UInt8}

/-- An absolute value with its sign. -/
def signed (sign : Bool) (v : ℕ) : ℤ := if sign then v else -v

/-- What is required where digits for `v` have been read and `rest` is left. -/
structure Reads (L : LongSize) (bad : ParseError) (sign badcheck : Bool) (v : ℕ)
    (rest : List UInt8) (run : Except ParseError (Inum L)) : Prop where
  rejects : badcheck = true → rest.dropWhile isSpace ≠ [] → run = .error bad
  accepts : badcheck = false ∨ rest.dropWhile isSpace = [] →
    ∃ r, run = .ok r ∧ r.Is (signed sign v)

/-- The byte before the end of a string. -/
theorem getD_before (l : List UInt8) (x : UInt8) (rest : List UInt8) :
    (l ++ x :: rest).length - rest.length = l.length + 1 ∧
      (l ++ x :: rest).getD (l.length + 1 - 1) 0 = x := by
  refine ⟨?_, ?_⟩
  · rw [List.length_append, List.length_cons]
    omega
  · rw [Nat.add_sub_cancel, List.getD_append_right _ _ _ _ le_rfl, Nat.sub_self]
    rfl

theorem dropWhile_underscore (cs : List UInt8) : (95 :: cs).dropWhile isSpace ≠ [] := by
  rw [List.dropWhile_cons_of_neg (by decide)]
  exact List.cons_ne_nil _ _

theorem signed_bignum {zds : List BDigit} {v : ℕ} (h : magnitude zds = v) :
    (bignorm L ⟨sign, zds⟩).Is (signed sign v) := by
  refine bignorm_is ?_
  cases sign with
  | true => exact h
  | false => exact congrArg Neg.neg h

/-- The end of the path of digits. -/
theorem readStop_reads {pre : List UInt8} {zds : List BDigit} {v : ℕ}
    (hu : ∃ c ∈ u.head?, IsDigitOf b c) (hs : s = pre ++ u) (hv : magnitude zds = v) :
    Reads L (.invalidStr (some s) "Integer") sign badcheck v (u.drop (moreDigits b u).length) (do
      let (zds, str) ← readStop (.invalidStr (some s) "Integer") badcheck zds
        (u.drop (moreDigits b u).length)
      let p := s.length - str.length
      if badcheck ∧ 1 < p ∧ s.getD (p - 1) 0 = 95 then .error (.invalidStr (some s) "Integer")
      else if badcheck ∧ str.dropWhile isSpace ≠ [] then .error (.invalidStr (some s) "Integer")
      else pure (bignorm L ⟨sign, zds⟩)) := by
  obtain ⟨c, hc, hdigit⟩ := hu
  cases u with
  | nil => cases hc
  | cons e es =>
      cases hc
      have hmore : moreDigits b (c :: es) ≠ [] := by
        rw [moreDigits_digit hdigit]
        exact List.cons_ne_nil _ _
      obtain ⟨ds, d, hds, hd⟩ := (moreDigits_last b (c :: es)).resolve_left hmore
      have hsplit := moreDigits_append_drop b (c :: es)
      generalize (c :: es).drop (moreDigits b (c :: es)).length = rest at hsplit ⊢
      have hs' : s = (pre ++ ds) ++ d :: rest := by
        rw [hs, ← hsplit, hds, List.append_assoc, List.append_assoc, List.singleton_append]
      by_cases h95 : rest.headD 0 = 95
      · obtain ⟨x, rfl⟩ : ∃ x, rest = 95 :: x := by
          cases rest with
          | nil => exact absurd h95 (by decide)
          | cons r rs => exact ⟨rs, by rw [← h95]; rfl⟩
        have hblank := dropWhile_underscore x
        refine ⟨fun hbad _ => ?_, fun h => ?_⟩
        · -- the byte before what is left is the underscore
          have hs'' : s = (pre ++ ds ++ [d]) ++ 95 :: x := by
            rw [hs', List.append_assoc _ [d], List.singleton_append]
          obtain ⟨hlen, hbyte⟩ := getD_before (pre ++ ds ++ [d]) 95 x
          rw [← hs''] at hlen hbyte
          have hpos : 1 < (pre ++ ds ++ [d]).length + 1 := by
            rw [List.length_append, List.length_singleton]
            omega
          rw [readStop, if_pos h95, List.tail_cons]
          split_ifs
          · rfl
          · rw [ok_bind]
            dsimp only
            rw [hlen, if_pos ⟨hbad, hpos, hbyte⟩]
        · obtain rfl := h.resolve_right hblank
          refine ⟨_, ?_, signed_bignum hv⟩
          rw [readStop, if_pos h95, if_neg (fun h => Bool.false_ne_true h.2), ok_bind]
          dsimp only
          rw [if_neg (fun h => Bool.false_ne_true h.1), if_neg (fun h => Bool.false_ne_true h.1)]
          rfl
      · obtain ⟨hlen, hbyte⟩ := getD_before (pre ++ ds) d rest
        rw [← hs'] at hlen hbyte
        have hne : d ≠ 95 := fun h => not_isDigitOf_underscore b (h ▸ hd)
        have hbefore : ¬ (badcheck = true ∧ 1 < s.length - rest.length ∧
            s.getD (s.length - rest.length - 1) 0 = 95) := by
          rw [hlen, hbyte]
          exact fun h => hne h.2.2
        rw [readStop, if_neg h95, ok_bind]
        dsimp only
        rw [if_neg hbefore]
        refine ⟨fun hbad hblank => if_pos ⟨hbad, hblank⟩, fun h => ⟨_, if_neg ?_, signed_bignum hv⟩⟩
        rintro ⟨hbad, hblank⟩
        rcases h with h | h
        · exact Bool.false_ne_true (h.symm.trans hbad)
        · exact hblank h

/-- The buffer has room for a number. -/
def HasRoom (len : ℤ) (v : ℕ) : Prop := 0 < bufferLen len ∧ (v : ℤ) < bigrad ^ (bufferLen len).toNat

/-- **The path of digits** reads the number if the buffer has room for it, and else leaves the
buffer. -/
theorem bigparse_spec (L : LongSize) (sign badcheck : Bool) (hb : 2 ≤ b) (hb' : b ≤ 36)
    {pre : List UInt8}
    (hu : ∃ c ∈ u.head?, IsDigitOf b c) (hs : s = pre ++ u) (len : ℤ) :
    (HasRoom len (underscored b 0 (moreDigits b u)) →
      Reads L (.invalidStr (some s) "Integer") sign badcheck (underscored b 0 (moreDigits b u))
        (u.drop (moreDigits b u).length) (bigparse L sign badcheck s b len u)) ∧
    (¬ HasRoom len (underscored b 0 (moreDigits b u)) →
      bigparse L sign badcheck s b len u = .error .outOfBounds) := by
  have hhead : ¬ (badcheck = true ∧ u.headD 0 = 95) := by
    obtain ⟨c, hc, hdigit⟩ := hu
    cases u with
    | nil => cases hc
    | cons e es =>
        cases hc
        rintro ⟨-, rfl⟩
        exact not_isDigitOf_underscore b hdigit
  rw [bigparse, if_neg hhead]
  dsimp only
  rcases lt_trichotomy (bufferLen len) 0 with hneg | hzero | hpos
  · exact ⟨fun h => absurd h.1 (by omega), fun _ => if_pos hneg⟩
  · refine ⟨fun h => absurd h.1 (by omega), fun _ => ?_⟩
    -- there is no room for the first digit
    obtain ⟨c, hc, hdigit⟩ := hu
    cases u with
    | nil => cases hc
    | cons e es =>
        cases hc
        have hne : c ≠ 95 := fun h => not_isDigitOf_underscore b (h ▸ hdigit)
        rw [hzero, if_neg (by decide), Int.toNat_zero, List.replicate_zero, readDigits, if_neg hne,
          if_neg (not_lt.mpr hdigit.1), if_neg (not_le.mpr hdigit.2), mulAdd,
          if_neg (fun h => absurd h.1 (by decide))]
        rfl
  · rw [if_neg (by omega)]
    have huse : InUse (List.replicate (bufferLen len).toNat 0) 1 := by
      refine ⟨?_, fun z hz => List.eq_of_mem_replicate (List.mem_of_mem_drop hz)⟩
      rw [List.length_replicate]
      omega
    have hzero : magnitude (List.replicate (bufferLen len).toNat 0) = (0 : ℕ) :=
      magnitude_of_zero fun z hz => List.eq_of_mem_replicate hz
    have hread := readDigits_spec (.invalidStr (some s) "Integer") hb hb' badcheck u huse hzero
    refine ⟨fun h => ?_, fun h => ?_⟩
    · obtain ⟨zds, hval, hrun⟩ := hread.fits (by rw [List.length_replicate]; exact h.2)
      rw [hrun]
      exact readStop_reads hu hs hval
    · rw [hread.exceeds ?_]
      · rfl
      · rw [List.length_replicate]
        exact not_lt.mp fun hlt => h ⟨hpos, hlt⟩

theorem wordInum_is {val : ℕ} (hval : val < 2 ^ L.bits) :
    (wordInum L sign val).Is (signed sign val) := by
  obtain ⟨hmin, hmax, -⟩ := L.fixnum_range
  by_cases h : (val : ℤ) < L.fixnumMax + 1
  · rw [wordInum, if_pos h]
    refine long2fix_is_of_range (v := signed sign val) ?_ ?_
    · rw [signed]
      split_ifs <;> omega
    · rw [signed]
      split_ifs <;> omega
  · rw [wordInum, if_neg h]
    have hmag : (rbUint2big L val).mag = val :=
      mag_rbUint2big (Int.natCast_nonneg _) (by exact_mod_cast hval)
    exact signed_bignum hmag

theorem moreDigits_of_digits {ds rest : List UInt8} (hds : ∀ c ∈ ds, IsDigitOf b c)
    (hrest : ∀ c ∈ rest.head?, ¬ IsDigitOf b c) (h95 : rest.headD 0 ≠ 95) :
    moreDigits b (ds ++ rest) = ds := by
  induction ds with
  | nil =>
      cases rest with
      | nil => rfl
      | cons c cs => exact moreDigits_stop (hrest c rfl) fun h => absurd h h95
  | cons d ds ih =>
      rw [List.cons_append, moreDigits_digit (hds d (List.mem_cons_self ..)),
        ih fun c hc => hds c (List.mem_cons_of_mem _ hc)]

theorem underscored_of_digits {ds : List UInt8} (hds : ∀ c ∈ ds, IsDigitOf b c) (n : ℕ) :
    underscored b n ds = numeral b n ds := by
  rw [underscored, List.filter_eq_self.mpr]
  intro c hc
  refine decide_eq_true ?_
  rintro rfl
  exact not_isDigitOf_underscore b (hds _ hc)

/-- The digits at the beginning of a string. -/
theorem exists_digits (b : ℕ) (u : List UInt8) : ∃ ds rest, u = ds ++ rest ∧
    (∀ c ∈ ds, IsDigitOf b c) ∧ ∀ c ∈ rest.head?, ¬ IsDigitOf b c := by
  induction u with
  | nil => exact ⟨[], [], rfl, fun _ h => (nomatch h), fun _ h => (nomatch h)⟩
  | cons c cs ih =>
      by_cases hc : IsDigitOf b c
      · obtain ⟨ds, rest, rfl, hds, hrest⟩ := ih
        refine ⟨c :: ds, rest, rfl, ?_, hrest⟩
        intro d hd
        rcases List.mem_cons.mp hd with rfl | hd
        · exact hc
        · exact hds d hd
      · refine ⟨[], c :: cs, rfl, fun _ h => (nomatch h), ?_⟩
        intro d hd
        cases hd
        exact hc

/-- A string that is left begins with a zero only if that is the number. -/
def Squeezed (u : List UInt8) : Prop :=
  u.headD 0 = 48 → u.tail = [] ∨ isSpace (u.tail.headD 0) = true

/-- The byte after the digits at the beginning of a string is an underscore. -/
def StopsAtUnderscore (b : ℕ) (u : List UInt8) : Prop :=
  (u.dropWhile fun c => decide (IsDigitOf b c)).headD 0 = 95

theorem stopsAtUnderscore_append {ds rest : List UInt8} (hds : ∀ c ∈ ds, IsDigitOf b c)
    (hrest : ∀ c ∈ rest.head?, ¬ IsDigitOf b c) :
    StopsAtUnderscore b (ds ++ rest) ↔ rest.headD 0 = 95 := by
  have hdrop : (ds ++ rest).dropWhile (fun c => decide (IsDigitOf b c)) = rest := by
    rw [List.dropWhile_append_of_pos fun c hc => decide_eq_true (hds c hc)]
    cases rest with
    | nil => rfl
    | cons c cs => exact List.dropWhile_cons_of_neg (by simpa using hrest c rfl)
  rw [StopsAtUnderscore, hdrop]

/-- **The path of words** goes on at `bigparse` if there is an underscore after the first digits,
and else reads the number; one that is no word is taken for the largest. -/
theorem wordParse_spec (L : LongSize) (sign badcheck : Bool) (s : List UInt8) (hb : 2 ≤ b)
    (hb' : b ≤ 36) (hu : ∃ c ∈ u.head?, IsDigitOf b c)
    (hsq : Squeezed u) :
    (StopsAtUnderscore b u → wordParse L sign badcheck s b u = none) ∧
    (¬ StopsAtUnderscore b u → ∃ run, wordParse L sign badcheck s b u = some run ∧
      (underscored b 0 (moreDigits b u) < 2 ^ L.bits →
        Reads L (.invalidStr (some s) "Integer") sign badcheck (underscored b 0 (moreDigits b u))
          (u.drop (moreDigits b u).length) run) ∧
      (2 ^ L.bits ≤ underscored b 0 (moreDigits b u) → badcheck = false →
        ∃ r, run = .ok r ∧ r.Is (signed sign (2 ^ L.bits - 1)))) := by
  obtain ⟨ds, rest, rfl, hds, hrest⟩ := exists_digits b u
  have hne : ds ≠ [] := by
    rintro rfl
    obtain ⟨c, hc, hdigit⟩ := hu
    exact hrest c hc hdigit
  have hhex : b = 16 → ds.headD 0 = 48 → (ds ++ rest).tail.headD 0 ≠ 120 ∧
      (ds ++ rest).tail.headD 0 ≠ 88 := by
    intro _ h48
    have hhead : (ds ++ rest).headD 0 = 48 := by
      cases ds with
      | nil => exact absurd rfl hne
      | cons d ds => exact h48
    rcases hsq hhead with hnil | hspace
    · rw [hnil]
      decide
    · refine ⟨?_, ?_⟩
      · intro h
        rw [h] at hspace
        exact absurd hspace (by decide)
      · intro h
        rw [h] at hspace
        exact absurd hspace (by decide)
  have hword := rubyStrtoul_numeral (L := L) hb hb' hne hds hrest hhex
  have hn : 0 < ds.length := List.length_pos_of_ne_nil hne
  have hend : (rubyStrtoul L (ds ++ rest) b).endptr.getD 0 = ds.length := by
    rw [hword]
    split_ifs <;> rfl
  rw [stopsAtUnderscore_append hds hrest, wordParse, Int.toNat_natCast, hend, List.drop_left]
  refine ⟨fun h95 => if_pos ⟨hn, h95⟩, fun h95 => ?_⟩
  have hmore := moreDigits_of_digits hds hrest h95
  rw [if_neg fun h => h95 h.2, hmore, List.drop_left, underscored_of_digits hds]
  by_cases hbad : badcheck = true ∧ rest.dropWhile isSpace ≠ []
  · rw [if_pos ⟨hbad.1, .inr hbad.2⟩]
    refine ⟨_, rfl, fun _ => ⟨fun _ _ => rfl, fun h => ?_⟩, fun _ h => ?_⟩
    · rcases h with h | h
      · exact absurd (h.symm.trans hbad.1) Bool.false_ne_true
      · exact absurd h hbad.2
    · exact absurd (h.symm.trans hbad.1) Bool.false_ne_true
  · have hgood : ¬ (badcheck = true ∧ (ds.length = 0 ∨ rest.dropWhile isSpace ≠ [])) :=
      fun h => hbad ⟨h.1, h.2.resolve_left hn.ne'⟩
    rw [if_neg hgood]
    refine ⟨_, rfl, fun hlt => ⟨fun h h' => absurd ⟨h, h'⟩ hbad, fun _ => ⟨_, rfl, ?_⟩⟩,
      fun hle _ => ⟨_, rfl, ?_⟩⟩
    · rw [hword, if_neg (not_le.mpr hlt)]
      exact wordInum_is hlt
    · rw [hword, if_pos hle]
      exact wordInum_is (Nat.sub_lt (by positivity) Nat.one_pos)

end Paths

end MacRuby
