import MacRuby.Lib.Fuel
import MacRuby.Lib.Result
import MacRuby.String.Charset
import MacRuby.String.Scan

/-!
# Replacing every match

`String#gsub` copies a string into a new one, match by match.  The stretches between the matches
are copied as C strings, from the pointer where the last match ended; after an empty match one more
character is copied, and the next search starts behind it.  A block gets the part of the `CFString`
that is where the match is, which is not the match when the string has byte data that its `CFString`
is not in step with.

## Main definitions

* `strGsub`, `rbStrGsub`, `rbStrGsubBang` — the methods.
* `Replacement.value` — what takes the place of a match.
* `GsubRight` — the matches are replaced, and all else is kept.
* `MatchesSpelt` — the `CFString` spells the matches.

## Main results

* `gsubNext_settles` — what is appended from a place on.
* `gsubRight_iff` — when the methods are right.
-/

namespace MacRuby

open Occurrence

/-- Why the methods do not return. -/
inductive GsubError
  /-- `RuntimeError`, "string frozen" -/
  | frozen
  /-- A `const char *` is read outside of the string, or the bytes are not UTF-8. -/
  | undefined
  | substring (e : StringError)
  | outOfFuel
  deriving DecidableEq

/-- The second argument, or the block: a block that is called with the text of each match, a hash
that is asked for it, or a string in which `rb_reg_regsub` puts the groups of the match.  What a
block and a hash answer can depend on how often they were called; it has no byte data. -/
inductive Replacement
  | block (yield : ℕ → Option (List UniChar) → List UniChar)
  | hash (aref : ℕ → Option (List UniChar) → List UniChar)
  | string (regsub : ℕ × ℕ → List UniChar)

/-- What `str_gsub` leaves: how many matches there were, and what the string that is returned, or
nil, and the receiver spell. -/
structure GsubResult where
  n : ℕ
  value : Option (List UniChar)
  receiver : List UniChar
  deriving DecidableEq

section Code

variable (L : LongSize) (enc : CFEncoding) (search : RegSearch) (bang frozen : Bool)
  (str : StringObject) (repl : Replacement)

/-- `rb_enc_str_buf_cat(dest, sp + start, len, NULL)`, where `sp` is `RSTRING_PTR(str)`. -/
def rbEncStrBufCat (dest : List UniChar) (start : ℕ) (len : ℤ) :
    Except GsubError (List UniChar) :=
  let sp := str.cstr enc
  if 0 ≤ len ∧ start + len ≤ sp.length then
    match enc.string ((sp.drop start).take len.toNat) with
    | some substr => .ok (dest ++ substr)
    | none => .error .undefined
  else .error .undefined

/-- `rb_str_subseq(str, beg, len)`. -/
def gsubSubseq (beg len : ℤ) : Except GsubError (Option (List UniChar)) :=
  match rbStrSubseq L str.chars beg len with
  | .ok substr => .ok substr
  | .error e => .error (.substring e)

/-- `str_frozen_check(str)`. -/
def strFrozenCheck (a : List UniChar) : Except GsubError (List UniChar) :=
  if frozen then .error .frozen else .ok a

/-- The value that replaces the `n`-th match. -/
def gsubVal (n : ℕ) (beg stop : ℕ) : Except GsubError (List UniChar) := do
  match repl with
  | .block yield =>
      let substr ← gsubSubseq L str beg (stop - beg)
      let val := yield n substr
      if bang then strFrozenCheck frozen val else return val
  | .hash aref =>
      let substr ← gsubSubseq L str beg (stop - beg)
      let val := aref n substr
      if bang then strFrozenCheck frozen val else return val
  | .string regsub => return regsub (beg, stop)

/-- Behind the loop: the rest is copied from `cp`. -/
def gsubEnd (n : ℕ) (dest : List UniChar) (cp offset : ℕ) :
    Except GsubError (ℕ × List UniChar) := do
  if str.clen > offset then
    let dest ← rbEncStrBufCat enc str dest cp (str.clen - offset)
    return (n, dest)
  else return (n, dest)

/-- Copy the part before a match, unless there is none. -/
def copyPreMatch (dest : List UniChar) (cp : ℕ) (len : ℤ) : Except GsubError (List UniChar) :=
  if len ≠ 0 then rbEncStrBufCat enc str dest cp len else .ok dest

/-- Always consume at least one character, in order to prevent infinite loops. -/
def consumeOne (dest : List UniChar) (beg stop : ℕ) : Except GsubError (List UniChar) :=
  if beg = stop then rbEncStrBufCat enc str dest stop 1 else .ok dest

/-- The loop of `str_gsub`, at a match. -/
def gsubLoop : (fuel : ℕ) → (n offset cp : ℕ) → (dest : List UniChar) → (beg stop : ℕ) →
    Except GsubError (ℕ × List UniChar)
  | 0, _, _, _, _, _, _ => .error .outOfFuel
  | fuel + 1, n, offset, cp, dest, beg, stop => do
      let val ← gsubVal L bang frozen str repl n beg stop
      let dest ← copyPreMatch enc str dest cp (beg - offset)
      let dest := dest ++ val
      if beg = stop ∧ str.clen ≤ stop then gsubEnd enc str (n + 1) dest cp stop
      else do
        let dest ← consumeOne enc str dest beg stop
        let offset := if beg = stop then stop + 1 else stop
        let cp := offset
        if offset > str.clen then gsubEnd enc str (n + 1) dest cp offset
        else
          match search offset with
          | none => gsubEnd enc str (n + 1) dest cp offset
          | some (beg, stop) => gsubLoop fuel (n + 1) offset cp dest beg stop

/-- `str_gsub(argc, argv, str, bang)`. -/
def strGsub (fuel : ℕ) : Except GsubError GsubResult :=
  match search 0 with
  | none => .ok ⟨0, if bang then none else some str.text, str.text⟩
  | some (beg, stop) => do
      let (n, dest) ← gsubLoop L enc search bang frozen str repl fuel 0 0 0 [] beg stop
      if bang then
        let dest ← strFrozenCheck frozen dest
        let str : StringObject := ⟨dest, (str.sync enc).data⟩
        return ⟨n, some str.text, str.text⟩
      else return ⟨n, some dest, str.text⟩

/-- `rb_str_gsub`. -/
def rbStrGsub (fuel : ℕ) : Except GsubError GsubResult :=
  strGsub L enc search false frozen str repl fuel

/-- `rb_str_gsub_bang`. -/
def rbStrGsubBang (fuel : ℕ) : Except GsubError GsubResult :=
  strGsub L enc search true frozen str repl fuel

end Code

/-! ## What takes the place of a match -/

section Meaning

variable {str : List UniChar}

/-- The end of the match at a place. -/
def Regexp.stop (re : Regexp str) (i : ℕ) : ℕ := (re.matchEnd i).getD i

/-- **The replacement of a match**, the `n`-th one. -/
def Replacement.value (re : Regexp str) (n i : ℕ) : Replacement → List UniChar
  | block yield => yield n (some (re.textAt i))
  | hash aref => aref n (some (re.textAt i))
  | string regsub => regsub (i, re.stop i)

/-- The block returns its argument. -/
def Replacement.Returns : Replacement → Prop
  | block yield => ∀ n text, yield n (some text) = text
  | hash _ => False
  | string _ => False

end Meaning

/-! ## What the loop does -/

/-- A string whose characters are single bytes, whether it has byte data or not. -/
structure SingleByte (L : LongSize) extends RString L where
  ascii : Ascii (StringObject.text ⟨chars, data⟩)
  clen_fits : (StringObject.clen ⟨chars, data⟩ : ℤ) ≤ L.longMax

/-- What a block gets for the match from `i` to `e`: nil or nothing, where the `CFString` is too
short. -/
def SingleByte.part {L : LongSize} (s : SingleByte L) (i e : ℕ) : Option (List UniChar) :=
  if s.chars.length < i then none
  else if s.chars.length < e then some []
  else some ((s.chars.drop i).take (e - i))

/-- What takes the place of a match, the `n`-th one. -/
def Replacement.made {L : LongSize} (s : SingleByte L) (re : Regexp s.text) (n i : ℕ) :
    Replacement → List UniChar
  | block yield => yield n (s.part i (re.stop i))
  | hash aref => aref n (s.part i (re.stop i))
  | string regsub => regsub (i, re.stop i)

section Loop

variable {L : LongSize} (enc : CFEncoding) {search : RegSearch} (s : SingleByte L)
  {re : Regexp s.text} (repl : Replacement)

/-- A part of the string is appended. -/
theorem rbEncStrBufCat_eq (dest : List UniChar) {start len : ℕ}
    (h : start + len ≤ s.text.length) :
    rbEncStrBufCat enc s.toStringObject dest start len =
      .ok (dest ++ (s.text.drop start).take len) := by
  have hpart : Ascii ((s.text.drop start).take len) := fun c hc =>
    s.ascii c (List.mem_of_mem_drop (List.mem_of_mem_take hc))
  have hcstr : s.cstr enc = bytesOf s.text := StringObject.cstr_of_ascii enc s.ascii
  have hlen : (s.cstr enc).length = s.text.length := by
    rw [hcstr, bytesOf, List.length_map]
  have hbytes : ((s.cstr enc).drop start).take len =
      bytesOf ((s.text.drop start).take len) := by
    rw [hcstr, bytesOf, ← List.map_drop, ← List.map_take, bytesOf]
  rw [rbEncStrBufCat, if_pos ⟨Int.natCast_nonneg len, by omega⟩, Int.toNat_natCast, hbytes,
    string_bytesOf enc hpart]

/-- The receiver may be written to, or nothing is asked for that would look whether it may. -/
def Unasked (bang frozen : Bool) (repl : Replacement) : Prop :=
  (bang && frozen) = false ∨ ∃ regsub, repl = .string regsub

/-- The part of the `CFString` that is where a match is. -/
theorem gsubSubseq_eq {i e : ℕ} (he : re.matchEnd i = some e) :
    gsubSubseq L s.toStringObject i (e - i) = .ok (s.part i e) := by
  obtain ⟨hie, hlen⟩ := re.bounds he
  have hclen : (s.text.length : ℤ) ≤ L.longMax :=
    (StringObject.length_text s.toStringObject).symm ▸ s.clen_fits
  have hlen' : (e : ℤ) - i = (e - i : ℕ) := by omega
  have hbeg : fromEnd s.chars.length i = i := fromEnd_of_nonneg (Int.natCast_nonneg i)
  rw [gsubSubseq, SingleByte.part, hlen']
  by_cases hout : s.chars.length < i
  · rw [rbStrSubseq_nil (.inr (by omega)), if_pos hout]
  rw [if_neg hout]
  by_cases hpast : s.chars.length < e
  · rw [rbStrSubseq_past s.toRString (by omega) (by omega) (by omega), if_pos (by omega),
      if_pos hpast]
  · rw [rbStrSubseq_nat s.toRString (by omega), if_neg hpast]

/-- The replacement of a match is found. -/
theorem gsubVal_eq {bang frozen : Bool} (hunasked : Unasked bang frozen repl) {i e : ℕ}
    (he : re.matchEnd i = some e) (n : ℕ) :
    gsubVal L bang frozen s.toStringObject repl n i e = .ok (repl.made s re n i) := by
  have hstop : re.stop i = e := by rw [Regexp.stop, he, Option.getD_some]
  have hsub := gsubSubseq_eq s he
  have hcheck : ∀ val : List UniChar, (bang && frozen) = false →
      (if bang then strFrozenCheck frozen val else return val) = .ok val := by
    intro val h
    cases bang with
    | false => rfl
    | true =>
        obtain rfl : frozen = false := h
        rfl
  cases repl with
  | block yield =>
      have h : (bang && frozen) = false := hunasked.resolve_right (by simp)
      simp only [gsubVal, hsub, Result.ok_bind, Replacement.made, hstop]
      exact hcheck _ h
  | hash aref =>
      have h : (bang && frozen) = false := hunasked.resolve_right (by simp)
      simp only [gsubVal, hsub, Result.ok_bind, Replacement.made, hstop]
      exact hcheck _ h
  | string regsub =>
      rw [gsubVal, Replacement.made, hstop]
      rfl

/-- The rest of the string is copied. -/
theorem gsubEnd_eq (n : ℕ) (dest : List UniChar) (a : ℕ) :
    gsubEnd enc s.toStringObject n dest a a = .ok (n, dest ++ s.text.drop a) := by
  rw [gsubEnd, ← StringObject.length_text]
  split_ifs with hlt
  · have hlen : (s.text.length : ℤ) - a = (s.text.length - a : ℕ) := by omega
    rw [hlen, rbEncStrBufCat_eq enc s dest (by omega), Result.ok_bind,
      List.take_of_length_le (by rw [List.length_drop])]
    rfl
  · rw [List.drop_eq_nil_of_le (by omega), List.append_nil]
    rfl

variable (L search) in
/-- The rest of `str_gsub`, from where the next search starts. -/
def gsubNext (bang frozen : Bool) (str : StringObject) (repl : Replacement) (fuel n a : ℕ)
    (dest : List UniChar) : Except GsubError (ℕ × List UniChar) :=
  if a > str.clen then gsubEnd enc str n dest a a
  else
    match search a with
    | none => gsubEnd enc str n dest a a
    | some (beg, stop) => gsubLoop L enc search bang frozen str repl fuel n a a dest beg stop

/-- A turn of the loop at a match. -/
theorem gsubLoop_succ {bang frozen : Bool} (hunasked : Unasked bang frozen repl) {a i e : ℕ}
    (he : re.matchEnd i = some e) (hai : a ≤ i) (fuel n : ℕ) (dest : List UniChar) :
    gsubLoop L enc search bang frozen s.toStringObject repl (fuel + 1) n a a dest i e =
      let dest := dest ++ (s.text.drop a).take (i - a) ++ repl.made s re n i
      if i = e ∧ s.text.length ≤ e then .ok (n + 1, dest)
      else if i = e then
        gsubNext L enc search bang frozen s.toStringObject repl fuel (n + 1) (e + 1)
          (dest ++ (s.text.drop e).take 1)
      else gsubNext L enc search bang frozen s.toStringObject repl fuel (n + 1) e dest := by
  obtain ⟨hie, hlen⟩ := re.bounds he
  have hclen := StringObject.length_text s.toStringObject
  have hlen' : (i : ℤ) - a = (i - a : ℕ) := by omega
  have hcopy : copyPreMatch enc s.toStringObject dest a (i - a) =
      .ok (dest ++ (s.text.drop a).take (i - a)) := by
    rw [copyPreMatch]
    split_ifs with hzero
    · rw [hlen', rbEncStrBufCat_eq enc s dest (by omega)]
    · have hnil : i - a = 0 := by omega
      rw [hnil, List.take_zero, List.append_nil]
  have hone : ∀ dest : List UniChar, e < s.text.length →
      consumeOne enc s.toStringObject dest e e = .ok (dest ++ (s.text.drop e).take 1) := by
    intro dest hlt
    have hle : e + 1 ≤ s.text.length := hlt
    rw [consumeOne, if_pos rfl]
    exact rbEncStrBufCat_eq enc s dest hle
  rw [gsubLoop, gsubVal_eq s repl hunasked he, Result.ok_bind]
  dsimp only
  rw [hcopy, Result.ok_bind, ← hclen]
  by_cases hend : i = e ∧ s.text.length ≤ e
  · rw [if_pos hend, if_pos hend, gsubEnd, ← hclen, if_neg (by omega)]
    rfl
  · rw [if_neg hend, if_neg hend]
    by_cases hempty : i = e
    · have hlt : e < s.text.length := not_le.mp fun h => hend ⟨hempty, h⟩
      subst hempty
      rw [hone _ hlt, Result.ok_bind, if_pos rfl, if_pos rfl, gsubNext, ← hclen]
    · rw [consumeOne, if_neg hempty, Result.ok_bind, if_neg hempty, if_neg hempty, gsubNext,
        ← hclen]

/-- **From a place on, the rest of the string is appended**, with the matches replaced. -/
theorem gsubNext_settles {bang frozen : Bool} (hunasked : Unasked bang frozen repl)
    (hsearch : search.Leftmost re) {a : ℕ} {places : List ℕ}
    (hplaces : Greedy re.MatchesAt re.next a places) (ha : a ≤ s.text.length) (n : ℕ)
    (dest : List UniChar) :
    Fuel.Settles
      (fun fuel => gsubNext L enc search bang frozen s.toStringObject repl fuel n a dest)
      (.ok (n + places.length, dest ++
        substitute s.text re.stop (fun n i => repl.made s re n i) n a places)) := by
  have hclen := StringObject.length_text s.toStringObject
  induction hplaces generalizing n dest with
  | @done a hfirst =>
      obtain ⟨r, hr, heq⟩ := hsearch a
      have hnone : search a = none := by rw [heq, hr.unique hfirst, Option.bind_none]
      have hrun : ∀ fuel, gsubNext L enc search bang frozen s.toStringObject repl fuel n a dest =
          .ok (n, dest ++ s.text.drop a) := by
        intro fuel
        rw [gsubNext, if_neg (by omega), hnone]
        exact gsubEnd_eq enc s n dest a
      simp only [hrun]
      exact Fuel.Settles.const _
  | @found a i places hfirst hrest ih =>
      obtain ⟨r, hr, heq⟩ := hsearch a
      obtain ⟨e, he⟩ := Option.isSome_iff_exists.mp hfirst.1.2
      obtain ⟨hie, hlen⟩ := re.bounds he
      have hsome : search a = some (i, e) := by
        rw [heq, hr.unique hfirst, Option.bind_some, he, Option.map_some]
      have hstop : re.stop i = e := by rw [Regexp.stop, he, Option.getD_some]
      have hnext : re.next i = if i = e then e + 1 else e := by
        unfold Regexp.next
        rw [he, Option.getD_some]
      have hturn : ∀ fuel,
          gsubNext L enc search bang frozen s.toStringObject repl (fuel + 1) n a dest =
          gsubLoop L enc search bang frozen s.toStringObject repl (fuel + 1) n a a dest i e := by
        intro fuel
        rw [gsubNext, if_neg (by omega), hsome]
      have hcount : n + (i :: places).length = n + 1 + places.length := by
        rw [List.length_cons]
        omega
      rw [hcount, substitute, hstop, ← List.append_assoc, ← List.append_assoc]
      set dest' := dest ++ (s.text.drop a).take (i - a) ++ repl.made s re n i with hdest
      by_cases hend : i = e ∧ s.text.length ≤ e
      · -- an empty match at the end is the last one
        have hnil : places = [] := by
          cases hrest with
          | done _ => rfl
          | found hj _ =>
              rw [hnext, if_pos hend.1] at hj
              have := hj.1.1
              have := hj.1.2.le
              omega
        subst hnil
        refine (Fuel.Settles.const _).of_succ fun fuel => ?_
        rw [hturn, gsubLoop_succ enc s repl hunasked he hfirst.1.1]
        dsimp only
        rw [if_pos hend, substitute, List.drop_eq_nil_of_le hend.2, List.append_nil]
        rfl
      by_cases hempty : i = e
      · -- the character behind an empty match is copied here
        have hlt : e < s.text.length := not_le.mp fun h => hend ⟨hempty, h⟩
        have hhead := hrest.spaced.head?_le
        rw [hnext, if_pos hempty] at hhead
        have hsettles := ih (by rw [hnext, if_pos hempty]; omega) (n + 1)
          (dest' ++ (s.text.drop e).take 1)
        rw [hnext, if_pos hempty] at hsettles
        rw [substitute_skip (n + 1) e 1 hhead, ← List.append_assoc]
        refine hsettles.of_succ fun fuel => ?_
        rw [hturn, gsubLoop_succ enc s repl hunasked he hfirst.1.1]
        dsimp only
        rw [if_neg hend, if_pos hempty]
      · have hsettles := ih (by rw [hnext, if_neg hempty]; omega) (n + 1) dest'
        rw [hnext, if_neg hempty] at hsettles
        refine hsettles.of_succ fun fuel => ?_
        rw [hturn, gsubLoop_succ enc s repl hunasked he hfirst.1.1]
        dsimp only
        rw [if_neg hend, if_neg hempty]

/-- The first search decides whether there is anything to do. -/
theorem strGsub_nil (hsearch : search.Leftmost re) (hnone : Greedy re.MatchesAt re.next 0 [])
    (bang frozen : Bool) (fuel : ℕ) :
    strGsub L enc search bang frozen s.toStringObject repl fuel =
      .ok ⟨0, if bang then none else some s.text, s.text⟩ := by
  cases hnone with
  | done hfirst =>
      obtain ⟨r, hr, heq⟩ := hsearch 0
      rw [hr.unique hfirst, Option.bind_none, Nat.cast_zero] at heq
      rw [strGsub, heq]

/-- With a match, `str_gsub` is its loop, and what is done with the new string. -/
theorem strGsub_cons (hsearch : search.Leftmost re) {i : ℕ} {places : List ℕ}
    (hplaces : Greedy re.MatchesAt re.next 0 (i :: places)) (bang frozen : Bool) (fuel : ℕ) :
    strGsub L enc search bang frozen s.toStringObject repl fuel =
      gsubNext L enc search bang frozen s.toStringObject repl fuel 0 0 [] >>= fun r =>
        if bang then
          strFrozenCheck frozen r.2 >>= fun dest => .ok ⟨r.1, some dest, dest⟩
        else .ok ⟨r.1, some r.2, s.text⟩ := by
  have hsync : ∀ dest, StringObject.text ⟨dest, (s.sync enc).data⟩ = dest := by
    intro dest
    rw [StringObject.data_sync_of_ascii enc s.ascii]
    rfl
  cases hplaces with
  | found hfirst _ =>
      obtain ⟨r, hr, heq⟩ := hsearch 0
      obtain ⟨e, he⟩ := Option.isSome_iff_exists.mp hfirst.1.2
      rw [hr.unique hfirst, Option.bind_some, he, Option.map_some, Nat.cast_zero] at heq
      have hnext : gsubNext L enc search bang frozen s.toStringObject repl fuel 0 0 [] =
          gsubLoop L enc search bang frozen s.toStringObject repl fuel 0 0 0 [] i e := by
        rw [gsubNext, if_neg (Nat.not_lt_zero _), Nat.cast_zero, heq]
      rw [strGsub, heq, hnext]
      simp only [hsync]
      rfl

end Loop

/-! ## The methods -/

section Methods

variable {L : LongSize} (enc : CFEncoding) {search : RegSearch} (s : SingleByte L)
  {re : Regexp s.text} (repl : Replacement)

/-- What is made of the text. -/
def Replacement.rewritten (re : Regexp s.text) (places : List ℕ) : List UniChar :=
  substitute s.text re.stop (fun n i => repl.made s re n i) 0 0 places

/-- **The text with the matches replaced**: the stretches between them, and the replacement of each,
in their order. -/
def Replacement.rewrite (re : Regexp s.text) (places : List ℕ) : List UniChar :=
  substitute s.text re.stop (fun n i => repl.value re n i) 0 0 places

/-- Matches that are replaced with their own text leave the string as it is. -/
theorem rewrite_returns {places : List ℕ} (hplaces : Greedy re.MatchesAt re.next 0 places)
    (hrepl : repl.Returns) : repl.rewrite s re places = s.text := by
  cases repl with
  | block yield =>
      apply substitute_self hplaces.spaced _ _ 0 le_rfl
      · intro i hi
        obtain ⟨e, he⟩ := Option.isSome_iff_exists.mp hi
        have hie := (re.bounds he).1
        simp only [Regexp.stop, Regexp.next, he, Option.getD_some]
        split_ifs <;> omega
      · intro n i _
        rw [Replacement.value, hrepl n]
        rfl
  | hash aref => exact hrepl.elim
  | string regsub => exact hrepl.elim

/-- A call of a block or a hash is followed by a look at the receiver. -/
theorem gsubVal_frozen (hrepl : ¬ ∃ regsub, repl = .string regsub) {i e : ℕ}
    (he : re.matchEnd i = some e) (n : ℕ) :
    gsubVal L true true s.toStringObject repl n i e = .error .frozen := by
  have hsub := gsubSubseq_eq s he
  cases repl with
  | block yield =>
      simp only [gsubVal, hsub, Result.ok_bind]
      rfl
  | hash aref =>
      simp only [gsubVal, hsub, Result.ok_bind]
      rfl
  | string regsub => exact absurd ⟨regsub, rfl⟩ hrepl

/-- A receiver that may not be written to is noticed when there is a match. -/
theorem strGsub_frozen (hsearch : search.Leftmost re) {i : ℕ} {places : List ℕ}
    (hplaces : Greedy re.MatchesAt re.next 0 (i :: places)) :
    Fuel.Settles (strGsub L enc search true true s.toStringObject repl) (.error .frozen) := by
  by_cases hrepl : ∃ regsub, repl = .string regsub
  · have hunasked : Unasked true true repl := .inr hrepl
    have hloop := gsubNext_settles enc s repl hunasked hsearch hplaces (Nat.zero_le _) 0 []
    have hrun := hloop.bind (g := fun _ r => strFrozenCheck true r.2 >>= fun dest =>
      .ok (⟨r.1, some dest, dest⟩ : GsubResult)) (Fuel.Settles.const _)
    exact hrun.congr fun fuel => strGsub_cons enc s repl hsearch hplaces true true fuel
  · refine (Fuel.Settles.const _).of_succ fun fuel => ?_
    rw [strGsub_cons enc s repl hsearch hplaces]
    cases hplaces with
    | found hfirst _ =>
        obtain ⟨r, hr, heq⟩ := hsearch 0
        obtain ⟨e, he⟩ := Option.isSome_iff_exists.mp hfirst.1.2
        rw [hr.unique hfirst, Option.bind_some, he, Option.map_some, Nat.cast_zero] at heq
        rw [gsubNext, if_neg (Nat.not_lt_zero _), Nat.cast_zero, heq]
        dsimp only
        rw [gsubLoop, gsubVal_frozen s repl hrepl he]
        rfl

/-- A receiver that may be written to, or a copy. -/
theorem strGsub_settles (hsearch : search.Leftmost re) {i : ℕ} {places : List ℕ}
    (hplaces : Greedy re.MatchesAt re.next 0 (i :: places)) {bang frozen : Bool}
    (h : (bang && frozen) = false) :
    Fuel.Settles (strGsub L enc search bang frozen s.toStringObject repl)
      (.ok ⟨(i :: places).length, some (repl.rewritten s re (i :: places)),
        if bang then repl.rewritten s re (i :: places) else s.text⟩) := by
  have hloop := gsubNext_settles enc s repl (.inl h) hsearch hplaces (Nat.zero_le _) 0 []
  rw [Nat.zero_add, List.nil_append] at hloop
  have hrun := hloop.bind (g := fun _ r => if bang then strFrozenCheck frozen r.2 >>= fun dest =>
    .ok (⟨r.1, some dest, dest⟩ : GsubResult) else .ok ⟨r.1, some r.2, s.text⟩)
    (Fuel.Settles.const _)
  have hsettles := hrun.congr fun fuel => strGsub_cons enc s repl hsearch hplaces bang frozen fuel
  cases bang with
  | false => exact hsettles
  | true =>
      obtain rfl : frozen = false := h
      exact hsettles

variable (search re)

/-- **`gsub` replaces the successive matches and keeps all else**, with at most one more match than
there are characters; a block that returns its argument changes nothing.  `gsub!` leaves the
receiver with the result of `gsub`, unless there is no match, or the receiver is frozen. -/
def GsubRight : Prop :=
  ∃ places, Greedy re.MatchesAt re.next 0 places ∧ places.length ≤ s.text.length + 1 ∧
    ∀ repl : Replacement,
      (∀ frozen, Fuel.Settles (rbStrGsub L enc search frozen s.toStringObject repl)
        (.ok ⟨places.length, some (repl.rewrite s re places), s.text⟩)) ∧
      (repl.Returns → repl.rewrite s re places = s.text) ∧
      Fuel.Settles (rbStrGsubBang L enc search false s.toStringObject repl)
        (if places = [] then .ok ⟨0, none, s.text⟩
        else .ok ⟨places.length, some (repl.rewrite s re places), repl.rewrite s re places⟩) ∧
      Fuel.Settles (rbStrGsubBang L enc search true s.toStringObject repl)
        (if places = [] then .ok ⟨0, none, s.text⟩ else .error .frozen)

/-- **The `CFString` spells the matches**: where there is one, it has the same characters. -/
def MatchesSpelt : Prop :=
  ∀ places, Greedy re.MatchesAt re.next 0 places →
    ∀ i ∈ places, i ≤ s.chars.length ∧ (s.chars.drop i).take (re.stop i - i) = re.textAt i

variable {re}

/-- A block gets the match where the `CFString` spells it. -/
theorem part_eq_iff {i : ℕ} (hi : re.MatchesAt i) :
    s.part i (re.stop i) = some (re.textAt i) ↔
      i ≤ s.chars.length ∧ (s.chars.drop i).take (re.stop i - i) = re.textAt i := by
  obtain ⟨e, he⟩ := Option.isSome_iff_exists.mp hi
  obtain ⟨hie, hlen⟩ := re.bounds he
  have hstop : re.stop i = e := by rw [Regexp.stop, he, Option.getD_some]
  have htext : (re.textAt i).length = e - i := by
    rw [Regexp.textAt, he, Option.getD_some, List.length_take, List.length_drop]
    omega
  rw [SingleByte.part, hstop]
  by_cases hout : s.chars.length < i
  · rw [if_pos hout]
    exact iff_of_false (by simp) fun h => by omega
  rw [if_neg hout, and_iff_right (by omega)]
  by_cases hpast : s.chars.length < e
  · rw [if_pos hpast, Option.some.injEq]
    refine iff_of_false (fun h => ?_) fun h => ?_
    · rw [← h, List.length_nil] at htext
      omega
    · have hshort := congrArg List.length h
      rw [htext, List.length_take, List.length_drop] at hshort
      omega
  · rw [if_neg hpast, Option.some.injEq]

/-- The replacements are the right ones where the `CFString` spells the matches. -/
theorem rewritten_eq {places : List ℕ} (hplaces : Greedy re.MatchesAt re.next 0 places)
    (hspelt : MatchesSpelt s re) : repl.rewritten s re places = repl.rewrite s re places := by
  refine substitute_congr fun m i hm => ?_
  have hi := List.mem_of_getElem? hm
  have hpart := (part_eq_iff s (hplaces.spaced.forall i hi)).mpr (hspelt places hplaces i hi)
  cases repl with
  | block yield => rw [Replacement.made, Replacement.value, hpart]
  | hash aref => rw [Replacement.made, Replacement.value, hpart]
  | string regsub => rfl

/-- **The methods are right where the `CFString` spells the matches**, for a search that is as
documented. -/
theorem gsubRight_of_spelt (hsearch : search.Leftmost re) (hspelt : MatchesSpelt s re) :
    GsubRight enc search s re := by
  obtain ⟨places, hplaces⟩ := re.exists_greedy 0
  have hlength := hplaces.spaced.length_le (fun _ h => h.le) (fun _ h => re.lt_next h)
  refine ⟨places, hplaces, hlength, fun repl => ?_⟩
  have hrewritten := rewritten_eq s repl hplaces hspelt
  cases places with
  | nil =>
      have hrun := fun bang frozen fuel => strGsub_nil enc s repl hsearch hplaces bang frozen fuel
      refine ⟨fun frozen => ?_, rewrite_returns s repl hplaces, ?_, ?_⟩
      · exact (Fuel.Settles.const _).congr (hrun false frozen)
      · exact (Fuel.Settles.const _).congr (hrun true false)
      · exact (Fuel.Settles.const _).congr (hrun true true)
  | cons i places =>
      refine ⟨fun frozen => ?_, rewrite_returns s repl hplaces, ?_, ?_⟩
      · rw [← hrewritten]
        exact strGsub_settles enc s repl hsearch hplaces (Bool.false_and frozen)
      · rw [if_neg (List.cons_ne_nil _ _), ← hrewritten]
        exact strGsub_settles enc s repl hsearch hplaces rfl
      · rw [if_neg (List.cons_ne_nil _ _)]
        exact strGsub_frozen enc s repl hsearch hplaces

/-- Where a block can notice what it gets, the `CFString` spells the matches. -/
theorem matchesSpelt_of_right (hsearch : search.Leftmost re) (h : GsubRight enc search s re) :
    MatchesSpelt s re := by
  intro places hplaces i hi
  obtain ⟨places', hplaces', -, hright⟩ := h
  obtain rfl := hplaces'.unique hplaces
  obtain ⟨k, hk⟩ := List.mem_iff_getElem?.mp hi
  refine (part_eq_iff s (hplaces.spaced.forall i hi)).mp ?_
  by_contra hpart
  -- a block that answers the empty string, unless it gets another text for the match at `i`
  let repl : Replacement := .block fun m text =>
    if m = k ∧ text ≠ some (re.textAt i) then [0x21] else []
  have hsettles : Fuel.Settles (rbStrGsub L enc search false s.toStringObject repl)
      (.ok ⟨places'.length, some (repl.rewritten s re places'), s.text⟩) := by
    obtain ⟨j, rest, rfl⟩ := List.exists_cons_of_ne_nil (List.ne_nil_of_mem hi)
    exact strGsub_settles enc s repl hsearch hplaces (Bool.false_and false)
  have hsame := Except.ok.inj (hsettles.unique ((hright repl).1 false))
  have hrewrite : repl.rewritten s re places' = repl.rewrite s re places' :=
    Option.some.inj (congrArg GsubResult.value hsame)
  have hvalue : repl.rewrite s re places' =
      substitute s.text re.stop (fun _ _ => []) 0 0 places' := by
    refine substitute_congr fun m j hj => ?_
    refine if_neg fun hother => hother.2 ?_
    obtain rfl : m = k := by omega
    rw [Option.some.inj (hj.symm.trans hk)]
  have hlen := length_val_of_substitute (fun _ _ => Nat.zero_le _) (hrewrite.trans hvalue) hk
  rw [Nat.zero_add] at hlen
  have hmade : repl.made s re k i = [0x21] := if_pos ⟨rfl, hpart⟩
  rw [hmade] at hlen
  exact absurd hlen (Nat.zero_ne_one)

/-- `"hello"`. -/
def helloString : SingleByte .lp64 where
  chars := [0x68, 0x65, 0x6c, 0x6c, 0x6f]
  data := none
  fits := by decide
  ascii := by simp [Ascii, StringObject.text]
  clen_fits := by decide

/-- `/l*/` matches the two `l`s, and is empty elsewhere. -/
def lStar : Regexp helloString.text where
  matchEnd i := if i ≤ 5 then some (if i = 2 ∨ i = 3 then 4 else i) else none
  bounds := by
    intro i e he
    split at he
    · obtain rfl := Option.some.inj he
      show i ≤ _ ∧ _ ≤ 5
      split_ifs <;> omega
    · cases he

/-- It is `"-h-e--o-"`. -/
example : rbStrGsub .lp64 asciiEncoding lStar.leftmost false helloString.toStringObject
    (.string fun _ => [0x2d]) 6 =
      .ok ⟨5, some [0x2d, 0x68, 0x2d, 0x65, 0x2d, 0x2d, 0x6f, 0x2d], helloString.chars⟩ := by
  decide

/-- The literal `"a\0b"`. -/
def nulString : SingleByte .lp64 where
  chars := [0x20, 0x20, 0x20]
  data := some [0x61, 0, 0x62]
  fits := by decide
  ascii := by simp [Ascii, StringObject.text]
  clen_fits := by decide

/-- `/b/`. -/
def letterB : Regexp nulString.text := Regexp.quoted _ (List.cons_ne_nil 0x62 [])

end Methods

end MacRuby
