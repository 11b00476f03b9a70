import MacRuby.String.Regexp
import MacRuby.String.Slice
import MacRuby.Lib.Fuel
import Mathlib.Data.List.DropRight

/-!
# Splitting a string

`String#split` cuts a string at a separator, which is a string, a regexp, or white space.  A
positive limit bounds the number of fields, the last of which is the rest of the string; a negative
one keeps the empty fields at the end, which otherwise are removed.  The number of fields is kept in
an `int` while these are removed.  The search is in the `CFString`, with the length that
`RSTRING_LEN` gives.

## Main definitions

* `rbStrSplitM` — the function.
* `SplitCall`, `SplitRight` — a call, and that its result is the right one.
* `Trims` — an `int` counts the empty fields at the end.

## Main results

* `splitRight_iff` — the calls whose result is right.
-/

namespace MacRuby

open Occurrence

/-- The white space of the platform: `kCFCharacterSetWhitespaceAndNewline`, with the place that
`CFStringFindCharacterFromSet` finds in a range and what `CFStringTrimWhitespace` makes of a
string. -/
structure CFSpaces where
  isSpace : UniChar → Bool
  findSpace : (str : List UniChar) → (location length : ℕ) → Option ℕ
  trim : List UniChar → List UniChar

/-- What a string is split at.  `nil` stands for no separator, with `$;` unset. -/
inductive SplitPattern
  | nil
  | string (spat : StringObject)
  | regexp (search : RegSearch)

section Code

variable (L : LongSize) (find : CFFind) (spaces : CFSpaces) (str : List UniChar) (clen : ℕ)

/-- The search of the first loop: for the separator, or for white space. -/
def splitFind (spat : Option (List UniChar)) (location length : ℤ) :
    Except StringError (Option CFRange) :=
  match spat with
  | some spat => do
      let r ← cfStringFindWithOptions find false str spat location length
      return r.map fun i : ℕ => CFRange.mk i spat.length
  | none =>
      if 0 ≤ location ∧ 0 ≤ length ∧ location + length ≤ str.length then
        .ok ((spaces.findSpace str location.toNat length.toNat).map fun i : ℕ => CFRange.mk i 1)
      else .error .undefined

/-- What the first loop pushes for a part of the string.  Trimming nil is undefined. -/
def splitField (awkSplit : Bool) (location length : ℤ) :
    Except StringError (List (Option (List UniChar))) := do
  if awkSplit = false ∨ length > 0 then
    let substr ← rbStrSubseq L str location length
    if awkSplit = true then
      match substr with
      | none => .error .undefined
      | some substr =>
          let substr := spaces.trim substr
          return if substr.length > 0 then [some substr] else []
    else return [substr]
  else return []

/-- The first loop of `rb_str_split_m`, with `search_range.location` and `lim`: what it pushes, and
`beg` after it. -/
def splitStringLoop (spat : Option (List UniChar)) (awkSplit limited : Bool) :
    (fuel : ℕ) → (location lim : ℤ) →
      Except StringError (List (Option (List UniChar)) × ℤ)
  | 0, _, _ => .error .undefined
  | fuel + 1, location, lim => do
      match ← splitFind find spaces str spat location (clen - location) with
      | none => return ([], location)
      | some resultRange =>
          let pushed ← splitField L spaces str awkSplit location (resultRange.location - location)
          let location := resultRange.location + resultRange.length
          if limited = false ∨ lim - 1 > 1 then
            let (result, beg) ← splitStringLoop spat awkSplit limited fuel location (lim - 1)
            return (pushed ++ result, beg)
          else return (pushed, location)

/-- The second loop of `rb_str_split_m`, for a regexp without groups, with `beg`, `start`,
`last_null` and `i`: what it pushes, and `beg` after it. -/
def splitRegexpLoop (search : RegSearch) (limited : Bool) (lim : ℤ) :
    (fuel : ℕ) → (beg start : ℤ) → (lastNull : Bool) → (i : ℤ) →
      Except StringError (List (Option (List UniChar)) × ℤ)
  | 0, _, _, _, _ => .error .undefined
  | fuel + 1, beg, start, lastNull, i => do
      match search start with
      | none => return ([], beg)
      | some (beg0, end0) =>
          if start = beg0 ∧ beg0 = end0 ∧ lastNull = false then
            splitRegexpLoop search limited lim fuel beg (start + 1) true i
          else
            let null : Bool := start = beg0 ∧ beg0 = end0
            let substr ← rbStrSubseq L str beg (if null then 1 else beg0 - beg)
            let beg := if null then start else end0
            let start := if null then start else end0
            let i := i + 1
            if limited = true ∧ lim ≤ i then return ([substr], beg)
            else
              let (result, beg) ← splitRegexpLoop search limited lim fuel beg start false i
              return (substr :: result, beg)

attribute [grind =] splitRegexpLoop

/-- The rest of the string, which is pushed after the loops. -/
def splitRest (limited : Bool) (lim beg : ℤ) :
    Except StringError (List (Option (List UniChar))) := do
  let clen : ℤ := clen
  if clen > 0 ∧ (limited = true ∨ clen > beg ∨ lim < 0) then
    if clen = beg then return [some []]
    else
      let tmp ← rbStrSubseq L str beg (clen - beg)
      return [tmp]
  else return []

/-- `s == Qnil || RSTRING_LEN(s) == 0`. -/
def isBlank : Option (List UniChar) → Bool
  | none => true
  | some s => s.length == 0

/-- The loop that removes fields at the end, with `count`. -/
def popBlank : (count : ℕ) → List (Option (List UniChar)) → List (Option (List UniChar))
  | 0, result => result
  | count + 1, result =>
      if isBlank (result[count]?).join then popBlank count result.dropLast else result

/-- `NUM2INT(limit)`, and 0 when there is no limit. -/
def splitLimit : Option ℤ → Except StringError ℤ
  | some limit => if -2 ^ 31 ≤ limit ∧ limit < 2 ^ 31 then .ok limit else .error .range
  | none => .ok 0

/-- `RSTRING_LEN(spat) == 1`, and the character is a space. -/
def awkSplit (spat : StringObject) : Bool :=
  decide (spat.clen = 1) && spat.chars[0]? == some 0x20

/-- One of the loops of `rb_str_split_m`. -/
def splitLoop (spat : SplitPattern) (limited : Bool) (lim i : ℤ) (fuel : ℕ) :
    Except StringError (List (Option (List UniChar)) × ℤ) :=
  match spat with
  | .nil => splitStringLoop L find spaces str clen none true limited fuel 0 lim
  | .string spat =>
      splitStringLoop L find spaces str clen (some spat.chars) (awkSplit spat) limited fuel 0 lim
  | .regexp search => splitRegexpLoop L str search limited lim fuel 0 0 false i

variable (str : StringObject)

/-- `rb_str_split_m`, with what the fields spell: but for the string itself, they have no byte
data. -/
def rbStrSplitM (spat : SplitPattern) (limit : Option ℤ) (fuel : ℕ) :
    Except StringError (List (Option (List UniChar))) := do
  let clen := str.clen
  let lim ← splitLimit limit
  let limited : Bool := limit.isSome ∧ lim > 0
  if limited = true ∧ lim = 1 then return if clen = 0 then [] else [some str.text]
  let i := if limit.isSome then 1 else 0
  let (result, beg) ← splitLoop L find spaces str.chars clen spat limited lim i fuel
  let rest ← splitRest L str.chars clen limited lim beg
  let result := result ++ rest
  return if limited = false ∧ lim = 0 then popBlank (toCInt result.length).toNat result else result

end Code

/-! ## What a result should be -/

section Meaning

variable (L : LongSize) (find : CFFind) (spaces : CFSpaces) {str : List UniChar}

/-- The place is where the regexp separates a part that starts at `beg`: it matches there, and not
just nothing at the very start. -/
def Regexp.Separates (re : Regexp str) (beg i : ℕ) : Prop :=
  beg ≤ i ∧ re.MatchesAt i ∧ ¬(i = beg ∧ re.matchEnd i = some i)

/-- **The parts of a string between the matches of a regexp that are used**, from `beg` on, the
texts of these matches, and where the last one ends: each is the leftmost one that separates the
part after the last one. -/
inductive RegexpCuts (re : Regexp str) :
    ℕ → List (List UniChar) → List (List UniChar) → ℕ → Prop
  | done {beg : ℕ} : IsFirst (re.Separates beg) none → RegexpCuts re beg [] [] beg
  | cut {beg i stop last : ℕ} {heads texts : List (List UniChar)} :
      IsFirst (re.Separates beg) (some i) → re.matchEnd i = some stop →
        RegexpCuts re stop heads texts last →
          RegexpCuts re beg ((str.take i).drop beg :: heads) ((str.take stop).drop i :: texts) last

/-- The fields with the texts between them. -/
def interleave : (fields texts : List (List UniChar)) → List UniChar
  | field :: fields, text :: texts => field ++ text ++ interleave fields texts
  | fields, _ => fields.flatten

variable (str) in
/-- A call with a string as the separator and any limit, or with a regexp and a negative limit. -/
inductive SplitCall
  | string (sep : StringObject) (limit : Option ℤ)
  | regexp (re : Regexp str) (search : RegSearch)

/-- The separator, whose `CFString` is in step, is not empty and not a single space, and the limit
is an `int`; or the search for the regexp is as documented. -/
def SplitCall.Documented : SplitCall str → Prop
  | .string sep limit =>
      sep.InStep ∧ sep.text ≠ [] ∧ sep.text ≠ [0x20] ∧ ∀ k ∈ limit, -2 ^ 31 ≤ k ∧ k < 2 ^ 31
  | .regexp re search => search.Leftmost re

/-- The function returns the fields. -/
def Returns (string : StringObject) (spat : SplitPattern) (limit : Option ℤ)
    (fields : List (List UniChar)) : Prop :=
  Fuel.Settles (rbStrSplitM L find spaces string spat limit) (.ok (fields.map some))

/-- **The result is right**: with a negative limit the fields do not contain the separator and are
the string when they are joined; with no limit or 0 these without the empty ones at the end; with a
positive limit as many of these as it allows, the last of which has the rest of the string.  For a
regexp, the fields and the matches between them are the string. -/
def SplitRight (string : StringObject) : SplitCall string.text → Prop
  | .string sep limit => ∃ all, Returns L find spaces string (.string sep) (some (-1)) all ∧
      sep.text.intercalate all = string.text ∧
      (∀ field ∈ all, ∀ i, ¬OccursAt sep.text field i) ∧
      if limit.getD 0 < 0 then Returns L find spaces string (.string sep) limit all
      else if limit.getD 0 = 0 then
        Returns L find spaces string (.string sep) limit (all.rdropWhile List.isEmpty)
      else ∃ fields, Returns L find spaces string (.string sep) limit fields ∧
        (fields.length : ℤ) = min (limit.getD 0) all.length ∧ fields.dropLast <+: all ∧
          sep.text.intercalate fields = string.text
  | .regexp re search => ∃ heads texts last, RegexpCuts re 0 heads texts last ∧
      Returns L find spaces string (.regexp search) (some (-1))
        (heads ++ [string.text.drop last]) ∧
      interleave (heads ++ [string.text.drop last]) texts = string.text

/-- **An `int` counts the empty fields at the end**: among as many fields as their number is as an
`int`, there are as many of them at the end. -/
def CountsBlanks (fields : List (List UniChar)) : Prop :=
  ((fields.take (toCInt fields.length).toNat).rtakeWhile List.isEmpty).length =
    (fields.rtakeWhile List.isEmpty).length

/-- The empty fields that have to be removed are counted. -/
def SplitCall.Trims : SplitCall str → Prop
  | .string sep limit => limit.getD 0 = 0 → ∀ heads rest, Cuts sep.text str heads rest →
      (∀ i, ¬OccursAt sep.text rest i) → CountsBlanks (heads ++ if rest = [] then [] else [rest])
  | .regexp _ _ => True

end Meaning

/-! ## What the loops do -/

section Loops

variable {L : LongSize} {find : CFFind} {spaces : CFSpaces} (s : RString L)

/-- A part that is not trimmed is pushed. -/
theorem splitField_eq {a len : ℕ} (h : a + len ≤ s.chars.length) :
    splitField L spaces s.chars false a len = .ok [some ((s.chars.drop a).take len)] := by
  unfold splitField
  rw [if_pos (Or.inl rfl), rbStrSubseq_nat s h]
  rfl

/-- What the search for a string finds. -/
theorem splitFind_eq (hfind : find.Documented) {str sep : List UniChar} (hsep : sep ≠ [])
    {location : ℕ} (hloc : location ≤ str.length) {r : Option ℕ}
    (hr : IsFirst (OccursAt sep (str.drop location)) r) :
    splitFind find spaces str (some sep) location (str.length - location) =
      .ok (r.map fun i => CFRange.mk (location + i : ℕ) sep.length) := by
  unfold splitFind
  dsimp only
  rw [cfStringFind_drop hfind hsep hloc hr]
  cases r <;> rfl

/-- **The loop for a string cuts at its occurrences**, until there are none or the limit is
reached. -/
theorem splitStringLoop_spec (hfind : find.Documented) {sep : List UniChar} (hsep : sep ≠ [])
    {limited : Bool} {heads : List (List UniChar)} {rest : List UniChar} {fuel location : ℕ}
    {lim : ℤ} (hloc : location ≤ s.chars.length)
    (hcuts : Cuts sep (s.chars.drop location) heads rest)
    (hlim : limited = true → 2 ≤ lim ∧ heads.length + 1 ≤ lim)
    (hstop : (∀ i, ¬OccursAt sep rest i) ∨ limited = true ∧ heads.length + 1 = lim)
    (hfuel : heads.length < fuel) :
    ∃ beg : ℕ, beg ≤ s.chars.length ∧ s.chars.drop beg = rest ∧
      splitStringLoop L find spaces s.chars s.chars.length (some sep) false limited fuel
        location lim = .ok (heads.map some, (beg : ℤ)) := by
  induction heads generalizing fuel location lim with
  | nil =>
      cases hcuts with
      | stop =>
      obtain ⟨fuel, rfl⟩ := Nat.exists_eq_add_one_of_ne_zero (Nat.ne_zero_of_lt hfuel)
      have hdone : ∀ i, ¬OccursAt sep (s.chars.drop location) i := by
        rcases hstop with hdone | ⟨hlimited, heq⟩
        · exact hdone
        · have hle := (hlim hlimited).1
          rw [List.length_nil] at heq
          omega
      refine ⟨location, hloc, rfl, ?_⟩
      unfold splitStringLoop
      rw [splitFind_eq hfind hsep hloc (r := none) hdone]
      rfl
  | cons head heads ih =>
      cases hcuts with
      | @cut _ i _ _ hi hcuts =>
      obtain ⟨fuel, rfl⟩ := Nat.exists_eq_add_one_of_ne_zero (Nat.ne_zero_of_lt hfuel)
      rw [List.length_cons] at hfuel hlim hstop
      have hle := hi.1.le hsep
      rw [List.length_drop] at hle
      rw [List.drop_drop, ← Nat.add_assoc] at hcuts
      have hlen : ((location + i : ℕ) : ℤ) - location = (i : ℕ) := by omega
      have hnext : ((location + i : ℕ) : ℤ) + sep.length = (location + i + sep.length : ℕ) := rfl
      unfold splitStringLoop
      rw [splitFind_eq hfind hsep hloc hi]
      dsimp only [bind, Except.bind, Option.map, pure, Except.pure]
      rw [hlen, splitField_eq s (by omega), hnext]
      dsimp only
      by_cases hmore : limited = false ∨ lim - 1 > 1
      · have hlim' : limited = true → 2 ≤ lim - 1 ∧ (heads.length : ℤ) + 1 ≤ lim - 1 := by
          intro hlimited
          have hle := (hlim hlimited).2
          rcases hmore with hmore | hmore
          · rw [hlimited] at hmore
            cases hmore
          · omega
        obtain ⟨beg, hbeg, hrest, hloop⟩ := ih (by omega) hcuts hlim'
          (hstop.imp id fun h => ⟨h.1, by omega⟩) (show heads.length < fuel by omega)
        refine ⟨beg, hbeg, hrest, ?_⟩
        rw [if_pos hmore, hloop]
        rfl
      · obtain ⟨hlimited, hone⟩ := not_or.mp hmore
        have hle := (hlim (Bool.not_eq_false _ ▸ hlimited)).2
        have hnil : heads = [] := List.length_eq_zero_iff.mp (by omega)
        subst hnil
        cases hcuts with
        | stop =>
        refine ⟨location + i + sep.length, by omega, rfl, ?_⟩
        rw [if_neg hmore]
        rfl

/-- A match that is used. -/
theorem splitRegexpLoop_push {search : RegSearch} {lim : ℤ} {beg start i stop : ℕ}
    {lastNull : Bool} (h : search start = some (i, stop)) (hbeg : beg ≤ i) (hstop : i ≤ stop)
    (hlen : stop ≤ s.chars.length)
    (hnull : start = i → i = stop → lastNull = true ∧ i = beg + 1) (fuel : ℕ) (k : ℤ) :
    splitRegexpLoop L s.chars search false lim (fuel + 1) beg start lastNull k =
      (splitRegexpLoop L s.chars search false lim fuel stop stop false (k + 1)).map
        fun r => (some ((s.chars.take i).drop beg) :: r.1, r.2) := by
  have hpart := rbStrSubseq_nat s (show beg + (i - beg) ≤ s.chars.length by omega)
  have hsub : ((i - beg : ℕ) : ℤ) = (i : ℤ) - beg := by omega
  rw [← List.drop_take, hsub] at hpart
  have hlimit : ¬(false = true ∧ lim ≤ k + 1) := fun h => nomatch h.1
  rw [splitRegexpLoop, h]
  dsimp only
  by_cases heq : start = i ∧ i = stop
  · obtain ⟨hlast, hone⟩ := hnull heq.1 heq.2
    have hone' : (i : ℤ) - beg = 1 := by omega
    have hused : ¬((start : ℤ) = i ∧ i = stop ∧ lastNull = false) := by
      rw [hlast]
      exact fun h => nomatch h.2.2
    rw [hone'] at hpart
    rw [if_neg hused, decide_eq_true ⟨congrArg _ heq.1, heq.2⟩, if_pos rfl, hpart, if_pos rfl,
      heq.1, heq.2]
    dsimp only [bind, Except.bind]
    rw [if_neg hlimit]
    cases splitRegexpLoop L s.chars search false lim fuel stop stop false (k + 1) <;> rfl
  · have hused : ¬((start : ℤ) = i ∧ i = stop ∧ lastNull = false) :=
      fun h => heq ⟨Nat.cast_inj.mp h.1, h.2.1⟩
    rw [if_neg hused, decide_eq_false fun h => heq ⟨Nat.cast_inj.mp h.1, h.2⟩,
      if_neg Bool.false_ne_true, hpart, if_neg Bool.false_ne_true]
    dsimp only [bind, Except.bind]
    rw [if_neg hlimit]
    cases splitRegexpLoop L s.chars search false lim fuel stop stop false (k + 1) <;> rfl

/-- An empty match at the very start of a part is passed over. -/
theorem splitRegexpLoop_null {search : RegSearch} {lim : ℤ} {beg : ℕ}
    (h : search beg = some (beg, beg)) (fuel : ℕ) (k : ℤ) :
    splitRegexpLoop L s.chars search false lim (fuel + 1) beg beg false k =
      splitRegexpLoop L s.chars search false lim fuel beg (beg + 1 : ℕ) true k := by
  rw [splitRegexpLoop, h]
  exact if_pos ⟨rfl, rfl, rfl⟩

/-- The end of the loop. -/
theorem splitRegexpLoop_none {search : RegSearch} {lim : ℤ} {beg start : ℕ} {lastNull : Bool}
    (h : search start = none) (fuel : ℕ) (k : ℤ) :
    splitRegexpLoop L s.chars search false lim (fuel + 1) beg start lastNull k =
      .ok ([], (beg : ℤ)) := by
  rw [splitRegexpLoop, h]
  rfl

/-- The search from a place, when the first match from there on is known. -/
theorem Leftmost.search_eq {str : List UniChar} {re : Regexp str} {search : RegSearch}
    (hsearch : search.Leftmost re) {pos : ℕ} {r : Option ℕ}
    (hr : IsFirst (fun i => pos ≤ i ∧ re.MatchesAt i) r) :
    search pos = r.bind fun i => (re.matchEnd i).map (Prod.mk i) := by
  obtain ⟨r', hr', heq⟩ := hsearch pos
  rw [heq, hr'.unique hr]

/-- The search from an empty match. -/
theorem Leftmost.search_null {str : List UniChar} {re : Regexp str} {search : RegSearch}
    (hsearch : search.Leftmost re) {beg : ℕ} (hnull : re.matchEnd beg = some beg) :
    search beg = some (beg, beg) := by
  have hhere : IsFirst (fun i => beg ≤ i ∧ re.MatchesAt i) (some beg) :=
    ⟨⟨le_rfl, Option.isSome_iff_exists.mpr ⟨beg, hnull⟩⟩, fun j hj => hj.1⟩
  rw [Leftmost.search_eq hsearch hhere, Option.bind_some, hnull, Option.map_some]

/-- **The search for the place that separates a part**: from the start of the part, or one place
further when there is an empty match. -/
theorem separates_iff {str : List UniChar} {re : Regexp str} {beg : ℕ} :
    (re.matchEnd beg = some beg →
        ∀ i, re.Separates beg i ↔ beg + 1 ≤ i ∧ re.MatchesAt i) ∧
      (re.matchEnd beg ≠ some beg → ∀ i, re.Separates beg i ↔ beg ≤ i ∧ re.MatchesAt i) := by
  constructor
  · intro hnull i
    refine ⟨fun ⟨hle, hmatch, hne⟩ => ⟨?_, hmatch⟩, fun ⟨hle, hmatch⟩ => ⟨by omega, hmatch, ?_⟩⟩
    · refine Nat.lt_of_le_of_ne hle ?_
      rintro rfl
      exact hne ⟨rfl, hnull⟩
    · rintro ⟨rfl, -⟩
      omega
  · intro hnull i
    refine ⟨fun ⟨hle, hmatch, _⟩ => ⟨hle, hmatch⟩, fun ⟨hle, hmatch⟩ => ⟨hle, hmatch, ?_⟩⟩
    rintro ⟨rfl, h⟩
    exact hnull h

/-- **The loop for a regexp cuts at the matches that separate.** -/
theorem splitRegexpLoop_settles {re : Regexp s.chars} {search : RegSearch}
    (hsearch : search.Leftmost re) {lim : ℤ} {beg last : ℕ} {heads texts : List (List UniChar)}
    (hcuts : RegexpCuts re beg heads texts last) (k : ℤ) :
    Fuel.Settles (fun fuel => splitRegexpLoop L s.chars search false lim fuel beg beg false k)
      (.ok (heads.map some, (last : ℤ))) := by
  induction hcuts generalizing k with
  | @done beg hfirst =>
      by_cases hnull : re.matchEnd beg = some beg
      · have hnone := Leftmost.search_eq hsearch (hfirst.congr (separates_iff.1 hnull))
        refine Fuel.Settles.of_succ (fun fuel => splitRegexpLoop_null s
          (Leftmost.search_null hsearch hnull) fuel k) ?_
        exact Fuel.Settles.of_succ (fun fuel => splitRegexpLoop_none s hnone fuel k)
          (Fuel.Settles.const _)
      · have hnone := Leftmost.search_eq hsearch (hfirst.congr (separates_iff.2 hnull))
        exact Fuel.Settles.of_succ (fun fuel => splitRegexpLoop_none s hnone fuel k)
          (Fuel.Settles.const _)
  | @cut beg i stop last heads texts hfirst hstop _ ih =>
      obtain ⟨hie, hlen⟩ := re.bounds hstop
      have hbeg := hfirst.1.1
      by_cases hnull : re.matchEnd beg = some beg
      · have hsearch' := Leftmost.search_eq hsearch (hfirst.congr (separates_iff.1 hnull))
        rw [Option.bind_some, hstop, Option.map_some] at hsearch'
        refine Fuel.Settles.of_succ (fun fuel => splitRegexpLoop_null s
          (Leftmost.search_null hsearch hnull) fuel k) ?_
        refine Fuel.Settles.of_succ (fun fuel => splitRegexpLoop_push s hsearch' hbeg hie hlen
          (fun h _ => ⟨rfl, h.symm⟩) fuel k) ?_
        exact (ih (k + 1)).map (Except.map fun r => (some ((s.chars.take i).drop beg) :: r.1, r.2))
      · have hsearch' := Leftmost.search_eq hsearch (hfirst.congr (separates_iff.2 hnull))
        rw [Option.bind_some, hstop, Option.map_some] at hsearch'
        refine Fuel.Settles.of_succ (fun fuel => splitRegexpLoop_push s hsearch' hbeg hie hlen
          (fun h h' => ?_) fuel k) ?_
        · subst h
          exact absurd (h' ▸ hstop) hnull
        · exact (ih (k + 1)).map
            (Except.map fun r => (some ((s.chars.take i).drop beg) :: r.1, r.2))

end Loops

/-! ## The fields -/

section Fields

variable {str : List UniChar}

/-- A part and what follows it. -/
theorem drop_take_append_drop {a b : ℕ} (h : a ≤ b) :
    (str.take b).drop a ++ str.drop b = str.drop a := by
  obtain ⟨k, rfl⟩ := Nat.exists_eq_add_of_le h
  rw [List.drop_take, Nat.add_sub_cancel_left, ← List.drop_drop, List.take_append_drop]

/-- **A string can be cut at the matches that separate.** -/
theorem exists_regexpCuts (re : Regexp str) (beg : ℕ) :
    ∃ heads texts last, RegexpCuts re beg heads texts last := by
  induction hk : str.length + 1 - beg using Nat.strong_induction_on generalizing beg with
  | _ k ih =>
      obtain ⟨r, hr⟩ := exists_isFirst (re.Separates beg)
      cases r with
      | none => exact ⟨[], [], beg, RegexpCuts.done hr⟩
      | some i =>
          obtain ⟨stop, hstop⟩ := Option.isSome_iff_exists.mp hr.1.2.1
          obtain ⟨hie, hlen⟩ := re.bounds hstop
          have hlt : beg < stop := by
            refine Nat.lt_of_le_of_ne (hr.1.1.trans hie) ?_
            intro heq
            have hib : i = beg := le_antisymm (hie.trans heq.ge) hr.1.1
            exact hr.1.2.2 ⟨hib, by rw [hstop, ← heq, hib]⟩
          obtain ⟨heads, texts, last, hcuts⟩ := ih (str.length + 1 - stop) (by omega) stop rfl
          exact ⟨_, _, last, RegexpCuts.cut hr hstop hcuts⟩

/-- **The parts and the texts between them are the string**, and the last match ends in it. -/
theorem RegexpCuts.interleave {re : Regexp str} {beg last : ℕ} {heads texts : List (List UniChar)}
    (h : RegexpCuts re beg heads texts last) (hbeg : beg ≤ str.length) :
    last ≤ str.length ∧ MacRuby.interleave (heads ++ [str.drop last]) texts = str.drop beg := by
  induction h with
  | done _ => exact ⟨hbeg, List.append_nil _⟩
  | @cut beg i stop last heads texts hfirst hstop _ ih =>
      obtain ⟨hie, hlen⟩ := re.bounds hstop
      obtain ⟨hlast, hrest⟩ := ih hlen
      refine ⟨hlast, ?_⟩
      rw [List.cons_append, MacRuby.interleave, hrest, List.append_assoc,
        drop_take_append_drop hie, drop_take_append_drop hfirst.1.1]

end Fields

/-! ## Removing fields at the end -/

section Blanks

variable {L : LongSize} {fields : List (List UniChar)}

theorem isBlank_some (field : List UniChar) : isBlank (some field) = field.isEmpty := by
  unfold isBlank
  cases field <;> rfl

/-- **The fields that are removed**: as many as there are empty ones at the end of the first
ones. -/
theorem popBlank_eq {count : ℕ} (hcount : count ≤ fields.length) :
    popBlank count (fields.map some) =
      (fields.rdrop ((fields.take count).rtakeWhile List.isEmpty).length).map some := by
  induction count generalizing fields with
  | zero =>
      rw [popBlank, List.take_zero, List.rtakeWhile_nil, List.length_nil, List.rdrop_zero]
  | succ count ih =>
      have hget : ((fields.map some)[count]?).join = some fields[count] := by
        rw [List.getElem?_map, List.getElem?_eq_getElem hcount]
        rfl
      have htake : fields.take (count + 1) = fields.take count ++ [fields[count]] :=
        (List.take_append_getElem hcount).symm
      rw [popBlank, hget, isBlank_some, htake]
      by_cases hblank : fields[count].isEmpty = true
      · have hdrop : fields.dropLast.take count = fields.take count := by
          rw [List.dropLast_eq_take, List.take_take, Nat.min_eq_left (by omega)]
        have hlen : count ≤ fields.dropLast.length := by
          rw [List.length_dropLast]
          omega
        have hrest := ih hlen
        rw [if_pos hblank, ← List.map_dropLast, hrest, hdrop,
          List.rtakeWhile_concat_pos _ _ _ hblank, List.length_append, List.length_singleton,
          List.dropLast_eq_take, List.rdrop, List.take_take, List.rdrop, List.length_take]
        congr 2
        omega
      · rw [if_neg hblank, List.rtakeWhile_concat_neg _ _ _ hblank, List.length_nil,
          List.rdrop_zero]

/-- What is left when the empty fields at the end are removed. -/
theorem rdropWhile_eq_rdrop (fields : List (List UniChar)) :
    fields.rdropWhile List.isEmpty = fields.rdrop (fields.rtakeWhile List.isEmpty).length := by
  have happ : fields.rdropWhile List.isEmpty ++ fields.rtakeWhile List.isEmpty = fields :=
    List.rdropWhile_append_rtakeWhile
  have hlen := congrArg List.length happ
  rw [List.length_append] at hlen
  have hcut : fields.length - (fields.rtakeWhile List.isEmpty).length =
      (fields.rdropWhile List.isEmpty).length := by omega
  rw [List.rdrop, hcut]
  exact List.prefix_iff_eq_take.mp (List.rdropWhile_prefix _ _)

/-- As an `int`, a number is not greater. -/
theorem toNat_toCInt_le (n : ℕ) : (toCInt n).toNat ≤ n := by
  unfold toCInt
  rw [Int.bmod_def]
  split <;> omega

/-- **All empty fields at the end are removed exactly when they are counted.** -/
theorem popBlank_right_iff (fields : List (List UniChar)) :
    popBlank (toCInt fields.length).toNat (fields.map some) =
      (fields.rdropWhile List.isEmpty).map some ↔ CountsBlanks fields := by
  have hcount := toNat_toCInt_le fields.length
  have hinj : Function.Injective (List.map (some : List UniChar → Option (List UniChar))) :=
    List.map_injective_iff.mpr (Option.some_injective _)
  rw [popBlank_eq hcount, rdropWhile_eq_rdrop, hinj.eq_iff]
  unfold CountsBlanks
  have hle := (List.rtakeWhile_suffix (p := List.isEmpty) (l := fields)).length_le
  have hle' : ((fields.take (toCInt fields.length).toNat).rtakeWhile List.isEmpty).length ≤
      fields.length :=
    (List.rtakeWhile_suffix _ _).length_le.trans (List.length_take_le' _ _)
  constructor
  · intro h
    have hlen := congrArg List.length h
    rw [List.rdrop, List.rdrop, List.length_take, List.length_take] at hlen
    omega
  · intro h
    rw [h]

end Blanks

/-! ## When a result is right -/

section Correctness

variable {L : LongSize} {find : CFFind} {spaces : CFSpaces} (s : RString L)

/-- What is pushed after the loops. -/
theorem splitRest_eq (hs : s.chars ≠ []) {limited : Bool} {lim : ℤ} {last : ℕ}
    (hlast : last ≤ s.chars.length) :
    splitRest L s.chars s.chars.length limited lim last =
      .ok (if limited = true ∨ s.chars.drop last ≠ [] ∨ lim < 0 then [some (s.chars.drop last)]
        else []) := by
  have hpos := List.length_pos_iff.mpr hs
  have hcond : ((s.chars.length : ℤ) > 0 ∧
      (limited = true ∨ (s.chars.length : ℤ) > last ∨ lim < 0)) ↔
        (limited = true ∨ s.chars.drop last ≠ [] ∨ lim < 0) := by
    rw [and_iff_right (by omega), ne_eq, List.drop_eq_nil_iff, not_le, gt_iff_lt, Nat.cast_lt]
  unfold splitRest
  dsimp only
  by_cases h : limited = true ∨ s.chars.drop last ≠ [] ∨ lim < 0
  · rw [if_pos (hcond.mpr h), if_pos h]
    by_cases hend : s.chars.length = last
    · rw [if_pos (by omega), List.drop_eq_nil_iff.mpr hend.le]
      rfl
    · have hlen : (s.chars.length : ℤ) - last = (s.chars.length - last : ℕ) := by omega
      rw [if_neg (by omega), hlen, rbStrSubseq_nat s (by omega), ← List.length_drop,
        List.take_length]
      rfl
  · rw [if_neg (mt hcond.mp h), if_neg h]
    rfl

/-- The result for the parts that were pushed by the loops and the rest of the string. -/
def finishSplit (lim : ℤ) (heads : List (List UniChar)) (rest : List UniChar) :
    List (Option (List UniChar)) :=
  let result := heads ++ if 0 < lim ∨ rest ≠ [] ∨ lim < 0 then [rest] else []
  if lim = 0 then popBlank (toCInt result.length).toNat (result.map some) else result.map some

/-- With a limit other than 0, the rest is a field, too. -/
theorem finishSplit_of_ne {lim : ℤ} (hlim : lim ≠ 0) (heads : List (List UniChar))
    (rest : List UniChar) : finishSplit lim heads rest = (heads ++ [rest]).map some := by
  unfold finishSplit
  dsimp only
  rw [if_neg hlim, if_pos (by omega)]

/-- Without a limit, the rest is a field unless it is empty, and empty fields are removed. -/
theorem finishSplit_zero (heads : List (List UniChar)) (rest : List UniChar) :
    finishSplit 0 heads rest =
      popBlank (toCInt (heads ++ if rest = [] then [] else [rest]).length).toNat
        ((heads ++ if rest = [] then [] else [rest]).map some) := by
  have hrest : (if (0 : ℤ) < 0 ∨ rest ≠ [] ∨ (0 : ℤ) < 0 then [rest] else []) =
      if rest = [] then [] else [rest] := by
    by_cases h : rest = []
    · rw [if_neg (by simp [h]), if_pos h]
    · rw [if_pos (by simp [h]), if_neg h]
  unfold finishSplit
  dsimp only
  rw [if_pos rfl, hrest]

/-- What follows the loops. -/
theorem finish_eq (hs : s.chars ≠ []) {lim : ℤ} {last : ℕ} (hlast : last ≤ s.chars.length)
    (heads : List (List UniChar)) :
    (do
      let rest ← splitRest L s.chars s.chars.length (decide (0 < lim)) lim last
      let result := heads.map some ++ rest
      return if decide (0 < lim) = false ∧ lim = 0 then
          popBlank (toCInt result.length).toNat result
        else result : Except StringError (List (Option (List UniChar)))) =
      .ok (finishSplit lim heads (s.chars.drop last)) := by
  have hzero : (decide (0 < lim) = false ∧ lim = 0) ↔ lim = 0 := by
    rw [decide_eq_false_iff_not]
    omega
  have hrest : (if 0 < lim ∨ s.chars.drop last ≠ [] ∨ lim < 0 then [some (s.chars.drop last)]
      else []) = (if 0 < lim ∨ s.chars.drop last ≠ [] ∨ lim < 0 then [s.chars.drop last]
        else []).map some := by
    split <;> rfl
  rw [splitRest_eq s hs hlast]
  unfold finishSplit
  dsimp only [bind, Except.bind, pure, Except.pure]
  simp only [hzero, decide_eq_true_eq, hrest]
  rw [← List.map_append, List.length_map]

/-- The limit of a call, which is an `int`. -/
theorem splitLimit_eq {limit : Option ℤ} (hlimit : ∀ k ∈ limit, -2 ^ 31 ≤ k ∧ k < 2 ^ 31) :
    splitLimit limit = .ok (limit.getD 0) := by
  cases limit with
  | none => rfl
  | some k => exact if_pos (hlimit k rfl)

/-- There is a positive limit. -/
theorem limited_eq (limit : Option ℤ) :
    decide (limit.isSome = true ∧ limit.getD 0 > 0) = decide (0 < limit.getD 0) := by
  cases limit with
  | none => rfl
  | some k => simp

/-- **A call of which the loop is known.** -/
theorem rbStrSplitM_eq (hin : s.InStep) (hs : s.chars ≠ []) {spat : SplitPattern} {limit : Option ℤ}
    (hlimit : ∀ k ∈ limit, -2 ^ 31 ≤ k ∧ k < 2 ^ 31) (hone : limit.getD 0 ≠ 1) {fuel last : ℕ}
    {heads : List (List UniChar)} (hlast : last ≤ s.chars.length)
    (hloop : splitLoop L find spaces s.chars s.chars.length spat (decide (0 < limit.getD 0))
      (limit.getD 0) (if limit.isSome then 1 else 0) fuel = .ok (heads.map some, (last : ℤ))) :
    rbStrSplitM L find spaces s.toStringObject spat limit fuel =
      .ok (finishSplit (limit.getD 0) heads (s.chars.drop last)) := by
  unfold rbStrSplitM
  rw [splitLimit_eq hlimit, hin.clen_eq]
  dsimp only [bind, Except.bind]
  rw [limited_eq, if_neg (fun h => hone h.2), hloop]
  exact finish_eq s hs hlast heads

/-- A limit of 1. -/
theorem rbStrSplitM_one (hin : s.InStep) (hs : s.chars ≠ []) (spat : SplitPattern) (fuel : ℕ) :
    rbStrSplitM L find spaces s.toStringObject spat (some 1) fuel = .ok [some s.chars] := by
  have hlen : s.clen ≠ 0 := by
    rw [hin.clen_eq]
    exact mt List.length_eq_zero_iff.mp hs
  unfold rbStrSplitM
  rw [splitLimit_eq (by simp), hin]
  dsimp only [bind, Except.bind]
  rw [if_pos (by simp), if_neg hlen]
  rfl

section Strings

/-- A separator in step that is not a single space. -/
theorem awkSplit_eq {sep : StringObject} (hsep : sep.InStep) (hspace : sep.chars ≠ [0x20]) :
    awkSplit sep = false := by
  rw [awkSplit, hsep.clen_eq]
  by_contra h
  obtain ⟨hlen, hget⟩ := Bool.and_eq_true_iff.mp (Bool.not_eq_false _ ▸ h)
  obtain ⟨c, hc⟩ := List.length_eq_one_iff.mp (of_decide_eq_true hlen)
  rw [hc] at hget hspace
  exact hspace (congrArg (fun c => [c]) (by simpa using hget))

variable (spaces) (hin : s.InStep) (hs : s.chars ≠ []) (hfind : find.Documented)
  {sep : StringObject} (hsepin : sep.InStep) (hsep : sep.chars ≠ [])
  (hspace : sep.chars ≠ [0x20]) {heads : List (List UniChar)} {rest : List UniChar}
include hin hs hfind hsepin hsep hspace

/-- **The result for a string**, until it does not occur or the limit is reached. -/
theorem rbStrSplitM_settles (hcuts : Cuts sep.chars s.chars heads rest) {limit : Option ℤ}
    (hlimit : ∀ k ∈ limit, -2 ^ 31 ≤ k ∧ k < 2 ^ 31) (hone : limit.getD 0 ≠ 1)
    (hlim : 0 < limit.getD 0 → (heads.length : ℤ) + 1 ≤ limit.getD 0)
    (hstop : (∀ i, ¬OccursAt sep.chars rest i) ∨ (heads.length : ℤ) + 1 = limit.getD 0) :
    Fuel.Settles (rbStrSplitM L find spaces s.toStringObject (.string sep) limit)
      (.ok (finishSplit (limit.getD 0) heads rest)) := by
  have hlim' : decide (0 < limit.getD 0) = true →
      2 ≤ limit.getD 0 ∧ (heads.length : ℤ) + 1 ≤ limit.getD 0 := by
    intro h
    have hpos := of_decide_eq_true h
    exact ⟨by omega, hlim hpos⟩
  have hstop' : (∀ i, ¬OccursAt sep.chars rest i) ∨
      decide (0 < limit.getD 0) = true ∧ (heads.length : ℤ) + 1 = limit.getD 0 :=
    hstop.imp id fun h => ⟨decide_eq_true (by omega), h⟩
  refine Fuel.Settles.of_le (heads.length + 1) fun fuel hfuel => ?_
  obtain ⟨last, hlast, hrest, hloop⟩ :=
    splitStringLoop_spec (L := L) s hfind hsep (Nat.zero_le _) hcuts hlim' hstop' hfuel
  rw [← hrest]
  refine rbStrSplitM_eq s hin hs hlimit hone hlast ?_
  unfold splitLoop
  dsimp only
  rw [awkSplit_eq hsepin hspace]
  exact hloop

/-- With a positive limit, the first parts are the fields, and the rest of the string. -/
theorem returns_limited (hcuts : Cuts sep.chars s.chars heads rest)
    (hdone : ∀ i, ¬OccursAt sep.chars rest i) {k : ℤ} (hk : 0 < k) (hint : k < 2 ^ 31) :
    ∃ fields, Returns L find spaces s.toStringObject (.string sep) (some k) fields ∧
      (fields.length : ℤ) = min k (heads ++ [rest]).length ∧
        fields.dropLast <+: heads ++ [rest] ∧ sep.chars.intercalate fields = s.chars := by
  rw [List.length_append, List.length_singleton]
  by_cases hone : k = 1
  · subst hone
    refine ⟨[s.chars], (Fuel.Settles.const _).congr fun fuel => rbStrSplitM_one s hin hs _ fuel, ?_,
      List.nil_prefix, List.intercalate_singleton⟩
    rw [List.length_singleton]
    omega
  · obtain ⟨rest', hcuts', hrest'⟩ := hcuts.take (k - 1).toNat
    have hlen : (heads.take (k - 1).toNat).length = min (k - 1).toNat heads.length :=
      List.length_take
    refine ⟨heads.take (k - 1).toNat ++ [rest'], ?_, ?_, ?_, hcuts'.intercalate⟩
    · have hstop : (∀ i, ¬OccursAt sep.chars rest' i) ∨
          ((heads.take (k - 1).toNat).length : ℤ) + 1 = (some k).getD 0 := by
        rcases Nat.le_or_ge heads.length (k - 1).toNat with hle | hge
        · exact Or.inl (hrest' hle ▸ hdone)
        · refine Or.inr ?_
          rw [hlen, Option.getD_some]
          omega
      have hint' : ∀ n ∈ some k, -2 ^ 31 ≤ n ∧ n < 2 ^ 31 := by
        intro n hn
        obtain rfl := Option.some.inj hn
        omega
      have hlim : 0 < (some k).getD 0 →
          ((heads.take (k - 1).toNat).length : ℤ) + 1 ≤ (some k).getD 0 := by
        intro _
        rw [hlen, Option.getD_some]
        omega
      have hsettles := rbStrSplitM_settles (L := L) spaces s hin hs hfind hsepin hsep hspace hcuts'
        hint' hone hlim hstop
      rw [Option.getD_some, finishSplit_of_ne hk.ne'] at hsettles
      exact hsettles
    · rw [List.length_append, hlen, List.length_singleton]
      omega
    · rw [List.dropLast_concat]
      exact (List.take_prefix _ _).trans (List.prefix_append _ _)

/-- **A string as the separator is handled right exactly when the empty fields that have to be
removed are counted.** -/
theorem splitRight_string_iff {limit : Option ℤ}
    (hlimit : ∀ k ∈ limit, -2 ^ 31 ≤ k ∧ k < 2 ^ 31) :
    SplitRight L find spaces s.toStringObject (SplitCall.string sep limit) ↔
      (SplitCall.string sep limit : SplitCall s.text).Trims := by
  dsimp only [SplitRight, SplitCall.Trims]
  rw [show s.text = s.chars from hin, show sep.text = sep.chars from hsepin]
  obtain ⟨heads, rest, hcuts, hdone⟩ := exists_cuts hsep s.chars
  have hminus : ∀ k ∈ some (-1 : ℤ), -2 ^ 31 ≤ k ∧ k < 2 ^ 31 := by simp
  have hall : Returns L find spaces s.toStringObject (.string sep) (some (-1))
    (heads ++ [rest]) := by
    have hsettles := rbStrSplitM_settles (L := L) spaces s hin hs hfind hsepin hsep hspace hcuts
      hminus (by simp) (by simp) (Or.inl hdone)
    rwa [Option.getD_some, finishSplit_of_ne (by simp)] at hsettles
  have hfields : ∀ field ∈ heads ++ [rest], ∀ i, ¬OccursAt sep.chars field i := by
    intro field hmem
    rcases List.mem_append.mp hmem with hhead | hrest
    · exact hcuts.not_occursAt hsep hhead
    · exact (List.mem_singleton.mp hrest) ▸ hdone
  have htrims : (limit.getD 0 = 0 → ∀ heads rest, Cuts sep.chars s.chars heads rest →
      (∀ i, ¬OccursAt sep.chars rest i) →
        CountsBlanks (heads ++ if rest = [] then [] else [rest])) ↔ (limit.getD 0 = 0 →
      CountsBlanks (heads ++ if rest = [] then [] else [rest])) := by
    refine forall_congr' fun _ => ⟨fun h => h heads rest hcuts hdone, ?_⟩
    intro h heads' rest' hcuts' hdone'
    obtain ⟨rfl, rfl⟩ := hcuts.unique hcuts' hdone hdone'
    exact h
  have hblanks : limit.getD 0 = 0 →
      (Returns L find spaces s.toStringObject (.string sep) limit
          ((heads ++ [rest]).rdropWhile List.isEmpty) ↔
        CountsBlanks (heads ++ if rest = [] then [] else [rest])) := by
    intro hzero
    have hsettles := rbStrSplitM_settles (L := L) spaces s hin hs hfind hsepin hsep hspace hcuts
      hlimit (by omega) (by omega) (Or.inl hdone)
    have hsame : (heads ++ [rest]).rdropWhile List.isEmpty =
        (heads ++ if rest = [] then [] else [rest]).rdropWhile List.isEmpty := by
      by_cases h : rest = []
      · rw [if_pos h, List.append_nil, h, List.rdropWhile_concat_pos _ _ _ rfl]
      · rw [if_neg h]
    rw [hzero, finishSplit_zero] at hsettles
    rw [← popBlank_right_iff, hsame]
    constructor
    · intro h
      exact Except.ok.inj (hsettles.unique h)
    · intro h
      rw [h] at hsettles
      exact hsettles
  rw [htrims]
  constructor
  · intro ⟨all, hreturns, _, _, hlimited⟩ hzero
    have heq := Except.ok.inj (hreturns.unique hall)
    obtain rfl := List.map_injective_iff.mpr (Option.some_injective _) heq
    rw [if_neg (by omega), if_pos hzero] at hlimited
    exact (hblanks hzero).mp hlimited
  · intro hcounts
    refine ⟨heads ++ [rest], hall, hcuts.intercalate, hfields, ?_⟩
    split
    · rename_i hneg
      have hsettles := rbStrSplitM_settles (L := L) spaces s hin hs hfind hsepin hsep hspace hcuts
        hlimit (by omega) (by omega) (Or.inl hdone)
      rw [finishSplit_of_ne hneg.ne] at hsettles
      exact hsettles
    · split
      · rename_i hzero
        exact (hblanks hzero).mpr (hcounts hzero)
      · cases limit with
        | none => exact absurd rfl ‹_›
        | some k =>
            have hk := hlimit k rfl
            rw [Option.getD_some] at *
            exact returns_limited spaces s hin hs hfind hsepin hsep hspace hcuts hdone (by omega)
              hk.2

end Strings

/-- **A regexp as the separator is handled right.** -/
theorem splitRight_regexp (hin : s.InStep) (hs : s.chars ≠ []) {str : List UniChar}
    (hstr : str = s.chars) {re : Regexp str} {search : RegSearch} (hsearch : search.Leftmost re) :
    ∃ heads texts last, RegexpCuts re 0 heads texts last ∧
      Returns L find spaces s.toStringObject (.regexp search) (some (-1))
        (heads ++ [str.drop last]) ∧
      interleave (heads ++ [str.drop last]) texts = str := by
  subst hstr
  obtain ⟨heads, texts, last, hcuts⟩ := exists_regexpCuts re 0
  obtain ⟨hlast, hwhole⟩ := hcuts.interleave (Nat.zero_le _)
  refine ⟨heads, texts, last, hcuts, ?_, hwhole⟩
  have hminus : ∀ k ∈ some (-1 : ℤ), -2 ^ 31 ≤ k ∧ k < 2 ^ 31 := by simp
  obtain ⟨fuel, hloop⟩ : Fuel.Settles
      (fun fuel => splitRegexpLoop L s.chars search false (-1) fuel (0 : ℕ) (0 : ℕ) false 1)
      (.ok (heads.map some, (last : ℤ))) := splitRegexpLoop_settles s hsearch hcuts 1
  refine ⟨fuel, fun m hm => ?_⟩
  have heq : rbStrSplitM L find spaces s.toStringObject (.regexp search) (some (-1)) m =
      .ok (finishSplit (-1) heads (s.chars.drop last)) :=
    rbStrSplitM_eq s hin hs hminus (by simp) hlast (hloop m hm)
  rwa [finishSplit_of_ne (by simp)] at heq

/-- The white space of ASCII. -/
def isAsciiSpace (c : UniChar) : Bool := c == 0x20 || (0x09 ≤ c && c ≤ 0x0d)

/-- A platform that knows the white space of ASCII. -/
def asciiSpaces : CFSpaces where
  isSpace := isAsciiSpace
  findSpace str location length :=
    firstBelow (fun i => location ≤ i ∧ str[i]?.any isAsciiSpace = true) (location + length)
  trim str := (str.dropWhile isAsciiSpace).rdropWhile isAsciiSpace

/-- A string of commas is cut into empty fields. -/
theorem cuts_commas (n : ℕ) :
    Cuts ([0x2c] : List UniChar) (List.replicate n 0x2c) (List.replicate n []) [] := by
  induction n with
  | zero => exact Cuts.stop []
  | succ n ih =>
      have hfirst : IsFirst (OccursAt [0x2c] (List.replicate (n + 1) (0x2c : UniChar))) (some 0) :=
        ⟨⟨List.replicate n 0x2c, rfl⟩, fun j _ => Nat.zero_le j⟩
      exact Cuts.cut hfirst ih

/-- One letter with commas after it. -/
theorem cuts_letter_commas (n : ℕ) :
    Cuts ([0x2c] : List UniChar) (0x61 :: List.replicate (n + 1) 0x2c)
      ([0x61] :: List.replicate n []) [] := by
  have hfirst : IsFirst (OccursAt [0x2c] (0x61 :: List.replicate (n + 1) (0x2c : UniChar)))
      (some 1) := by
    refine ⟨⟨List.replicate n 0x2c, rfl⟩, fun j hj => ?_⟩
    refine Nat.one_le_iff_ne_zero.mpr ?_
    rintro rfl
    obtain ⟨rest, hrest⟩ := hj
    exact absurd (List.cons.inj hrest).1 (by decide)
  exact Cuts.cut hfirst (cuts_commas n)

/-- The empty fields are not counted when their number with the first field is not positive as an
`int`. -/
theorem not_countsBlanks {n : ℕ} (hpos : 0 < n) (hint : toCInt (n + 1 : ℕ) ≤ 0) :
    ¬CountsBlanks ([0x61] :: List.replicate n []) := by
  intro h
  have hlen : ([0x61] :: List.replicate n ([] : List UniChar)).length = n + 1 := by
    rw [List.length_cons, List.length_replicate]
  obtain ⟨k, rfl⟩ := Nat.exists_eq_add_one_of_ne_zero hpos.ne'
  unfold CountsBlanks at h
  rw [hlen, Int.toNat_of_nonpos hint, List.take_zero, List.rtakeWhile_nil, List.length_nil,
    List.replicate_succ', ← List.cons_append, List.rtakeWhile_concat_pos _ _ _ rfl,
    List.length_append, List.length_singleton] at h
  omega

end Correctness

end MacRuby
