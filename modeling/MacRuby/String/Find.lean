import MacRuby.Lib.Occurrence
import MacRuby.String.Basic

/-!
# Finding a string in a string

`CFStringFindWithOptions` is a function of the platform.  It is called with a range of the string
and finds the first occurrence that lies in the range, or the last one.  What it does for a range
that is not in the string is not documented.

## Main definitions

* `CFFind`, `CFFind.Documented` — the function, and what its callers rely on.
* `occurrenceIn` — a function that is as documented.
* `cfStringFindWithOptions` — a call.
* `CFRange`, `cfStringCreateWithSubstring` — a range, and the part of a string in it.
-/

namespace MacRuby

open Occurrence

/-- `CFStringFindWithOptions`, from the options, the two strings and the range, to the place of the
result. -/
abbrev CFFind := (backwards : Bool) → (str sub : List UniChar) → (location length : ℕ) → Option ℕ

/-- The occurrence at a place lies in a range. -/
def InRange (str sub : List UniChar) (location length i : ℕ) : Prop :=
  OccursAt sub str i ∧ location ≤ i ∧ i + sub.length ≤ location + length

instance (str sub : List UniChar) (location length i : ℕ) :
    Decidable (InRange str sub location length i) :=
  inferInstanceAs (Decidable (OccursAt sub str i ∧ _))

/-- **The first, or the last, occurrence that lies in the range is found.** -/
structure CFFind.Documented (find : CFFind) : Prop where
  first : ∀ {str sub : List UniChar} {location length : ℕ}, sub ≠ [] →
    location + length ≤ str.length →
      IsFirst (InRange str sub location length) (find false str sub location length)
  last : ∀ {str sub : List UniChar} {location length : ℕ}, sub ≠ [] →
    location + length ≤ str.length →
      IsLast (InRange str sub location length) (find true str sub location length)

/-- A function that tries one place after the other. -/
def occurrenceIn : CFFind := fun backwards str sub location length =>
  if backwards then lastBelow (InRange str sub location length) (location + length + 1)
  else firstBelow (InRange str sub location length) (location + length + 1)

theorem occurrenceIn_documented : CFFind.Documented occurrenceIn := by
  have hbound : ∀ {str sub : List UniChar} {location length : ℕ} (i : ℕ),
      (i < location + length + 1 ∧ InRange str sub location length i) ↔
        InRange str sub location length i := by
    intro str sub location length i
    refine and_iff_right_of_imp fun h => ?_
    have hend := h.2.2
    omega
  refine ⟨fun _ _ => ?_, fun _ _ => ?_⟩
  · exact (firstBelow_isFirst _ _).congr hbound
  · exact (lastBelow_isLast _ _).congr hbound

section Code

variable (find : CFFind)

/-- `CFStringFindWithOptions(str, sub, CFRangeMake(location, length), options, &r)`. -/
def cfStringFindWithOptions (backwards : Bool) (str sub : List UniChar) (location length : ℤ) :
    Except StringError (Option ℕ) :=
  if 0 ≤ location ∧ 0 ≤ length ∧ location + length ≤ str.length then
    .ok (find backwards str sub location.toNat length.toNat)
  else .error .undefined

/-- A range of a string. -/
structure CFRange where
  location : ℤ
  length : ℤ
  deriving DecidableEq, Repr

/-- `CFStringCreateWithSubstring(NULL, str, range)`. -/
def cfStringCreateWithSubstring (str : List UniChar) (range : CFRange) :
    Except StringError (List UniChar) :=
  if 0 ≤ range.location ∧ 0 ≤ range.length ∧ range.location + range.length ≤ str.length then
    .ok ((str.drop range.location.toNat).take range.length.toNat)
  else .error .undefined

end Code

/-! ## What a call answers -/

section Calls

variable {find : CFFind} (hfind : find.Documented) {str sub : List UniChar}
include hfind

/-- **From a place on, the first occurrence is found.** -/
theorem cfStringFind_from (hsub : sub ≠ []) {start : ℕ} (hstart : start ≤ str.length) :
    ∃ r, cfStringFindWithOptions find false str sub start (str.length - start) = .ok r ∧
      IsFirst (fun i => start ≤ i ∧ OccursAt sub str i) r := by
  have hlen : ((str.length : ℤ) - start).toNat = str.length - start := by omega
  have hin := hfind.first hsub (show start + (str.length - start) ≤ str.length by omega)
  refine ⟨_, if_pos ⟨by omega, by omega, by omega⟩, ?_⟩
  rw [Int.toNat_natCast, hlen]
  refine hin.congr fun i => ?_
  refine ⟨fun h => ⟨h.2.1, h.1⟩, fun h => ⟨h.2, h.1, ?_⟩⟩
  have hle := h.2.le hsub
  omega

/-- **A search from a place on finds what comes first in the part from there on.** -/
theorem cfStringFind_drop (hsub : sub ≠ []) {start : ℕ} (hstart : start ≤ str.length)
    {r : Option ℕ} (hr : IsFirst (OccursAt sub (str.drop start)) r) :
    cfStringFindWithOptions find false str sub start (str.length - start) =
      .ok (r.map (start + ·)) := by
  obtain ⟨r', heq, hr'⟩ := cfStringFind_from hfind hsub hstart
  have hfirst : IsFirst (fun i => start ≤ i ∧ OccursAt sub str i) (r.map (start + ·)) := by
    cases r with
    | none =>
        intro i hi
        obtain ⟨k, rfl⟩ := Nat.exists_eq_add_of_le hi.1
        exact hr k (occursAt_drop.mpr hi.2)
    | some i =>
        refine ⟨⟨Nat.le_add_right _ _, occursAt_drop.mp hr.1⟩, fun j hj => ?_⟩
        obtain ⟨k, rfl⟩ := Nat.exists_eq_add_of_le hj.1
        exact Nat.add_le_add_left (hr.2 k (occursAt_drop.mpr hj.2)) start
  rw [heq, hr'.unique hfirst]

/-- **Up to a place, the last occurrence is found.** -/
theorem cfStringFind_upTo (hsub : sub ≠ []) {stop : ℕ} (hstop : stop ≤ str.length) :
    ∃ r, cfStringFindWithOptions find true str sub 0 stop = .ok r ∧
      IsLast (fun i => i + sub.length ≤ stop ∧ OccursAt sub str i) r := by
  have hin := hfind.last hsub (show 0 + stop ≤ str.length by omega)
  refine ⟨_, if_pos ⟨le_rfl, by omega, by omega⟩, ?_⟩
  rw [Int.toNat_natCast, Int.toNat_zero]
  refine hin.congr fun i => ?_
  unfold InRange
  rw [Nat.zero_add, and_comm, and_assoc]
  exact ⟨fun h => h.2, fun h => ⟨Nat.zero_le i, h⟩⟩

end Calls

/-- A range that is not in the string. -/
theorem cfStringFind_outside {find : CFFind} {backwards : Bool} {str sub : List UniChar}
    {location length : ℤ} (h : str.length < location + length) :
    cfStringFindWithOptions find backwards str sub location length = .error .undefined :=
  if_neg fun hin => absurd hin.2.2 (not_le.mpr h)

/-- A search from a place beyond the end. -/
theorem cfStringFind_beyond {find : CFFind} {backwards : Bool} {str sub : List UniChar}
    {location : ℤ} (h : str.length < location) :
    cfStringFindWithOptions find backwards str sub location (str.length - location) =
      .error .undefined :=
  if_neg fun hin => absurd hin.2.1 (by omega)

/-- The part of a string in a range. -/
theorem cfStringCreateWithSubstring_eq {str : List UniChar} {location length : ℕ}
    (h : location + length ≤ str.length) :
    cfStringCreateWithSubstring str ⟨location, length⟩ =
      .ok ((str.drop location).take length) :=
  if_pos ⟨Int.natCast_nonneg _, Int.natCast_nonneg _, by dsimp only; omega⟩

end MacRuby
