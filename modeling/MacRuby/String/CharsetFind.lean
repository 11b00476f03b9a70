import MacRuby.Lib.Fuel
import MacRuby.Lib.Result
import MacRuby.Lib.Runs
import MacRuby.String.Find

/-!
# The search of `str_charset_find`

`str_charset_find` looks for the runs of a string whose characters are in a set, and calls a
callback with each of them.  A callback may shorten the string; it then says where the search goes
on, and the search starts again there.  Callbacks that replace the run they are called with, and set
the range of the search to what is behind it, replace all the runs of the string.  A callback that
fails ends the search.

## Main definitions

* `charsetSearch` — the search.
* `ActsOnRuns`, `ReplacesRuns` — what a callback does with a run and with the range of the search,
  and when it does not fail.

## Main results

* `charsetSearch_acts`, `charsetSearch_settles` — the runs of the string are replaced.
-/

namespace MacRuby

open Runs

/-- Why `str_charset_find`, or a method that calls it, does not return. -/
inductive CharsetError
  /-- a byte beyond the terminator of a string is read, or a function of the platform is called with
  a range that is not in a string -/
  | undefined
  /-- an assertion fails -/
  | assertion
  /-- `ArgumentError`, from a call without arguments -/
  | argument
  /-- `RuntimeError`, from arguments that are not supported yet -/
  | notSupported
  deriving DecidableEq, Repr

/-- A set of characters. -/
abbrev CharSet := UniChar → Bool

/-- A `str_charset_find_cb`, from the range of the search, the range of the run, the string, the
first character of the run and the context, to the range of the search, the string and the context
after it. -/
abbrev CharsetCb (κ : Type) := (search result : CFRange) → (str : List UniChar) →
  (character : UniChar) → (ctx : κ) → Except CharsetError (CFRange × List UniChar × κ)

/-- The range of the search, the string and the context. -/
structure CharsetState (κ : Type) where
  search : CFRange
  str : List UniChar
  ctx : κ

section Code

variable {κ : Type} (set : CharSet) (squeezeMode : Bool) (cb : CharsetCb κ)

/-- `(*cb)(&search_range, &result_range, str, previous_char, ctx)`. -/
def callCb (s : CharsetState κ) (result : CFRange) (character : UniChar) :
    Except CharsetError (CharsetState κ) :=
  (fun r => ⟨r.1, r.2.1, r.2.2⟩) <$> cb s.search result s.str character s.ctx

/-- `CFStringGetCharacterFromInlineBuffer(&buf, i)`. -/
def inlineChar (buf : List UniChar) (i : ℤ) : UniChar :=
  if 0 ≤ i then buf.getD i.toNat 0 else 0

/-- The inner loop of the search from `i` on, with `result_range`, `previous_char` and `mutated`
after it. -/
def charsetFor (buf : List UniChar) (n : ℤ) : (fuel : ℕ) → (i : ℤ) → (s : CharsetState κ) →
    (result : CFRange) → (previous : UniChar) →
    Except CharsetError (CharsetState κ × CFRange × UniChar × Bool)
  | 0, _, _, _, _ => .error .undefined
  | fuel + 1, i, s, result, previous =>
      if i < s.search.location + s.search.length then
        let c := inlineChar buf i
        if set c then
          if result.length = 0 then charsetFor buf n fuel (i + 1) s ⟨i, 1⟩ c
          else if result.location + result.length = i ∧ (squeezeMode = false ∨ previous = c) then
            charsetFor buf n fuel (i + 1) s ⟨result.location, result.length + 1⟩ previous
          else do
            let s ← callCb cb s result previous
            if s.search.location + s.search.length < n then
              return (s, ⟨i - (n - (s.search.location + s.search.length)), 1⟩, c, true)
            else charsetFor buf n fuel (i + 1) s ⟨i, 1⟩ c
        else charsetFor buf n fuel (i + 1) s result previous
      else .ok (s, result, previous, false)

/-- The outer loop of the search. -/
def charsetLoop : (fuel : ℕ) → (n : ℤ) → (buf : List UniChar) → (s : CharsetState κ) →
    (previous : UniChar) → Except CharsetError (List UniChar × κ)
  | 0, _, _, _, _ => .error .undefined
  | fuel + 1, n, buf, s, previous => do
      let stop := s.search.location + s.search.length
      let buf := if stop < n then s.str.take stop.toNat else buf
      let n := if stop < n then stop else n
      let (s, result, previous, mutated) ←
        charsetFor set squeezeMode cb buf n fuel s.search.location s ⟨0, 0⟩ previous
      if mutated then
        if s.search.length ≠ 0 ∧ result.length ≠ 0 then charsetLoop fuel n buf s previous
        else return (s.str, s.ctx)
      else if result.length ≠ 0 then
        let s ← callCb cb s result previous
        return (s.str, s.ctx)
      else return (s.str, s.ctx)

/-- The search of `str_charset_find` in a string, with the set that it has built. -/
def charsetSearch (str : List UniChar) (ctx : κ) (fuel : ℕ) :
    Except CharsetError (List UniChar × κ) :=
  charsetLoop set squeezeMode cb fuel str.length str ⟨⟨0, str.length⟩, str, ctx⟩ 0

end Code

/-- **The callback replaces a run** by one that is not longer, and leaves the range of the search
with the end of the string as its end.  When it shortens the string, the range begins behind the
run. -/
structure ReplacesRuns {κ : Type} (set : CharSet) (squeezeMode : Bool) (cb : CharsetCb κ)
    (f : List UniChar → List UniChar) (g : List UniChar → κ → κ) : Prop where
  length_le : ∀ run, IsRun set squeezeMode run → (f run).length ≤ run.length
  call : ∀ (front run back : List UniChar) (start : ℕ) (c : UniChar) (ctx : κ),
    IsRun set squeezeMode run → c ∈ run.head? → start ≤ front.length →
    ∃ place : ℕ, cb ⟨start, ((front ++ run ++ back).length - start : ℤ)⟩
        ⟨front.length, run.length⟩ (front ++ run ++ back) c ctx =
          .ok (⟨place, ((front ++ f run ++ back).length - place : ℤ)⟩, front ++ f run ++ back,
            g run ctx) ∧
      place ≤ (front ++ f run).length ∧
      ((f run).length < run.length → place = (front ++ f run).length)

/-- **The callback acts on a run**: while the context is as it should be, it fails as `act` does, or
replaces the run as `act` does. -/
structure ActsOnRuns {κ : Type} (set : CharSet) (squeezeMode : Bool) (cb : CharsetCb κ)
    (inv : κ → Prop) (act : List UniChar → κ → Except CharsetError (List UniChar × κ)) : Prop where
  error : ∀ (front run back : List UniChar) (start : ℕ) (c : UniChar) (ctx : κ) (e : CharsetError),
    IsRun set squeezeMode run → c ∈ run.head? → inv ctx → act run ctx = .error e →
    cb ⟨start, ((front ++ run ++ back).length - start : ℤ)⟩ ⟨front.length, run.length⟩
      (front ++ run ++ back) c ctx = .error e
  ok : ∀ (front run back : List UniChar) (start : ℕ) (c : UniChar) (ctx : κ)
      (r : List UniChar × κ),
    IsRun set squeezeMode run → c ∈ run.head? → start ≤ front.length → inv ctx →
    act run ctx = .ok r → r.1.length ≤ run.length ∧ inv r.2 ∧
      ∃ place : ℕ, cb ⟨start, ((front ++ run ++ back).length - start : ℤ)⟩
          ⟨front.length, run.length⟩ (front ++ run ++ back) c ctx =
            .ok (⟨place, ((front ++ r.1 ++ back).length - place : ℤ)⟩, front ++ r.1 ++ back,
              r.2) ∧
        place ≤ (front ++ r.1).length ∧ (r.1.length < run.length → place = (front ++ r.1).length)

section Search

variable {κ : Type} {set : CharSet} {squeezeMode : Bool} {cb : CharsetCb κ} {inv : κ → Prop}
  {act : List UniChar → κ → Except CharsetError (List UniChar × κ)}

/-- The inner loop is at a place of the string: there may be a run, with other characters behind it,
that the callback has not been called with. -/
structure Midway (set : CharSet) (squeezeMode : Bool) (buf front run gap rest : List UniChar)
    (s : CharsetState κ) (result : CFRange) (previous : UniChar) : Prop where
  str : s.str = front ++ (run ++ (gap ++ rest))
  search : ∃ start : ℕ, start ≤ front.length ∧ s.search = ⟨start, (s.str.length - start : ℤ)⟩
  held : (run = [] ∧ gap = [] ∧ result.length = 0) ∨
    (IsRun set squeezeMode run ∧ result = ⟨front.length, run.length⟩ ∧ previous ∈ run.head?)
  gap_other : ∀ c ∈ gap, set c = false
  buf_rest : buf.drop (front.length + run.length + gap.length) = rest
  buf_length : buf.length = s.str.length

/-- How the inner loop is left: at the end of the string, after a call that has made the string
shorter, or with the failure of a call. -/
inductive Leaves (set : CharSet) (squeezeMode : Bool) (inv : κ → Prop)
    (act : List UniChar → κ → Except CharsetError (List UniChar × κ)) (buf : List UniChar)
    (bound : ℕ) (r : Except CharsetError (List UniChar × κ)) :
    Except CharsetError (CharsetState κ × CFRange × UniChar × Bool) → Prop
  | done {front run gap : List UniChar} {s : CharsetState κ} {result : CFRange}
      {previous : UniChar} : Midway set squeezeMode buf front run gap [] s result previous →
      inv s.ctx → actRuns set squeezeMode act front (run ++ gap) s.ctx = r →
      Leaves set squeezeMode inv act buf bound r (.ok (s, result, previous, false))
  | again {front todo : List UniChar} {s : CharsetState κ} {result : CFRange}
      {previous : UniChar} : s.str = front ++ todo → s.search = ⟨front.length, todo.length⟩ →
      todo ≠ [] → todo.length < bound → s.str.length < buf.length → result.length = 1 →
      inv s.ctx → actRuns set squeezeMode act front todo s.ctx = r →
      Leaves set squeezeMode inv act buf bound r (.ok (s, result, previous, true))
  | failed {e : CharsetError} : r = .error e →
      Leaves set squeezeMode inv act buf bound r (.error e)

theorem Leaves.mono {buf : List UniChar} {m n : ℕ} {r : Except CharsetError (List UniChar × κ)}
    {o : Except CharsetError (CharsetState κ × CFRange × UniChar × Bool)} (hmn : m ≤ n)
    (h : Leaves set squeezeMode inv act buf m r o) :
    Leaves set squeezeMode inv act buf n r o := by
  cases h with
  | done hmid hinv htotal => exact .done hmid hinv htotal
  | again hstr hsearch hne hlt hshort hone hinv htotal =>
      exact .again hstr hsearch hne (by omega) hshort hone hinv htotal
  | failed htotal => exact .failed htotal

variable {buf front run gap rest : List UniChar} {s : CharsetState κ} {result : CFRange}
  {previous c : UniChar}

/-- A character that is not in the set. -/
theorem Midway.other (act : List UniChar → κ → Except CharsetError (List UniChar × κ))
    (h : Midway set squeezeMode buf front run gap (c :: rest) s result previous)
    (hc : set c = false) :
    ∃ front' gap', Midway set squeezeMode buf front' run gap' rest s result previous ∧
      front'.length + run.length + gap'.length = front.length + run.length + gap.length + 1 ∧
      front.length ≤ front'.length ∧
      actRuns set squeezeMode act front' (run ++ (gap' ++ rest)) s.ctx =
        actRuns set squeezeMode act front (run ++ (gap ++ c :: rest)) s.ctx := by
  obtain ⟨start, hstart, hsearch⟩ := h.search
  have hrest : buf.drop (front.length + run.length + gap.length + 1) = rest := by
    rw [← List.drop_drop, h.buf_rest]
    rfl
  obtain ⟨rfl, rfl, hzero⟩ | hheld := h.held
  · refine ⟨front ++ [c], [], ⟨by simp [h.str], ⟨start, ?_, hsearch⟩, .inl ⟨rfl, rfl, hzero⟩,
      by simp, by simpa using hrest, h.buf_length⟩, by simp, by simp, ?_⟩
    · rw [List.length_append]
      omega
    · exact (actRuns_other hc).symm
  · refine ⟨front, gap ++ [c], ⟨by simp [h.str], ⟨start, hstart, hsearch⟩, .inr hheld, ?_, ?_,
      h.buf_length⟩, by simp; omega, le_rfl, by simp⟩
    · intro d hd
      obtain hd | hd := List.mem_append.mp hd
      · exact h.gap_other d hd
      · rwa [List.mem_singleton.mp hd]
    · rw [List.length_append, List.length_singleton, ← Nat.add_assoc]
      exact hrest

/-- The first character of a run. -/
theorem Midway.start (h : Midway set squeezeMode buf front [] [] (c :: rest) s result previous)
    (hc : set c = true) :
    Midway set squeezeMode buf front [c] [] rest s ⟨front.length, 1⟩ c := by
  have hrest : buf.drop (front.length + 1) = rest := by
    rw [← List.drop_drop]
    exact congrArg (List.drop 1) h.buf_rest
  exact ⟨by simp [h.str], h.search, .inr ⟨.singleton hc, rfl, rfl⟩, by simp, hrest, h.buf_length⟩

/-- A further character of a run. -/
theorem Midway.extend (h : Midway set squeezeMode buf front run [] (c :: rest) s result previous)
    (hrun : IsRun set squeezeMode run) (hprevious : previous ∈ run.head?) (hc : set c = true)
    (hsame : squeezeMode = false ∨ previous = c) :
    Midway set squeezeMode buf front (run ++ [c]) [] rest s
      ⟨front.length, (run ++ [c]).length⟩ previous := by
  have hrest : buf.drop (front.length + run.length + 1) = rest := by
    rw [← List.drop_drop]
    exact congrArg (List.drop 1) h.buf_rest
  have hrun' : IsRun set squeezeMode (run ++ [c]) := by
    refine hrun.concat hc fun htrue => ?_
    obtain hfalse | hsame := hsame
    · simp [htrue] at hfalse
    · exact ⟨previous, List.mem_of_mem_head? hprevious, hsame⟩
  refine ⟨by simp [h.str], h.search, .inr ⟨hrun', rfl, ?_⟩, by simp, ?_, h.buf_length⟩
  · rw [List.head?_append_of_ne_nil _ hrun.ne_nil]
    exact hprevious
  · rw [List.length_append, List.length_singleton, ← Nat.add_assoc, List.length_nil, Nat.add_zero]
    exact hrest

/-- The call for a run. -/
theorem Midway.call (hcb : ActsOnRuns set squeezeMode cb inv act)
    (h : Midway set squeezeMode buf front run gap rest s result previous) (hinv : inv s.ctx)
    (hrun : IsRun set squeezeMode run) (hresult : result = ⟨front.length, run.length⟩)
    (hprevious : previous ∈ run.head?) :
    (∀ e, act run s.ctx = .error e → callCb cb s result previous = .error e) ∧
    ∀ r, act run s.ctx = .ok r → r.1.length ≤ run.length ∧
      ∃ (place : ℕ) (s' : CharsetState κ), callCb cb s result previous = .ok s' ∧
        s'.str = front ++ r.1 ++ (gap ++ rest) ∧ s'.ctx = r.2 ∧ inv s'.ctx ∧
        s'.search = ⟨place, (s'.str.length - place : ℤ)⟩ ∧ place ≤ (front ++ r.1).length ∧
        (r.1.length < run.length → place = (front ++ r.1).length) := by
  obtain ⟨start, hstart, hsearch⟩ := h.search
  have hstr : front ++ run ++ (gap ++ rest) = s.str := by rw [h.str, List.append_assoc]
  refine ⟨fun e hact => ?_, fun r hact => ?_⟩
  · have hcall := hcb.error front run (gap ++ rest) start previous s.ctx e hrun hprevious hinv hact
    rw [hstr, ← hsearch, ← hresult] at hcall
    rw [callCb, hcall]
    rfl
  · obtain ⟨hlen, hinv', place, hcall, hle, hshort⟩ :=
      hcb.ok front run (gap ++ rest) start previous s.ctx r hrun hprevious hstart hinv hact
    rw [hstr, ← hsearch, ← hresult] at hcall
    refine ⟨hlen, place, ⟨⟨place, ((front ++ r.1 ++ (gap ++ rest)).length - place : ℤ)⟩,
      front ++ r.1 ++ (gap ++ rest), r.2⟩, ?_, rfl, rfl, hinv', rfl, hle, hshort⟩
    rw [callCb, hcall]
    rfl

/-- A run ends where the search begins a new one. -/
theorem apart_of_not_extend (hrun : IsRun set squeezeMode run) (hprevious : previous ∈ run.head?)
    (hgap : ∀ c ∈ gap, set c = false)
    (hnot : ¬ (gap = [] ∧ (squeezeMode = false ∨ previous = c))) :
    Apart set squeezeMode run (gap ++ c :: rest) := by
  intro a ha b hb
  cases gap with
  | cons d gap =>
      have hbd : d = b := by simpa using hb
      simp [joins, ← hbd, hgap d (by simp)]
  | nil =>
      have hcb : c = b := by simpa using hb
      have hmode : ¬ (squeezeMode = false ∨ previous = c) := fun h => hnot ⟨rfl, h⟩
      have htrue : squeezeMode = true := by simpa using fun h => hmode (.inl h)
      have hap : a = previous :=
        hrun.same htrue a (List.mem_of_getLast? ha) previous (List.mem_of_mem_head? hprevious)
      have hne : a ≠ b := fun heq => hmode (.inr (by rw [← hap, heq, hcb]))
      simp [joins, htrue, hne]

/-- The search goes on with a new run when the string has kept its length. -/
theorem Midway.restart {s' : CharsetState κ} {place : ℕ}
    (h : Midway set squeezeMode buf front run gap (c :: rest) s result previous)
    (hc : set c = true) {run' : List UniChar} (hlen : run'.length = run.length)
    (hstr : s'.str = front ++ run' ++ (gap ++ c :: rest))
    (hsearch : s'.search = ⟨place, (s'.str.length - place : ℤ)⟩)
    (hplace : place ≤ (front ++ run').length) :
    Midway set squeezeMode buf (front ++ run' ++ gap) [c] [] rest s'
      ⟨(front ++ run' ++ gap).length, 1⟩ c := by
  have hrest : buf.drop (front.length + run.length + gap.length + 1) = rest := by
    rw [← List.drop_drop, h.buf_rest]
    rfl
  have hbuf := h.buf_length
  simp only [List.length_append] at hplace
  refine ⟨by simp [hstr], ⟨place, ?_, hsearch⟩, .inr ⟨.singleton hc, rfl, rfl⟩, by simp, ?_, ?_⟩
  · simp only [List.length_append]
    omega
  · simpa [hlen, ← Nat.add_assoc] using hrest
  · rw [hbuf, h.str, hstr]
    simp [hlen]

theorem inlineChar_of_drop {i : ℕ} (h : buf.drop i = c :: rest) : inlineChar buf i = c := by
  have hget : buf[i]? = some c := by
    rw [← List.head?_drop, h]
    rfl
  rw [inlineChar, if_pos (by omega), Int.toNat_natCast, List.getD_eq_getElem?_getD, hget]
  rfl

/-- Where the search stops. -/
theorem Midway.stop (h : Midway set squeezeMode buf front run gap rest s result previous) :
    s.search.location + s.search.length =
      ((front.length + run.length + gap.length + rest.length : ℕ) : ℤ) := by
  obtain ⟨start, -, hsearch⟩ := h.search
  have hlen := congrArg List.length h.str
  simp only [List.length_append] at hlen
  rw [hsearch]
  simp only
  omega

/-- **The inner loop** deals with the runs of the string up to the first one that gets shorter. -/
theorem charsetFor_leaves (hcb : ActsOnRuns set squeezeMode cb inv act) (fuel : ℕ)
    (h : Midway set squeezeMode buf front run gap rest s result previous) (hinv : inv s.ctx)
    (hfuel : rest.length < fuel) :
    Leaves set squeezeMode inv act buf (run ++ (gap ++ rest)).length
      (actRuns set squeezeMode act front (run ++ (gap ++ rest)) s.ctx)
      (charsetFor set squeezeMode cb buf buf.length fuel
        ((front.length + run.length + gap.length : ℕ) : ℤ) s result previous) := by
  induction rest generalizing front run gap s result previous fuel with
  | nil =>
      obtain ⟨fuel, rfl⟩ := Nat.exists_eq_add_one_of_ne_zero (show fuel ≠ 0 by omega)
      rw [charsetFor, h.stop, if_neg (by simp)]
      exact .done h hinv (by rw [List.append_nil])
  | cons c rest ih =>
      obtain ⟨fuel, rfl⟩ := Nat.exists_eq_add_one_of_ne_zero (show fuel ≠ 0 by omega)
      have hfuel' : rest.length < fuel := by simpa using hfuel
      rw [charsetFor, h.stop, if_pos (by rw [List.length_cons]; omega),
        inlineChar_of_drop h.buf_rest]
      dsimp only
      cases hc : set c with
      | false =>
          obtain ⟨front', gap', hmid, hplace, hfront, htotal⟩ := h.other act hc
          have hleaves := ih fuel hmid hinv hfuel'
          rw [hplace, htotal] at hleaves
          refine Leaves.mono ?_ (by simpa using hleaves)
          have hstr := congrArg List.length (h.str.symm.trans hmid.str)
          simp only [List.length_append, List.length_cons] at hstr hplace ⊢
          omega
      | true =>
          obtain ⟨rfl, rfl, hzero⟩ | ⟨hrun, hresult, hprevious⟩ := h.held
          · have hleaves := ih fuel (h.start hc) hinv hfuel'
            simpa [hzero] using hleaves
          · have hpos := List.length_pos_of_ne_nil hrun.ne_nil
            have hheld : ¬ result.length = 0 := by
              rw [hresult]
              simpa using hrun.ne_nil
            have hextend : (result.location + result.length =
                  ((front.length + run.length + gap.length : ℕ) : ℤ) ∧
                (squeezeMode = false ∨ previous = c)) ↔
                  gap = [] ∧ (squeezeMode = false ∨ previous = c) := by
              refine and_congr_left fun _ => ?_
              rw [hresult, ← List.length_eq_zero_iff]
              simp only
              omega
            rw [if_pos rfl, if_neg hheld]
            by_cases hgo : gap = [] ∧ (squeezeMode = false ∨ previous = c)
            · rw [if_pos (hextend.mpr hgo)]
              obtain ⟨rfl, hsame⟩ := hgo
              have hleaves := ih fuel (h.extend hrun hprevious hc hsame) hinv hfuel'
              simpa [hresult, add_assoc] using hleaves
            · rw [if_neg (mt hextend.mp hgo)]
              obtain ⟨hfail, hsucceed⟩ := h.call hcb hinv hrun hresult hprevious
              have hapart : Apart set squeezeMode run (gap ++ c :: rest) :=
                apart_of_not_extend hrun hprevious h.gap_other hgo
              have htotal : actRuns set squeezeMode act front (run ++ (gap ++ c :: rest)) s.ctx =
                  _ := actRuns_run hrun hapart
              rw [htotal]
              cases hact : act run s.ctx with
              | error e =>
                  rw [hfail e hact]
                  exact .failed rfl
              | ok r =>
                  obtain ⟨hle, place, s', hcall, hstr, hctx, hinv', hsearch, hplace, hshort⟩ :=
                    hsucceed r hact
                  have hlen := congrArg List.length h.str
                  have hlen' := congrArg List.length hstr
                  have hbuf := h.buf_length
                  simp only [List.length_append, List.length_cons] at hlen hlen' hplace hshort
                  have hstop : s'.search.location + s'.search.length = s'.str.length := by
                    rw [hsearch]
                    simp
                  rw [hcall, Result.ok_bind, Result.ok_bind, hstop]
                  by_cases hlt : r.1.length < run.length
                  · rw [if_pos (by omega)]
                    refine .again hstr ?_ (by simp) ?_ (by omega) rfl hinv' (by rw [hctx])
                    · rw [hsearch, hshort hlt, hlen']
                      simp
                    · simp only [List.length_append, List.length_cons]
                      omega
                  · have hsame : r.1.length = run.length := by omega
                    rw [if_neg (by omega)]
                    have hmid := h.restart hc hsame hstr hsearch (by simpa using hplace)
                    have hleaves := ih fuel hmid hinv' hfuel'
                    have hgap : actRuns set squeezeMode act (front ++ r.1) (gap ++ c :: rest) r.2 =
                        _ := actRuns_gap h.gap_other
                    rw [hgap, ← hctx]
                    refine Leaves.mono ?_ (by simpa [hsame, add_assoc] using hleaves)
                    simp only [List.length_append, List.length_cons]
                    omega

/-- The call for the last run of the string. -/
theorem Midway.last (hcb : ActsOnRuns set squeezeMode cb inv act)
    (h : Midway set squeezeMode buf front run gap [] s result previous) (hinv : inv s.ctx) :
    (result.length = 0 ∧
      .ok (s.str, s.ctx) = actRuns set squeezeMode act front (run ++ gap) s.ctx) ∨
    (result.length ≠ 0 ∧
      (fun s' => (s'.str, s'.ctx)) <$> callCb cb s result previous =
        actRuns set squeezeMode act front (run ++ gap) s.ctx) := by
  obtain ⟨rfl, rfl, hzero⟩ | ⟨hrun, hresult, hprevious⟩ := h.held
  · refine .inl ⟨hzero, ?_⟩
    simp [h.str]
  · refine .inr ⟨by simpa [hresult] using hrun.ne_nil, ?_⟩
    have hapart : Apart set squeezeMode run gap := by
      intro a _ b hb
      simp [joins, h.gap_other b (List.mem_of_mem_head? hb)]
    obtain ⟨hfail, hsucceed⟩ := h.call hcb hinv hrun hresult hprevious
    rw [actRuns_run hrun hapart]
    cases hact : act run s.ctx with
    | error e =>
        rw [hfail e hact]
        rfl
    | ok r =>
        obtain ⟨-, place, s', hcall, hstr, hctx, -⟩ := hsucceed r hact
        have hgap : actRuns set squeezeMode act (front ++ r.1) (gap ++ []) r.2 = _ :=
          actRuns_gap h.gap_other
        rw [List.append_nil] at hgap hstr
        rw [hcall, Result.ok_bind, hgap, actRuns_nil, ← hstr, ← hctx]
        rfl

/-- The outer loop deals with what is left of the string. -/
theorem charsetLoop_finishes (hcb : ActsOnRuns set squeezeMode cb inv act) (fuel : ℕ)
    {todo : List UniChar} {n : ℤ} (hstr : s.str = front ++ todo)
    (hsearch : s.search = ⟨front.length, todo.length⟩) (hinv : inv s.ctx)
    (hbuf : (n = s.str.length ∧ buf = s.str) ∨ s.str.length < n) (hfuel : todo.length + 1 < fuel) :
    charsetLoop set squeezeMode cb fuel n buf s previous =
      actRuns set squeezeMode act front todo s.ctx := by
  induction fuel generalizing front todo s n buf previous with
  | zero => omega
  | succ fuel ih =>
      have hlen := congrArg List.length hstr
      rw [List.length_append] at hlen
      have hstop : s.search.location + s.search.length = s.str.length := by
        rw [hsearch, hlen]
        simp
      have hbuf' : (if (s.str.length : ℤ) < n then s.str.take (s.str.length : ℤ).toNat else buf) =
          s.str := by
        split_ifs with hlt
        · simp
        · exact (hbuf.resolve_right hlt).2
      have hn : (if (s.str.length : ℤ) < n then (s.str.length : ℤ) else n) = s.str.length := by
        split_ifs with hlt
        · rfl
        · exact (hbuf.resolve_right hlt).1
      have hmid : Midway set squeezeMode s.str front [] [] todo s ⟨0, 0⟩ previous := by
        refine ⟨hstr, ⟨front.length, le_rfl, ?_⟩, .inl ⟨rfl, rfl, rfl⟩, by simp, ?_, rfl⟩
        · rw [hsearch, hlen]
          simp
        · simp [hstr]
      have hleaves := charsetFor_leaves hcb fuel hmid hinv (by omega)
      have hplace : ((front.length + ([] : List UniChar).length + ([] : List UniChar).length : ℕ) :
          ℤ) = s.search.location := by simp [hsearch]
      rw [hplace, List.nil_append, List.nil_append] at hleaves
      rw [charsetLoop, hstop]
      simp only [hbuf', hn]
      cases hloop : charsetFor set squeezeMode cb s.str s.str.length fuel s.search.location s ⟨0, 0⟩
          previous with
      | error e =>
          rw [hloop] at hleaves
          cases hleaves with
          | failed htotal => exact htotal.symm
      | ok o =>
          rw [hloop] at hleaves
          rw [Result.ok_bind]
          cases hleaves with
          | done hmid' hinv' htotal =>
              obtain ⟨hzero, hresult⟩ | ⟨hheld, hresult⟩ := hmid'.last hcb hinv'
              · simp only [Bool.false_eq_true, if_false, hzero, ne_eq, not_true_eq_false]
                exact hresult.trans htotal
              · simp only [Bool.false_eq_true, if_false, if_pos hheld]
                rw [← htotal, ← hresult]
                rfl
          | @again front' todo' s' result' previous' hstr' hsearch' hne hlt hshort hone hinv'
              htotal =>
              have hgo : s'.search.length ≠ 0 ∧ result'.length ≠ 0 := by
                rw [hsearch', hone]
                simpa using hne
              simp only [if_true, if_pos hgo]
              rw [ih hstr' hsearch' hinv' (.inr (by omega)) (by omega), htotal]

/-- **The search acts on the runs of the string**, and fails when that fails. -/
theorem charsetSearch_acts (hcb : ActsOnRuns set squeezeMode cb inv act) (str : List UniChar)
    {ctx : κ} (hinv : inv ctx) :
    Fuel.Settles (charsetSearch set squeezeMode cb str ctx)
      (actRuns set squeezeMode act [] str ctx) := by
  refine .of_le (str.length + 2) fun fuel hfuel => ?_
  have hstart : (⟨⟨0, str.length⟩, str, ctx⟩ : CharsetState κ).str = [] ++ str := rfl
  exact charsetLoop_finishes hcb fuel hstart rfl hinv (.inl ⟨rfl, rfl⟩) (by omega)

variable {f : List UniChar → List UniChar} {g : List UniChar → κ → κ}

/-- A callback that replaces runs acts on them without failing. -/
theorem ReplacesRuns.actsOnRuns (hcb : ReplacesRuns set squeezeMode cb f g) :
    ActsOnRuns set squeezeMode cb (fun _ => True) fun run ctx => .ok (f run, g run ctx) where
  error _ _ _ _ _ _ _ _ _ _ hact := by simp at hact
  ok front run back start c ctx r hrun hc hstart _ hact := by
    obtain rfl := Except.ok.inj hact
    exact ⟨hcb.length_le run hrun, trivial, hcb.call front run back start c ctx hrun hc hstart⟩

/-- **The search replaces the runs of the string.** -/
theorem charsetSearch_settles (hcb : ReplacesRuns set squeezeMode cb f g) (str : List UniChar)
    (ctx : κ) :
    Fuel.Settles (charsetSearch set squeezeMode cb str ctx)
      (.ok (replaceRuns set squeezeMode f str, foldRuns set squeezeMode g str ctx)) := by
  have hacts : Fuel.Settles (charsetSearch set squeezeMode cb str ctx) _ :=
    charsetSearch_acts hcb.actsOnRuns str trivial
  rwa [actRuns_ok, List.nil_append] at hacts

end Search

/-! ## Other searches -/

section Others

variable {κ : Type} {set : CharSet} {squeezeMode : Bool} {cb : CharsetCb κ} {buf : List UniChar}

/-- The inner loop passes over characters that are not in the set. -/
theorem charsetFor_none (fuel : ℕ) {n i : ℤ} {s : CharsetState κ} {result : CFRange}
    {previous : UniChar} (hnone : ∀ j, i ≤ j → j < n → set (inlineChar buf j) = false)
    (hstop : s.search.location + s.search.length = n) (hfuel : (n - i).toNat < fuel) :
    charsetFor set squeezeMode cb buf n fuel i s result previous =
      .ok (s, result, previous, false) := by
  induction fuel generalizing i with
  | zero => omega
  | succ fuel ih =>
      rw [charsetFor, hstop]
      by_cases hi : i < n
      · rw [if_pos hi]
        simp only [hnone i le_rfl hi, Bool.false_eq_true, if_false]
        exact ih (fun j hj => hnone j (by omega)) (by omega)
      · rw [if_neg hi]

/-- **A search for no character of the string** returns it. -/
theorem charsetSearch_none (cb : CharsetCb κ) {str : List UniChar}
    (hnone : ∀ c ∈ str, set c = false) (ctx : κ) :
    Fuel.Settles (charsetSearch set squeezeMode cb str ctx) (.ok (str, ctx)) := by
  refine .of_le (str.length + 2) fun fuel hfuel => ?_
  obtain ⟨fuel, rfl⟩ := Nat.exists_eq_add_one_of_ne_zero (show fuel ≠ 0 by omega)
  have hchars : ∀ j : ℤ, 0 ≤ j → j < str.length → set (inlineChar str j) = false := by
    intro j hj hlt
    have hlt' : j.toNat < str.length := by omega
    rw [inlineChar, if_pos hj, List.getD_eq_getElem _ _ hlt']
    exact hnone _ (List.getElem_mem hlt')
  have hloop : charsetFor set squeezeMode cb str str.length fuel 0 ⟨⟨0, str.length⟩, str, ctx⟩
      ⟨0, 0⟩ 0 = _ := charsetFor_none fuel hchars (by simp) (by omega)
  rw [charsetSearch, charsetLoop]
  simp only [zero_add, lt_irrefl, if_false, hloop, Result.ok_bind]
  rfl

/-- The callback makes the string longer and does not say where the search goes on. -/
def Lengthens (cb : CharsetCb κ) : Prop :=
  ∀ (search result : CFRange) (str : List UniChar) (c : UniChar) (ctx : κ)
    (r : CFRange × List UniChar × κ), 0 < result.length → cb search result str c ctx = .ok r →
    r.1 = search ∧ str.length < r.2.1.length

/-- A call makes the string longer. -/
theorem callCb_grows (hcb : Lengthens cb) {s s' : CharsetState κ} {result : CFRange} {c : UniChar}
    (hpos : 0 < result.length) (h : callCb cb s result c = .ok s') :
    s'.search = s.search ∧ s.str.length < s'.str.length := by
  rw [callCb] at h
  cases hcall : cb s.search result s.str c s.ctx with
  | error e =>
      rw [hcall] at h
      exact absurd h (by simp)
  | ok r =>
      rw [hcall] at h
      obtain rfl := Except.ok.inj h
      exact hcb _ _ _ _ _ r hpos hcall

/-- The inner loop of a search whose callback makes the string longer. -/
theorem charsetFor_grows (hcb : Lengthens cb) (fuel : ℕ) {n i : ℤ} {s : CharsetState κ}
    {result : CFRange} {previous : UniChar} {o : CharsetState κ × CFRange × UniChar × Bool}
    (hstop : s.search.location + s.search.length = n) (hresult : 0 ≤ result.length)
    (h : charsetFor set squeezeMode cb buf n fuel i s result previous = .ok o) :
    o.2.2.2 = false ∧ o.1.search = s.search ∧ s.str.length ≤ o.1.str.length ∧
      0 ≤ o.2.1.length ∧
      ((0 < result.length ∨ ∃ j, i ≤ j ∧ j < n ∧ set (inlineChar buf j) = true) →
        0 < o.2.1.length) := by
  induction fuel generalizing i s result previous with
  | zero =>
      rw [charsetFor] at h
      exact absurd h (by simp)
  | succ fuel ih =>
      rw [charsetFor, hstop] at h
      by_cases hi : i < n
      · rw [if_pos hi] at h
        dsimp only at h
        cases hset : set (inlineChar buf i) with
        | false =>
            simp only [hset, Bool.false_eq_true, if_false] at h
            obtain ⟨hmut, hsearch, hlen, hpos, hany⟩ := ih hstop hresult h
            refine ⟨hmut, hsearch, hlen, hpos, fun hor => hany (hor.imp_right ?_)⟩
            rintro ⟨j, hij, hjn, hj⟩
            have hne : i ≠ j := by
              rintro rfl
              simp [hset] at hj
            exact ⟨j, by omega, hjn, hj⟩
        | true =>
            simp only [hset, if_true] at h
            by_cases hzero : result.length = 0
            · rw [if_pos hzero] at h
              obtain ⟨hmut, hsearch, hlen, hpos, hany⟩ := ih hstop (by simp) h
              exact ⟨hmut, hsearch, hlen, hpos, fun _ => hany (.inl (by simp))⟩
            · rw [if_neg hzero] at h
              by_cases hgo : result.location + result.length = i ∧
                  (squeezeMode = false ∨ previous = inlineChar buf i)
              · rw [if_pos hgo] at h
                obtain ⟨hmut, hsearch, hlen, hpos, hany⟩ := ih hstop (by simp; omega) h
                exact ⟨hmut, hsearch, hlen, hpos, fun _ => hany (.inl (by simp; omega))⟩
              · rw [if_neg hgo] at h
                obtain ⟨s', hcall, h⟩ := Result.bind_eq_ok.mp h
                obtain ⟨hsearch', hlt⟩ := callCb_grows hcb (by omega) hcall
                rw [hsearch', hstop, if_neg (lt_irrefl _)] at h
                obtain ⟨hmut, hsearch, hlen, hpos, hany⟩ := ih (hsearch' ▸ hstop) (by simp) h
                exact ⟨hmut, hsearch.trans hsearch', by omega, hpos,
                  fun _ => hany (.inl (by simp))⟩
      · rw [if_neg hi] at h
        obtain rfl := Except.ok.inj h
        refine ⟨rfl, rfl, le_rfl, hresult, fun hor => ?_⟩
        rcases hor with hpos | ⟨j, hij, hjn, -⟩
        · exact hpos
        · omega

/-- **A search whose callback makes the string longer** returns a longer string when it returns one
and there is a character of the set. -/
theorem charsetSearch_grows (hcb : Lengthens cb) {str : List UniChar}
    (hsome : ∃ c ∈ str, set c = true)
    {ctx : κ} {fuel : ℕ} {r : List UniChar × κ}
    (h : charsetSearch set squeezeMode cb str ctx fuel = .ok r) : str.length < r.1.length := by
  cases fuel with
  | zero => exact absurd h (by simp [charsetSearch, charsetLoop])
  | succ fuel =>
      rw [charsetSearch, charsetLoop] at h
      simp only [zero_add, lt_irrefl, if_false] at h
      obtain ⟨o, hloop, h⟩ := Result.bind_eq_ok.mp h
      obtain ⟨hmut, hsearch, hlen, -, hany⟩ := charsetFor_grows hcb fuel (by simp) (by simp) hloop
      obtain ⟨c, hc, hset⟩ := hsome
      obtain ⟨j, hj⟩ := List.mem_iff_getElem?.mp hc
      have hlt := (List.getElem?_eq_some_iff.mp hj).1
      have hchar : inlineChar str j = c := by
        rw [inlineChar, if_pos (by omega), Int.toNat_natCast, List.getD_eq_getElem?_getD, hj]
        rfl
      have hpos := hany (.inr ⟨j, by omega, by omega, by rw [hchar, hset]⟩)
      obtain ⟨s', result, previous, mutated⟩ := o
      simp only at hmut hpos hlen
      subst hmut
      simp only [Bool.false_eq_true, if_false, if_pos hpos.ne'] at h
      obtain ⟨s'', hcall, h⟩ := Result.bind_eq_ok.mp h
      obtain ⟨-, hlt'⟩ := callCb_grows hcb hpos hcall
      obtain rfl := Except.ok.inj h
      exact hlen.trans_lt hlt'

end Others

end MacRuby
