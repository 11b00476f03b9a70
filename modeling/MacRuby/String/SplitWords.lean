import MacRuby.Lib.Words
import MacRuby.String.Split

/-!
# Splitting a string at white space

Without a separator, or with a single space, `String#split` returns the words of a string.  The loop
looks for the next white space in the one case and for the next space in the other one, and pushes
what is before it, trimmed, unless that is empty.  So white space other than spaces stays in the
fields, what follows the last space is not trimmed, and the limit counts the spaces that were found.
These are those of the `CFString`.

## Main definitions

* `CFSpaces.Documented` — what the callers of the platform's functions rely on.
* `WordsRight` — the result of a call is the right one.
* `PartsAreWords` — what was cut off are words.

## Main results

* `wordsRight_iff` — the calls whose result is right.
-/

namespace MacRuby

open Occurrence Words

/-- **The first white space in the range is found, and strings are trimmed at both ends.**  A space
is white space. -/
structure CFSpaces.Documented (spaces : CFSpaces) : Prop where
  space : spaces.isSpace 0x20 = true
  find : ∀ {str : List UniChar} {location length : ℕ}, location + length ≤ str.length →
    IsFirst (fun i => (location ≤ i ∧ i < location + length) ∧ str[i]?.any spaces.isSpace = true)
      (spaces.findSpace str location length)
  trim : ∀ str, spaces.trim str = Words.trim spaces.isSpace str

/-! ## What a result should be -/

section Meaning

variable (L : LongSize) (find : CFFind) (spaces : CFSpaces) (str : List UniChar)

/-- A call without a separator or with a single space. -/
inductive SpaceSep
  | nil
  | space
  deriving DecidableEq, Repr

/-- The separator of a call. -/
def SpaceSep.pattern : SpaceSep → SplitPattern
  | .nil => .nil
  | .space => .string ⟨[0x20], none⟩

/-- The characters that the loop looks for. -/
def SpaceSep.isSep : SpaceSep → UniChar → Bool
  | .nil => spaces.isSpace
  | .space => (· == 0x20)

/-- The fields with a limit of `k`: the first words, and the rest of the string from the next word
on.  When there is no next word, the rest is empty and may be missing. -/
def LimitedWords (k : ℕ) (fields : List (List UniChar)) : Prop :=
  if k ≤ (words spaces.isSpace str).length then
    fields = (words spaces.isSpace str).take (k - 1) ++ [fromWord spaces.isSpace (k - 1) str]
  else fields = words spaces.isSpace str ∨ fields = words spaces.isSpace str ++ [[]]

/-- **The result is right**: the words of the string, or the first of them and the rest of the
string. -/
def WordsRight (string : StringObject) (sep : SpaceSep) : Option ℤ → Prop
  | none => Returns L find spaces string sep.pattern none (words spaces.isSpace string.text)
  | some k => ∃ fields, Returns L find spaces string sep.pattern (some k) fields ∧
      LimitedWords spaces string.text k.toNat fields

/-- What is pushed in the loop, and the rest of the string: the parts before the characters that are
found, of which a limit allows one less than it says. -/
def cutParts (sep : SpaceSep) (limit : Option ℤ) : List (List UniChar) × List UniChar :=
  let n := match limit with
    | none => str.length
    | some k => k.toNat - 1
  let r := cutFirst (sep.isSep spaces) n str
  ((r.1.map (Words.trim spaces.isSpace)).filter fun part => !part.isEmpty, r.2)

/-- **The parts that are cut off are words, and so is the rest**: there is no white space in them.
With a limit, there may be white space in the rest, if it starts with a word and as many words were
cut off as the limit allows. -/
def PartsAreWords (sep : SpaceSep) (limit : Option ℤ) : Prop :=
  let r := cutParts spaces str sep limit
  (∀ part ∈ r.1, ∀ c ∈ part, spaces.isSpace c = false) ∧
    ((∀ c ∈ r.2, spaces.isSpace c = false) ∨
      ∃ k ∈ limit, r.1.length = k.toNat - 1 ∧ ∃ c ∈ r.2.head?, spaces.isSpace c = false)

end Meaning

/-! ## When the fields are words -/

section Fields

variable {spaces : CFSpaces} {str : List UniChar}

/-- Parts in which there is no white space when they are trimmed are the words in them. -/
theorem filter_trim_eq {heads : List (List UniChar)}
    (h : ∀ part ∈ (heads.map (Words.trim spaces.isSpace)).filter fun part => !part.isEmpty,
      ∀ c ∈ part, spaces.isSpace c = false) :
    ((heads.map (Words.trim spaces.isSpace)).filter fun part => !part.isEmpty) =
      heads.flatMap (words spaces.isSpace) := by
  induction heads with
  | nil => rfl
  | cons head heads ih =>
      rw [List.map_cons] at h ⊢
      rw [List.flatMap_cons]
      by_cases hnil : Words.trim spaces.isSpace head = []
      · rw [List.filter_cons_of_neg (by simp [hnil])] at h ⊢
        rw [← words_trim head, hnil, words_nil]
        exact ih h
      · rw [List.filter_cons_of_pos (by simp [hnil])] at h ⊢
        obtain ⟨hhead, hrest⟩ := List.forall_mem_cons.mp h
        rw [← words_trim head, words_of_forall hhead, if_neg hnil, ih hrest]
        rfl

/-- The characters that the loop looks for are white space. -/
theorem SpaceSep.isSep_isSpace (hspaces : spaces.Documented) (sep : SpaceSep) (c : UniChar)
    (hc : sep.isSep spaces c = true) : spaces.isSpace c = true := by
  cases sep with
  | nil => exact hc
  | space => exact (beq_iff_eq.mp hc) ▸ hspaces.space

/-- **The words of the string** are what was cut off, when these are words, and the words of the
rest. -/
theorem words_cutParts (hspaces : spaces.Documented) {sep : SpaceSep} {limit : Option ℤ}
    (hwords : ∀ part ∈ (cutParts spaces str sep limit).1, ∀ c ∈ part, spaces.isSpace c = false)
    (k : ℕ) :
    words spaces.isSpace str = (cutParts spaces str sep limit).1 ++
        words spaces.isSpace (cutParts spaces str sep limit).2 ∧
      fromWord spaces.isSpace ((cutParts spaces str sep limit).1.length + k) str =
        fromWord spaces.isSpace k (cutParts spaces str sep limit).2 := by
  unfold cutParts at hwords ⊢
  dsimp only at hwords ⊢
  rw [filter_trim_eq hwords]
  exact ⟨words_cutFirst (sep.isSep_isSpace hspaces) _ _,
    fromWord_cutFirst (sep.isSep_isSpace hspaces) _ _ _⟩

/-- Nothing is cut off from an empty string. -/
theorem cutParts_nil (sep : SpaceSep) (limit : Option ℤ) :
    cutParts spaces [] sep limit = ([], []) := by
  unfold cutParts
  dsimp only
  rw [cutFirst_nil rfl]
  rfl

/-- No more is cut off than the limit allows. -/
theorem length_cutParts_le (sep : SpaceSep) (k : ℤ) :
    (cutParts spaces str sep (some k)).1.length ≤ k.toNat - 1 :=
  (List.length_filter_le _ _).trans ((List.length_map _).le.trans (length_cutFirst_le _ _))

/-- **Without a separator and a limit, the parts are words.** -/
theorem partsAreWords_nil : PartsAreWords spaces str .nil none := by
  refine ⟨fun part hpart c hc => ?_, Or.inl (cutFirst_rest le_rfl)⟩
  obtain ⟨head, hhead, rfl⟩ := List.mem_map.mp (List.mem_of_mem_filter hpart)
  exact cutFirst_heads _ _ head hhead c (mem_of_mem_trim hc)

/-- **The fields without a limit are the words exactly when the parts are.** -/
theorem fields_eq_words_iff (hspaces : spaces.Documented) (sep : SpaceSep) :
    ((cutParts spaces str sep none).1 ++
        if (cutParts spaces str sep none).2 = [] then [] else [(cutParts spaces str sep none).2]) =
      words spaces.isSpace str ↔ PartsAreWords spaces str sep none := by
  unfold PartsAreWords
  dsimp only
  constructor
  · intro heq
    have hfree : ∀ field ∈ (cutParts spaces str sep none).1 ++
        (if (cutParts spaces str sep none).2 = [] then [] else [(cutParts spaces str sep none).2]),
          ∀ c ∈ field, spaces.isSpace c = false := by
      intro field hmem
      rw [heq] at hmem
      exact (mem_words hmem).2
    refine ⟨fun part hpart => hfree part (List.mem_append_left _ hpart), Or.inl fun c hc => ?_⟩
    refine hfree _ (List.mem_append_right _ ?_) c hc
    rw [if_neg (List.ne_nil_of_mem hc)]
    exact List.mem_singleton_self _
  · intro ⟨hparts, hrest⟩
    have hrest' : ∀ c ∈ (cutParts spaces str sep none).2, spaces.isSpace c = false := by
      rcases hrest with hrest | ⟨k, hk, _⟩
      · exact hrest
      · cases hk
    rw [(words_cutParts hspaces hparts 0).1, words_of_forall hrest']

/-- The rest of the string, when it starts with the word after those that were cut off. -/
theorem fromWord_rest {rest : List UniChar} {m : ℕ}
    (hfrom : fromWord spaces.isSpace (m + 0) str = fromWord spaces.isSpace 0 rest)
    (hstart : ∃ c ∈ rest.head?, spaces.isSpace c = false) :
    fromWord spaces.isSpace m str = rest := by
  obtain ⟨c, hc, hspace⟩ := hstart
  obtain ⟨rest, rfl⟩ := List.head?_eq_some_iff.mp hc
  rw [Nat.add_zero] at hfrom
  rw [hfrom, fromWord, List.dropWhile_cons_of_neg (by simp [hspace])]

/-- **The fields with a limit are right exactly when the parts are words.** -/
theorem limitedWords_iff (hspaces : spaces.Documented) (sep : SpaceSep) {k : ℤ} (hk : 0 < k) :
    LimitedWords spaces str k.toNat
        ((cutParts spaces str sep (some k)).1 ++ [(cutParts spaces str sep (some k)).2]) ↔
      PartsAreWords spaces str sep (some k) := by
  have hle : (cutParts spaces str sep (some k)).1.length ≤ k.toNat - 1 := length_cutParts_le sep k
  have hparts : (∀ part ∈ (cutParts spaces str sep (some k)).1,
      ∀ c ∈ part, spaces.isSpace c = false) → ∀ j, _ := fun h => words_cutParts hspaces h
  unfold PartsAreWords LimitedWords
  dsimp only
  generalize cutParts spaces str sep (some k) = r at hle hparts ⊢
  constructor
  · intro hlimited
    split at hlimited
    · rename_i hmany
      obtain ⟨hcut, hrest⟩ := List.append_inj' hlimited rfl
      have hlt : k.toNat - 1 < (words spaces.isSpace str).length := by omega
      obtain ⟨c, rest, hfrom, hc⟩ := fromWord_eq_cons hlt
      refine ⟨fun part hpart => ?_, Or.inr ⟨k, rfl, ?_, c, ?_, hc⟩⟩
      · rw [hcut] at hpart
        exact (mem_words (List.mem_of_mem_take hpart)).2
      · rw [hcut, List.length_take_of_le (by omega)]
      · rw [(List.cons.inj hrest).1, hfrom]
        rfl
    · rcases hlimited with heq | heq
      · have hfree : ∀ field ∈ r.1 ++ [r.2], ∀ c ∈ field, spaces.isSpace c = false := by
          intro field hmem
          rw [heq] at hmem
          exact (mem_words hmem).2
        exact ⟨fun part hpart => hfree part (List.mem_append_left _ hpart),
          Or.inl (hfree r.2 (List.mem_append_right _ (List.mem_singleton_self _)))⟩
      · obtain ⟨hcut, hrest⟩ := List.append_inj' heq rfl
        refine ⟨fun part hpart => ?_, Or.inl fun c hc => ?_⟩
        · rw [hcut] at hpart
          exact (mem_words hpart).2
        · rw [(List.cons.inj hrest).1] at hc
          exact absurd hc List.not_mem_nil
  · intro ⟨hfree, hor⟩
    obtain ⟨hwords, hfrom⟩ := hparts hfree 0
    rw [hwords, List.length_append]
    rcases hor with hrest | ⟨k', hk', hlen, hstart⟩
    · rw [words_of_forall hrest]
      by_cases hnil : r.2 = []
      · rw [if_pos hnil, hnil, List.append_nil, List.length_nil, if_neg (by omega)]
        exact Or.inr rfl
      · rw [if_neg hnil, List.length_singleton]
        split
        · have hlen : r.1.length = k.toNat - 1 := by omega
          have hstart : ∃ c ∈ r.2.head?, spaces.isSpace c = false := by
            obtain ⟨c, rest, heq⟩ := List.exists_cons_of_ne_nil hnil
            rw [heq] at hrest ⊢
            exact ⟨c, rfl, hrest c List.mem_cons_self⟩
          rw [← hlen, List.take_left, fromWord_rest hfrom hstart]
        · exact Or.inl rfl
    · obtain rfl := Option.some.inj hk'
      have hpos : 0 < (words spaces.isSpace r.2).length := by
        obtain ⟨c, hc, hspace⟩ := hstart
        obtain ⟨rest, heq⟩ := List.head?_eq_some_iff.mp hc
        rw [heq]
        exact List.length_pos_iff.mpr (words_ne_nil hspace rest)
      rw [if_pos (by omega), ← hlen, List.take_left, fromWord_rest hfrom hstart]

end Fields

/-! ## What the loop does -/

section Loop

variable {L : LongSize} {find : CFFind} {spaces : CFSpaces} (s : RString L)
  (hin : s.InStep) (hfind : find.Documented) (hspaces : spaces.Documented) (sep : SpaceSep)

/-- What the search looks for. -/
def SpaceSep.sought : SpaceSep → Option (List UniChar)
  | .nil => none
  | .space => some [0x20]

/-- Where a string has its first character of a kind, from a place on. -/
def firstFrom (p : UniChar → Bool) (str : List UniChar) (location : ℕ) : Option ℕ :=
  match (str.drop location).dropWhile fun c => !p c with
  | [] => none
  | _ :: _ => some (location + ((str.drop location).takeWhile fun c => !p c).length)

theorem firstFrom_isFirst (p : UniChar → Bool) (str : List UniChar) (location : ℕ) :
    IsFirst (fun i => location ≤ i ∧ str[i]?.any p = true) (firstFrom p str location) := by
  unfold firstFrom
  cases hd : (str.drop location).dropWhile fun c => !p c with
  | nil =>
      intro i ⟨hle, hany⟩
      obtain ⟨k, rfl⟩ := Nat.exists_eq_add_of_le hle
      rw [← List.getElem?_drop, Option.any_eq_true] at hany
      obtain ⟨c, hc, hpc⟩ := hany
      have hnot := List.dropWhile_eq_nil_iff.mp hd c (List.mem_of_getElem? hc)
      rw [hpc] at hnot
      cases hnot
  | cons c rest =>
      obtain ⟨hsplit, hpc⟩ := split_first hd
      have hbefore : ∀ d ∈ (str.drop location).takeWhile (fun c => !p c), p d = false := by
        intro d hd
        simpa using List.mem_takeWhile_imp hd
      dsimp only
      generalize (str.drop location).takeWhile (fun c => !p c) = before at hsplit hbefore ⊢
      refine ⟨⟨Nat.le_add_right _ _, ?_⟩, fun i ⟨hle, hany⟩ => ?_⟩
      · rw [← List.getElem?_drop, hsplit, List.getElem?_append_right le_rfl, Nat.sub_self]
        exact hpc
      · obtain ⟨k, rfl⟩ := Nat.exists_eq_add_of_le hle
        refine Nat.add_le_add_left ?_ location
        by_contra hlt
        rw [← List.getElem?_drop, Option.any_eq_true] at hany
        obtain ⟨d, hd', hpd⟩ := hany
        rw [hsplit, List.getElem?_append_left (not_le.mp hlt)] at hd'
        rw [hbefore d (List.mem_of_getElem? hd')] at hpd
        cases hpd

include hfind hspaces

/-- **The search finds the next character that is looked for.** -/
theorem splitFind_space {str : List UniChar} {location : ℕ} (hloc : location ≤ str.length) :
    splitFind find spaces str sep.sought location (str.length - location) =
      .ok ((firstFrom (sep.isSep spaces) str location).map fun i : ℕ => CFRange.mk i 1) := by
  have hfirst := firstFrom_isFirst (sep.isSep spaces) str location
  cases sep with
  | nil =>
      have hlen : ((str.length : ℤ) - location).toNat = str.length - location := by omega
      have hspace := hspaces.find (show location + (str.length - location) ≤ str.length by omega)
      have hbound : ∀ i, ((location ≤ i ∧ i < location + (str.length - location)) ∧
          str[i]?.any spaces.isSpace = true) ↔
            location ≤ i ∧ str[i]?.any spaces.isSpace = true := by
        intro i
        refine ⟨fun h => ⟨h.1.1, h.2⟩, fun h => ⟨⟨h.1, ?_⟩, h.2⟩⟩
        obtain ⟨c, hc, -⟩ := (Option.any_eq_true _ _).mp h.2
        obtain ⟨hlt, -⟩ := List.getElem?_eq_some_iff.mp hc
        omega
      have hr := (hspace.congr hbound).unique hfirst
      unfold splitFind SpaceSep.sought
      dsimp only
      rw [if_pos ⟨by omega, by omega, by omega⟩, Int.toNat_natCast, hlen, hr]
  | space =>
      obtain ⟨r, heq, hr⟩ := cfStringFind_from hfind (List.cons_ne_nil 0x20 []) hloc
      have hocc : ∀ i, (location ≤ i ∧ OccursAt [0x20] str i) ↔
          location ≤ i ∧ str[i]?.any (SpaceSep.space.isSep spaces) = true := by
        intro i
        refine and_congr_right fun _ => ?_
        rw [occursAt_singleton, Option.any_eq_true]
        constructor
        · intro h
          exact ⟨0x20, h, rfl⟩
        · intro ⟨c, hc, heq⟩
          exact (beq_iff_eq.mp heq) ▸ hc
      have hr' := (hr.congr hocc).unique hfirst
      unfold splitFind SpaceSep.sought
      dsimp only
      rw [heq, hr']
      rfl

omit hfind in
/-- A part that is trimmed is pushed, unless nothing is left of it. -/
theorem splitField_trim {a len : ℕ} (h : a + len ≤ s.chars.length) :
    splitField L spaces s.chars true a len =
      .ok ((([(s.chars.drop a).take len].map (Words.trim spaces.isSpace)).filter
        fun part => !part.isEmpty).map some) := by
  unfold splitField
  by_cases hlen : len = 0
  · subst hlen
    rw [if_neg (by simp), List.take_zero]
    rfl
  · rw [if_pos (by omega), rbStrSubseq_nat s h]
    dsimp only [bind, Except.bind]
    rw [if_pos rfl, hspaces.trim, List.map_singleton]
    cases Words.trim spaces.isSpace ((s.chars.drop a).take len) <;> rfl

/-- **The loop cuts at the characters that are looked for**, as often as the limit allows. -/
theorem splitSpaceLoop_spec {limited : Bool} {fuel n location : ℕ} {lim : ℤ}
    (hloc : location ≤ s.chars.length)
    (hlim : limited = true → 1 ≤ n ∧ (n : ℤ) + 1 = lim)
    (hall : limited = false → s.chars.length ≤ location + n) (hfuel : n < fuel) :
    ∃ last : ℕ, last ≤ s.chars.length ∧
      s.chars.drop last = (cutFirst (sep.isSep spaces) n (s.chars.drop location)).2 ∧
      splitStringLoop L find spaces s.chars s.chars.length sep.sought true limited fuel
        location lim =
        .ok ((((cutFirst (sep.isSep spaces) n (s.chars.drop location)).1.map
          (Words.trim spaces.isSpace)).filter fun part => !part.isEmpty).map some, (last : ℤ)) := by
  induction n generalizing fuel location lim with
  | zero =>
      obtain ⟨fuel, rfl⟩ := Nat.exists_eq_add_one_of_ne_zero (Nat.ne_zero_of_lt hfuel)
      have hfalse : limited = false := Bool.eq_false_iff.mpr fun h => absurd (hlim h).1 (by omega)
      have hend : s.chars.drop location = [] := List.drop_eq_nil_iff.mpr (hall hfalse)
      refine ⟨location, hloc, rfl, ?_⟩
      rw [splitStringLoop, splitFind_space hfind hspaces sep hloc, firstFrom, hend]
      rfl
  | succ n ih =>
      obtain ⟨fuel, rfl⟩ := Nat.exists_eq_add_one_of_ne_zero (Nat.ne_zero_of_lt hfuel)
      rw [splitStringLoop, splitFind_space hfind hspaces sep hloc, firstFrom]
      cases hd : (s.chars.drop location).dropWhile fun c => !sep.isSep spaces c with
      | nil =>
          refine ⟨location, hloc, ?_, ?_⟩
          · rw [cutFirst_nil hd]
          · rw [cutFirst_nil hd]
            rfl
      | cons c rest =>
          obtain ⟨hsplit, -⟩ := split_first hd
          rw [cutFirst_succ hd]
          dsimp only [bind, Except.bind, Option.map, pure, Except.pure]
          generalize
            (s.chars.drop location).takeWhile (fun c => !sep.isSep spaces c) = before at hsplit ⊢
          have hlen := congrArg List.length hsplit
          rw [List.length_drop, List.length_append, List.length_cons] at hlen
          have hfield : ((location + before.length : ℕ) : ℤ) - location = (before.length : ℕ) := by
            omega
          have hnext : ((location + before.length : ℕ) : ℤ) + 1 =
              (location + before.length + 1 : ℕ) := rfl
          have hbefore : (s.chars.drop location).take before.length = before := by
            rw [hsplit, List.take_left]
          have hrest : s.chars.drop (location + before.length + 1) = rest := by
            rw [Nat.add_assoc, ← List.drop_drop, hsplit, ← List.drop_drop, List.drop_left]
            rfl
          rw [hfield, splitField_trim s hspaces (by omega), hnext, hbefore]
          dsimp only
          have hcons : ∀ heads : List (List UniChar),
              ((before :: heads).map (Words.trim spaces.isSpace)).filter
                  (fun part => !part.isEmpty) =
                ([before].map (Words.trim spaces.isSpace)).filter (fun part => !part.isEmpty) ++
                  (heads.map (Words.trim spaces.isSpace)).filter fun part => !part.isEmpty := by
            intro heads
            rw [← List.filter_append]
            rfl
          by_cases hmore : limited = false ∨ lim - 1 > 1
          · have hlim' : limited = true → 1 ≤ n ∧ (n : ℤ) + 1 = lim - 1 := by
              intro h
              have heq := (hlim h).2
              rcases hmore with hmore | hmore
              · rw [h] at hmore
                cases hmore
              · omega
            have hall' : limited = false →
                s.chars.length ≤ location + before.length + 1 + n := by
              intro h
              have hle := hall h
              omega
            obtain ⟨last, hlast, hdrop, hloop⟩ :=
              ih (by omega) hlim' hall' (show n < fuel by omega)
            rw [hrest] at hdrop hloop
            refine ⟨last, hlast, hdrop, ?_⟩
            rw [if_pos hmore, hloop, hcons (cutFirst (sep.isSep spaces) n rest).1, List.map_append]
          · obtain ⟨hlimited, hone⟩ := not_or.mp hmore
            have heq := (hlim (Bool.not_eq_false _ ▸ hlimited)).2
            have hzero : n = 0 := by omega
            subst hzero
            refine ⟨location + before.length + 1, by omega, hrest, ?_⟩
            rw [if_neg hmore]
            rfl

omit hfind hspaces in
theorem splitLoop_space (str : List UniChar) (clen : ℕ) (limited : Bool) (lim i : ℤ) (fuel : ℕ) :
    splitLoop L find spaces str clen sep.pattern limited lim i fuel =
      splitStringLoop L find spaces str clen sep.sought true limited fuel 0 lim := by
  cases sep <;> rfl

omit hfind hspaces in
/-- Fields that are not empty are not removed. -/
theorem popBlank_of_forall {fields : List (List UniChar)} (h : ∀ field ∈ fields, field ≠ [])
    {count : ℕ} (hcount : count ≤ fields.length) :
    popBlank count (fields.map some) = fields.map some := by
  have hnone : (fields.take count).rtakeWhile List.isEmpty = [] := by
    rw [List.rtakeWhile_eq_nil_iff]
    intro hne
    rw [List.isEmpty_iff]
    exact h _ (List.mem_of_mem_take (List.getLast_mem hne))
  rw [popBlank_eq hcount, hnone, List.length_nil, List.rdrop_zero]

include hin

/-- An empty string has no fields. -/
theorem rbStrSplitM_empty (hs : s.chars = []) {limit : Option ℤ}
    (hlimit : ∀ k ∈ limit, -2 ^ 31 ≤ k ∧ k < 2 ^ 31) (fuel : ℕ) :
    rbStrSplitM L find spaces s.toStringObject sep.pattern limit (fuel + 1) = .ok [] := by
  unfold rbStrSplitM
  rw [splitLimit_eq hlimit, hin.clen_eq]
  dsimp only [bind, Except.bind]
  rw [limited_eq, splitLoop_space]
  split
  · rw [hs]
    rfl
  · have hfind' := splitFind_space hfind hspaces sep (Nat.zero_le s.chars.length)
    rw [firstFrom, hs, List.drop_nil] at hfind'
    rw [splitStringLoop, hs]
    rw [Nat.cast_zero] at hfind'
    rw [hfind']
    dsimp only [bind, Except.bind, Option.map, pure, Except.pure, List.dropWhile_nil]
    rw [splitRest, if_neg (by simp)]
    dsimp only [bind, Except.bind, pure, Except.pure]
    split <;> rfl

/-- **The fields without a limit.** -/
theorem returns_unlimited :
    Returns L find spaces s.toStringObject sep.pattern none ((cutParts spaces s.chars sep none).1 ++
      if (cutParts spaces s.chars sep none).2 = [] then []
      else [(cutParts spaces s.chars sep none).2]) := by
  by_cases hs : s.chars = []
  · have hint : ∀ k ∈ (none : Option ℤ), -2 ^ 31 ≤ k ∧ k < 2 ^ 31 := by simp
    have hempty := rbStrSplitM_empty (L := L) s hin hfind hspaces sep hs hint
    rw [hs, cutParts_nil]
    exact Fuel.Settles.of_succ hempty (Fuel.Settles.const _)
  · refine Fuel.Settles.of_le (s.chars.length + 1) fun fuel hfuel => ?_
    have hlim : false = true → 1 ≤ s.chars.length ∧ (s.chars.length : ℤ) + 1 = 0 :=
      fun h => nomatch h
    obtain ⟨last, hlast, hdrop, hloop⟩ := splitSpaceLoop_spec (L := L) s hfind hspaces sep
      (Nat.zero_le _) hlim (fun _ => (Nat.zero_add _).ge) hfuel
    have hcall : rbStrSplitM L find spaces s.toStringObject sep.pattern none fuel =
        .ok (finishSplit 0 (cutParts spaces s.chars sep none).1 (s.chars.drop last)) :=
      rbStrSplitM_eq s hin hs (by simp) (by simp) hlast
        ((splitLoop_space sep _ _ _ _ _ _).trans hloop)
    have hpushed : ∀ field ∈ (cutParts spaces s.chars sep none).1 ++
        (if (cutParts spaces s.chars sep none).2 = [] then []
        else [(cutParts spaces s.chars sep none).2]), field ≠ [] := by
      intro field hmem
      rcases List.mem_append.mp hmem with hpart | hrest
      · have hne := (List.mem_filter.mp hpart).2
        rintro rfl
        cases hne
      · split at hrest
        · exact absurd hrest List.not_mem_nil
        · rwa [List.mem_singleton.mp hrest]
    have hrest : s.chars.drop last = (cutParts spaces s.chars sep none).2 := hdrop
    rw [hcall, hrest, finishSplit_zero, popBlank_of_forall hpushed (toNat_toCInt_le _)]

/-- **The fields with a limit.** -/
theorem returns_limit {k : ℤ} (hk : 0 < k) (hint : k < 2 ^ 31) :
    Returns L find spaces s.toStringObject sep.pattern (some k) (if s.chars = [] then []
      else (cutParts spaces s.chars sep (some k)).1 ++
        [(cutParts spaces s.chars sep (some k)).2]) := by
  have hlimit : ∀ n ∈ some k, -2 ^ 31 ≤ n ∧ n < 2 ^ 31 := by
    intro n hn
    obtain rfl := Option.some.inj hn
    omega
  by_cases hs : s.chars = []
  · rw [if_pos hs]
    refine Fuel.Settles.of_succ (fun fuel => ?_) (Fuel.Settles.const _)
    exact rbStrSplitM_empty s hin hfind hspaces sep hs hlimit fuel
  · rw [if_neg hs]
    by_cases hone : k = 1
    · subst hone
      exact (Fuel.Settles.const _).congr fun fuel => rbStrSplitM_one s hin hs sep.pattern fuel
    · refine Fuel.Settles.of_le (k.toNat - 1 + 1) fun fuel hfuel => ?_
      have hlimited : decide (0 < (some k).getD 0) = true := decide_eq_true hk
      have hlim : decide (0 < (some k).getD 0) = true →
          1 ≤ k.toNat - 1 ∧ ((k.toNat - 1 : ℕ) : ℤ) + 1 = (some k).getD 0 := by
        intro _
        rw [Option.getD_some]
        omega
      obtain ⟨last, hlast, hdrop, hloop⟩ := splitSpaceLoop_spec (L := L) s hfind hspaces sep
        (Nat.zero_le _) hlim (fun h => by rw [hlimited] at h; cases h) hfuel
      have hcall : rbStrSplitM L find spaces s.toStringObject sep.pattern (some k) fuel =
          .ok (finishSplit k (cutParts spaces s.chars sep (some k)).1 (s.chars.drop last)) :=
        rbStrSplitM_eq s hin hs hlimit hone hlast ((splitLoop_space sep _ _ _ _ _ _).trans hloop)
      have hrest : s.chars.drop last = (cutParts spaces s.chars sep (some k)).2 := hdrop
      rw [hcall, hrest, finishSplit_of_ne hk.ne']

/-- **Without a separator and a limit, the words of the string are returned.** -/
theorem split_eq_words :
    Returns L find spaces s.toStringObject .nil none (words spaces.isSpace s.chars) := by
  have hreturns := returns_unlimited (L := L) s hin hfind hspaces .nil
  rwa [(fields_eq_words_iff hspaces .nil).mpr partsAreWords_nil] at hreturns

end Loop

/-! ## Calls of a platform with the white space of ASCII -/

theorem asciiSpaces_documented : asciiSpaces.Documented := by
  refine ⟨rfl, fun {str location length} _ => ?_, fun _ => rfl⟩
  have hfirst := firstBelow_isFirst
    (fun i => location ≤ i ∧ str[i]?.any isAsciiSpace = true) (location + length)
  refine hfirst.congr fun i => ?_
  rw [← and_assoc, and_comm (a := i < location + length)]
  rfl

end MacRuby
