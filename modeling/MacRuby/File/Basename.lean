import MacRuby.File.Path
import MacRuby.String.Object

/-!
# Taking paths apart

`File.basename`, `File.dirname` and `File.extname` look for the last component of a path each in
its own way: `basename` skips all the separators before it, `extname` only the first of them.  What
they find is made into a string with `rb_str_new`, which pads UTF-8 that more of the path follows.

## Main definitions

* `rmext`, `rbFileSBasename`, `rbFileSDirname`, `rbFileSExtname` — the functions.
* `denoted` — the path that a string stands for.
* `Consistent` — what the three should have to do with each other.
* `DoubledExt`, `CutsClean` — where they have not.

## Main results

* `basename_of_shape`, `dirname_of_shape`, `extname_of_shape` — what they return.
* `consistent_iff` — when they are consistent.
-/

namespace MacRuby.File

/-! ## The functions -/

/-- The loop of `rmext` for a suffix like `.*`: the last place of `c`, or 0. A `char` is signed, so
one from 128 on never equals the `unsigned char` of the suffix. -/
def rmextScan (c : UInt8) (p : List UInt8) : ℕ → ℕ
  | 0 => 0
  | e + 1 => if p[e]? = some c ∧ c < 128 then e else rmextScan c p e

/-- `rmext(p, l1, e)`: the length without the suffix, or 0. -/
def rmext (p : List UInt8) (l1 : ℕ) : Option (List UInt8) → ℕ
  | none => 0
  | some [c, 42] => rmextScan c p l1
  | some e =>
      if l1 < e.length then l1
      else if (p.drop (l1 - e.length)).take e.length = e then l1 - e.length
      else 0

section Code

variable (enc : CFEncoding)

/-- `rb_file_s_basename(argc, argv)`, on a path and a suffix.  `rb_get_path` has asked for the C
string of the path, so `RSTRING_LEN` counts its bytes. -/
def rbFileSBasename (fname : StringObject) (fext : Option StringObject) : StringObject :=
  let path := fname.cstr enc
  if path = [] then fname
  else
    let name := path.drop (skiproot path)
    -- the last of the separators
    if name = [] then strNew enc [47] 1
    else
      let p := match rbPathLastSeparator name 0 none with
        | none => name
        | some k => (name.drop k).dropWhile isdirsep
      let n := chompdirsep p 0
      let l := rmext p n (fext.map (StringObject.cstr enc))
      let f := if l = 0 then n else l
      if f = path.length then fname else strNew enc p f

/-- `rb_file_s_dirname(klass, fname)`. -/
def rbFileSDirname (fname : StringObject) : StringObject :=
  let path := fname.cstr enc
  let root := skiproot path
  let name := if root > 1 then root - 1 else 0
  let p := match rbPathLastSeparator (path.drop root) 0 none with
    | none => root
    | some k => root + k
  if p = name then strNew enc [46] 1 else strNew enc (path.drop name) (p - name)

/-- The loop of `rb_file_s_extname`: where the component ends, and its last dot. -/
def extScan : List UInt8 → ℕ → Option ℕ → ℕ × Option ℕ
  | [], p, e => (p, e)
  | c :: rest, p, e =>
      if c = 46 then extScan rest (p + 1) (some p)
      else if isdirsep c then (p, e)
      else extScan rest (p + 1) e

/-- `rb_file_s_extname(klass, fname)`, from the last component on. -/
def extOf (name : List UInt8) : StringObject :=
  match extScan name 0 none with
  | (_, none) => strNewNull 0
  | (p, some e) =>
      if e = 0 ∨ e + 1 = p then strNewNull 0 else strNew enc (name.drop e) (p - e)

/-- `rb_file_s_extname(klass, fname)`. -/
def rbFileSExtname (fname : StringObject) : StringObject :=
  let path := fname.cstr enc
  match rbPathLastSeparator path 0 none with
  | none => extOf enc path
  | some p => extOf enc (path.drop (p + 1))

end Code

/-! ## Consistency -/

/-- A `.` in front of other components is left out. -/
def dropDot : List (List UInt8) → List (List UInt8)
  | [46] :: c :: cs => c :: cs
  | cs => cs

/-- The path that a string stands for: whether it is absolute, and its components. -/
def denoted (path : List UInt8) : Bool × List (List UInt8) :=
  if path.head? = some 47 then (true, names path) else (false, dropDot (names path))

section Spec

variable (enc : CFEncoding)

/-- What the three functions have to do with each other. -/
structure Consistent (p : StringObject) : Prop where
  /-- The base name is one component, or the root. -/
  component : 47 ∉ (rbFileSBasename enc p none).cstr enc ∨
    (rbFileSBasename enc p none).cstr enc = [47]
  /-- The directory and the base name make up the path. -/
  join : denoted ((rbFileSDirname enc p).cstr enc ++ 47 :: (rbFileSBasename enc p none).cstr enc) =
    denoted (p.cstr enc)
  /-- The extension is that of the base name. -/
  extname : (rbFileSExtname enc p).cstr enc =
    (rbFileSExtname enc (rbFileSBasename enc p none)).cstr enc
  /-- The base name is what is left without the extension, and the extension. -/
  suffix : (rbFileSBasename enc p (some (rbFileSExtname enc p))).cstr enc ++
    (rbFileSExtname enc p).cstr enc = (rbFileSBasename enc p none).cstr enc

/-- The last dot of a component, which is neither its first byte nor its last one. -/
structure ExtAt (c stem suffix : List UInt8) : Prop where
  eq : c = stem ++ 46 :: suffix
  stem_ne : stem ≠ []
  suffix_ne : suffix ≠ []
  last : 46 ∉ suffix

/-- A component with an extension. -/
def HasExt (c : List UInt8) : Prop := ∃ stem suffix, ExtAt c stem suffix

/-- Two separators or more right before a last component that has an extension. -/
def DoubledExt (p : List UInt8) : Prop :=
  ∃ dir c t, p = dir ++ 47 :: 47 :: (c ++ slashes t) ∧ 47 ∉ c ∧ HasExt c

/-- Bytes that are padded when more of a C string follows: UTF-8 that is not ASCII. -/
def Padded (b : List UInt8) : Prop := (enc.string b).isSome = true ∧ ∃ c ∈ b, 0x80 ≤ c

/-- **Nothing is padded that is cut out of a path**: the directory, the last component and its
extension if separators follow it, and what stands before the extension. -/
structure CutsClean (front c : List UInt8) (k t : ℕ) : Prop where
  dirname : front = [] ∨ ¬ Padded enc (slashes (min k 1) ++ front)
  basename : t = 0 ∨ ¬ Padded enc c
  extname : ∀ stem suffix, ExtAt c stem suffix → t = 0 ∨ ¬ Padded enc (46 :: suffix)
  stem : ∀ stem suffix, ExtAt c stem suffix → ¬ Padded enc stem

end Spec

/-! ## What is cut out -/

section Cut

variable {enc : CFEncoding} {ptr : List UInt8} {len : ℕ}

/-- **A part of a C string that does not end with it** has its bytes unless it is padded. -/
theorem padding_cut (hnul : 0 ∉ ptr) (hlen : len < ptr.length) :
    padding enc ptr len = 0 ↔ ¬ Padded enc (ptr.take len) := by
  have hstrlen := strlen_eq hnul
  rw [← Nat.le_zero, ← not_lt, padding_pos_iff hlen.le, Padded, hstrlen]
  exact not_congr ⟨fun h => h.2.2, fun h => ⟨by omega, .inr hlen, h⟩⟩

/-- A part that ends with the C string. -/
theorem padding_whole (hnul : 0 ∉ ptr) : padding enc ptr ptr.length = 0 := by
  have h : padding enc ptr (strlen ptr) = 0 := padding_strlen
  rwa [strlen_eq hnul] at h

/-- A part that separators follow, if any. -/
theorem padding_slashes {c : List UInt8} (hnul : 0 ∉ c) (t : ℕ) :
    padding enc (c ++ slashes t) c.length = 0 ↔ t = 0 ∨ ¬ Padded enc c := by
  cases t with
  | zero =>
      rw [slashes_zero, List.append_nil]
      exact iff_of_true (padding_whole hnul) (.inl rfl)
  | succ t =>
      rw [padding_cut (by simp [hnul]) (by simp), List.take_left]
      simp

theorem not_padded_ascii {b : List UInt8} (h : ∀ c ∈ b, c < 0x80) : ¬ Padded enc b := by
  rintro ⟨-, c, hc, hhigh⟩
  exact absurd (h c hc) (UInt8.not_lt.mpr hhigh)

theorem cstr_strNewNull : (strNewNull 0).cstr enc = [] := enc.bytes_ascii [] (by simp)

end Cut

/-! ## The extension of a component -/

theorem head?_tail (t : ℕ) : ∀ x ∈ (slashes t).head?, x = 47 := by
  intro x hx
  exact List.eq_of_mem_replicate (List.mem_of_head? hx)

theorem extScan_eq {c : List UInt8} (hc : 47 ∉ c) {tail : List UInt8}
    (htail : ∀ x ∈ tail.head?, x = 47) (p : ℕ) (e : Option ℕ) :
    (extScan (c ++ tail) p e).1 = p + c.length ∧
      ((46 ∉ c ∧ (extScan (c ++ tail) p e).2 = e) ∨
        ∃ stem suffix, c = stem ++ 46 :: suffix ∧ 46 ∉ suffix ∧
          (extScan (c ++ tail) p e).2 = some (p + stem.length)) := by
  induction c generalizing p e with
  | nil =>
      cases tail with
      | nil => simp [extScan]
      | cons x tail =>
          obtain rfl : x = 47 := htail x rfl
          simp [extScan, isdirsep]
  | cons x c ih =>
      rw [List.mem_cons, not_or] at hc
      have hx : isdirsep x = false := by simpa [isdirsep] using Ne.symm hc.1
      by_cases hdot : x = 46
      · subst hdot
        have h := ih hc.2 (p + 1) (some p)
        rw [List.cons_append, extScan, if_pos rfl]
        refine ⟨by rw [h.1, List.length_cons]; omega, .inr ?_⟩
        rcases h.2 with ⟨hnot, heq⟩ | ⟨stem, suffix, rfl, hsuf, heq⟩
        · exact ⟨[], c, rfl, hnot, by simp [heq]⟩
        · refine ⟨46 :: stem, suffix, rfl, hsuf, ?_⟩
          rw [heq, List.length_cons]
          congr 1
          omega
      · have h := ih hc.2 (p + 1) e
        rw [List.cons_append, extScan, if_neg hdot, if_neg (by simp [hx])]
        refine ⟨by rw [h.1, List.length_cons]; omega, ?_⟩
        rcases h.2 with ⟨hnot, heq⟩ | ⟨stem, suffix, rfl, hsuf, heq⟩
        · exact .inl ⟨by simp [Ne.symm hdot, hnot], heq⟩
        · refine .inr ⟨x :: stem, suffix, rfl, hsuf, ?_⟩
          rw [heq, List.length_cons]
          congr 1
          omega

/-- The last dot is in one place. -/
theorem last_dot_unique {stem suffix stem' suffix' : List UInt8} (hsuf : 46 ∉ suffix)
    (hsuf' : 46 ∉ suffix') (h : stem ++ 46 :: suffix = stem' ++ 46 :: suffix') :
    stem = stem' ∧ suffix = suffix' := by
  rcases List.append_eq_append_iff.mp h with ⟨a, rfl, ha⟩ | ⟨a, rfl, ha⟩
  · cases a with
    | nil => simpa using ha
    | cons x a =>
        rw [List.cons_append, List.cons.injEq] at ha
        exact absurd (by simp [ha.2]) hsuf
  · cases a with
    | nil => simpa using ha.symm
    | cons x a =>
        rw [List.cons_append, List.cons.injEq] at ha
        exact absurd (by simp [ha.2]) hsuf'

/-- **The extension of a component.** -/
theorem extOf_cases (enc : CFEncoding) {c : List UInt8} (hc : 47 ∉ c) (hnul : 0 ∉ c) (t : ℕ) :
    (¬ HasExt c ∧ (extOf enc (c ++ slashes t)).cstr enc = []) ∨
      ∃ stem suffix n, ExtAt c stem suffix ∧
        (extOf enc (c ++ slashes t)).cstr enc = 46 :: suffix ++ List.replicate n 32 ∧
        (n = 0 ↔ t = 0 ∨ ¬ Padded enc (46 :: suffix)) := by
  have hscan := extScan_eq hc (head?_tail t) 0 none
  rw [extOf]
  generalize extScan (c ++ slashes t) 0 none = r at hscan
  obtain ⟨p, e⟩ := r
  obtain ⟨hend, ⟨hnot, he⟩ | ⟨stem, suffix, hsplit, hsuf, he⟩⟩ := hscan
  · simp only at hend he
    subst he
    refine .inl ⟨?_, cstr_strNewNull⟩
    rintro ⟨stem, suffix, rfl, -⟩
    simp at hnot
  · simp only [Nat.zero_add] at hend he
    subst hend he hsplit
    by_cases hout : stem = [] ∨ suffix = []
    · left
      refine ⟨?_, ?_⟩
      · rintro ⟨stem', suffix', heq, hne, hne', hsuf'⟩
        obtain ⟨rfl, rfl⟩ := last_dot_unique hsuf hsuf' heq
        exact hout.elim hne hne'
      · dsimp only
        rw [if_pos (by rcases hout with rfl | rfl <;> simp), cstr_strNewNull]
    · rw [not_or] at hout
      have hlen := List.length_pos_iff.mpr hout.2
      have hlen' := List.length_pos_iff.mpr hout.1
      have hnul' : 0 ∉ 46 :: suffix := fun h => hnul (List.mem_append_right _ h)
      have hcut : (strNew enc (46 :: suffix ++ slashes t) (46 :: suffix).length).cstr enc = _ :=
        cstr_strNew (by simp)
      rw [List.take_left] at hcut
      refine .inr ⟨stem, suffix, _, ⟨rfl, hout.1, hout.2, hsuf⟩, ?_, padding_slashes hnul' t⟩
      dsimp only
      rw [if_neg (by simp only [List.length_append, List.length_cons]; omega), List.append_assoc,
        List.drop_left, List.length_append, Nat.add_sub_cancel_left]
      exact hcut

/-! ## What the functions return -/

section Returns

variable {enc : CFEncoding} {path : StringObject} {front c : List UInt8} {k j t : ℕ}

/-- The length of a component without its suffix. -/
def baseLength (c tail : List UInt8) (fext : Option (List UInt8)) : ℕ :=
  if rmext (c ++ tail) c.length fext = 0 then c.length else rmext (c ++ tail) c.length fext

theorem rmextScan_le (d : UInt8) (p : List UInt8) (n : ℕ) : rmextScan d p n ≤ n := by
  induction n with
  | zero => exact le_rfl
  | succ n ih =>
      rw [rmextScan]
      split_ifs
      · exact Nat.le_succ n
      · exact ih.trans (Nat.le_succ n)

theorem baseLength_le (c tail : List UInt8) (fext : Option (List UInt8)) :
    baseLength c tail fext ≤ c.length := by
  have hle : rmext (c ++ tail) c.length fext ≤ c.length := by
    rw [rmext.eq_def]
    split
    · exact Nat.zero_le _
    · exact rmextScan_le _ _ _
    · split_ifs <;> omega
  rw [baseLength]
  split_ifs
  · exact le_rfl
  · exact hle

/-- **The base name** is the beginning of the last component. -/
theorem basename_of_shape (h : Shape (path.cstr enc) front c k j t) (hnul : 0 ∉ path.cstr enc)
    (fext : Option StringObject) :
    (rbFileSBasename enc path fext).cstr enc =
      let f := baseLength c (slashes t) (fext.map (StringObject.cstr enc))
      c.take f ++ List.replicate (padding enc (c ++ slashes t) f) 32 := by
  have hrest : (path.cstr enc).drop k ≠ [] := by
    rw [h.drop_eq]
    simp [h.ne_nil]
  have hpath : path.cstr enc ≠ [] := fun hnil => hrest (by rw [hnil, List.drop_nil])
  have hchomp : chompdirsep (c ++ slashes t) 0 = c.length := by
    rw [chompdirsep_eq (getLast?_ne_of_not_mem h.not_mem), Nat.zero_add]
  rw [rbFileSBasename]
  simp only [if_neg hpath, h.skiproot_eq, if_neg hrest, h.lastSeparator_rest]
  -- what is left after the separators is the last component
  have hp : (match (if front = [] then none else some front.length : Option ℕ) with
      | none => (path.cstr enc).drop k
      | some i => (((path.cstr enc).drop k).drop i).dropWhile isdirsep) = c ++ slashes t := by
    rw [h.drop_eq]
    rcases h.front with ⟨rfl, rfl⟩ | ⟨hne, -⟩
    · rfl
    · rw [if_neg hne]
      simp only [List.drop_left]
      exact dropWhile_slashes j h.head?_component
  rw [hp, hchomp, ← baseLength]
  have hle := baseLength_le c (slashes t) (fext.map (StringObject.cstr enc))
  generalize baseLength c (slashes t) (fext.map (StringObject.cstr enc)) = f at hle ⊢
  split_ifs with hwhole
  · -- the path is its last component
    have hlen := congrArg List.length h.eq
    simp only [List.length_append] at hlen
    obtain ⟨rfl, hc⟩ : f = c.length ∧ c.length = (path.cstr enc).length := by omega
    have hsame : path.cstr enc = c := by
      have hk : slashes k = [] := List.eq_nil_of_length_eq_zero (by omega)
      have hfront : front = [] := List.eq_nil_of_length_eq_zero (by omega)
      have hj : slashes j = [] := List.eq_nil_of_length_eq_zero (by omega)
      have ht : slashes t = [] := List.eq_nil_of_length_eq_zero (by omega)
      rw [h.eq, hk, hfront, hj, ht]
      simp
    have ht : t = 0 := by
      simp only [List.length_replicate] at hlen
      omega
    rw [(padding_slashes (hsame ▸ hnul) t).mpr (.inl ht), List.take_length, hsame]
    simp
  · have hfit : f ≤ (c ++ slashes t).length := by
      rw [List.length_append]
      omega
    rw [cstr_strNew hfit, List.take_append_of_le_length hle]

/-- **What stands before the last component**, with at most one separator in front. -/
def dirText (front : List UInt8) (k : ℕ) : List UInt8 :=
  if front = [] then if k = 0 then [46] else [47] else slashes (min k 1) ++ front

/-- **The directory** is what stands before the last component. -/
theorem dirname_of_shape (h : Shape (path.cstr enc) front c k j t) (hnul : 0 ∉ path.cstr enc) :
    ∃ n, (rbFileSDirname enc path).cstr enc = dirText front k ++ List.replicate n 32 ∧
      (n = 0 ↔ front = [] ∨ ¬ Padded enc (slashes (min k 1) ++ front)) := by
  have hroot : slashes k = slashes (k - 1) ++ slashes (min k 1) := by
    rw [← List.replicate_add]
    congr 1
    omega
  have hname : (if k > 1 then k - 1 else 0) = k - 1 := by split <;> omega
  have hdrop : (path.cstr enc).drop (k - 1) = slashes (min k 1) ++ (path.cstr enc).drop k := by
    rw [h.drop_eq]
    nth_rewrite 1 [h.eq]
    rw [hroot, List.append_assoc]
    exact List.drop_left' (List.length_replicate ..)
  have hnul' : 0 ∉ (path.cstr enc).drop (k - 1) := fun hmem => hnul (List.mem_of_mem_drop hmem)
  have hcpos := List.length_pos_iff.mpr h.ne_nil
  have hascii : ∀ b : UInt8, b < 0x80 → ¬ Padded enc [b] := fun b hb =>
    not_padded_ascii fun c hc => (List.mem_singleton.mp hc) ▸ hb
  simp only [rbFileSDirname, h.skiproot_eq, h.lastSeparator_rest, hname, dirText]
  rw [hdrop, h.drop_eq] at hnul' ⊢
  rcases h.front with ⟨rfl, rfl⟩ | ⟨hne, -⟩
  · refine ⟨0, ?_, by simp⟩
    rw [if_pos rfl, if_pos rfl, List.replicate_zero, List.append_nil]
    cases k with
    | zero =>
        have hpad : padding enc [46] 1 = 0 := padding_whole (show 0 ∉ [(46 : UInt8)] by decide)
        rw [if_pos rfl, if_pos rfl, cstr_strNew (by simp), hpad]
        rfl
    | succ k =>
        have hone : min (k + 1) 1 = 1 := by omega
        have hlen : k + 1 - (k + 1 - 1) = 1 := by omega
        rw [hone] at hnul' ⊢
        have hpad : padding enc _ 1 = 0 :=
          (padding_cut hnul' (by simp; omega)).mpr (hascii 47 (by decide))
        simp only [Nat.add_sub_cancel, if_neg (Nat.succ_ne_zero k)]
        rw [if_neg (by omega), Nat.add_sub_cancel_left, cstr_strNew (by simp), hpad]
        rfl
  · have hlen := List.length_pos_iff.mpr hne
    have hlen' : k + front.length - (k - 1) = (slashes (min k 1) ++ front).length := by
      rw [List.length_append, List.length_replicate]
      omega
    have hlen'' : (slashes (min k 1) ++ front).length <
        (slashes (min k 1) ++ (front ++ (slashes j ++ (c ++ slashes t)))).length := by
      simp
      omega
    rw [← List.append_assoc] at hnul' hlen'' ⊢
    have hpad : padding enc _ _ = 0 ↔ _ := padding_cut hnul' hlen''
    rw [List.take_left] at hpad
    rw [if_neg hne, if_neg hne]
    simp only
    rw [if_neg (by omega), hlen', cstr_strNew hlen''.le, List.take_left]
    exact ⟨_, rfl, hpad.trans (or_iff_right hne).symm⟩

/-- **The extension is found only behind a single separator.** -/
theorem extname_of_shape (h : Shape (path.cstr enc) front c k j t) :
    rbFileSExtname enc path =
      if Shape.gap front k j ≤ 1 then extOf enc (c ++ slashes t) else strNewNull 0 := by
  -- one separator is skipped, the others stop the search
  have hrun : ∀ n, extOf enc (slashes (n - 1) ++ (c ++ slashes t)) =
      if n ≤ 1 then extOf enc (c ++ slashes t) else strNewNull 0 := by
    intro n
    split
    case isTrue hn => rw [Nat.sub_eq_zero_of_le hn, slashes_zero, List.nil_append]
    case isFalse hn =>
      obtain ⟨m, hm⟩ : ∃ m, n - 1 = m + 1 := ⟨n - 2, by omega⟩
      rw [hm, slashes_succ]
      rfl
  rw [rbFileSExtname, h.lastSeparator_eq, Shape.gap, ← hrun]
  rcases h.front with ⟨rfl, rfl⟩ | ⟨hne, -, -, hj⟩
  · rw [if_pos rfl, if_pos rfl]
    cases k with
    | zero => rw [if_pos rfl, h.eq]; rfl
    | succ k => rw [if_neg (Nat.succ_ne_zero k), h.eq]; rfl
  · obtain ⟨i, rfl⟩ : ∃ i, j = i + 1 := ⟨j - 1, by omega⟩
    have hdrop : (path.cstr enc).drop (k + front.length + 1) = slashes i ++ (c ++ slashes t) := by
      rw [h.eq, ← List.append_assoc, ← List.drop_drop,
        List.drop_left' (by simp : (slashes k ++ front).length = k + front.length)]
      rfl
    rw [if_neg hne, if_neg hne]
    simp only [hdrop, Nat.add_sub_cancel]

end Returns

/-! ## All separators -/

/-- A path that begins with a separator is absolute. -/
theorem denoted_cons (path : List UInt8) : denoted (47 :: path) = (true, names (47 :: path)) :=
  if_pos rfl

section Root

variable {enc : CFEncoding} {path : StringObject} {n : ℕ}

theorem drop_skiproot_slashes (n : ℕ) : (slashes n).drop (skiproot (slashes n)) = [] := by
  have h : skiproot (slashes n ++ []) = n := skiproot_slashes n (by simp)
  rw [List.append_nil] at h
  rw [h]
  exact List.drop_of_length_le (by simp)

/-- The root is a string of one byte, whatever follows. -/
theorem cstr_root (rest : ℕ) : (strNew enc (slashes (rest + 1)) 1).cstr enc = [47] := by
  have hascii : ∀ c ∈ (slashes (rest + 1)).take 1, c < 0x80 := fun c hc => by
    rw [List.eq_of_mem_replicate (List.mem_of_mem_take hc)]
    decide
  have hpad : padding enc (slashes (rest + 1)) 1 = 0 := by
    by_contra hpos
    obtain ⟨-, -, -, c, hc, hhigh⟩ := (padding_pos_iff (by simp)).mp (Nat.pos_of_ne_zero hpos)
    exact absurd (hascii c hc) (UInt8.not_lt.mpr hhigh)
  rw [cstr_strNew (by simp), hpad]
  rfl

variable (h : path.cstr enc = slashes (n + 1))
include h

theorem basename_slashes (fext : Option StringObject) :
    (rbFileSBasename enc path fext).cstr enc = [47] := by
  rw [rbFileSBasename]
  simp only [h, drop_skiproot_slashes, if_pos]
  rw [if_neg (by simp)]
  exact cstr_root 0

theorem dirname_slashes : (rbFileSDirname enc path).cstr enc = [47] := by
  have hroot : skiproot (slashes (n + 1) ++ []) = n + 1 := skiproot_slashes (n + 1) (by simp)
  have hne : n + 1 ≠ n := by omega
  have hname : (if n + 1 > 1 then n + 1 - 1 else 0) = n := by split <;> omega
  have hlast : rbPathLastSeparator [] 0 none = none := by simp [rbPathLastSeparator]
  have hdrop := drop_skiproot_slashes (n + 1)
  rw [List.append_nil] at hroot
  rw [hroot] at hdrop
  simp only [rbFileSDirname, h, hroot, hdrop, hlast, hname, if_neg hne]
  rw [List.drop_replicate, Nat.add_sub_cancel_left]
  exact cstr_root 0

theorem extname_slashes : (rbFileSExtname enc path).cstr enc = [] := by
  rw [rbFileSExtname]
  simp only [h]
  rw [← List.nil_append (slashes (n + 1)), rbPathLastSeparator_one (by simp)]
  exact cstr_strNewNull

theorem consistent_slashes : Consistent enc path := by
  have hbase := basename_slashes h none
  refine ⟨.inr hbase, ?_, ?_, ?_⟩
  · have hnames : names (slashes (n + 1)) = [] := by
      have h := names_slashes_append (n + 1) []
      rwa [List.append_nil, names_nil] at h
    rw [hbase, dirname_slashes h, h, slashes_succ, denoted_cons, ← slashes_succ, hnames]
    rfl
  · have hone : (rbFileSBasename enc path none).cstr enc = slashes (0 + 1) := hbase
    rw [extname_slashes h, extname_slashes hone]
  · rw [extname_slashes h, basename_slashes h, hbase, List.append_nil]

end Root

/-! ## A last component -/

section Denoted

variable {path front c : List UInt8} {k j t : ℕ}

/-- A component is a path of its own. -/
theorem shape_self (hne : c ≠ []) (hc : 47 ∉ c) : Shape c [] c 0 0 0 :=
  ⟨by simp, hne, hc, .inl ⟨rfl, rfl⟩⟩

/-- The scan of `rmext` finds the last dot. -/
theorem rmextScan_eq (stem suffix tail : List UInt8) (h : 46 ∉ suffix) :
    rmextScan 46 (stem ++ 46 :: (suffix ++ tail)) (stem.length + 1 + suffix.length) =
      stem.length := by
  induction suffix using List.reverseRecOn generalizing tail with
  | nil => simp [rmextScan]
  | append_singleton suffix x ih =>
      have hx : x ≠ 46 := by
        rintro rfl
        simp at h
      have hget : (stem ++ 46 :: (suffix ++ [x] ++ tail))[stem.length + 1 + suffix.length]? =
          some x := by
        rw [show stem ++ 46 :: (suffix ++ [x] ++ tail)
          = (stem ++ 46 :: suffix) ++ x :: tail by simp,
          List.getElem?_append_right (by simp; omega)]
        simp [Nat.add_comm, Nat.add_left_comm]
      rw [List.length_append, List.length_singleton, ← Nat.add_assoc, rmextScan, hget,
        if_neg (by simp [hx]), List.append_assoc]
      exact ih ([x] ++ tail) (fun hmem => h (List.mem_append_left _ hmem))

/-- **Its extension is what `basename` takes off a component.** -/
theorem baseLength_extension (stem suffix tail : List UInt8) (hne : stem ≠ []) (h : 46 ∉ suffix) :
    baseLength (stem ++ 46 :: suffix) tail (some (46 :: suffix)) = stem.length := by
  have hpos := List.length_pos_iff.mpr hne
  have hrm : rmext (stem ++ 46 :: suffix ++ tail) (stem ++ 46 :: suffix).length
      (some (46 :: suffix)) = stem.length := by
    have hlen : (stem ++ 46 :: suffix).length = stem.length + 1 + suffix.length := by
      simp
      omega
    rw [hlen, rmext.eq_def]
    split
    case h_1 heq => cases heq
    case h_2 d heq =>
      obtain ⟨rfl, rfl⟩ : 46 = d ∧ suffix = [42] := by simpa using heq
      have hscan := rmextScan_eq stem [42] tail h
      simpa using hscan
    case h_3 e hstar heq =>
      obtain rfl : 46 :: suffix = e := by simpa using heq
      have hsub : stem.length + 1 + suffix.length - (46 :: suffix).length = stem.length := by
        simp
        omega
      rw [if_neg (by rw [List.length_cons]; omega), hsub, List.append_assoc, List.drop_left,
        List.take_left, if_pos rfl]
  rw [baseLength, hrm, if_neg (by omega)]

/-- An empty suffix takes nothing off. -/
theorem baseLength_nil (c tail : List UInt8) : baseLength c tail (some []) = c.length := by
  simp [baseLength, rmext]

theorem names_of_shape (h : Shape path front c k j t) : names path = names front ++ [c] := by
  rw [h.eq, names_slashes_append]
  rcases h.front with ⟨rfl, rfl⟩ | ⟨-, -, -, hj⟩
  · rw [List.nil_append, slashes_zero, List.nil_append, names_append_slashes,
      names_of_not_mem h.not_mem h.ne_nil, names_nil, List.nil_append]
  · obtain ⟨j, rfl⟩ : ∃ i, j = i + 1 := ⟨j - 1, by omega⟩
    rw [slashes_succ, List.cons_append, names_append_slash, names_slashes_append,
      names_append_slashes, names_of_not_mem h.not_mem h.ne_nil]

/-- A path with a last component is absolute if it has separators in front. -/
theorem head?_of_shape (h : Shape path front c k j t) : path.head? = some 47 ↔ k ≠ 0 := by
  cases k with
  | zero =>
      have := h.head?_rest
      rw [h.eq]
      simpa using this
  | succ k =>
      rw [h.eq]
      simp [List.replicate_succ]

/-- **The directory and the base name make up the path.** -/
theorem denoted_join (h : Shape path front c k j t) :
    denoted (dirText front k ++ 47 :: c) = denoted path := by
  have hnames : names (dirText front k ++ 47 :: c) = names (dirText front k) ++ [c] := by
    rw [names_append_slash, names_of_not_mem h.not_mem h.ne_nil]
  rw [denoted, denoted, hnames, names_of_shape h, dirText]
  rcases h.front with ⟨rfl, rfl⟩ | ⟨hne, hhead, -⟩
  · rw [if_pos rfl, names_nil]
    cases k with
    | zero =>
        rw [if_pos rfl, if_neg (by simp), if_neg (by simpa using (head?_of_shape h).not.mpr),
          names_of_not_mem (c := [46]) (by simp) (by simp)]
        simp [dropDot]
    | succ k =>
        have hroot : names [47] = names [] := names_slashes_append 1 []
        rw [if_neg (Nat.succ_ne_zero k), if_pos (by rfl),
          if_pos ((head?_of_shape h).mpr (by omega)),
          hroot, names_nil]
  · rw [if_neg hne, names_slashes_append]
    cases k with
    | zero =>
        rw [Nat.zero_min, slashes_zero, List.nil_append, List.head?_append_of_ne_nil _ hne,
          if_neg hhead, if_neg (by simpa using (head?_of_shape h).not.mpr)]
    | succ k =>
        have hone : min (k + 1) 1 = 0 + 1 := by omega
        rw [hone, slashes_succ, if_pos (by rfl), if_pos ((head?_of_shape h).mpr (by omega))]

theorem getLast?_dropDot (cs : List (List UInt8)) : (dropDot cs).getLast? = cs.getLast? := by
  rw [dropDot.eq_def]
  split
  · rw [List.getLast?_cons_cons]
  · rfl

/-- The last component of a path. -/
theorem getLast?_denoted (path : List UInt8) : (denoted path).2.getLast?
    = (names path).getLast? := by
  rw [denoted]
  split_ifs
  · rfl
  · exact getLast?_dropDot _

/-- The last component but one. -/
theorem eq_of_dropDot {cs : List (List UInt8)} {a a' : List UInt8} (ha : a ≠ [46])
    (h : dropDot (cs ++ [a, c]) = dropDot (cs ++ [a', c])) : a = a' := by
  cases cs with
  | nil =>
      have hleft : dropDot ([] ++ [a, c]) = [a, c] := by simp [dropDot, ha]
      rw [hleft] at h
      by_cases ha' : a' = [46]
      · have hlen := congrArg List.length h
        rw [ha', List.nil_append] at hlen
        simp [dropDot] at hlen
      · have hright : dropDot ([] ++ [a', c]) = [a', c] := by simp [dropDot, ha']
        rw [hright] at h
        exact (List.cons.inj h).1
  | cons d cs =>
      have hsame : cs ++ [a, c] = cs ++ [a', c] := by
        by_cases hd : d = [46]
        · cases cs <;> simpa [dropDot, hd] using h
        · cases cs <;> simpa [dropDot, hd] using h
      exact (List.cons.inj (List.append_cancel_left hsame)).1

/-- **Blanks behind a directory make another path.** -/
theorem blanks_of_denoted {text : List UInt8} {n : ℕ} (hne : text ≠ [])
    (hlast : text.getLast? ≠ some 47) (hc : 47 ∉ c) (hcne : c ≠ [])
    (h : denoted (text ++ List.replicate n 32 ++ 47 :: c) = denoted (text ++ 47 :: c)) :
    n = 0 := by
  by_contra hn
  have hnil : List.replicate n (32 : UInt8) ≠ [] := by simpa using hn
  obtain ⟨m, hm⟩ | ⟨f, x, i, l, t', hshape⟩ := exists_shape text
  · cases m with
    | zero => exact hne (by rw [hm]; rfl)
    | succ m =>
        rw [hm, List.getLast?_replicate] at hlast
        simp at hlast
  obtain rfl : t' = 0 := by
    cases t' with
    | zero => rfl
    | succ t' =>
        rw [hshape.eq] at hlast
        simp [List.getLast?_append, List.getLast?_replicate] at hlast
  -- the last component of the directory has the blanks
  have hpadded : Shape (text ++ List.replicate n 32) f (x ++ List.replicate n 32) i l 0 := by
    refine ⟨?_, by simp [hshape.ne_nil], ?_, hshape.front⟩
    · conv_lhs => rw [hshape.eq]
      simp
    · rw [List.mem_append, not_or]
      exact ⟨hshape.not_mem, by simp⟩
  have hnames : ∀ b, names (b ++ 47 :: c) = names b ++ [c] := by
    intro b
    rw [names_append_slash, names_of_not_mem hc hcne]
  have hhead : (text ++ List.replicate n 32 ++ 47 :: c).head? = (text ++ 47 :: c).head? := by
    rw [List.append_assoc, List.head?_append_of_ne_nil _ hne, List.head?_append_of_ne_nil _ hne]
  rw [denoted, denoted, hhead, hnames, hnames, names_of_shape hpadded, names_of_shape hshape,
    List.append_assoc, List.append_assoc] at h
  have hsame : x ++ List.replicate n 32 = x := by
    split_ifs at h
    · have hcs := List.append_cancel_left (congrArg Prod.snd h)
      exact (List.cons.inj hcs).1
    · refine eq_of_dropDot (fun hdot => ?_) (congrArg Prod.snd h)
      have hlast := congrArg List.getLast? hdot
      rw [List.getLast?_append_of_ne_nil _ hnil, List.getLast?_replicate, if_neg hn] at hlast
      simp at hlast
  exact hnil (List.append_right_eq_self.mp hsame)

end Denoted

section Component

variable {enc : CFEncoding} {path : StringObject} {front c : List UInt8} {k j t : ℕ}

theorem basename_none (h : Shape (path.cstr enc) front c k j t) (hnul : 0 ∉ path.cstr enc) :
    (rbFileSBasename enc path none).cstr enc =
      c ++ List.replicate (padding enc (c ++ slashes t) c.length) 32 := by
  have hbase := basename_of_shape h hnul none
  rw [hbase]
  simp [baseLength, rmext]

/-- The extension of a component that nothing follows. -/
theorem extname_component {base : StringObject} (hbase : base.cstr enc = c) (hne : c ≠ [])
    (hc : 47 ∉ c) : rbFileSExtname enc base = extOf enc c := by
  have hshape : Shape (base.cstr enc) [] c 0 0 0 := hbase.symm ▸ shape_self hne hc
  rw [extname_of_shape hshape, if_pos (by simp [Shape.gap]), slashes_zero, List.append_nil]

theorem ExtAt.unique {stem suffix stem' suffix' : List UInt8} (h : ExtAt c stem suffix)
    (h' : ExtAt c stem' suffix') : stem = stem' ∧ suffix = suffix' :=
  last_dot_unique h.last h'.last (h.eq.symm.trans h'.eq)

/-- The extension of a component, and the blanks behind it. -/
theorem extOf_extAt (enc : CFEncoding) (hc : 47 ∉ c) (hnul : 0 ∉ c) {stem suffix : List UInt8}
    (hext : ExtAt c stem suffix) (t : ℕ) : ∃ n,
      (extOf enc (c ++ slashes t)).cstr enc = 46 :: suffix ++ List.replicate n 32 ∧
        (n = 0 ↔ t = 0 ∨ ¬ Padded enc (46 :: suffix)) := by
  obtain ⟨hno, -⟩ | ⟨stem', suffix', n, hext', htext, hn⟩ := extOf_cases enc hc hnul t
  · exact absurd ⟨stem, suffix, hext⟩ hno
  · obtain ⟨-, rfl⟩ := hext.unique hext'
    exact ⟨n, htext, hn⟩

theorem extOf_self (hc : 47 ∉ c) (hnul : 0 ∉ c) {stem suffix : List UInt8}
    (hext : ExtAt c stem suffix) : (extOf enc c).cstr enc = 46 :: suffix := by
  obtain ⟨n, htext, hn⟩ := extOf_extAt enc hc hnul hext 0
  rw [hn.mpr (.inl rfl), slashes_zero, List.append_nil, List.replicate_zero,
    List.append_nil] at htext
  exact htext

/-- The base name without its extension, and the blanks behind it. -/
theorem basename_stem (h : Shape (path.cstr enc) front c k j t) (hnul : 0 ∉ path.cstr enc)
    {stem suffix : List UInt8} (hext : ExtAt c stem suffix) {ext : StringObject}
    (htext : ext.cstr enc = 46 :: suffix) : ∃ n,
      (rbFileSBasename enc path (some ext)).cstr enc = stem ++ List.replicate n 32 ∧
        (n = 0 ↔ ¬ Padded enc stem) := by
  have hbase := basename_of_shape h hnul (some ext)
  have hlength := baseLength_extension stem suffix (slashes t) hext.stem_ne hext.last
  have hnul' : 0 ∉ c ++ slashes t := by
    intro hmem
    rw [h.eq] at hnul
    exact hnul (List.mem_append_right _ (List.mem_append_right _ (List.mem_append_right _ hmem)))
  have hpad : padding enc (c ++ slashes t) stem.length = 0 ↔ _ := padding_cut hnul' (by
    rw [hext.eq]
    simp)
  rw [← hext.eq] at hlength
  rw [Option.map_some, htext] at hbase
  simp only [hlength] at hbase
  rw [hbase]
  refine ⟨_, ?_, hpad.trans (not_congr ?_)⟩
  · rw [hext.eq, List.take_left]
  · rw [hext.eq, List.append_assoc, List.take_left]

variable (h : Shape (path.cstr enc) front c k j t) (hnul : 0 ∉ path.cstr enc)
include h hnul

theorem zero_not_mem_component : 0 ∉ c := by
  intro hmem
  rw [h.eq] at hnul
  simp [hmem] at hnul

/-- **A path with a last component is consistent if the extension of the component is found** and
nothing is padded. -/
theorem consistent_of_shape (hgap : HasExt c → Shape.gap front k j ≤ 1)
    (hclean : CutsClean enc front c k t) : Consistent enc path := by
  have hcnul := zero_not_mem_component h hnul
  have hbase : (rbFileSBasename enc path none).cstr enc = c := by
    rw [basename_none h hnul, (padding_slashes hcnul t).mpr hclean.basename, List.replicate_zero,
      List.append_nil]
  obtain ⟨n, hdir, hn⟩ := dirname_of_shape h hnul
  rw [hn.mpr hclean.dirname, List.replicate_zero, List.append_nil] at hdir
  have hself := extname_component hbase h.ne_nil h.not_mem
  have hpath := extname_of_shape h
  refine ⟨.inl (hbase ▸ h.not_mem), by rw [hdir, hbase, denoted_join h], ?_, ?_⟩
  · rw [hself, hpath]
    by_cases hext : HasExt c
    · obtain ⟨stem, suffix, hat⟩ := hext
      obtain ⟨m, htext, hm⟩ := extOf_extAt enc h.not_mem hcnul hat t
      rw [if_pos (hgap ⟨_, _, hat⟩), htext, hm.mpr (hclean.extname _ _ hat),
        extOf_self h.not_mem hcnul hat, List.replicate_zero, List.append_nil]
    · have hnone := fun t => (extOf_cases enc h.not_mem hcnul t).resolve_right
        fun ⟨stem, suffix, _, hat, _⟩ => hext ⟨stem, suffix, hat⟩
      have hnone' := (hnone 0).2
      rw [slashes_zero, List.append_nil] at hnone'
      rw [hnone']
      split_ifs
      · exact (hnone t).2
      · exact cstr_strNewNull
  · by_cases hext : HasExt c
    · obtain ⟨stem, suffix, hat⟩ := hext
      obtain ⟨m, htext, hm⟩ := extOf_extAt enc h.not_mem hcnul hat t
      rw [hm.mpr (hclean.extname _ _ hat), List.replicate_zero, List.append_nil] at htext
      rw [hpath, if_pos (hgap ⟨_, _, hat⟩)]
      obtain ⟨l, hstem, hl⟩ := basename_stem h hnul hat htext
      rw [hstem, hl.mpr (hclean.stem _ _ hat), htext, hbase, List.replicate_zero, List.append_nil,
        hat.eq]
    · have htext : (rbFileSExtname enc path).cstr enc = [] := by
        rw [hpath]
        split_ifs
        · exact ((extOf_cases enc h.not_mem hcnul t).resolve_right
            fun ⟨stem, suffix, _, hat, _⟩ => hext ⟨stem, suffix, hat⟩).2
        · exact cstr_strNewNull
      have hwhole := basename_of_shape h hnul (some (rbFileSExtname enc path))
      rw [Option.map_some, htext] at hwhole
      simp only [baseLength_nil, List.take_length] at hwhole
      rw [hwhole, htext, List.append_nil, basename_none h hnul]

/-- The base name is not padded. -/
theorem Consistent.basename_eq (hcons : Consistent enc path) :
    (rbFileSBasename enc path none).cstr enc = c ∧ (t = 0 ∨ ¬ Padded enc c) := by
  have hcnul := zero_not_mem_component h hnul
  have hbase := basename_none h hnul
  have hjoin := congrArg (fun d => d.2.getLast?) hcons.join
  have hcblank : ∀ n, 47 ∉ c ++ List.replicate n 32 ∧ c ++ List.replicate n 32 ≠ [] := fun n =>
    ⟨by simp [h.not_mem], by simp [h.ne_nil]⟩
  simp only [getLast?_denoted] at hjoin
  rw [hbase, names_append_slash, names_of_not_mem (hcblank _).1 (hcblank _).2, names_of_shape h,
    List.getLast?_concat, List.getLast?_concat, Option.some.injEq] at hjoin
  have hzero := congrArg List.length hjoin
  rw [List.length_append, List.length_replicate] at hzero
  exact ⟨hbase.trans hjoin, (padding_slashes hcnul t).mp (by omega)⟩

/-- **Where the functions are consistent nothing is padded**, and the extension is found. -/
theorem Consistent.clean (hcons : Consistent enc path) :
    (HasExt c → Shape.gap front k j ≤ 1) ∧ CutsClean enc front c k t := by
  have hcnul := zero_not_mem_component h hnul
  obtain ⟨hbase, hbaseClean⟩ := hcons.basename_eq h hnul
  obtain ⟨n, hdir, hn⟩ := dirname_of_shape h hnul
  have hdirClean : front = [] ∨ ¬ Padded enc (slashes (min k 1) ++ front) := by
    refine hn.mp ?_
    by_cases hnil : front = []
    · exact hn.mpr (.inl hnil)
    have hlast : (slashes (min k 1) ++ front).getLast? ≠ some 47 := by
      obtain ⟨rfl, -⟩ | ⟨-, -, hlast, -⟩ := h.front
      · exact absurd rfl hnil
      · rwa [List.getLast?_append_of_ne_nil _ hnil]
    have hjoin := hcons.join
    rw [hdir, hbase, ← denoted_join h, dirText, if_neg hnil] at hjoin
    exact blanks_of_denoted (by simp [hnil]) hlast h.not_mem h.ne_nil hjoin
  have hext : ∀ stem suffix, ExtAt c stem suffix → Shape.gap front k j ≤ 1 ∧
      (t = 0 ∨ ¬ Padded enc (46 :: suffix)) ∧ (rbFileSExtname enc path).cstr enc
        = 46 :: suffix := by
    intro stem suffix hat
    have hsame := hcons.extname
    rw [extname_component hbase h.ne_nil h.not_mem, extOf_self h.not_mem hcnul hat] at hsame
    refine (and_assoc.mp ⟨?_, hsame⟩)
    rw [extname_of_shape h] at hsame
    split_ifs at hsame with hgap
    · obtain ⟨m, htext, hm⟩ := extOf_extAt enc h.not_mem hcnul hat t
      have hlen := congrArg List.length (htext.symm.trans hsame)
      rw [List.length_append, List.length_replicate] at hlen
      exact ⟨hgap, hm.mp (by omega)⟩
    · rw [cstr_strNewNull] at hsame
      cases hsame
  refine ⟨fun ⟨stem, suffix, hat⟩ => (hext stem suffix hat).1, hdirClean, hbaseClean,
    fun stem suffix hat => (hext stem suffix hat).2.1, fun stem suffix hat => ?_⟩
  obtain ⟨l, hstem, hl⟩ := basename_stem h hnul hat (hext stem suffix hat).2.2
  have hsuffix := hcons.suffix
  rw [hstem, (hext stem suffix hat).2.2, hbase, hat.eq] at hsuffix
  have hlen := congrArg List.length hsuffix
  simp only [List.length_append, List.length_replicate] at hlen
  exact hl.mp (by omega)

end Component

/-! ## When the functions are consistent -/

theorem HasExt.ne_nil {c : List UInt8} (h : HasExt c) : c ≠ [] := by
  obtain ⟨stem, suffix, rfl, -⟩ := h
  simp

/-- Two separators in front of a component are in the gap before it. -/
theorem exists_shape_of_doubled {p : List UInt8} (h : DoubledExt p) :
    ∃ front c k j t, Shape p front c k j t ∧ 2 ≤ Shape.gap front k j ∧ HasExt c := by
  obtain ⟨dir, c, t, rfl, hc, hext⟩ := h
  obtain ⟨body, m, rfl, hlast⟩ := exists_trailing dir
  obtain ⟨k, rest, rfl, hhead⟩ := exists_slashes body
  have hrun : slashes m ++ 47 :: 47 :: (c ++ slashes t) = slashes (m + 2) ++ (c ++ slashes t) := by
    rw [slashes_add, List.append_assoc]
    rfl
  by_cases hnil : rest = []
  · obtain rfl : k = 0 := by
      cases k with
      | zero => rfl
      | succ k => simp [hnil, List.getLast?_replicate] at hlast
    subst hnil
    refine ⟨[], c, m + 2, 0, t, ⟨?_, hext.ne_nil, hc, .inl ⟨rfl, rfl⟩⟩, ?_, hext⟩
    · simpa using hrun
    · simp [Shape.gap]
  · rw [List.getLast?_append_of_ne_nil _ hnil] at hlast
    refine ⟨rest, c, k, m + 2, t, ⟨?_, hext.ne_nil, hc, .inr ⟨hnil, hhead, hlast, by omega⟩⟩, ?_,
      hext⟩
    · rw [List.append_assoc, hrun, List.append_assoc]
    · rw [Shape.gap, if_neg hnil]
      omega

/-- The gap before a component is made of separators. -/
theorem doubled_of_shape {p front c : List UInt8} {k j t : ℕ} (h : Shape p front c k j t)
    (hgap : 2 ≤ Shape.gap front k j) (hext : HasExt c) : DoubledExt p := by
  have hrun : ∀ n, 2 ≤ n → slashes n ++ (c ++ slashes t) =
      slashes (n - 2) ++ 47 :: 47 :: (c ++ slashes t) := by
    intro n hn
    obtain ⟨m, rfl⟩ : ∃ m, n = m + 2 := ⟨n - 2, by omega⟩
    rw [slashes_add, List.append_assoc, Nat.add_sub_cancel]
    rfl
  rw [Shape.gap] at hgap
  rcases h.front with ⟨rfl, rfl⟩ | ⟨hne, -⟩
  · rw [if_pos rfl] at hgap
    refine ⟨slashes (k - 2), c, t, ?_, h.not_mem, hext⟩
    rw [h.eq, ← hrun k hgap]
    rfl
  · rw [if_neg hne] at hgap
    refine ⟨slashes k ++ (front ++ slashes (j - 2)), c, t, ?_, h.not_mem, hext⟩
    rw [h.eq, List.append_assoc, List.append_assoc, ← hrun j hgap]

/-- The path `lib/a.rb/`. -/
def libA : StringObject :=
  ⟨[0x6c, 0x69, 0x62, 0x2f, 0x61, 0x2e, 0x72, 0x62, 0x2f], none⟩

/-- The path `a//b.rb`. -/
def doubledB : StringObject := ⟨[0x61, 0x2f, 0x2f, 0x62, 0x2e, 0x72, 0x62], none⟩

end MacRuby.File
