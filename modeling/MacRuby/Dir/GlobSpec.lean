import MacRuby.Dir.Tails
import Mathlib.Data.List.Induction

/-!
# `glob_helper` finds what the pattern matches

At a path of the tree the walk carries the tails of the pattern that are still to be matched. It
calls its function once for each path below that one of them matches, and for no other. The proof
follows the walk down: an entry takes one name of the path, and what is left of the tails is what
is left of the pattern.

## Main definitions

* `Reports` — the walk has to call its function with a path.

## Main results

* `globHelper_spec` — it does, once.
* `rubyGlob0_agrees` — globbing agrees with `fnmatch`.
-/

namespace MacRuby.Dir

/-! ## Paths -/

/-- The names of a path are not empty, and have no slash. -/
def Names (ns : List (List UInt8)) : Prop := ∀ n ∈ ns, n ≠ [] ∧ 47 ∉ n

/-- The names of a path, with slashes between them. -/
def pathString (ns : List (List UInt8)) : List UInt8 := [47].intercalate ns

theorem splitOn_pathString {ns : List (List UInt8)} (hns : Names ns) (hne : ns ≠ []) :
    (pathString ns).splitOn 47 = ns :=
  List.splitOn_intercalate 47 (fun n hn => (hns n hn).2) hne

theorem pathString_ne_nil {ns : List (List UInt8)} (hns : Names ns) (hne : ns ≠ []) :
    pathString ns ≠ [] := by
  intro h
  have hsplit := splitOn_pathString hns hne
  rw [h, List.splitOn_nil] at hsplit
  exact (hns [] (by rw [← hsplit]; simp)).1 rfl

/-- A name after a path. -/
theorem joinPath_pathString (ns : List (List UInt8)) (n : List UInt8) :
    joinPath (pathString ns) (decide (ns ≠ [])) n = pathString (ns ++ [n]) := by
  induction ns with
  | nil => simp [joinPath, pathString]
  | cons m ns ih =>
      by_cases hns : ns = []
      · simp [hns, joinPath, pathString]
      · have h1 : pathString (m :: ns) = m ++ [47] ++ pathString ns :=
          List.intercalate_cons_of_ne_nil hns
        have h2 : pathString (m :: ns ++ [n]) = m ++ [47] ++ pathString (ns ++ [n]) :=
          List.intercalate_cons_of_ne_nil (by simp)
        rw [h2, ← ih, h1]
        simp [joinPath, hns]

section Tree

variable {t : Tree} {ns : List (List UInt8)}

theorem lstat_pathString (hns : Names ns) (hne : ns ≠ []) :
    t.lstat (pathString ns) = t.kind ns := by
  rw [Tree.lstat, splitOn_pathString hns hne]

theorem readdir_pathString (hns : Names ns) : t.readdir (pathString ns)
    = if t.kind ns = some true then some (t.entries ns) else none := by
  rw [Tree.readdir]
  by_cases hne : ns = []
  · simp [hne, pathString]
  · rw [if_neg (pathString_ne_nil hns hne), splitOn_pathString hns hne]

/-- What stands above an entry is a directory. -/
theorem kind_of_isSome_append {xs : List (List UInt8)} (h : (t.kind (ns ++ xs)).isSome = true)
    (hne : xs ≠ []) : t.kind ns = some true := by
  induction xs using List.reverseRecOn with
  | nil => exact absurd rfl hne
  | append_singleton xs x ih =>
      rw [← List.append_assoc] at h
      have hparent := t.parent _ _ h
      by_cases hxs : xs = []
      · simpa [hxs] using hparent
      · exact ih (by rw [hparent]; rfl) hxs

theorem names_of_isSome (h : (t.kind ns).isSome = true) : Names ns := by
  induction ns using List.reverseRecOn with
  | nil => simp [Names]
  | append_singleton ns n ih =>
      have hparent := t.parent _ _ h
      have hok := t.name_ok _ _ h
      intro m hm
      rcases List.mem_append.mp hm with hm | hm
      · exact ih (by rw [hparent]; rfl) m hm
      · rw [List.mem_singleton.mp hm]
        exact ⟨hok.1, hok.2.2.2.1⟩

end Tree

/-! ## Tails along a path -/

variable {fl : Flags} {t : Tree} {slash : Bool}

/-- The path is there, and is a directory if the pattern ends in a separator. -/
def Exists (t : Tree) (slash : Bool) (ns : List (List UInt8)) : Prop :=
  if slash then t.kind ns = some true else (t.kind ns).isSome = true

theorem Exists.isSome {ns : List (List UInt8)} (h : Exists t slash ns) :
    (t.kind ns).isSome = true := by
  rw [Exists] at h
  split_ifs at h
  · rw [h]
    rfl
  · exact h

theorem Exists.dir {ns xs : List (List UInt8)} (h : Exists t slash (ns ++ xs))
    (hxs : xs = [] → slash = true) : t.kind ns = some true := by
  by_cases hnil : xs = []
  · rw [Exists, if_pos (hxs hnil), hnil, List.append_nil] at h
    exact h
  · exact kind_of_isSome_append h.isSome hnil

theorem Tail.ne_nil {T : List GlobPattern} (hT : Tail fl slash T) : T ≠ [] := by
  cases hT <;> simp

/-- The last element of a list. -/
def marker (slash : Bool) : GlobPattern := if slash then .matchDir else .matchAll

/-- A tail at its end is `MATCH_ALL` or `MATCH_DIR`, maybe behind a `RECURSIVE`. -/
theorem matches_tailItems_nil {T : List GlobPattern} (hT : Tail fl slash T) :
    Wildcard.Matches (dotRule fl).skips (tailItems fl T) [] ↔
      (afterRecursion T).head? = some (marker slash) := by
  cases hT with
  | matchAll h => simp [tailItems, afterRecursion, marker, h]
  | matchDir h => simp [tailItems, afterRecursion, marker, h]
  | plain _ _ _ _ _ => cases slash <;> simp [tailItems, afterRecursion, marker]
  | magical _ _ => cases slash <;> simp [tailItems, afterRecursion, marker]
  | recursive h1 _ hnext =>
      rw [tailItems, Wildcard.matches_gap_iff_later, or_iff_left Wildcard.not_later_nil,
        afterRecursion]
      cases hnext with
      | matchAll h => simp [tailItems, marker, h]
      | matchDir h => simp [tailItems, marker, h]
      | plain _ _ _ _ _ => cases slash <;> simp [tailItems, marker]
      | magical _ _ => cases slash <;> simp [tailItems, marker]
      | recursive _ _ _ => exact absurd rfl h1

theorem head_ne_marker {T : List GlobPattern} (hT : Tail fl slash T) :
    (afterRecursion T).head? ≠ some (marker !slash) := by
  cases hT with
  | matchAll h => simp [afterRecursion, marker, h]
  | matchDir h => simp [afterRecursion, marker, h]
  | plain _ _ _ _ _ => cases slash <;> simp [afterRecursion, marker]
  | magical _ _ => cases slash <;> simp [afterRecursion, marker]
  | recursive h1 _ hnext =>
      rw [afterRecursion]
      cases hnext with
      | matchAll h => simp [marker, h]
      | matchDir h => simp [marker, h]
      | plain _ _ _ _ _ => cases slash <;> simp [marker]
      | magical _ _ => cases slash <;> simp [marker]
      | recursive _ _ _ => exact absurd rfl h1

/-- The tails that a tail becomes when an entry is passed. -/
def stepTail (fl : Flags) (isdir : Bool) (name : List UInt8) (T : List GlobPattern) :
    List (List GlobPattern) := newTails fl [T] isdir name

theorem mem_newTails {tails : List (List GlobPattern)} {isdir : Bool} {name : List UInt8}
    {T' : List GlobPattern} : T' ∈ newTails fl tails isdir name ↔
      ∃ T ∈ tails, T' ∈ stepTail fl isdir name T := by
  simp only [newTails, stepTail, List.mem_flatMap, List.mem_singleton, exists_eq_left]

/-- A tail for one entry, that is no `RECURSIVE`. -/
theorem matches_stepTail_of_head {T : List GlobPattern} (hT : Tail fl slash T)
    (hrec : T.head? ≠ some .recursive) (isdir : Bool) {name : List UInt8} (hname : 47 ∉ name)
    (xs : List (List UInt8)) :
    Wildcard.Matches (dotRule fl).skips (tailItems fl T) (name :: xs) ↔
      ∃ T' ∈ stepTail fl isdir name T,
        Wildcard.Matches (dotRule fl).skips (tailItems fl T') xs := by
  cases hT with
  | matchAll _ => simp [tailItems, stepTail, newTails, afterRecursion]
  | matchDir _ => simp [tailItems, stepTail, newTails, afterRecursion]
  | plain _ _ htext _ _ =>
      rw [tailItems, Wildcard.matches_one_cons, ← fnmatches_iff htext hname]
      simp [stepTail, newTails, afterRecursion]
  | magical htext _ =>
      rw [tailItems, Wildcard.matches_one_cons, ← fnmatches_iff htext hname]
      simp [stepTail, newTails, afterRecursion]
  | recursive _ _ _ => exact absurd rfl hrec

/-- A `RECURSIVE` stays for a directory, and what follows it is tried too. -/
theorem mem_stepTail_recursive {next T' : List GlobPattern} (h : next.head? ≠ some .recursive)
    {isdir : Bool} {name : List UInt8} : T' ∈ stepTail fl isdir name (.recursive :: next) ↔
      isdir = true ∧ T' = .recursive :: next ∨ T' ∈ stepTail fl isdir name next := by
  cases next with
  | nil => cases isdir <;> simp [stepTail, newTails, afterRecursion]
  | cons g next =>
      cases g with
      | recursive => exact absurd rfl h
      | _ => cases isdir <;> simp [stepTail, newTails, afterRecursion]

/-- **A name of the path is taken by an entry**, if the path is there. -/
theorem matches_stepTail {T : List GlobPattern} (hT : Tail fl slash T) {ns : List (List UInt8)}
    {isdir : Bool} {name : List UInt8} (hname : 47 ∉ name)
    (hisdir : T.head? = some .recursive →
      (isdir = true ↔ (dotRule fl).skips name ∧ t.kind (ns ++ [name]) = some true))
    {xs : List (List UInt8)} (hex : Exists t slash (ns ++ name :: xs)) :
    Wildcard.Matches (dotRule fl).skips (tailItems fl T) (name :: xs) ↔
      ∃ T' ∈ stepTail fl isdir name T,
        Wildcard.Matches (dotRule fl).skips (tailItems fl T') xs := by
  by_cases hrec : T.head? = some .recursive
  · cases hT with
    | recursive h1 h2 hnext =>
        have hdir := hisdir rfl
        rw [tailItems, Wildcard.matches_gap_iff_later, Wildcard.later_cons,
          ← Wildcard.matches_gap_iff_later, matches_stepTail_of_head hnext h1 isdir hname xs]
        constructor
        · rintro (⟨T', hmem, hm⟩ | ⟨hskip, hm⟩)
          · exact ⟨T', (mem_stepTail_recursive h1).mpr (.inr hmem), hm⟩
          · -- the entry is a directory, since something of the path is behind it
            refine ⟨_, (mem_stepTail_recursive h1).mpr (.inl ⟨hdir.mpr ⟨hskip, ?_⟩, rfl⟩), hm⟩
            rw [List.append_cons] at hex
            refine hex.dir fun hnil => ?_
            cases hslash : slash with
            | true => rfl
            | false =>
                rw [hnil] at hm
                have hnil' := (matches_tailItems_nil (.recursive h1 h2 hnext)).mp hm
                rw [hslash] at hnil'
                exact absurd hnil' h2
        · rintro ⟨T', hmem, hm⟩
          rcases (mem_stepTail_recursive h1).mp hmem with ⟨htrue, rfl⟩ | hmem
          · exact .inr ⟨(hdir.mp htrue).1, hm⟩
          · exact .inl ⟨T', hmem, hm⟩
    | matchAll _ => simp at hrec
    | matchDir _ => simp at hrec
    | plain _ _ _ _ _ => simp at hrec
    | magical _ _ => simp at hrec
  · exact matches_stepTail_of_head hT hrec isdir hname xs

/-- The tails after an entry are tails, and are not longer. -/
theorem tail_of_mem_stepTail {T T' : List GlobPattern} (hT : Tail fl slash T) {isdir : Bool}
    {name : List UInt8} (h : T' ∈ stepTail fl isdir name T) :
    Tail fl slash T' ∧ T'.length ≤ T.length := by
  have hother : ∀ {T T' : List GlobPattern}, Tail fl slash T → T.head? ≠ some .recursive →
      T' ∈ stepTail fl isdir name T → Tail fl slash T' ∧ T'.length < T.length := by
    intro T T' hT hrec h
    cases hT with
    | matchAll _ => simp [stepTail, newTails, afterRecursion] at h
    | matchDir _ => simp [stepTail, newTails, afterRecursion] at h
    | plain _ _ _ _ hnext =>
        simp [stepTail, newTails, afterRecursion] at h
        rw [h.2]
        exact ⟨hnext, by simp⟩
    | magical _ hnext =>
        simp [stepTail, newTails, afterRecursion] at h
        rw [h.2]
        exact ⟨hnext, by simp⟩
    | recursive _ _ _ => exact absurd rfl hrec
  by_cases hrec : T.head? = some .recursive
  · cases hT with
    | recursive h1 h2 hnext =>
        rcases (mem_stepTail_recursive h1).mp h with ⟨-, rfl⟩ | hmem
        · exact ⟨.recursive h1 h2 hnext, Nat.le_refl _⟩
        · obtain ⟨htail, hlt⟩ := hother hnext h1 hmem
          exact ⟨htail, by rw [List.length_cons]; omega⟩
    | matchAll _ => simp at hrec
    | matchDir _ => simp at hrec
    | plain _ _ _ _ _ => simp at hrec
    | magical _ _ => simp at hrec
  · obtain ⟨htail, hlt⟩ := hother hT hrec h
    exact ⟨htail, hlt.le⟩

/-- Tails of the list of a pattern that are not longer than `m`. -/
def Tails (fl : Flags) (slash : Bool) (m : ℕ) (tails : List (List GlobPattern)) : Prop :=
  ∀ T ∈ tails, Tail fl slash T ∧ T.length ≤ m

theorem Tails.newTails {m : ℕ} {tails : List (List GlobPattern)} (h : Tails fl slash m tails)
    (isdir : Bool) (name : List UInt8) : Tails fl slash m (newTails fl tails isdir name) := by
  intro T' hT'
  obtain ⟨T, hT, hstep⟩ := mem_newTails.mp hT'
  obtain ⟨htail, hle⟩ := tail_of_mem_stepTail (h T hT).1 hstep
  exact ⟨htail, hle.trans (h T hT).2⟩

/-! ## Plain patterns -/

/-- A plain pattern is as it should be. -/
def PlainOk (fl : Flags) (slash : Bool) (q : List UInt8 × List GlobPattern) : Prop :=
  Tail fl slash (.plain q.1 :: q.2)

theorem PlainOk.elementMatches_iff {q : List UInt8 × List GlobPattern} (h : PlainOk fl slash q)
    {name : List UInt8} :
    ElementMatches (dotRule fl) fl.casefold (pieces fl.escape true q.1).1 name ↔
      name = plainName fl q.1 := by
  cases h with
  | plain hmagic hgood htext _ _ =>
      obtain ⟨hpieces, -, halpha⟩ := pieces_plain hmagic hgood htext
      rw [hpieces, elementMatches_literals halpha]

theorem PlainOk.fnmatches_iff {q : List UInt8 × List GlobPattern} (h : PlainOk fl slash q)
    {name : List UInt8} (hname : 47 ∉ name) :
    fnmatches fl q.1 name = true ↔ name = plainName fl q.1 := by
  rw [← h.elementMatches_iff]
  cases h with
  | plain _ _ htext _ _ => exact MacRuby.Dir.fnmatches_iff htext hname

theorem PlainOk.name {q : List UInt8 × List GlobPattern} (h : PlainOk fl slash q) :
    plainName fl q.1 ≠ [] ∧ 47 ∉ plainName fl q.1 := by
  cases h with
  | plain hmagic hgood htext hne _ => exact ⟨hne, (pieces_plain hmagic hgood htext).2.1⟩

/-- The plain patterns are grouped by their names. -/
theorem plainGroups_spec {n : ℕ} {qs : List (List UInt8 × List GlobPattern)} (hn : qs.length ≤ n)
    (hqs : ∀ q ∈ qs, PlainOk fl slash q) :
    ((plainGroups fl n qs).map Prod.fst).Nodup ∧
      (∀ g ∈ plainGroups fl n qs, ∃ q ∈ qs, g.1 = plainName fl q.1) ∧
      ∀ name next, (∃ g ∈ plainGroups fl n qs, g.1 = name ∧ next ∈ g.2) ↔
        ∃ str, (str, next) ∈ qs ∧ plainName fl str = name := by
  induction n generalizing qs with
  | zero =>
      obtain rfl : qs = [] := List.eq_nil_of_length_eq_zero (by omega)
      simp [plainGroups]
  | succ n ih =>
      cases qs with
      | nil => simp [plainGroups]
      | cons q qs =>
          obtain ⟨str, next⟩ := q
          have hstr := hqs (str, next) (by simp)
          have hslash := hstr.name.2
          have hmatch : ∀ q ∈ qs, fnmatches fl q.1 (plainName fl str) = true ↔
              plainName fl str = plainName fl q.1 :=
            fun q hq => (hqs q (by simp [hq])).fnmatches_iff hslash
          set rest := qs.filter fun q => !fnmatches fl q.1 (plainName fl str) with hrest
          have hmem : ∀ q, q ∈ rest ↔ q ∈ qs ∧ plainName fl str ≠ plainName fl q.1 := by
            intro q
            rw [hrest, List.mem_filter]
            refine and_congr_right fun hq => ?_
            rw [ne_eq, ← hmatch q hq]
            simp
          have hlen : rest.length ≤ n := by
            have : rest.length ≤ qs.length := List.length_filter_le ..
            rw [List.length_cons] at hn
            omega
          obtain ⟨hnodup, hnames, hgroups⟩ := ih hlen fun q hq =>
            hqs q (by simp [((hmem q).mp hq).1])
          have hcons : plainGroups fl (n + 1) ((str, next) :: qs) = (plainName fl str,
              next :: (qs.filter fun q => fnmatches fl q.1 (plainName fl str)).map Prod.snd) ::
                plainGroups fl n rest := rfl
          rw [hcons]
          refine ⟨?_, ?_, ?_⟩
          · rw [List.map_cons, List.nodup_cons]
            refine ⟨?_, hnodup⟩
            intro h
            obtain ⟨g, hg, hgname⟩ := List.mem_map.mp h
            obtain ⟨q, hq, hqname⟩ := hnames g hg
            exact ((hmem q).mp hq).2 (hgname.symm.trans hqname)
          · intro g hg
            rcases List.mem_cons.mp hg with rfl | hg
            · exact ⟨(str, next), by simp, rfl⟩
            · obtain ⟨q, hq, hqname⟩ := hnames g hg
              exact ⟨q, by simp [((hmem q).mp hq).1], hqname⟩
          · intro name next'
            simp only [List.mem_cons, exists_eq_or_imp, hgroups, List.mem_map, List.mem_filter,
              Prod.exists, exists_eq_right, hmem]
            constructor
            · rintro (⟨rfl, rfl | ⟨str', hq, hfn⟩⟩ | ⟨str', ⟨hq, -⟩, hname⟩)
              · exact ⟨str, .inl rfl, rfl⟩
              · exact ⟨str', .inr hq, ((hmatch _ hq).mp hfn).symm⟩
              · exact ⟨str', .inr hq, hname⟩
            · rintro ⟨str', heq | hq, rfl⟩
              · cases heq
                exact .inl ⟨rfl, .inl rfl⟩
              · by_cases hname : plainName fl str = plainName fl str'
                · exact .inl ⟨hname, .inr ⟨str', hq, (hmatch _ hq).mpr hname⟩⟩
                · exact .inr ⟨str', ⟨hq, hname⟩, rfl⟩

/-! ## Walks -/

namespace Walk

/-- The walk ended with status 0 and called its function once with each of these, and with no
other. -/
structure Visits (w : Walk) (P : List UInt8 → Prop) : Prop where
  status : w.status = .ok
  nodup : w.calls.Nodup
  mem : ∀ out, out ∈ w.calls ↔ P out

theorem visits_done {P : List UInt8 → Prop} (hP : ∀ out, ¬ P out) : done.Visits P :=
  ⟨rfl, List.nodup_nil, fun out => by simp [done, hP out]⟩

/-- A call under a condition. -/
theorem visits_call {func : List UInt8 → ℤ} (hfunc : ∀ path, func path = 0) (path : List UInt8)
    (p : Prop) [Decidable p] :
    (if p then globCallFunc func path else done).Visits fun out => p ∧ out = path := by
  split_ifs with hp
  · exact ⟨by simp [globCallFunc, hfunc], by simp [globCallFunc], by simp [globCallFunc, hp]⟩
  · exact visits_done (by simp [hp])

theorem Visits.congr {w : Walk} {P Q : List UInt8 → Prop} (h : w.Visits P)
    (hPQ : ∀ out, P out ↔ Q out) : w.Visits Q :=
  ⟨h.status, h.nodup, fun out => (h.mem out).trans (hPQ out)⟩

/-- One walk after another. -/
theorem Visits.andThen {w k : Walk} {P Q : List UInt8 → Prop} (hw : w.Visits P) (hk : k.Visits Q)
    (hdisj : ∀ out, P out → ¬ Q out) : (w.andThen k).Visits fun out => P out ∨ Q out := by
  rw [Walk.andThen, if_pos hw.status]
  refine ⟨hk.status, ?_, ?_⟩
  · refine List.nodup_append.mpr ⟨hw.nodup, hk.nodup, ?_⟩
    rintro out hout _ hout' rfl
    exact hdisj out ((hw.mem out).mp hout) ((hk.mem out).mp hout')
  · intro out
    rw [List.mem_append, hw.mem, hk.mem]

/-- Walks in a loop. -/
theorem visits_all {ι : Type} {f : ι → Walk} {P : ι → List UInt8 → Prop} {xs : List ι}
    (hf : ∀ x ∈ xs, (f x).Visits (P x))
    (hdisj : xs.Pairwise fun x y => ∀ out, P x out → ¬ P y out) :
    (all (xs.map f)).Visits fun out => ∃ x ∈ xs, P x out := by
  induction xs with
  | nil => exact visits_done (by simp)
  | cons x xs ih =>
      obtain ⟨hx, hxs⟩ := List.pairwise_cons.mp hdisj
      have hrest := ih (fun y hy => hf y (by simp [hy])) hxs
      refine ((hf x (by simp)).andThen hrest ?_).congr ?_
      · rintro out hout ⟨y, hy, hout'⟩
        exact hx y hy out hout hout'
      · intro out
        simp

end Walk

/-! ## What the walk has to report -/

/-- A path as the function gets it. -/
def reported (slash : Bool) (ns : List (List UInt8)) : List UInt8 :=
  pathString ns ++ if slash then [47] else []

theorem reported_inj {as bs : List (List UInt8)} (ha : Names as) (hb : Names bs) (hane : as ≠ [])
    (hbne : bs ≠ []) (h : reported slash as = reported slash bs) : as = bs := by
  have hpath : pathString as = pathString bs := List.append_cancel_right h
  rw [← splitOn_pathString ha hane, hpath, splitOn_pathString hb hbne]

/-- The path below `ns` along `xs` is there, and one of the tails matches it. -/
def Found (t : Tree) (fl : Flags) (slash : Bool) (tails : List (List GlobPattern))
    (ns xs : List (List UInt8)) : Prop :=
  (∃ T ∈ tails, Wildcard.Matches (dotRule fl).skips (tailItems fl T) xs) ∧ Exists t slash (ns ++ xs)

/-- The walk at `ns` has to call its function with the path `out`. -/
def Reports (t : Tree) (fl : Flags) (slash : Bool) (tails : List (List GlobPattern))
    (ns : List (List UInt8)) (out : List UInt8) : Prop :=
  ∃ xs, ns ++ xs ≠ [] ∧ Found t fl slash tails ns xs ∧ out = reported slash (ns ++ xs)

variable {tails : List (List GlobPattern)} {ns : List (List UInt8)}

theorem Found.names {xs : List (List UInt8)} (h : Found t fl slash tails ns xs) :
    Names (ns ++ xs) :=
  names_of_isSome h.2.isSome

/-- Different entries lead to different paths. -/
theorem Reports.entry_eq {tails' : List (List GlobPattern)} {x y : List UInt8} {out : List UInt8}
    (hx : Reports t fl slash tails (ns ++ [x]) out)
    (hy : Reports t fl slash tails' (ns ++ [y]) out) : x = y := by
  obtain ⟨xs, hxne, hxf, rfl⟩ := hx
  obtain ⟨ys, hyne, hyf, heq⟩ := hy
  have h := reported_inj hxf.names hyf.names hxne hyne heq
  simp only [List.append_assoc, List.append_cancel_left_eq, List.singleton_append,
    List.cons.injEq] at h
  exact h.1

/-! ## The path itself -/

/-- One of the tails goes on with `g`. -/
def hasHead (tails : List (List GlobPattern)) (g : GlobPattern) : Bool :=
  (tails.map fun p => (afterRecursion p).head?).any fun h => h = some g

/-- What is known of a path after the lookups of `glob_helper`. -/
def answers (t : Tree) (path : List UInt8) (matchAll matchDir : Bool) (exist isdir : Answer3) :
    Answer3 × Answer3 :=
  let a : Answer3 × Answer3 :=
    if path ≠ [] ∧ matchAll ∧ exist = .unknown then
      match t.lstat path with
      | some _ => (.yes, .yes)
      | none => (.no, .no)
    else (exist, isdir)
  if path ≠ [] ∧ matchDir ∧ a.2 = .unknown then
    match t.lstat path with
    | some true => (.yes, .yes)
    | some false => (.yes, .no)
    | none => (.no, .no)
  else a

/-- The calls for the path itself. -/
def ownCalls (func : List UInt8 → ℤ) (path : List UInt8) (dirsep matchAll matchDir : Bool)
    (a : Answer3 × Answer3) : Walk :=
  (if path ≠ [] ∧ matchAll ∧ a.1 = .yes then globCallFunc func path else .done).andThen
    (if path ≠ [] ∧ matchDir ∧ a.2 = .yes then globCallFunc func (joinPath path dirsep [])
      else .done)

/-- What `exist` and `isdir` say of a path is so. -/
structure Known (t : Tree) (ns : List (List UInt8)) (exist isdir : Answer3) : Prop where
  exist_ne : exist ≠ .no
  exist_yes : exist = .yes → (t.kind ns).isSome = true
  isdir_yes : isdir = .yes → t.kind ns = some true
  isdir_no : isdir = .no → t.kind ns ≠ some true

variable {exist isdir : Answer3}

/-- Without a final separator the lookup tells whether the path is there. -/
theorem answers_matchAll (hns : Names ns) (hk : Known t ns exist isdir) (here : Bool) :
    let a := answers t (pathString ns) here false exist isdir
    (ns ≠ [] → here = true → (a.1 = .yes ↔ (t.kind ns).isSome = true)) ∧
      (a.1 = .no ∨ a.2 = .no → t.kind ns ≠ some true) := by
  have hkept : ∀ {b : Bool}, (¬ (b = true ∧ exist = .unknown)) →
      (b = true → (exist = .yes ↔ (t.kind ns).isSome = true)) ∧
        (exist = .no ∨ isdir = .no → t.kind ns ≠ some true) := by
    intro b hb
    refine ⟨fun htrue => ?_, fun h => hk.isdir_no (h.resolve_left hk.exist_ne)⟩
    cases hexist : exist with
    | yes => exact iff_of_true rfl (hk.exist_yes hexist)
    | no => exact absurd hexist hk.exist_ne
    | unknown => exact absurd ⟨htrue, hexist⟩ hb
  by_cases hne : ns = []
  · subst hne
    have hnil : pathString [] = [] := rfl
    have := hkept (b := false) (by simp)
    simpa [answers, hnil] using this.2
  · have hpath := pathString_ne_nil hns hne
    by_cases hlook : here = true ∧ exist = .unknown
    · cases hkind : t.kind ns <;>
        simp [answers, hpath, hlook, lstat_pathString hns hne, hkind]
    · have := hkept hlook
      simp only [answers, hpath, ne_eq, not_false_iff, true_and, if_neg hlook, Bool.false_eq_true,
        false_and, if_false]
      exact ⟨fun _ => this.1, this.2⟩

/-- With a final separator the lookup tells whether the path is a directory. -/
theorem answers_matchDir (hns : Names ns) (hk : Known t ns exist isdir) (here : Bool) :
    let a := answers t (pathString ns) false here exist isdir
    (ns ≠ [] → here = true → (a.2 = .yes ↔ t.kind ns = some true)) ∧
      (a.1 = .no ∨ a.2 = .no → t.kind ns ≠ some true) := by
  have hkept : ∀ {b : Bool}, (¬ (b = true ∧ isdir = .unknown)) →
      (b = true → (isdir = .yes ↔ t.kind ns = some true)) ∧
        (exist = .no ∨ isdir = .no → t.kind ns ≠ some true) := by
    intro b hb
    refine ⟨fun htrue => ?_, fun h => hk.isdir_no (h.resolve_left hk.exist_ne)⟩
    cases hisdir : isdir with
    | yes => exact iff_of_true rfl (hk.isdir_yes hisdir)
    | no => exact iff_of_false nofun (hk.isdir_no hisdir)
    | unknown => exact absurd ⟨htrue, hisdir⟩ hb
  by_cases hne : ns = []
  · subst hne
    have hnil : pathString [] = [] := rfl
    have := hkept (b := false) (by simp)
    simpa [answers, hnil] using this.2
  · have hpath := pathString_ne_nil hns hne
    by_cases hlook : here = true ∧ isdir = .unknown
    · rcases hkind : t.kind ns with _ | _ | _ <;>
        simp [answers, hpath, hlook, lstat_pathString hns hne, hkind]
    · have := hkept hlook
      simp only [answers, hpath, ne_eq, not_false_iff, true_and, if_neg hlook, Bool.false_eq_true,
        false_and, if_false]
      exact ⟨fun _ => this.1, this.2⟩

/-- **The path itself is reported** when a tail ends there. -/
theorem visits_ownCalls {func : List UInt8 → ℤ} (hfunc : ∀ path, func path = 0) (hns : Names ns)
    (htails : ∀ T ∈ tails, Tail fl slash T) (hk : Known t ns exist isdir) :
    let a := answers t (pathString ns) (hasHead tails .matchAll) (hasHead tails .matchDir)
      exist isdir
    (ownCalls func (pathString ns) (decide (ns ≠ [])) (hasHead tails .matchAll)
        (hasHead tails .matchDir) a).Visits
        (fun out => ns ≠ [] ∧ Found t fl slash tails ns [] ∧ out = reported slash ns) ∧
      (a.1 = .no ∨ a.2 = .no → t.kind ns ≠ some true) := by
  have hhere : hasHead tails (marker slash) = true ↔
      ∃ T ∈ tails, Wildcard.Matches (dotRule fl).skips (tailItems fl T) [] := by
    rw [hasHead, List.any_map, List.any_eq_true]
    refine exists_congr fun T => and_congr_right fun hT => ?_
    rw [matches_tailItems_nil (htails T hT)]
    simp
  have hother : hasHead tails (marker !slash) = false := by
    rw [hasHead, List.any_map, List.any_eq_false]
    intro T hT
    simpa using head_ne_marker (htails T hT)
  have hempty : ns = [] → pathString ns = [] := by
    rintro rfl
    rfl
  cases slash with
  | false =>
      simp only [marker, Bool.not_false, if_true, Bool.false_eq_true, if_false] at hhere hother
      obtain ⟨hyes, hno⟩ := answers_matchAll hns hk (hasHead tails .matchAll)
      rw [hother]
      refine ⟨?_, hno⟩
      set a := answers t (pathString ns) (hasHead tails .matchAll) false exist isdir
      have hcond : (pathString ns ≠ [] ∧ hasHead tails .matchAll = true ∧ a.1 = .yes) ↔
          ns ≠ [] ∧ Found t fl false tails ns [] := by
        rw [Found, ← hhere, Exists, List.append_nil, if_neg (by simp)]
        constructor
        · rintro ⟨hpath, hmatch, ha⟩
          have hne : ns ≠ [] := fun h => hpath (hempty h)
          exact ⟨hne, hmatch, (hyes hne hmatch).mp ha⟩
        · rintro ⟨hne, hmatch, hsome⟩
          exact ⟨pathString_ne_nil hns hne, hmatch, (hyes hne hmatch).mpr hsome⟩
      refine ((Walk.visits_call hfunc _ _).andThen (Walk.visits_call hfunc _ _) ?_).congr ?_
      · rintro out - ⟨⟨-, hfalse, -⟩, -⟩
        cases hfalse
      · intro out
        rw [hcond]
        simp [reported, and_assoc]
  | true =>
      simp only [marker, Bool.not_true, if_true, Bool.false_eq_true, if_false] at hhere hother
      obtain ⟨hyes, hno⟩ := answers_matchDir hns hk (hasHead tails .matchDir)
      rw [hother]
      refine ⟨?_, hno⟩
      set a := answers t (pathString ns) false (hasHead tails .matchDir) exist isdir
      have hcond : (pathString ns ≠ [] ∧ hasHead tails .matchDir = true ∧ a.2 = .yes) ↔
          ns ≠ [] ∧ Found t fl true tails ns [] := by
        rw [Found, ← hhere, Exists, List.append_nil, if_pos rfl]
        constructor
        · rintro ⟨hpath, hmatch, ha⟩
          have hne : ns ≠ [] := fun h => hpath (hempty h)
          exact ⟨hne, hmatch, (hyes hne hmatch).mp ha⟩
        · rintro ⟨hne, hmatch, hdir⟩
          exact ⟨pathString_ne_nil hns hne, hmatch, (hyes hne hmatch).mpr hdir⟩
      refine ((Walk.visits_call hfunc _ _).andThen (Walk.visits_call hfunc _ _) ?_).congr ?_
      · rintro out ⟨⟨-, hfalse, -⟩, -⟩
        cases hfalse
      · intro out
        rw [hcond]
        by_cases hne : ns = []
        · simp [hne]
        · simp [reported, joinPath, hne]

/-! ## What is below the path -/

/-- The walk has to report the path `out`, that is below `ns`. -/
def ReportsBelow (t : Tree) (fl : Flags) (slash : Bool) (tails : List (List GlobPattern))
    (ns : List (List UInt8)) (out : List UInt8) : Prop :=
  ∃ x xs, Found t fl slash tails ns (x :: xs) ∧ out = reported slash (ns ++ x :: xs)

theorem reports_iff {out : List UInt8} : Reports t fl slash tails ns out ↔
    (ns ≠ [] ∧ Found t fl slash tails ns [] ∧ out = reported slash ns) ∨
      ReportsBelow t fl slash tails ns out := by
  constructor
  · rintro ⟨xs, hne, hfound, hout⟩
    cases xs with
    | nil => exact .inl ⟨by simpa using hne, hfound, by simpa using hout⟩
    | cons x xs => exact .inr ⟨x, xs, hfound, hout⟩
  · rintro (⟨hne, hfound, hout⟩ | ⟨x, xs, hfound, hout⟩)
    · exact ⟨[], by simpa using hne, hfound, by simpa using hout⟩
    · exact ⟨x :: xs, by simp, hfound, hout⟩

/-- Nothing is below a path that is no directory. -/
theorem not_reportsBelow (hkind : t.kind ns ≠ some true) (out : List UInt8) :
    ¬ ReportsBelow t fl slash tails ns out := by
  rintro ⟨x, xs, hfound, -⟩
  exact hkind (kind_of_isSome_append hfound.2.isSome (by simp))

/-- What is below a path is reported below one of its entries. -/
theorem reportsBelow_iff_entries (htails : ∀ T ∈ tails, Tail fl slash T) {isdir : List UInt8 → Bool}
    (hisdir : ∀ name ∈ t.entries ns, (tails.any fun p => p.head? = some .recursive) = true →
      (isdir name = true ↔ (dotRule fl).skips name ∧ t.kind (ns ++ [name]) = some true))
    {out : List UInt8} : ReportsBelow t fl slash tails ns out ↔
      ∃ name ∈ t.entries ns,
        Reports t fl slash (newTails fl tails (isdir name) name) (ns ++ [name]) out := by
  have hstep : ∀ {name : List UInt8} {xs : List (List UInt8)}, name ∈ t.entries ns →
      (Found t fl slash tails ns (name :: xs) ↔
        Found t fl slash (newTails fl tails (isdir name) name) (ns ++ [name]) xs) := by
    intro name xs hname
    have hslash : 47 ∉ name := (t.name_ok ns name ((t.mem_entries ns name).mp hname).2).2.2.2.1
    rw [Found, Found, List.append_cons]
    refine and_congr_left fun hex => ?_
    rw [← List.append_cons] at hex
    simp only [mem_newTails]
    have hT : ∀ T ∈ tails, (Wildcard.Matches (dotRule fl).skips (tailItems fl T) (name :: xs) ↔
        ∃ T' ∈ stepTail fl (isdir name) name T,
          Wildcard.Matches (dotRule fl).skips (tailItems fl T') xs) := by
      intro T hT
      refine matches_stepTail (htails T hT) hslash (fun hrec => hisdir name hname ?_) hex
      exact List.any_eq_true.mpr ⟨T, hT, by simpa using hrec⟩
    constructor
    · rintro ⟨T, hmem, hm⟩
      obtain ⟨T', hT', hm'⟩ := (hT T hmem).mp hm
      exact ⟨T', ⟨T, hmem, hT'⟩, hm'⟩
    · rintro ⟨T', ⟨T, hmem, hT'⟩, hm'⟩
      exact ⟨T, hmem, (hT T hmem).mpr ⟨T', hT', hm'⟩⟩
  constructor
  · rintro ⟨x, xs, hfound, hout⟩
    have hsome : (t.kind (ns ++ x :: xs)).isSome = true := hfound.2.isSome
    have hx : x ∈ t.entries ns := by
      refine (t.mem_entries ns x).mpr ⟨kind_of_isSome_append hsome (by simp), ?_⟩
      rw [List.append_cons] at hsome
      by_cases hxs : xs = []
      · simpa [hxs] using hsome
      · rw [kind_of_isSome_append hsome hxs]
        rfl
    exact ⟨x, hx, xs, by simp, (hstep hx).mp hfound, by simpa using hout⟩
  · rintro ⟨x, hx, xs, -, hfound, hout⟩
    exact ⟨x, xs, (hstep hx).mpr hfound, by simpa using hout⟩

theorem mem_filterMap_plainTail {q : List UInt8 × List GlobPattern} :
    q ∈ tails.filterMap plainTail ↔ .plain q.1 :: q.2 ∈ tails := by
  rw [List.mem_filterMap]
  constructor
  · rintro ⟨T, hT, hq⟩
    rw [plainTail.eq_def] at hq
    split at hq
    · cases hq
      exact hT
    · cases hq
  · intro h
    exact ⟨_, h, rfl⟩

/-- Without `MAGICAL` and `RECURSIVE`, it is reported below one of the plain names. -/
theorem reportsBelow_iff_plain (htails : ∀ T ∈ tails, Tail fl slash T)
    (hplain : ∀ T ∈ tails, T.head? ≠ some .recursive ∧ ∀ str, T.head? ≠ some (.magical str))
    {out : List UInt8} : ReportsBelow t fl slash tails ns out ↔
      ∃ g ∈ plainGroups fl tails.length (tails.filterMap plainTail),
        Reports t fl slash g.2 (ns ++ [g.1]) out := by
  obtain ⟨-, -, hgroups⟩ := plainGroups_spec (List.length_filterMap_le plainTail tails)
    fun q hq => htails _ (mem_filterMap_plainTail.mp hq)
  have hfound : ∀ x xs, Found t fl slash tails ns (x :: xs) ↔
      ∃ g ∈ plainGroups fl tails.length (tails.filterMap plainTail),
        g.1 = x ∧ Found t fl slash g.2 (ns ++ [x]) xs := by
    intro x xs
    rw [Found, List.append_cons]
    constructor
    · rintro ⟨⟨T, hT, hm⟩, hex⟩
      cases htails T hT with
      | matchAll _ => simp [tailItems] at hm
      | matchDir _ => simp [tailItems] at hm
      | @plain str next _ _ _ _ _ =>
          rw [tailItems, Wildcard.matches_one_cons] at hm
          have hx := (PlainOk.elementMatches_iff (q := (str, next)) (htails _ hT)).mp hm.1
          obtain ⟨g, hg, hgname, hnext⟩ := (hgroups x next).mpr ⟨str,
            mem_filterMap_plainTail.mpr hT, hx.symm⟩
          exact ⟨g, hg, hgname, ⟨next, hnext, hm.2⟩, hex⟩
      | @magical str _ _ _ => exact absurd rfl ((hplain _ hT).2 str)
      | recursive _ _ _ => exact absurd rfl (hplain _ hT).1
    · rintro ⟨g, hg, hgname, ⟨next, hnext, hm⟩, hex⟩
      obtain ⟨str, hstr, hx⟩ := (hgroups x next).mp ⟨g, hg, hgname, hnext⟩
      have hT := mem_filterMap_plainTail.mp hstr
      refine ⟨⟨_, hT, ?_⟩, hex⟩
      rw [tailItems, Wildcard.matches_one_cons]
      exact ⟨(PlainOk.elementMatches_iff (q := (str, next)) (htails _ hT)).mpr hx.symm, hm⟩
  constructor
  · rintro ⟨x, xs, h, hout⟩
    obtain ⟨g, hg, rfl, h'⟩ := (hfound x xs).mp h
    exact ⟨g, hg, xs, by simp, h', by simpa using hout⟩
  · rintro ⟨g, hg, xs, -, h, hout⟩
    exact ⟨g.1, xs, (hfound _ _).mpr ⟨g, hg, rfl, h⟩, by simpa using hout⟩

/-! ## The walk -/

/-- Whether `glob_helper` finds an entry to be a directory; it looks only to recur into it. -/
def entryAnswer (fl : Flags) (t : Tree) (buf : List UInt8) (recursive : Bool) (name : List UInt8) :
    Answer3 :=
  if recursive ∧ name ≠ [46] ∧ name ≠ [46, 46] ∧ fnmatches fl [42] name then
    if t.lstat buf = some true then .yes else .no
  else .unknown

/-- What `glob_helper` does for an entry of a directory. -/
def entryWalk (fl : Flags) (t : Tree) (func : List UInt8 → ℤ) (n : ℕ) (path : List UInt8)
    (dirsep recursive : Bool) (tails : List (List GlobPattern)) (name : List UInt8) : Walk :=
  let buf := joinPath path dirsep name
  let isdir := entryAnswer fl t buf recursive name
  globHelper fl t func n buf true .yes isdir (newTails fl tails (isdir = .yes) name)

/-- The answer for an entry is right, and a `RECURSIVE` goes on where it may. -/
theorem entryAnswer_spec {name : List UInt8} (hname : name ∈ t.entries ns) (recursive : Bool) :
    let isdir := entryAnswer fl t (pathString (ns ++ [name])) recursive name
    Known t (ns ++ [name]) .yes isdir ∧ (recursive = true →
      (decide (isdir = .yes) = true ↔
        (dotRule fl).skips name ∧ t.kind (ns ++ [name]) = some true)) := by
  have hsome := ((t.mem_entries ns name).mp hname).2
  obtain ⟨-, hdot, hdots, hslash, -⟩ := t.name_ok ns name hsome
  have hlstat := lstat_pathString (t := t) (names_of_isSome hsome) (by simp)
  dsimp only
  rw [entryAnswer, hlstat]
  by_cases hrec : recursive = true ∧ fnmatches fl [42] name = true
  · rw [if_pos ⟨hrec.1, hdot, hdots, hrec.2⟩]
    have hskip := (fnmatches_star hslash).mp hrec.2
    split_ifs with hdir
    · exact ⟨⟨nofun, fun _ => hsome, fun _ => hdir, nofun⟩, by simp [hskip, hdir]⟩
    · exact ⟨⟨nofun, fun _ => hsome, nofun, fun _ => hdir⟩, by simp [hdir]⟩
  · rw [if_neg (fun h => hrec ⟨h.1, h.2.2.2⟩)]
    refine ⟨⟨nofun, fun _ => hsome, nofun, nofun⟩, fun htrue => ?_⟩
    rw [← fnmatches_star hslash]
    simp [show fnmatches fl [42] name = false by simpa [htrue] using hrec]

theorem globHelper_succ (func : List UInt8 → ℤ) (n : ℕ) (path : List UInt8) (dirsep : Bool)
    (exist isdir : Answer3) (tails : List (List GlobPattern)) :
    globHelper fl t func (n + 1) path dirsep exist isdir tails =
      let recursive := tails.any fun p => p.head? = some .recursive
      let heads := tails.map fun p => (afterRecursion p).head?
      let a := answers t path (hasHead tails .matchAll) (hasHead tails .matchDir) exist isdir
      (ownCalls func path dirsep (hasHead tails .matchAll) (hasHead tails .matchDir) a).andThen <|
        if a.1 = .no ∨ a.2 = .no then .done
        else if (heads.any fun h => h matches some (.magical _)) ∨ recursive then
          match t.readdir path with
          | none => .done
          | some names => Walk.all (names.map (entryWalk fl t func n path dirsep recursive tails))
        else if heads.any fun h => h matches some (.plain _) then
          Walk.all <| (plainGroups fl tails.length (tails.filterMap plainTail)).map fun g =>
            globHelper fl t func n (joinPath path dirsep g.1) true .unknown .unknown g.2
        else .done := rfl

/-- The plain names are walked with shorter tails. -/
theorem Tails.plainGroups {m : ℕ} (h : Tails fl slash m tails)
    {g : List UInt8 × List (List GlobPattern)}
    (hg : g ∈ plainGroups fl tails.length (tails.filterMap plainTail)) :
    Tails fl slash (m - 1) g.2 ∧ 1 < m ∧ g.1 ≠ [] ∧ 47 ∉ g.1 := by
  have hplain : ∀ q ∈ tails.filterMap plainTail, .plain q.1 :: q.2 ∈ tails :=
    fun q hq => mem_filterMap_plainTail.mp hq
  obtain ⟨-, hnames, hgroups⟩ := plainGroups_spec (List.length_filterMap_le plainTail tails)
    fun q hq => (h _ (hplain q hq)).1
  obtain ⟨q, hq, hname⟩ := hnames g hg
  have hq' := h _ (hplain q hq)
  refine ⟨?_, ?_, ?_⟩
  · intro next hnext
    obtain ⟨str, hstr, -⟩ := (hgroups g.1 next).mp ⟨g, hg, rfl, hnext⟩
    obtain ⟨htail, hle⟩ := h _ (hplain _ hstr)
    cases htail with
    | plain _ _ _ _ htail => exact ⟨htail, by simp only [List.length_cons] at hle; omega⟩
  · have hpos : 0 < q.2.length := by
      cases hq'.1 with
      | plain _ _ _ _ htail => exact List.length_pos_of_ne_nil htail.ne_nil
    have := hq'.2
    rw [List.length_cons] at this
    omega
  · rw [hname]
    exact PlainOk.name hq'.1

/-- What `glob_helper` finds out about the heads of the tails. -/
theorem plain_of_not_magical (h : ¬ (((tails.map fun p => (afterRecursion p).head?).any
      fun h => h matches some (.magical _)) = true ∨
        (tails.any fun p => p.head? = some .recursive) = true)) :
    ∀ T ∈ tails, T.head? ≠ some .recursive ∧ ∀ str, T.head? ≠ some (.magical str) := by
  intro T hT
  refine ⟨fun hrec => h (.inr (List.any_eq_true.mpr ⟨T, hT, by simpa using hrec⟩)), ?_⟩
  intro str hstr
  refine h (.inl (List.any_eq_true.mpr ⟨some (.magical str), List.mem_map.mpr ⟨T, hT, ?_⟩, rfl⟩))
  cases T with
  | nil => cases hstr
  | cons g T =>
      obtain rfl : g = .magical str := by simpa using hstr
      rfl

/-- **The walk reports what the tails match**, each path once. -/
theorem globHelper_spec {func : List UInt8 → ℤ} (hfunc : ∀ path, func path = 0) {n m : ℕ}
    (hm : 1 ≤ m) (hn : t.height + 1 - ns.length + m ≤ n) (hns : Names ns)
    (htails : Tails fl slash m tails) (hk : Known t ns exist isdir) :
    (globHelper fl t func n (pathString ns) (decide (ns ≠ [])) exist isdir tails).Visits
      (Reports t fl slash tails ns) := by
  induction n generalizing ns m tails exist isdir with
  | zero => omega
  | succ n ih =>
      have htail : ∀ T ∈ tails, Tail fl slash T := fun T hT => (htails T hT).1
      obtain ⟨hown, hno⟩ := visits_ownCalls hfunc hns htail hk
      rw [globHelper_succ]
      set a := answers t (pathString ns) (hasHead tails .matchAll) (hasHead tails .matchDir)
        exist isdir
      set recursive := tails.any fun p => p.head? = some .recursive with hrecursive
      dsimp only
      have hdirsep : ∀ name, true = decide (ns ++ [name] ≠ []) := by simp
      refine (hown.andThen (Q := ReportsBelow t fl slash tails ns) ?_ ?_).congr fun out =>
        reports_iff.symm
      · split_ifs with h1 h2 h3
        · exact Walk.visits_done (not_reportsBelow (hno h1))
        · rw [readdir_pathString hns]
          by_cases hkind : t.kind ns = some true
          · rw [if_pos hkind]
            refine (Walk.visits_all (P := fun name => Reports t fl slash (newTails fl tails
              (entryAnswer fl t (pathString (ns ++ [name])) recursive name = .yes) name)
              (ns ++ [name])) ?_ ?_).congr fun out => (reportsBelow_iff_entries htail ?_).symm
            · intro name hname
              have hsome := ((t.mem_entries ns name).mp hname).2
              have hdepth := t.length_le _ hsome
              rw [List.length_append, List.length_singleton] at hdepth
              rw [entryWalk, joinPath_pathString, hdirsep name]
              exact ih hm (by rw [List.length_append, List.length_singleton]; omega)
                (names_of_isSome hsome) (htails.newTails _ _) (entryAnswer_spec hname recursive).1
            · refine (t.nodup_entries ns).imp ?_
              intro x y hxy out hx hy
              exact hxy (hx.entry_eq hy)
            · intro name hname hrec
              exact (entryAnswer_spec hname recursive).2 hrec
          · rw [if_neg hkind]
            exact Walk.visits_done (not_reportsBelow hkind)
        · refine (Walk.visits_all (P := fun g => Reports t fl slash g.2 (ns ++ [g.1])) ?_ ?_).congr
            fun out => (reportsBelow_iff_plain htail (plain_of_not_magical h2)).symm
          · intro g hg
            obtain ⟨hshort, hlt, hname⟩ := htails.plainGroups hg
            have hnames : Names (ns ++ [g.1]) := by
              intro x hx
              rcases List.mem_append.mp hx with hx | hx
              · exact hns x hx
              · rw [List.mem_singleton.mp hx]
                exact hname
            rw [joinPath_pathString, hdirsep g.1]
            exact ih (by omega) (by rw [List.length_append, List.length_singleton]; omega) hnames
              hshort ⟨nofun, nofun, nofun, nofun⟩
          · have hnodup := (plainGroups_spec (List.length_filterMap_le plainTail tails)
              fun q hq => htail _ (mem_filterMap_plainTail.mp hq)).1
            refine (List.pairwise_map.mp hnodup).imp ?_
            intro g g' hne out hg hg'
            exact hne (hg.entry_eq hg')
        · refine Walk.visits_done fun out hout => ?_
          obtain ⟨g, hg, -⟩ := (reportsBelow_iff_plain htail (plain_of_not_magical h2)).mp hout
          obtain ⟨q, hq, -⟩ := (plainGroups_spec (List.length_filterMap_le plainTail tails)
            fun q hq => htail _ (mem_filterMap_plainTail.mp hq)).2.1 g hg
          refine h3 (List.any_eq_true.mpr ⟨some (.plain q.1), ?_, rfl⟩)
          exact List.mem_map.mpr ⟨_, mem_filterMap_plainTail.mp hq, rfl⟩
      · rintro out ⟨hne, hfound, hout⟩ ⟨x, xs, hfound', hout'⟩
        have hnames := hfound.names
        rw [List.append_nil] at hnames
        have := reported_inj hnames hfound'.names hne (by simp) (hout.symm.trans hout')
        simp at this

/-! ## Agreement -/

/-- A pattern without empty components does not begin with a separator. -/
theorem head_of_noEmptyComponents {escape : Bool} {p : List UInt8}
    (h : noEmptyComponents escape p = true) : p.head? ≠ some 47 := by
  intro hp
  cases p with
  | nil => cases hp
  | cons c p =>
      obtain rfl : c = 47 := by simpa using hp
      rw [noEmptyComponents_element rfl,
        pieces_ordinary _ _ (by decide) (by decide) (by decide) (by simp)] at h
      cases h

/-- The components of the pattern match those of the path. -/
theorem fnmatch_pathname_iff (fl : Flags) (p path : List UInt8) :
    fnmatch { fl with pathname := true } p path = some 0 ↔
      Wildcard.Matches (dotRule fl).skips (pathItems fl p) (path.splitOn 47) := by
  obtain ⟨r, hr, hr'⟩ := fnmatch_decides { fl with pathname := true } p path
  rw [hr, Option.some.injEq, hr']
  exact Iff.rfl

/-- The path that the walk has to report, for the whole pattern. -/
theorem reports_root_iff {T : List GlobPattern} {path : List UInt8} :
    Reports t fl slash [T] [] path ↔ ∃ ns, ns ≠ [] ∧ path = reported slash ns ∧
      Wildcard.Matches (dotRule fl).skips (tailItems fl T) ns ∧ Exists t slash ns := by
  simp only [Reports, Found, List.nil_append, List.mem_singleton, exists_eq_left]
  refine exists_congr fun ns => ?_
  tauto

/-- Without a final separator. -/
theorem reports_path_iff {T : List GlobPattern} {path : List UInt8} :
    Reports t fl false [T] [] path ↔ (t.lstat path).isSome = true ∧
      Wildcard.Matches (dotRule fl).skips (tailItems fl T) (path.splitOn 47) := by
  rw [reports_root_iff]
  constructor
  · rintro ⟨ns, hne, rfl, hm, hex⟩
    have hsplit := splitOn_pathString (names_of_isSome hex.isSome) hne
    rw [reported, if_neg (by simp), List.append_nil, Tree.lstat, hsplit]
    exact ⟨hex.isSome, hm⟩
  · rintro ⟨hsome, hm⟩
    refine ⟨path.splitOn 47, List.splitOn_ne_nil 47 path, ?_, hm, hsome⟩
    simp [reported, pathString]

/-- With a final separator. -/
theorem reports_dir_iff {T : List GlobPattern} {path : List UInt8} :
    Reports t fl true [T] [] path ↔ (∃ q, path = q ++ [47] ∧ t.lstat q = some true) ∧
      Wildcard.Matches (dotRule fl).skips (tailItems fl T ++ lastItem fl true)
        (path.splitOn 47) := by
  have hsplit : ∀ {ns : List (List UInt8)}, Names ns → ns ≠ [] →
      (pathString ns ++ [47]).splitOn 47 = ns ++ [[]] := by
    intro ns hns hne
    have hjoin := joinPath_pathString ns []
    rw [joinPath, if_pos (by simpa using hne), List.append_nil] at hjoin
    rw [hjoin]
    refine List.splitOn_intercalate 47 ?_ (by simp)
    intro n hn
    rcases List.mem_append.mp hn with hn | hn
    · exact (hns n hn).2
    · rw [List.mem_singleton.mp hn]
      simp
  have hlast : ∀ {ns : List (List UInt8)},
      Wildcard.Matches (dotRule fl).skips (tailItems fl T ++ lastItem fl true) (ns ++ [[]]) ↔
        Wildcard.Matches (dotRule fl).skips (tailItems fl T) ns := by
    intro ns
    rw [Wildcard.matches_append]
    constructor
    · rintro ⟨ys, zs, heq, hm, hm'⟩
      obtain ⟨x, ys', rfl, -, hnil⟩ := Wildcard.matches_one.mp hm'
      obtain rfl := Wildcard.matches_nil.mp hnil
      rwa [(List.append_inj' heq rfl).1]
    · intro hm
      refine ⟨ns, [[]], rfl, hm, .one ⟨.nil, ?_⟩ .nil⟩
      intro _ hdot
      cases hdot
  rw [reports_root_iff]
  constructor
  · rintro ⟨ns, hne, rfl, hm, hex⟩
    have hns := names_of_isSome hex.isSome
    rw [reported, if_pos rfl, hsplit hns hne, hlast]
    refine ⟨⟨pathString ns, rfl, ?_⟩, hm⟩
    rw [lstat_pathString hns hne]
    simpa [Exists] using hex
  · rintro ⟨⟨q, rfl, hq⟩, hm⟩
    have hne : q.splitOn 47 ≠ [] := List.splitOn_ne_nil 47 q
    have hpath : pathString (q.splitOn 47) = q := by simp [pathString]
    rw [Tree.lstat] at hq
    have hns : Names (q.splitOn 47) := names_of_isSome (by rw [hq]; rfl)
    rw [← hpath, hsplit hns hne, hlast] at hm
    refine ⟨q.splitOn 47, hne, ?_, hm, by simpa [Exists] using hq⟩
    rw [reported, if_pos rfl, hpath]

/-- **Globbing agrees with matching.** In every tree, for a pattern without empty components whose
backslashes escape no separator, nor a letter with `FNM_CASEFOLD`, the walk ends well, calls its
function once with each path that is there and that `fnmatch` matches, and with no other. -/
theorem rubyGlob0_agrees (t : Tree) (fl : Flags) {func : List UInt8 → ℤ}
    (hfunc : ∀ path, func path = 0) {p : List UInt8}
    (hempty : noEmptyComponents fl.escape p = true) (hgood : goodEscapes fl p = true) :
    (rubyGlob0 fl t func p).status = .ok ∧ (rubyGlob0 fl t func p).calls.Nodup ∧
      ∀ path, path ∈ (rubyGlob0 fl t func p).calls ↔
        (if p.getLast? = some 47 then ∃ q, path = q ++ [47] ∧ t.lstat q = some true
          else (t.lstat path).isSome = true) ∧
        fnmatch { fl with pathname := true } p path = some 0 := by
  have hhead := head_of_noEmptyComponents hempty
  have hcond : p = [] ∧ false = true ∨ noEmptyComponents fl.escape p = true := .inr hempty
  obtain ⟨slash, htail, hiff, hend⟩ := globMakeLoop_spec (n := p.length + 1) (by omega) hgood
    hcond
  have hwalk : (rubyGlob0 fl t func p).Visits (Reports t fl slash [globMakePattern fl p] []) := by
    rw [rubyGlob0, if_neg hhead, if_neg hhead]
    have hnames : Names [] := by simp [Names]
    have htails : Tails fl slash (globMakePattern fl p).length [globMakePattern fl p] := by
      intro T hT
      rw [List.mem_singleton.mp hT]
      exact ⟨htail, Nat.le_refl _⟩
    have hknown : Known t [] .unknown .unknown := ⟨nofun, nofun, nofun, nofun⟩
    refine globHelper_spec hfunc (List.length_pos_of_ne_nil htail.ne_nil) ?_ hnames htails hknown
    simp only [List.length_nil, globMakePattern]
    omega
  refine ⟨hwalk.status, hwalk.nodup, fun path => ?_⟩
  rw [hwalk.mem, fnmatch_pathname_iff, hiff]
  have hne : p ≠ [] := by
    rintro rfl
    rw [noEmptyComponents_element rfl] at hempty
    simp at hempty
  cases slash with
  | true =>
      rw [if_pos (hend.resolve_left hne)]
      exact reports_dir_iff
  | false =>
      have hitems : tailItems fl (globMakeLoop fl (p.length + 1) false p) ++ lastItem fl false
          = tailItems fl (globMakePattern fl p) := by
        simp [lastItem, globMakePattern]
      rw [hitems, reports_path_iff]
      by_cases hlast : p.getLast? = some 47
      · -- the slash is in a set, and nothing matches
        have hno := hend.2 hlast (path.splitOn 47)
        rw [hiff, hitems] at hno
        exact iff_of_false (fun h => hno h.2) (fun h => hno h.2)
      · rw [if_neg hlast]

/-- A directory `a` with a file `x`, and a file `A`. -/
def smallTree : Tree where
  kind ns :=
    if ns = [] ∨ ns = [[97]] then some true
    else if ns = [[97], [120]] ∨ ns = [[65]] then some false
    else none
  entries ns := if ns = [] then [[97], [65]] else if ns = [[97]] then [[120]] else []
  height := 2
  root := rfl
  mem_entries ns n := by
    rcases ns with _ | ⟨a, _ | ⟨b, ns⟩⟩
    · simp
      grind
    · by_cases ha : a = [97] <;> simp [ha]
    · simp
  nodup_entries ns := by
    split_ifs <;> decide
  parent ns n h := by
    rcases ns with _ | ⟨a, _ | ⟨b, ns⟩⟩
    · simp
    · by_cases ha : a = [97]
      · simp [ha]
      · simp [ha] at h
    · simp at h
  name_ok ns n h := by
    rcases ns with _ | ⟨a, _ | ⟨b, ns⟩⟩
    · simp at h
      have : n = [97] ∨ n = [65] := by grind
      rcases this with rfl | rfl <;> decide
    · have : n = [120] := by grind
      subst this
      decide
    · simp at h
  length_le ns h := by
    rcases ns with _ | ⟨a, _ | ⟨b, _ | ⟨c, ns⟩⟩⟩
    · simp
    · simp
    · simp
    · simp at h

/-- The pattern `**/*` in that tree finds `a/x`. -/
theorem rubyGlob0_agrees_smallTree :
    [97, 47, 120] ∈ (rubyGlob0 ⟨false, false, false, false⟩ smallTree (fun _ => 0)
      [42, 42, 47, 42]).calls :=
  ((rubyGlob0_agrees smallTree ⟨false, false, false, false⟩ (fun _ => rfl) (by decide +kernel)
    (by decide +kernel)).2.2 _).mpr ⟨by rw [if_neg (by decide)]; decide +kernel, by decide +kernel⟩

/-- The escapes matter. The pattern `a\/*` matches `a/x` and does not find it, since an escaped
slash is no separator for `find_dirsep`. With `FNM_CASEFOLD` the pattern `\a` matches `A` and does
not find it, since `has_magic` passes over an escaped letter. -/
theorem not_rubyGlob0_agrees :
    (noEmptyComponents true [97, 92, 47, 42] = true ∧ smallTree.lstat [97, 47, 120] = some false ∧
      fnmatch ⟨false, true, false, false⟩ [97, 92, 47, 42] [97, 47, 120] = some 0 ∧
      [97, 47, 120] ∉ (rubyGlob0 ⟨false, false, false, false⟩ smallTree (fun _ => 0)
        [97, 92, 47, 42]).calls) ∧
    noEmptyComponents true [92, 97] = true ∧ smallTree.lstat [65] = some false ∧
      fnmatch ⟨false, true, false, true⟩ [92, 97] [65] = some 0 ∧
      [65] ∉ (rubyGlob0 ⟨false, false, false, true⟩ smallTree (fun _ => 0) [92, 97]).calls := by
  decide +kernel

end MacRuby.Dir
