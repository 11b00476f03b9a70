import Mathlib.Data.Set.Card
import Mathlib.Data.Set.Finite.List

/-!
# Rejection sampling

An attempt reads words from the front of a list, and ends with a value or is given up; a draw makes
attempts until one of them ends with a value.  An attempt is even on a set of values if as many
tuples of words lead to one of them as to another, and a draw that makes even attempts is even too.

## Main definitions

* `Rejection.scan` — an attempt that is a loop over places, which may read a word at each.
* `Rejection.draw` — attempts until there is a value.
* `Rejection.Fair` — every value of a set is drawn, as often as any other, and no other value is.

## Main results

* `Rejection.scan_reads` — such a loop reads from the front.
* `Rejection.Fair.of_even` — even attempts make even draws.
* `Rejection.ncard_forall₂` — tuples that are chosen word by word are counted word by word.
* `Rejection.ncard_masked` — as many words have some masked bits as have others.
* `Rejection.Fair.of_masked` — attempts that mask their words are fair.
-/

namespace Rejection

universe u v w x

variable {ω : Type u} {α : Type v} {ε : Type w} {σ : Type x}

/-! ## Attempts -/

section Attempts

/-- The body of a loop goes on without a word, or reads one and goes on or gives up. -/
inductive Step (ω : Type u) (σ : Type x)
  | skip (s : σ)
  | read (f : ω → Option σ)

/-- The loop, with so many turns that are left: the state it ends in, unless it is given up, and the
words that follow. -/
def scan (short : ε) (body : ℕ → σ → Step ω σ) : ℕ → σ → List ω → Except ε (Option σ × List ω)
  | 0, s, ws => .ok (some s, ws)
  | i + 1, s, ws =>
      match body i s, ws with
      | .skip s, ws => scan short body i s ws
      | .read _, [] => .error short
      | .read f, w :: ws =>
          match f w with
          | some s => scan short body i s ws
          | none => .ok (none, ws)

/-- An attempt reads from the front: what follows the words that it reads does not matter. -/
def Reads (attempt : List ω → Except ε (Option α × List ω)) : Prop :=
  ∀ ws o rest, attempt ws = .ok (o, rest) →
    ∃ used, ws = used ++ rest ∧ ∀ t, attempt (used ++ t) = .ok (o, t)

variable {short : ε} {body : ℕ → σ → Step ω σ} {i : ℕ} {s s' : σ} {ws : List ω}

theorem scan_skip (h : body i s = .skip s') :
    scan short body (i + 1) s ws = scan short body i s' ws := by
  rw [scan.eq_def]
  simp only [h]

theorem scan_nil {f : ω → Option σ} (h : body i s = .read f) :
    scan short body (i + 1) s [] = .error short := by
  rw [scan.eq_def]
  simp only [h]

theorem scan_cons {f : ω → Option σ} {w : ω} (h : body i s = .read f) (hw : f w = some s') :
    scan short body (i + 1) s (w :: ws) = scan short body i s' ws := by
  rw [scan.eq_def]
  simp only [h, hw]

theorem scan_none {f : ω → Option σ} {w : ω} (h : body i s = .read f) (hw : f w = none) :
    scan short body (i + 1) s (w :: ws) = .ok (none, ws) := by
  rw [scan.eq_def]
  simp only [h, hw]

/-- **A loop reads from the front.** -/
theorem scan_reads (short : ε) (body : ℕ → σ → Step ω σ) (i : ℕ) (s : σ) :
    Reads (scan short body i s) := by
  induction i generalizing s with
  | zero =>
      intro ws o rest h
      cases h
      exact ⟨[], rfl, fun t => rfl⟩
  | succ i ih =>
      intro ws o rest h
      cases hbody : body i s with
      | skip s' =>
          rw [scan_skip hbody] at h
          obtain ⟨used, hws, hused⟩ := ih s' ws o rest h
          refine ⟨used, hws, fun t => ?_⟩
          rw [scan_skip hbody]
          exact hused t
      | read f =>
          cases ws with
          | nil =>
              rw [scan_nil hbody] at h
              cases h
          | cons w ws =>
              cases hw : f w with
              | none =>
                  rw [scan_none hbody hw] at h
                  cases h
                  exact ⟨[w], rfl, fun t => scan_none hbody hw⟩
              | some s' =>
                  rw [scan_cons hbody hw] at h
                  obtain ⟨used, hws, hused⟩ := ih s' ws o rest h
                  refine ⟨w :: used, by rw [hws, List.cons_append], fun t => ?_⟩
                  rw [List.cons_append, scan_cons hbody hw]
                  exact hused t

/-- What is made of a value does not read. -/
theorem Reads.map {β : Type*} {attempt : List ω → Except ε (Option α × List ω)} (h : Reads attempt)
    (g : α → β) : Reads fun ws => (attempt ws).map fun r => (r.1.map g, r.2) := by
  intro ws o rest heq
  cases hws : attempt ws with
  | error e =>
      simp only [hws, Except.map] at heq
      cases heq
  | ok r =>
      simp only [hws, Except.map] at heq
      cases heq
      obtain ⟨used, hused, hall⟩ := h ws r.1 r.2 hws
      refine ⟨used, hused, fun t => ?_⟩
      simp only [hall t, Except.map]

end Attempts

/-! ## Draws -/

section Draws

variable {attempt : List ω → Except ε (Option α × List ω)} {S : Set α} {a b : α}

/-- Attempts until one of them ends with a value, at most so many. -/
def draw (attempt : List ω → Except ε (Option α × List ω)) : ℕ → List ω → Option (α × List ω)
  | 0, _ => none
  | n + 1, ws =>
      match attempt ws with
      | .error _ => none
      | .ok (some a, rest) => some (a, rest)
      | .ok (none, rest) => draw attempt n rest

/-- The tuples of `k` words that an attempt reads to end with a value. -/
def tuples (attempt : List ω → Except ε (Option α × List ω)) (k : ℕ) (a : α) : Set (List ω) :=
  {ws | ws.length = k ∧ attempt ws = .ok (some a, [])}

/-- The tuples of `k` words that at most `n` attempts read until one ends with a value. -/
def drawTuples (attempt : List ω → Except ε (Option α × List ω)) (n k : ℕ) (a : α) :
    Set (List ω) :=
  {ws | ws.length = k ∧ draw attempt n ws = some (a, [])}

/-- **A fair draw.**  What is drawn is in the set; every value of it is what some words lead to; and
as many tuples of words lead to one value as to another, in one attempt and in a draw. -/
structure Fair (attempt : List ω → Except ε (Option α × List ω)) (S : Set α) : Prop where
  mem : ∀ n ws a rest, draw attempt n ws = some (a, rest) → a ∈ S
  produced : ∀ a ∈ S, ∃ k, (tuples attempt k a).Nonempty
  even : ∀ a ∈ S, ∀ b ∈ S, ∀ k, (tuples attempt k a).ncard = (tuples attempt k b).ncard
  uniform : ∀ a ∈ S, ∀ b ∈ S, ∀ n k,
    (drawTuples attempt n k a).ncard = (drawTuples attempt n k b).ncard

/-- A draw ends with the first attempt, or with a later one. -/
theorem draw_succ_iff {n : ℕ} {ws rest : List ω} :
    draw attempt (n + 1) ws = some (a, rest) ↔
      attempt ws = .ok (some a, rest) ∨
        ∃ ws', attempt ws = .ok (none, ws') ∧ draw attempt n ws' = some (a, rest) := by
  rw [draw]
  split <;> rename_i heq
  · simp [heq]
  · simp [heq]
  · simp [heq]

/-- What is drawn is what the last attempt ends with. -/
theorem exists_of_draw {n : ℕ} {ws rest : List ω} (h : draw attempt n ws = some (a, rest)) :
    ∃ ws', attempt ws' = .ok (some a, rest) := by
  induction n generalizing ws with
  | zero => cases h
  | succ n ih =>
      rcases draw_succ_iff.mp h with hfirst | ⟨ws', -, hlater⟩
      · exact ⟨ws, hfirst⟩
      · exact ih hlater

/-- The words of one value are taken to words of the other, one to one. -/
theorem exists_transfer [Finite ω]
    (heven : ∀ k, (tuples attempt k a).ncard ≤ (tuples attempt k b).ncard) :
    ∃ g : List ω → List ω, (∀ k, ∀ ws ∈ tuples attempt k a, g ws ∈ tuples attempt k b) ∧
      Set.InjOn g {ws | attempt ws = .ok (some a, [])} := by
  have hfinite : ∀ k c, (tuples attempt k c).Finite := by
    intro k c
    exact (List.finite_length_eq ω k).subset fun ws h => h.1
  have hle : ∀ k, (tuples attempt k a).encard ≤ (tuples attempt k b).encard := by
    intro k
    rw [← (hfinite k a).cast_ncard_eq, ← (hfinite k b).cast_ncard_eq]
    exact_mod_cast heven k
  choose g hmaps hinj using fun k => (hfinite k a).exists_injOn_of_encard_le (hle k)
  refine ⟨fun ws => g ws.length ws, ?_, ?_⟩
  · intro k ws h
    have hlen : ws.length = k := h.1
    have hmem : g k ws ∈ tuples attempt k b := hmaps k h
    simpa only [hlen] using hmem
  · intro ws h ws' h' heq
    have hws := hmaps ws.length (show ws ∈ tuples attempt ws.length a from ⟨rfl, h⟩)
    have hws' := hmaps ws'.length (show ws' ∈ tuples attempt ws'.length a from ⟨rfl, h'⟩)
    have hlen : ws.length = ws'.length := by
      dsimp only at heq
      rw [← hws.1, ← hws'.1, heq]
    refine hinj ws.length ⟨rfl, h⟩ ⟨hlen.symm, h'⟩ ?_
    dsimp only at heq
    rw [heq, hlen]

/-- The words of the first attempt are kept where it is given up, and what follows is taken over by
`f`; else all is by `g`. -/
def transfer (attempt : List ω → Except ε (Option α × List ω)) (g f : List ω → List ω)
    (ws : List ω) : List ω :=
  match attempt ws with
  | .ok (none, rest) => ws.take (ws.length - rest.length) ++ f rest
  | _ => g ws

/-- What is taken over is taken over through the attempts that are given up: they are kept. -/
theorem draw_transfer [Finite ω] (hreads : Reads attempt)
    (heven : ∀ k, (tuples attempt k a).ncard ≤ (tuples attempt k b).ncard) (n : ℕ) :
    ∃ f : List ω → List ω,
      (∀ k, ∀ ws ∈ drawTuples attempt n k a, f ws ∈ drawTuples attempt n k b) ∧
      Set.InjOn f {ws | draw attempt n ws = some (a, [])} := by
  obtain ⟨g, hg, hinj⟩ := exists_transfer heven
  induction n with
  | zero =>
      refine ⟨id, fun k ws h => ?_, fun ws h => ?_⟩
      · exact absurd h.2 (by simp [draw])
      · exact absurd h (by simp [draw])
  | succ n ih =>
      obtain ⟨f, hf, hfinj⟩ := ih
      let F : List ω → List ω := transfer attempt g f
      have hfirst : ∀ ws, attempt ws = .ok (some a, []) → F ws = g ws := by
        intro ws h
        simp only [F, transfer, h]
      have hlater : ∀ used rest, attempt (used ++ rest) = .ok (none, rest) →
          F (used ++ rest) = used ++ f rest := by
        intro used rest h
        simp [F, transfer, h]
      refine ⟨F, ?_, ?_⟩
      · intro k ws h
        rcases draw_succ_iff.mp h.2 with hws | ⟨rest, hws, hrest⟩
        · have hmem := hg k ws ⟨h.1, hws⟩
          rw [hfirst ws hws]
          exact ⟨hmem.1, draw_succ_iff.mpr (Or.inl hmem.2)⟩
        · obtain ⟨used, rfl, hused⟩ := hreads ws none rest hws
          have hmem := hf rest.length rest ⟨rfl, hrest⟩
          rw [hlater used rest hws]
          refine ⟨?_, draw_succ_iff.mpr (Or.inr ⟨f rest, hused _, hmem.2⟩)⟩
          rw [List.length_append, hmem.1, ← List.length_append]
          exact h.1
      · intro ws h ws' h' heq
        rcases draw_succ_iff.mp h with hws | ⟨rest, hws, hrest⟩
        · have hmem := (hg ws.length ws ⟨rfl, hws⟩).2
          rcases draw_succ_iff.mp h' with hws' | ⟨rest', hws', hrest'⟩
          · rw [hfirst ws hws, hfirst ws' hws'] at heq
            exact hinj hws hws' heq
          · obtain ⟨used', rfl, hused'⟩ := hreads ws' none rest' hws'
            rw [hfirst ws hws, hlater used' rest' hws'] at heq
            rw [heq, hused'] at hmem
            cases hmem
        · obtain ⟨used, rfl, hused⟩ := hreads ws none rest hws
          rcases draw_succ_iff.mp h' with hws' | ⟨rest', hws', hrest'⟩
          · have hmem := (hg ws'.length ws' ⟨rfl, hws'⟩).2
            rw [hfirst ws' hws', hlater used rest hws] at heq
            rw [← heq, hused] at hmem
            cases hmem
          · obtain ⟨used', rfl, hused'⟩ := hreads ws' none rest' hws'
            rw [hlater used rest hws, hlater used' rest' hws'] at heq
            have htail : f rest = f rest' := by
              have hboth := (hused (f rest)).symm.trans (heq ▸ hused' (f rest'))
              exact (Prod.ext_iff.mp (Except.ok.inj hboth)).2
            rw [htail] at heq
            rw [List.append_cancel_right heq, hfinj hrest hrest' htail]

/-- **Even attempts make even draws.** -/
theorem Fair.of_even [Finite ω] (hreads : Reads attempt)
    (hmem : ∀ ws a rest, attempt ws = .ok (some a, rest) → a ∈ S)
    (hproduced : ∀ a ∈ S, ∃ k, (tuples attempt k a).Nonempty)
    (heven : ∀ a ∈ S, ∀ b ∈ S, ∀ k, (tuples attempt k a).ncard = (tuples attempt k b).ncard) :
    Fair attempt S := by
  have hle : ∀ a ∈ S, ∀ b ∈ S, ∀ n k,
      (drawTuples attempt n k a).ncard ≤ (drawTuples attempt n k b).ncard := by
    intro a ha b hb n k
    obtain ⟨f, hf, hinj⟩ := draw_transfer hreads (fun k => (heven a ha b hb k).le) n
    refine Set.ncard_le_ncard_of_injOn f (hf k) (hinj.mono fun ws h => h.2) ?_
    exact (List.finite_length_eq ω k).subset fun ws h => h.1
  refine ⟨?_, hproduced, heven, ?_⟩
  · intro n ws a rest h
    obtain ⟨ws', h'⟩ := exists_of_draw h
    exact hmem ws' a rest h'
  · intro a ha b hb n k
    exact le_antisymm (hle a ha b hb n k) (hle b hb a ha n k)

end Draws

/-! ## Counting words -/

section Counting

/-- **Tuples that are chosen word by word are counted word by word.** -/
theorem ncard_forall₂ (P : ω → σ → Prop) (ss : List σ) :
    {ws | List.Forall₂ P ws ss}.ncard = (ss.map fun s => {w | P w s}.ncard).prod := by
  induction ss with
  | nil => simp
  | cons s ss ih =>
      have himage : {ws | List.Forall₂ P ws (s :: ss)} =
          (fun p : ω × List ω => p.1 :: p.2) '' ({w | P w s} ×ˢ {ws | List.Forall₂ P ws ss}) := by
        ext ws
        constructor
        · intro h
          cases h with
          | cons h1 h2 => exact ⟨(_, _), ⟨h1, h2⟩, rfl⟩
        · intro h
          obtain ⟨⟨w, ws⟩, ⟨h1, h2⟩, rfl⟩ := h
          exact .cons h1 h2
      have hinj : Function.Injective fun p : ω × List ω => p.1 :: p.2 := by
        intro p q h
        have hcons := List.cons.inj h
        exact Prod.ext hcons.1 hcons.2
      rw [himage, Set.ncard_image_of_injective _ hinj, Set.ncard_prod, ih, List.map_cons,
        List.prod_cons]

/-- A word is given other masked bits by changing those in which they differ. -/
theorem xor_masked {n : ℕ} {m d d' w : BitVec n} (h : d &&& m = d) (h' : d' &&& m = d')
    (hw : w &&& m = d) : (w ^^^ (d ^^^ d')) &&& m = d' := by
  ext i hi
  have hbit := congrArg (·[i]) h
  have hbit' := congrArg (·[i]) h'
  have hbitw := congrArg (·[i]) hw
  simp only [BitVec.getElem_and, BitVec.getElem_xor] at hbit hbit' hbitw ⊢
  cases hm : m[i] <;> simp_all

/-- **As many words have some masked bits as have others.** -/
theorem ncard_masked {n : ℕ} {m d d' : BitVec n} (h : d &&& m = d) (h' : d' &&& m = d') :
    {w | w &&& m = d}.ncard = {w | w &&& m = d'}.ncard := by
  have hself : ∀ w : BitVec n, w ^^^ (d ^^^ d') ^^^ (d ^^^ d') = w := by
    intro w
    rw [BitVec.xor_assoc, BitVec.xor_self, BitVec.xor_zero]
  have himage : {w | w &&& m = d'} = (fun w => w ^^^ (d ^^^ d')) '' {w | w &&& m = d} := by
    ext w
    constructor
    · intro hw
      refine ⟨w ^^^ (d ^^^ d'), ?_, hself w⟩
      rw [BitVec.xor_comm d d']
      exact xor_masked h' h hw
    · rintro ⟨w, hw, rfl⟩
      exact xor_masked h h' hw
  have hinj : Function.Injective fun w : BitVec n => w ^^^ (d ^^^ d') := by
    intro w w' heq
    dsimp only at heq
    rw [← hself w, heq, hself w']
  rw [himage, Set.ncard_image_of_injective _ hinj]

theorem finite_bitVec (n : ℕ) : Finite (BitVec n) :=
  Finite.of_injective BitVec.toFin fun _ _ h => BitVec.eq_of_toFin_eq h

/-- **Attempts that mask their words are fair**: if a value of the set is what an attempt ends with
exactly where the words have certain masked bits. -/
theorem Fair.of_masked {n : ℕ} {ι : Type x}
    {attempt : List (BitVec n) → Except ε (Option α × List (BitVec n))} {S : Set α} (ss : List ι)
    (m : ι → BitVec n) (d : α → ι → BitVec n) (hreads : Reads attempt)
    (hattempt : ∀ ws a rest, attempt ws = .ok (some a, rest) ↔ a ∈ S ∧
      ∃ used, ws = used ++ rest ∧ List.Forall₂ (fun w s => w &&& m s = d a s) used ss)
    (hd : ∀ a ∈ S, ∀ s ∈ ss, d a s &&& m s = d a s) : Fair attempt S := by
  have := finite_bitVec n
  have htuples : ∀ a ∈ S, ∀ k, tuples attempt k a =
      {ws | ws.length = k ∧ List.Forall₂ (fun w s => w &&& m s = d a s) ws ss} := by
    intro a ha k
    ext ws
    simp only [tuples, Set.mem_ofPred_eq, hattempt, ha, true_and, List.append_nil, exists_eq_left']
  apply Fair.of_even hreads
  · intro ws a rest h
    exact ((hattempt ws a rest).mp h).1
  · intro a ha
    refine ⟨ss.length, ss.map (d a), ?_⟩
    rw [htuples a ha]
    refine ⟨List.length_map _, ?_⟩
    rw [List.forall₂_map_left_iff, List.forall₂_same]
    exact hd a ha
  · intro a ha b hb k
    rw [htuples a ha, htuples b hb]
    by_cases hk : k = ss.length
    · have hall : ∀ c, {ws | ws.length = k ∧ List.Forall₂ (fun w s => w &&& m s = d c s) ws ss} =
          {ws | List.Forall₂ (fun w s => w &&& m s = d c s) ws ss} := by
        intro c
        ext ws
        exact ⟨fun h => h.2, fun h => ⟨hk ▸ h.length_eq, h⟩⟩
      have hcount : ∀ s ∈ ss, {w | w &&& m s = d a s}.ncard = {w | w &&& m s = d b s}.ncard :=
        fun s hs => ncard_masked (hd a ha s hs) (hd b hb s hs)
      rw [hall, hall, ncard_forall₂, ncard_forall₂, List.map_congr_left hcount]
    · have hnone : ∀ c, {ws | ws.length = k ∧ List.Forall₂ (fun w s => w &&& m s = d c s) ws ss} =
          ∅ := by
        intro c
        ext ws
        exact ⟨fun h => hk (h.1 ▸ h.2.length_eq), fun h => h.elim⟩
      rw [hnone, hnone]

end Counting

end Rejection
