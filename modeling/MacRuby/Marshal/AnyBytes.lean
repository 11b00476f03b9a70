import MacRuby.Marshal.Reads

/-!
# Loading any bytes

`Marshal.load` may be given any bytes. It comes to an end on all of them, since each object takes a
byte at least and an object inside of another begins after it; the pairs of a hash with a negative
length are read until the bytes are at an end. What it has made, if it does not raise, refers to
nothing but what it has made, and is no more than the bytes that it has read.

## Main definitions

* `Sane` — tables that refer to nothing but the objects in them.
* `Advances`, `Past` — how far a function has read, and what it has made.

## Main results

* `rType_ensures`, `rObject0_ensures` — what the functions do on any bytes.
* `marshalLoad_settles` — loading comes to an end, with what it has made.
-/

namespace MacRuby.Marshal

open Result (Ensures)

variable {κ F : Type} {L : LongSize} {enc : CFEncoding}

/-! ## Tables -/

section Tables

variable {d d' : List (Entry κ F L)} {v : Value κ L}

/-- If the value is an object, it has been made. -/
def Made (d : List (Entry κ F L)) (v : Value κ L) : Prop :=
  ∀ r, v = .object r → ∃ cell : Cell κ F L, d[r]? = some (.object cell)

/-- What an entry refers to. -/
def Entry.children : Entry κ F L → List (Value κ L)
  | .value v => [v]
  | .object cell => cell.children

/-- What is in the tables refers to objects that have been made. -/
def Sane (d : List (Entry κ F L)) : Prop := ∀ e ∈ d, ∀ v ∈ e.children, Made d v

/-- Objects stay where they are. -/
def Keeps (d d' : List (Entry κ F L)) : Prop :=
  ∀ (k : ℕ) (cell : Cell κ F L), d[k]? = some (.object cell) →
    ∃ cell' : Cell κ F L, d'[k]? = some (.object cell')

theorem Keeps.trans {d'' : List (Entry κ F L)} (h : Keeps d d') (h' : Keeps d' d'') :
    Keeps d d'' := by
  intro k cell hk
  obtain ⟨cell', hk'⟩ := h k cell hk
  exact h' k cell' hk'

theorem Made.mono (hv : Made d v) (h : Keeps d d') : Made d' v := by
  intro r hr
  obtain ⟨cell, hcell⟩ := hv r hr
  exact h r cell hcell

theorem keeps_concat (e : Entry κ F L) : Keeps d (d ++ [e]) := by
  intro k cell hk
  have hlt := (List.getElem?_eq_some_iff.mp hk).1
  exact ⟨cell, by rw [List.getElem?_append_left hlt, hk]⟩

theorem Sane.concat {e : Entry κ F L} (hd : Sane d) (he : ∀ v ∈ e.children, Made (d ++ [e]) v) :
    Sane (d ++ [e]) := by
  intro e' he' v hv
  rcases List.mem_append.mp he' with he' | he'
  · exact (hd e' he' v hv).mono (keeps_concat e)
  · rw [List.mem_singleton] at he'
    subst he'
    exact he v hv

/-- What has just been entered has been made. -/
theorem entry_made (d : List (Entry κ F L)) (cell : Cell κ F L) :
    Made (d ++ [.object cell]) (.object d.length) := by
  intro r hr
  cases hr
  exact ⟨cell, by simp⟩

theorem keeps_modify (k : ℕ) (f : Cell κ F L → Cell κ F L) :
    Keeps d (d.modify k (Entry.modify f)) := by
  intro j cell hj
  refine ⟨if k = j then f cell else cell, ?_⟩
  rw [List.getElem?_modify, hj]
  split <;> simp_all [Entry.modify]

/-- What is put into an object has been made. -/
theorem Sane.modify {k : ℕ} {f : Cell κ F L → Cell κ F L} (hd : Sane d)
    (hf : ∀ cell, ∀ v ∈ (f cell).children, v ∈ cell.children ∨ Made d v) :
    Sane (d.modify k (Entry.modify f)) := by
  intro e he v hv
  obtain ⟨j, hj⟩ := List.mem_iff_getElem?.mp he
  rw [List.getElem?_modify, Option.map_eq_map, Option.map_eq_some_iff] at hj
  obtain ⟨e', he', rfl⟩ := hj
  have hmem := List.mem_of_getElem? he'
  refine Made.mono ?_ (keeps_modify k f)
  split at hv
  · cases e' with
    | value w => exact hd _ hmem v hv
    | object cell => exact (hf cell v hv).elim (hd _ hmem v) id
  · exact hd _ hmem v hv

end Tables

/-! ## Progress -/

section Progress

variable {arg arg' arg'' : LoadArg κ F L}

/-- What is in the tables and what is left to read. -/
def LoadArg.size (arg : LoadArg κ F L) : ℕ :=
  arg.data.length + arg.symbols.length + arg.src.length

/-- A function has read some bytes and made no more than these. -/
structure Advances (arg arg' : LoadArg κ F L) : Prop where
  src : arg'.src <:+ arg.src
  keeps : Keeps arg.data arg'.data
  sane : Sane arg'.data
  size : arg'.size ≤ arg.size

/-- A function has read a byte at least, and made less than it has read. -/
structure Past (arg arg' : LoadArg κ F L) : Prop extends Advances arg arg' where
  length_lt : arg'.src.length < arg.src.length
  size_lt : arg'.size < arg.size

theorem Advances.refl (hs : Sane arg.data) : Advances arg arg where
  src := List.suffix_rfl
  keeps _ cell hk := ⟨cell, hk⟩
  sane := hs
  size := le_rfl

theorem Advances.length_le (h : Advances arg arg') : arg'.src.length ≤ arg.src.length :=
  h.src.length_le

theorem Advances.trans (h : Advances arg arg') (h' : Advances arg' arg'') : Advances arg arg'' where
  src := h'.src.trans h.src
  keeps := h.keeps.trans h'.keeps
  sane := h'.sane
  size := h'.size.trans h.size

theorem Past.trans (h : Past arg arg') (h' : Advances arg' arg'') : Past arg arg'' where
  toAdvances := h.toAdvances.trans h'
  length_lt := h'.length_le.trans_lt h.length_lt
  size_lt := h'.size.trans_lt h.size_lt

theorem Advances.past (h : Advances arg arg') (h' : Past arg' arg'') : Past arg arg'' where
  toAdvances := h.trans h'.toAdvances
  length_lt := h'.length_lt.trans_le h.length_le
  size_lt := h'.size_lt.trans_le h.size

/-- An object is entered. -/
theorem Past.entry (h : Past arg arg') (e : Entry κ F L)
    (he : ∀ v ∈ e.children, Made (arg'.data ++ [e]) v) :
    Advances arg { arg' with data := arg'.data ++ [e] } where
  src := h.src
  keeps := h.keeps.trans (keeps_concat e)
  sane := h.sane.concat he
  size := by
    have hlt := h.size_lt
    simp only [LoadArg.size, List.length_append, List.length_singleton] at hlt ⊢
    omega

/-- Something is put into an object. -/
theorem Advances.modify (hs : Sane arg.data) (v : Value κ L) {f : Cell κ F L → Cell κ F L}
    (hf : ∀ cell, ∀ w ∈ (f cell).children, w ∈ cell.children ∨ Made arg.data w) :
    Advances arg (arg.modify v f) := by
  cases v with
  | object k =>
      refine ⟨List.suffix_rfl, keeps_modify k f, hs.modify hf, ?_⟩
      simp [LoadArg.modify, LoadArg.size]
  | _ => exact .refl hs

end Progress

/-! ## Functions that read no objects -/

section Atoms

variable {arg : LoadArg κ F L}

/-- What a computation that fails only by raising comes to. -/
theorem raising_ensures {α : Type} {P : α → Prop} {x : Except MarshalError α}
    (hx : ∀ a, x = .ok a → P a) : Ensures .outOfFuel P (raising x) (raising x) := by
  cases x with
  | error e => exact .error fun h => by cases h
  | ok a => exact .ok (hx a rfl)

theorem raise_ensures {α : Type} {P : α → Prop} (e : MarshalError) :
    Ensures .outOfFuel P (raise e) (raise e) :=
  .error fun h => by cases h

theorem rByte_length {src src' : List UInt8} {b : UInt8} (h : rByte src = .ok (b, src')) :
    src' <:+ src ∧ src'.length < src.length := by
  cases src with
  | nil => cases h
  | cons c src =>
      cases h
      exact ⟨List.suffix_cons _ _, Nat.lt_succ_self _⟩

theorem rLongLoop_length {neg : Bool} {turns i : ℕ} {x y : BitVec L.bits} {src src' : List UInt8}
    (h : rLongLoop L neg turns i x src = .ok (y, src')) : src' <:+ src := by
  induction turns generalizing i x src with
  | zero =>
      cases h
      exact List.suffix_rfl
  | succ turns ih =>
      obtain ⟨⟨b, src1⟩, hb, h⟩ := Result.bind_eq_ok.mp h
      exact (ih h).trans (rByte_length hb).1

theorem rLong_length {src src' : List UInt8} {x : BitVec L.bits} (h : rLong L src = .ok (x, src')) :
    src' <:+ src ∧ src'.length < src.length := by
  obtain ⟨⟨b, src1⟩, hb, h⟩ := Result.bind_eq_ok.mp h
  obtain ⟨hsuffix, hlt⟩ := rByte_length hb
  have hrest : src' <:+ src1 := by
    dsimp only at h
    split at h
    · cases h
      exact List.suffix_rfl
    · split at h
      · split at h
        · cases h
          exact List.suffix_rfl
        · split at h
          · cases h
          · exact rLongLoop_length h
      · split at h
        · cases h
          exact List.suffix_rfl
        · split at h
          · cases h
          · exact rLongLoop_length h
  exact ⟨hrest.trans hsuffix, hrest.length_le.trans_lt hlt⟩

theorem rBytes0_length {n : ℤ} {str : StringObject} {src src' : List UInt8}
    (h : rBytes0 enc n src = .ok (str, src')) : src' <:+ src := by
  unfold rBytes0 at h
  split at h
  · cases h
    exact List.suffix_rfl
  · split at h
    · split at h
      · cases h
      · cases h
        exact List.drop_suffix _ _
    · cases h

theorem rBignum_length {src src' : List UInt8} {n : Inum L}
    (h : rBignum L enc src = .ok (n, src')) : src' <:+ src ∧ src'.length < src.length := by
  obtain ⟨⟨b, src1⟩, hb, h⟩ := Result.bind_eq_ok.mp h
  obtain ⟨⟨len, src2⟩, hlen, h⟩ := Result.bind_eq_ok.mp h
  obtain ⟨⟨data, src3⟩, hdata, h⟩ := Result.bind_eq_ok.mp h
  have hsrc : src' = src3 := by
    dsimp only at h
    split at h
    · cases h
    · cases h
      rfl
  subst hsrc
  have h1 := rByte_length hb
  have h2 := rLong_length hlen
  have h3 := rBytes0_length hdata
  exact ⟨(h3.trans h2.1).trans h1.1, (h3.length_le.trans h2.1.length_le).trans_lt h1.2⟩

/-- A function that reads some bytes. -/
theorem read_ensures {α : Type} {f : List UInt8 → Except MarshalError (α × List UInt8)}
    (hs : Sane arg.data) (hf : ∀ x src', f arg.src = .ok (x, src') → src' <:+ arg.src) :
    Ensures .outOfFuel (fun p => Advances arg p.2) (arg.read f) (arg.read f) := by
  refine (raising_ensures fun p hp => hf p.1 p.2 hp).bind fun p hp => .ok ?_
  refine ⟨hp, fun k cell hk => ⟨cell, hk⟩, hs, ?_⟩
  have hle := hp.length_le
  simp only [LoadArg.size]
  omega

/-- A function that reads a byte at least. -/
theorem read_past {α : Type} {f : List UInt8 → Except MarshalError (α × List UInt8)}
    (hs : Sane arg.data) (hf : ∀ {src src' x}, f src = .ok (x, src') →
      src' <:+ src ∧ src'.length < src.length) :
    Ensures .outOfFuel (fun p => Past arg p.2) (arg.read f) (arg.read f) := by
  have hread : ∀ p : α × List UInt8, f arg.src = .ok p →
      p.2 <:+ arg.src ∧ p.2.length < arg.src.length := fun _ hp => hf hp
  refine (raising_ensures hread).bind fun p hp => .ok ?_
  refine ⟨⟨hp.1, fun k cell hk => ⟨cell, hk⟩, hs, ?_⟩, hp.2, ?_⟩
  · have hle := hp.2.le
    simp only [LoadArg.size]
    omega
  · have hlt := hp.2
    simp only [LoadArg.size]
    omega

theorem rBytes_past (hs : Sane arg.data) :
    Ensures .outOfFuel (fun p => Past arg p.2) (rBytes enc arg) (rBytes enc arg) :=
  (read_past hs rLong_length).bind fun _ hp =>
    (read_ensures hp.sane fun _ _ => rBytes0_length).bind fun _ hq => .ok (hp.trans hq)

theorem rSymreal_ensures (hs : Sane arg.data) :
    Ensures .outOfFuel (fun p => Advances arg p.2) (rSymreal enc arg) (rSymreal enc arg) := by
  refine (rBytes_past hs).bind fun p hp => .ok ⟨hp.src, hp.keeps, hp.sane, ?_⟩
  have hlt := hp.size_lt
  simp only [LoadArg.size, List.length_append, List.length_singleton] at hlt ⊢
  omega

theorem rSymlink_ensures (hs : Sane arg.data) :
    Ensures .outOfFuel (fun p => Advances arg p.2) (rSymlink arg) (rSymlink arg) := by
  refine (read_past hs rLong_length).bind fun p hp => ?_
  dsimp only
  split
  · exact raise_ensures _
  · split
    · exact .ok hp.toAdvances
    · exact raise_ensures _

theorem rSymbol_past (hs : Sane arg.data) :
    Ensures .outOfFuel (fun p => Past arg p.2) (rSymbol enc arg) (rSymbol enc arg) := by
  refine (read_past hs rByte_length).bind fun p hp => ?_
  dsimp only
  split
  · exact (rSymreal_ensures hp.sane).mono fun q hq => hp.trans hq
  · split
    · exact (rSymlink_ensures hp.sane).mono fun q hq => hp.trans hq
    · exact raise_ensures _

variable {E : Classes κ F}

theorem path2class_ensures (path : Ident) :
    Ensures .outOfFuel (fun _ => True) (path2class E path) (path2class E path) := by
  refine (raising_ensures fun _ _ => trivial).bind fun c _ => ?_
  split
  · exact raise_ensures _
  · exact .ok trivial

theorem path2module_ensures (path : Ident) :
    Ensures .outOfFuel (fun _ => True) (path2module E path) (path2module E path) := by
  refine (raising_ensures fun _ _ => trivial).bind fun c _ => ?_
  split
  · exact .ok trivial
  · exact raise_ensures _

theorem rClass_past (hs : Sane arg.data) :
    Ensures .outOfFuel (fun p => Past arg p.2) (rClass E arg) (rClass E arg) :=
  (rSymbol_past hs).bind fun _ hp => (path2class_ensures _).bind fun _ _ => .ok hp

end Atoms

/-! ## Functions that read objects -/

section Objects

variable {E : Classes κ F} {object object' : Reader κ F L} {n : ℕ} {arg : LoadArg κ F L}

/-- What a reader comes to, with less than `n` bytes. -/
def Reads (n : ℕ) (object object' : Reader κ F L) : Prop :=
  ∀ arg, arg.src.length < n → Sane arg.data →
    Ensures .outOfFuel (fun p => Past arg p.2 ∧ Made p.2.data p.1) (object arg) (object' arg)

/-- What the body of a loop comes to. -/
def Turns (n : ℕ) (body body' : LoadArg κ F L → Except Stop (LoadArg κ F L)) : Prop :=
  ∀ arg, arg.src.length < n → Sane arg.data →
    Ensures .outOfFuel (Past arg) (body arg) (body' arg)

section Loops

variable {body body' : LoadArg κ F L → Except Stop (LoadArg κ F L)}

/-- A loop of so many turns. -/
theorem Turns.times (hbody : Turns n body body') (m : ℕ) (hs : Sane arg.data)
    (hn : arg.src.length < n) :
    Ensures .outOfFuel (Advances arg) (times body m arg) (times body' m arg) := by
  induction m generalizing arg with
  | zero => exact .ok (.refl hs)
  | succ m ih =>
      exact (hbody arg hn hs).bind fun arg1 h1 =>
        (ih h1.sane (h1.length_lt.trans hn)).mono fun arg2 h2 => h1.toAdvances.trans h2

/-- A loop of more turns than there are bytes fails, and fails in the same way on more. -/
theorem Turns.exhausted (hbody : Turns n body body') {m m' : ℕ} (hn : arg.src.length < n)
    (hs : Sane arg.data) (hm : arg.src.length < m) (hm' : arg.src.length < m') :
    ∃ e, e ≠ .outOfFuel ∧ Marshal.times body m arg = .error e ∧
      Marshal.times body' m' arg = .error e := by
  induction m generalizing m' arg with
  | zero => omega
  | succ m ih =>
      obtain ⟨k, rfl⟩ : ∃ k, m' = k + 1 := ⟨m' - 1, by omega⟩
      obtain ⟨hsame, hne, hok⟩ := hbody arg hn hs
      rw [Marshal.times, Marshal.times, ← hsame]
      cases hx : body arg with
      | error e => exact ⟨e, fun he => hne (he ▸ hx), rfl, rfl⟩
      | ok arg1 =>
          have h1 := hok arg1 hx
          have hlt := h1.length_lt
          exact ih (hlt.trans hn) h1.sane (by omega) (by omega)

/-- The pairs of a hash are read until the bytes are at an end, if their number is negative. -/
theorem Turns.whileLen (hbody : Turns n body body') {m m' : ℕ} (len : ℤ)
    (hs : Sane arg.data) (hn : arg.src.length < n) (hm : arg.src.length < m)
    (hm' : arg.src.length < m') :
    Ensures .outOfFuel (Advances arg) (whileLen body m len arg) (whileLen body' m' len arg) := by
  unfold Marshal.whileLen
  split
  · exact hbody.times _ hs hn
  · obtain ⟨e, he, h1, h2⟩ := hbody.exhausted hn hs hm hm'
    rw [h1, h2]
    exact .error he

end Loops

/-! What is put into an object is all that it refers to besides what it referred to before. -/

theorem children_aryPush {item : Value κ L} {cell : Cell κ F L} {w : Value κ L}
    (hw : w ∈ (onBody (aryPush item) cell).children) : w ∈ cell.children ∨ w = item := by
  obtain ⟨c, body, ivars, extended⟩ := cell
  cases body <;>
    simp only [Cell.children, onBody, aryPush, Body.children, List.mem_append,
      List.mem_singleton] at hw ⊢ <;> tauto

theorem children_hashAset [DecidableEq κ] {h : Heap κ F L} {key value : Value κ L}
    {cell : Cell κ F L} {w : Value κ L} (hw : w ∈ (onBody (hashAset h key value) cell).children) :
    w ∈ cell.children ∨ w = key ∨ w = value := by
  obtain ⟨c, body, ivars, extended⟩ := cell
  cases body with
  | hash pairs =>
      simp only [Cell.children, onBody, hashAset, Body.children, List.mem_append,
        List.mem_flatMap] at hw ⊢
      rcases hw with hw | hw
      · obtain ⟨p, hp, hw⟩ := hw
        have hkey := Assoc.key_of_mem_store _ hp
        rcases Assoc.mem_store _ hp with hp | ⟨hvalue, -⟩
        · exact .inl (.inl ⟨p, hp, hw⟩)
        · simp only [List.mem_cons, List.not_mem_nil, or_false] at hw
          rcases hw with rfl | rfl
          · rcases hkey with hkey | hkey
            · exact .inr (.inl hkey)
            · obtain ⟨q, hq, hkey⟩ := List.mem_map.mp hkey
              exact .inl (.inl ⟨q, hq, by simp [hkey]⟩)
          · exact .inr (.inr hvalue)
      · exact .inl (.inr hw)
  | _ => exact .inl hw

theorem children_ivarSet {id : Ident} {val : Value κ L} {cell : Cell κ F L} {w : Value κ L}
    (hw : w ∈ (ivarSet id val cell).children) : w ∈ cell.children ∨ w = val := by
  rcases List.mem_append.mp hw with hw | hw
  · exact .inl (List.mem_append_left _ hw)
  · obtain ⟨iv, hiv, rfl⟩ := List.mem_map.mp hw
    rcases Assoc.mem_store _ hiv with hiv | ⟨hval, -⟩
    · exact .inl (List.mem_append_right _ (List.mem_map_of_mem hiv))
    · exact .inr hval

theorem rPush_turns (hobject : Reads n object object') (v : Value κ L) :
    Turns n (rPush object v) (rPush object' v) := by
  intro arg hn hs
  refine (hobject arg hn hs).bind fun p hp => .ok (hp.1.trans (.modify hp.1.sane v ?_))
  intro cell w hw
  refine (children_aryPush hw).imp_right fun h => ?_
  rw [h]
  exact hp.2

section Hashes

variable [DecidableEq κ]

theorem rPair_turns (hobject : Reads n object object') (v : Value κ L) :
    Turns n (rPair object v) (rPair object' v) := by
  intro arg hn hs
  refine (hobject arg hn hs).bind fun p hp => ?_
  refine (hobject p.2 (hp.1.length_lt.trans hn) hp.1.sane).bind fun q hq => .ok ?_
  refine (hp.1.trans hq.1.toAdvances).trans (.modify hq.1.sane v ?_)
  intro cell w hw
  refine (children_hashAset hw).imp_right fun h => ?_
  rcases h with rfl | rfl
  · exact hp.2.mono hq.1.keeps
  · exact hq.2

theorem rHash_ensures (hobject : Reads n object object') {m m' : ℕ} (hs : Sane arg.data)
    (hn : arg.src.length < n) (hm : arg.src.length < m) (hm' : arg.src.length < m') :
    Ensures .outOfFuel (fun p => Advances arg p.2 ∧ Made p.2.data p.1) (rHash E object m arg)
      (rHash E object' m' arg) := by
  refine (read_past hs rLong_length).bind fun p hp => ?_
  have hentry := hp.entry (.object ⟨E.builtin .hash, .hash [], [], []⟩)
    fun w hw => absurd hw List.not_mem_nil
  have hlt := hp.length_lt
  refine ((rPair_turns hobject _).whileLen _ hentry.sane (hlt.trans hn) (hlt.trans hm)
    (hlt.trans hm')).bind fun arg2 h2 => .ok ⟨hentry.trans h2, ?_⟩
  exact (Made.mono (entry_made _ _) h2.keeps)

end Hashes

theorem rIvarEach_turns (hobject : Reads n object object') (v : Value κ L) :
    Turns n (rIvarEach E object v) (rIvarEach E object' v) := by
  intro arg hn hs
  refine (rSymbol_past hs).bind fun p hp => ?_
  refine (hobject p.2 (hp.length_lt.trans hn) hp.sane).bind fun q hq => .ok ?_
  refine (hp.trans hq.1.toAdvances).trans (.modify hq.1.sane v ?_)
  intro cell w hw
  refine (children_ivarSet hw).imp_right fun h => ?_
  rw [h]
  exact hq.2

theorem rIvar_ensures (hobject : Reads n object object') (v : Value κ L) (hs : Sane arg.data)
    (hn : arg.src.length < n) :
    Ensures .outOfFuel (Past arg) (rIvar E object v arg) (rIvar E object' v arg) := by
  refine (read_past hs rLong_length).bind fun p hp => ?_
  dsimp only
  split
  · exact ((rIvarEach_turns hobject v).times _ hp.sane (hp.length_lt.trans hn)).mono
      fun arg2 h2 => hp.trans h2
  · exact .ok hp

theorem rArray_ensures (hobject : Reads n object object') (hs : Sane arg.data)
    (hn : arg.src.length < n) :
    Ensures .outOfFuel (fun p => Advances arg p.2 ∧ Made p.2.data p.1) (rArray E object arg)
      (rArray E object' arg) := by
  refine (read_past hs rLong_length).bind fun p hp => ?_
  dsimp only
  split
  · exact raise_ensures _
  · split
    · exact raise_ensures _
    · have hentry := hp.entry (.object ⟨E.builtin .array, .array [], [], []⟩)
        fun w hw => absurd hw List.not_mem_nil
      refine ((rPush_turns hobject _).times _ hentry.sane (hp.length_lt.trans hn)).bind
        fun arg2 h2 => .ok ⟨hentry.trans h2, Made.mono (entry_made _ _) h2.keeps⟩

theorem rPlain_ensures (hobject : Reads n object object') (hs : Sane arg.data)
    (hn : arg.src.length < n) :
    Ensures .outOfFuel (fun p => Advances arg p.2 ∧ Made p.2.data p.1) (rPlain E object arg)
      (rPlain E object' arg) := by
  refine (rClass_past hs).bind fun p hp => (raising_ensures fun _ _ => trivial).bind fun ty _ => ?_
  split
  · exact raise_ensures _
  · have hentry := hp.entry (.object ⟨p.1, .object, [], []⟩) fun w hw => absurd hw List.not_mem_nil
    refine (rIvar_ensures hobject _ hentry.sane (hp.length_lt.trans hn)).bind
      fun arg2 h2 => .ok ⟨hentry.trans h2.toAdvances, Made.mono (entry_made _ _) h2.keeps⟩

theorem rMembers_ensures (hobject : Reads n object object') (c : κ) (mem : List Ident)
    (hs : Sane arg.data) (hn : arg.src.length < n) :
    Ensures .outOfFuel (fun p => Advances arg p.2 ∧ ∀ v ∈ p.1, Made p.2.data v)
      (rMembers E object c mem arg) (rMembers E object' c mem arg) := by
  induction mem generalizing arg with
  | nil => exact .ok ⟨.refl hs, fun v hv => absurd hv List.not_mem_nil⟩
  | cons m mem ih =>
      refine (rSymbol_past hs).bind fun p hp => ?_
      dsimp only
      split
      · exact raise_ensures _
      · have hn1 := hp.length_lt.trans hn
        refine (hobject p.2 hn1 hp.sane).bind fun q hq => ?_
        refine (ih hq.1.sane (hq.1.length_lt.trans hn1)).bind fun r hr => .ok ⟨?_, ?_⟩
        · exact (hp.toAdvances.trans hq.1.toAdvances).trans hr.1
        · exact List.forall_mem_cons.mpr ⟨hq.2.mono hr.1.keeps, hr.2⟩

theorem rStruct_ensures (hobject : Reads n object object') (hs : Sane arg.data)
    (hn : arg.src.length < n) :
    Ensures .outOfFuel (fun p => Advances arg p.2 ∧ Made p.2.data p.1) (rStruct E object arg)
      (rStruct E object' arg) := by
  refine (rClass_past hs).bind fun p hp => ?_
  refine (read_past hp.sane rLong_length).bind fun q hq => ?_
  refine (raising_ensures fun _ _ => trivial).bind fun ty _ => ?_
  have hpast := hp.trans hq.toAdvances
  dsimp only
  split
  · exact raise_ensures _
  · split
    · exact raise_ensures _
    · have hentry := hpast.entry
        (.object ⟨p.1, .struct ((E.members p.1).map fun _ => .nil), [], []⟩) (by
          intro w hw r hr
          subst hr
          simp [Entry.children, Cell.children, Body.children] at hw)
      refine (rMembers_ensures hobject p.1 _ hentry.sane (hpast.length_lt.trans hn)).bind
        fun r hr => .ok ⟨?_, ?_⟩
      · have hset : Advances r.2 (r.2.modify (.object q.2.data.length)
            (onBody fun _ => .struct r.1)) := by
          refine .modify hr.1.sane _ fun cell w hw => ?_
          rcases List.mem_append.mp hw with hw | hw
          · exact .inr (hr.2 w hw)
          · exact .inl (List.mem_append_right _ hw)
        exact (hentry.trans hr.1).trans hset
      · exact Made.mono (Made.mono (entry_made _ _) hr.1.keeps) (keeps_modify _ _)

/-- A link is one to an object that has been made. -/
theorem rLink_ensures (hs : Sane arg.data) :
    Ensures .outOfFuel (fun p => Advances arg p.2 ∧ Made p.2.data p.1) (rLink arg)
      (rLink arg) := by
  refine (read_past hs rLong_length).bind fun p hp => ?_
  dsimp only
  split
  · rename_i v hv
    refine .ok ⟨hp.toAdvances, ?_⟩
    split at hv
    · cases hv
    · obtain ⟨e, he, hv⟩ := Option.map_eq_some_iff.mp hv
      cases e with
      | value w =>
          cases hv
          exact hp.sane _ (List.mem_of_getElem? he) _ (List.mem_singleton_self _)
      | object cell =>
          cases hv
          intro r hr
          cases hr
          exact ⟨cell, he⟩
  · exact raise_ensures _

/-- An object that holds no others is entered when all is read. -/
theorem rEntry_ensures {cell : Cell κ F L} (hcell : cell.children = []) {arg' : LoadArg κ F L}
    (hp : Past arg arg') : Ensures Stop.outOfFuel (fun p => Advances arg p.2 ∧ Made p.2.data p.1)
      (.ok (rEntry cell arg')) (.ok (rEntry cell arg')) := by
  refine .ok ⟨hp.entry _ fun w hw => ?_, entry_made _ _⟩
  rw [Entry.children, hcell] at hw
  cases hw

/-- So is a value that is no object. -/
theorem rEntryValue_ensures {v : Value κ L} (hv : ∀ r, v ≠ .object r) {arg' : LoadArg κ F L}
    (hp : Past arg arg') : Ensures Stop.outOfFuel (fun p => Advances arg p.2 ∧ Made p.2.data p.1)
      (.ok (rEntryValue v arg')) (.ok (rEntryValue v arg')) := by
  refine .ok ⟨hp.entry _ fun w hw => ?_, fun r hr => absurd hr (hv r)⟩
  rw [Entry.children, List.mem_singleton] at hw
  subst hw
  exact fun r hr => absurd hr (hv r)

theorem rBig_ensures (hs : Sane arg.data) :
    Ensures .outOfFuel (fun p => Advances arg p.2 ∧ Made p.2.data p.1) (rBig E arg)
      (rBig E arg) := by
  refine (read_past hs rBignum_length).bind fun p hp => ?_
  dsimp only
  split
  · exact rEntryValue_ensures (fun r hr => by cases hr) hp
  · exact rEntry_ensures rfl hp

theorem rModule_ensures {find : Ident → Except Stop κ}
    (hfind : ∀ path, Ensures .outOfFuel (fun _ => True) (find path) (find path))
    (hs : Sane arg.data) :
    Ensures .outOfFuel (fun p => Advances arg p.2 ∧ Made p.2.data p.1) (rModule E find arg)
      (rModule E find arg) :=
  (rBytes_past hs).bind fun _ hp => (hfind _).bind fun _ _ =>
    rEntryValue_ensures (fun r hr => by cases hr) hp

/-- **What each type comes to on any bytes.** -/
theorem rType_ensures [DecidableEq κ] (hobject : Reads n object object') {m m' : ℕ} (type : Tag)
    (hs : Sane arg.data) (hn : arg.src.length < n) (hm : arg.src.length < m)
    (hm' : arg.src.length < m') :
    Ensures .outOfFuel (fun p => Advances arg p.2 ∧ Made p.2.data p.1)
      (rType E object m type arg) (rType E object' m' type arg) := by
  cases type with
  | nil | true | false => exact .ok ⟨.refl hs, fun r hr => by cases hr⟩
  | fixnum =>
      exact (read_past hs rLong_length).bind fun _ hp =>
        .ok ⟨hp.toAdvances, fun r hr => by cases hr⟩
  | float => exact (rBytes_past hs).bind fun _ hp => rEntry_ensures rfl hp
  | bignum => exact rBig_ensures hs
  | string => exact (rBytes_past hs).bind fun _ hp => rEntry_ensures rfl hp
  | regexp =>
      exact (rBytes_past hs).bind fun _ hp => (read_past hp.sane rByte_length).bind fun _ hq =>
        (raising_ensures fun _ _ => trivial).bind fun _ _ =>
          rEntry_ensures rfl (hp.trans hq.toAdvances)
  | array => exact rArray_ensures hobject hs hn
  | hash => exact rHash_ensures hobject hs hn hm hm'
  | hashDef => exact rHash_ensures hobject hs hn hm hm'
  | struct => exact rStruct_ensures hobject hs hn
  | object => exact rPlain_ensures hobject hs hn
  | userdef => exact (rClass_past hs).bind fun _ _ => raise_ensures _
  | usrmarshal =>
      exact (rClass_past hs).bind fun _ _ => (raising_ensures fun _ _ => trivial).bind
        fun _ _ => raise_ensures _
  | data =>
      refine (rClass_past hs).bind fun _ _ => (raising_ensures fun _ _ => trivial).bind
        fun _ _ => ?_
      split
      · exact raise_ensures _
      · exact raise_ensures _
  | cls => exact rModule_ensures path2class_ensures hs
  | module => exact rModule_ensures path2module_ensures hs
  | moduleOld => exact rModule_ensures (fun _ => raising_ensures fun _ _ => trivial) hs
  | symbol =>
      exact (rSymreal_ensures hs).bind fun _ hp => .ok ⟨hp, fun r hr => by cases hr⟩
  | symlink =>
      exact (rSymlink_ensures hs).bind fun _ hp => .ok ⟨hp, fun r hr => by cases hr⟩
  | link => exact rLink_ensures hs
  | ivar | extendedR | uclass => exact raise_ensures _

end Objects

/-! ## Objects after their types -/

section Whole

variable {E : Classes κ F} {arg : LoadArg κ F L}

/-- What does not touch what an object holds. -/
theorem modify_ensures (hs : Sane arg.data) (v : Value κ L) {f : Cell κ F L → Cell κ F L}
    (hf : ∀ cell, (f cell).children = cell.children) :
    Ensures Stop.outOfFuel (Advances arg) (.ok (arg.modify v f)) (.ok (arg.modify v f)) :=
  .ok (.modify hs v fun cell _ hw => .inl (hf cell ▸ hw))

theorem extendObject_ensures (hs : Sane arg.data) (v : Value κ L) (m : κ) :
    Ensures .outOfFuel (Advances arg) (extendObject v m arg) (extendObject v m arg) := by
  cases v with
  | fixnum | symbol => exact raise_ensures _
  | _ => exact modify_ensures hs _ fun _ => rfl

theorem extendAll_ensures (hs : Sane arg.data) (v : Value κ L) (extmod : List κ) :
    Ensures .outOfFuel (Advances arg) (extendAll v extmod arg) (extendAll v extmod arg) := by
  unfold extendAll
  induction extmod.reverse generalizing arg with
  | nil => exact .ok (.refl hs)
  | cons m ms ih =>
      rw [List.foldlM_cons]
      exact (extendObject_ensures hs v m).bind fun arg1 h1 => (ih h1.sane).mono
        fun arg2 h2 => h1.trans h2

theorem setUserClass_ensures (hs : Sane arg.data) (c : κ) (v : Value κ L) :
    Ensures .outOfFuel (Advances arg) (setUserClass E c v arg) (setUserClass E c v arg) := by
  cases v with
  | object r =>
      unfold setUserClass
      dsimp only
      split
      · exact raise_ensures _
      · split
        · exact raise_ensures _
        · split
          · exact modify_ensures hs (.object r) fun _ => rfl
          · refine (raising_ensures fun _ _ => trivial).bind fun ty _ => ?_
            split
            · exact raise_ensures _
            · exact modify_ensures hs (.object r) fun _ => rfl
  | module m =>
      unfold setUserClass
      dsimp only
      split
      · exact raise_ensures _
      · refine (raising_ensures fun _ _ => trivial).bind fun ty _ => ?_
        split
        · exact raise_ensures _
        · exact .ok (.refl hs)
  | symbol id =>
      unfold setUserClass
      dsimp only
      split
      · exact .ok (.refl hs)
      · refine (raising_ensures fun _ _ => trivial).bind fun ty _ => ?_
        split
        · exact raise_ensures _
        · exact .ok (.refl hs)
  | _ => exact raise_ensures _

variable [DecidableEq κ]

/-- **What `r_object0` comes to on any bytes**, with fuel for each of them. -/
theorem rObject0_ensures {fuel fuel' : ℕ} (extmod : List κ) (hs : Sane arg.data)
    (hf : arg.src.length < fuel) (hf' : arg.src.length < fuel') :
    Ensures .outOfFuel (fun p => Past arg p.2.2 ∧ Made p.2.2.data p.1)
      (rObject0 E fuel extmod arg) (rObject0 E fuel' extmod arg) := by
  induction fuel generalizing fuel' extmod arg with
  | zero => omega
  | succ fuel ih =>
      obtain ⟨k, rfl⟩ : ∃ k, fuel' = k + 1 := ⟨fuel' - 1, by omega⟩
      rw [rObject0, rObject0]
      refine (read_past hs rByte_length).bind fun p hp => ?_
      have hlt := hp.length_lt
      have hreads : Reads (L := L) p.2.src.length.succ (toReader (rObject0 E fuel))
          (toReader (rObject0 E k)) := by
        intro arg1 hn hs1
        exact (ih [] hs1 (by omega) (by omega)).bind fun q hq => .ok hq
      dsimp only
      split
      · exact raise_ensures _
      · refine (ih extmod hp.sane (by omega) (by omega)).bind fun q hq => ?_
        have hle := hq.1.length_lt
        refine (rIvar_ensures hreads q.1 hq.1.sane (by omega)).bind fun arg2 h2 => .ok ⟨?_, ?_⟩
        · exact (hp.trans hq.1.toAdvances).trans h2.toAdvances
        · exact hq.2.mono h2.keeps
      · refine (rSymbol_past hp.sane).bind fun q hq => ?_
        refine (path2module_ensures q.1).bind fun m _ => ?_
        have hle := hq.length_lt
        refine (ih _ hq.sane (by omega) (by omega)).bind fun r hr => ?_
        refine (extendAll_ensures hr.1.sane r.1 r.2.1).bind fun arg2 h2 => .ok ⟨?_, ?_⟩
        · exact ((hp.trans hq.toAdvances).trans hr.1.toAdvances).trans h2
        · exact hr.2.mono h2.keeps
      · refine (rClass_past hp.sane).bind fun q hq => ?_
        have hle := hq.length_lt
        refine (ih _ hq.sane (by omega) (by omega)).bind fun r hr => ?_
        refine (setUserClass_ensures hr.1.sane q.1 r.1).bind fun arg2 h2 => .ok ⟨?_, ?_⟩
        · exact ((hp.trans hq.toAdvances).trans hr.1.toAdvances).trans h2
        · exact hr.2.mono h2.keeps
      · refine (rType_ensures hreads _ hp.sane (Nat.lt_succ_self _) (by omega) (by omega)).bind
          fun q hq => .ok ⟨hp.trans hq.1, hq.2⟩

end Whole

end MacRuby.Marshal
