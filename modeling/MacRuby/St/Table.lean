import Mathlib.Data.Nat.Notation
import Mathlib.Data.Int.Notation
import Mathlib.Logic.Function.Basic
import MacRuby.Lib.Result

/-!
# Hash tables

The hash tables of `st.c`. A small table of numbers keeps its pairs packed in the array of bins.
Any other table has its entries as nodes in memory, each on two lists: the chain of its bin, and a
ring through all entries in the order in which they were inserted. Memory is explicit here, so a
null pointer, a freed node or a broken link is an error of the model.

The loops over chains and rings are given up after one round more than there are entries, those
that look up an entry after one round more than there can be entries in memory.

## Main definitions

* `StHashType`, `StEntry`, `StHeap`, `StBins`, `StTable` — the data.
* `stInitTableWithSize`, `stLookup`, `stInsert`, `stAddDirect`, `stDelete`, `stClear`, `stCopy`,
  `stForeach` — the operations.
* `StOp`, `stStep` — the operations as the steps of the tables in one memory.
-/

namespace MacRuby

/-! ## Data -/

/-- `struct st_hash_type`: `compare x y` when the comparison gives 0. Comparing is an equality, and
equal keys have equal hash values. `isNumhash` tells `type_numhash`, which compares words. -/
structure StHashType (D : Type) where
  isNumhash : Bool
  compare : D → D → Bool
  hash : D → UInt32
  compare_symm : ∀ x y, compare x y = true → compare y x = true
  compare_trans : ∀ x y z, compare x y = true → compare y z = true → compare x z = true
  hash_congr : ∀ x y, compare x y = true → hash x = hash y
  numhash : ∀ x y, isNumhash = true → compare x y = true → x = y

/-- `struct st_table_entry`. -/
structure StEntry (D : Type) where
  hash : UInt32
  key : D
  record : D
  next : Option ℕ
  fore : Option ℕ
  back : Option ℕ

/-- The memory of the entries. Nothing is allocated from `brk` on. -/
structure StHeap (D : Type) where
  mem : ℕ → Option (StEntry D)
  brk : ℕ
  fresh : ∀ p, brk ≤ p → mem p = none

/-- The array of bins: pairs of words when the entries are packed, else chains. -/
inductive StBins (D : Type)
  | packed (cells : ℕ → D)
  | hashed (bins : ℕ → Option ℕ)

/-- `struct st_table`. -/
structure StTable (D : Type) where
  numBins : ℕ
  numEntries : ℕ
  bins : StBins D
  head : Option ℕ

/-- `entries_packed`. -/
def StTable.entriesPacked {D : Type} (t : StTable D) : Bool :=
  match t.bins with
  | .packed _ => true
  | .hashed _ => false

/-- Why an operation has no result: it follows a pointer that is none, or memory is refused. -/
inductive StFault
  | undefined
  | noMemory
  deriving DecidableEq, Repr

variable {D : Type} [DecidableEq D]

/-- `EQUAL`. -/
def StHashType.equal (type : StHashType D) (x y : D) : Bool := x = y || type.compare x y

/-! ## Memory -/

/-- The entry at a pointer. -/
def StHeap.load (h : StHeap D) : Option ℕ → Except StFault (StEntry D)
  | none => .error .undefined
  | some p =>
      match h.mem p with
      | none => .error .undefined
      | some e => .ok e

/-- An assignment through a pointer to an allocated entry. -/
def StHeap.store (h : StHeap D) (p : Option ℕ) (e : StEntry D) : Except StFault (StHeap D) :=
  match p with
  | none => .error .undefined
  | some p =>
      if hp : h.mem p = none then .error .undefined
      else .ok
        { mem := Function.update h.mem p (some e)
          brk := h.brk
          fresh := by
            intro q hq
            rw [Function.update_of_ne]
            · exact h.fresh q hq
            · rintro rfl
              exact hp (h.fresh q hq) }

/-- `alloc(st_table_entry)`, with its first contents. -/
def StHeap.alloc (h : StHeap D) (e : StEntry D) : StHeap D :=
  { mem := Function.update h.mem h.brk (some e)
    brk := h.brk + 1
    fresh := by
      intro q hq
      rw [Function.update_of_ne (by omega)]
      exact h.fresh q (by omega) }

/-- `free`. -/
def StHeap.free (h : StHeap D) (p : ℕ) : Except StFault (StHeap D) :=
  if h.mem p = none then .error .undefined
  else .ok
    { mem := Function.update h.mem p none
      brk := h.brk
      fresh := by
        intro q hq
        by_cases hqp : q = p
        · rw [hqp, Function.update_self]
        · rw [Function.update_of_ne hqp]
          exact h.fresh q hq }

/-! ## Making a table -/

/-- `primes`. -/
def primes : List ℕ :=
  [8 + 3, 16 + 3, 32 + 5, 64 + 3, 128 + 3, 256 + 27, 512 + 9, 1024 + 9, 2048 + 5, 4096 + 3,
    8192 + 27, 16384 + 43, 32768 + 3, 65536 + 45, 131072 + 29, 262144 + 3, 524288 + 21,
    1048576 + 7, 2097152 + 17, 4194304 + 15, 8388608 + 9, 16777216 + 43, 33554432 + 35,
    67108864 + 15, 134217728 + 29, 268435456 + 3, 536870912 + 11, 1073741824 + 85]

/-- The loop of `new_size`, over the primes that are left. -/
def newSizeFrom (size : ℤ) : List ℕ → ℤ → Option ℕ
  | [], _ => none
  | p :: ps, newsize => if newsize > size then some p else newSizeFrom size ps (2 * newsize)

/-- `new_size`; `none` is the result -1. -/
def newSize (size : ℤ) : Option ℕ := newSizeFrom size primes 8

/-- `MAX_PACKED_NUMHASH`. -/
def maxPackedNumhash : ℕ := 5

/-- `ST_DEFAULT_MAX_DENSITY`. -/
def stDefaultMaxDensity : ℕ := 5

/-- `st_init_table_with_size`. With -1 bins the allocation of the array fails. -/
def stInitTableWithSize [Zero D] (type : StHashType D) (size : ℤ) : Except StFault (StTable D) :=
  match newSize size with
  | none => .error .noMemory
  | some size => .ok
      { numBins := size
        numEntries := 0
        bins := if type.isNumhash && size / 2 ≤ maxPackedNumhash then .packed fun _ => 0
          else .hashed fun _ => none
        head := none }

/-! ## Chains and the ring -/

/-- `hash_val % num_bins`. -/
def binPos (hashVal : UInt32) (numBins : ℕ) : ℕ := hashVal.toNat % numBins

/-- `FIND_ENTRY`, along a chain. -/
def findEntryFrom (type : StHashType D) (h : StHeap D) (key : D) (hashVal : UInt32) :
    ℕ → Option ℕ → Except StFault (Option ℕ)
  | 0, _ => .error .undefined
  | _ + 1, none => .ok none
  | fuel + 1, some p => do
      let e ← h.load (some p)
      if e.hash ≠ hashVal ∨ type.equal key e.key = false then
        findEntryFrom type h key hashVal fuel e.next
      else return some p

/-- The loop of `rehash`: the entries of the ring from `ptr` on, put in front of their new
chains. -/
def rehashFrom (head : Option ℕ) (numBins : ℕ) :
    ℕ → Option ℕ → StHeap D → (ℕ → Option ℕ) → Except StFault (StHeap D × (ℕ → Option ℕ))
  | 0, _, _, _ => .error .undefined
  | fuel + 1, ptr, h, bins => do
      let e ← h.load ptr
      let b := binPos e.hash numBins
      let h ← h.store ptr { e with next := bins b }
      let bins := Function.update bins b ptr
      if e.fore = head then return (h, bins) else rehashFrom head numBins fuel e.fore h bins

/-- The chains that `rehash` builds. -/
def rehashBins (h : StHeap D) (t : StTable D) (newNumBins : ℕ) :
    Except StFault (StHeap D × (ℕ → Option ℕ)) :=
  match t.head with
  | none => .ok (h, fun _ => none)
  | some p => rehashFrom (some p) newNumBins (t.numEntries + 1) (some p) h fun _ => none

/-- `rehash`. -/
def rehash (h : StHeap D) (t : StTable D) : Except StFault (StHeap D × StTable D) :=
  match newSize (t.numBins + 1) with
  | none => .error .noMemory
  | some newNumBins => do
      let (h, bins) ← rehashBins h t newNumBins
      return (h, { t with numBins := newNumBins, bins := .hashed bins })

attribute [grind =] rehash

/-- The part of `ADD_DIRECT` after `rehash`: a new entry at the end of the ring and in front of
its chain. -/
def linkEntry (h : StHeap D) (t : StTable D) (bins : ℕ → Option ℕ) (key value : D)
    (hashVal : UInt32) : Except StFault (StHeap D × StTable D) := do
  let b := binPos hashVal t.numBins
  let entry := some h.brk
  let bins' := StBins.hashed (Function.update bins b entry)
  match t.head with
  | some head => do
      let eh ← h.load (some head)
      let h := h.alloc ⟨hashVal, key, value, bins b, some head, eh.back⟩
      let eb ← h.load eh.back
      let h ← h.store eh.back { eb with fore := entry }
      let eh ← h.load (some head)
      let h ← h.store (some head) { eh with back := entry }
      return (h, { t with bins := bins', numEntries := t.numEntries + 1 })
  | none =>
      return (h.alloc ⟨hashVal, key, value, bins b, entry, entry⟩,
        { t with bins := bins', numEntries := t.numEntries + 1, head := entry })

/-- The chains of a table whose entries are not packed. -/
def StTable.chains (t : StTable D) : Except StFault (ℕ → Option ℕ) :=
  match t.bins with
  | .packed _ => .error .undefined
  | .hashed bins => .ok bins

/-- `ADD_DIRECT`. -/
def addDirect (h : StHeap D) (t : StTable D) (key value : D) (hashVal : UInt32) :
    Except StFault (StHeap D × StTable D) := do
  let (h, t) ← if t.numEntries / t.numBins > stDefaultMaxDensity then rehash h t else pure (h, t)
  let bins ← t.chains
  linkEntry h t bins key value hashVal

/-- A search along the chain of bin `b` that takes out the first entry found. `prev` is the entry
whose `next` leads to `ptr`, or none when it is the bin itself. -/
def unlinkFrom (found : ℕ → StEntry D → Bool) (b : ℕ) :
    ℕ → Option ℕ → Option ℕ → StHeap D → (ℕ → Option ℕ) →
      Except StFault (Option (ℕ × StEntry D × StHeap D × (ℕ → Option ℕ)))
  | 0, _, _, _, _ => .error .undefined
  | _ + 1, _, none, _, _ => .ok none
  | fuel + 1, prev, some p, h, bins => do
      let e ← h.load (some p)
      if found p e then
        match prev with
        | none => return some (p, e, h, Function.update bins b e.next)
        | some q => do
            let eq ← h.load (some q)
            let h ← h.store (some q) { eq with next := e.next }
            return some (p, e, h, bins)
      else unlinkFrom found b fuel (some p) e.next h bins

/-- `REMOVE_ENTRY`. -/
def removeEntry (h : StHeap D) (t : StTable D) (p : ℕ) :
    Except StFault (StHeap D × StTable D) := do
  let e ← h.load (some p)
  if e.fore = some p then
    return (h, { t with head := none, numEntries := t.numEntries - 1 })
  else
    let ef ← h.load e.fore
    let h ← h.store e.fore { ef with back := e.back }
    let eb ← h.load e.back
    let h ← h.store e.back { eb with fore := e.fore }
    let head := if t.head = some p then e.fore else t.head
    return (h, { t with head := head, numEntries := t.numEntries - 1 })

/-! ## Packed entries -/

/-- The loops over packed entries: the first one with the key. -/
def packedIndex (cells : ℕ → D) (numEntries : ℕ) (key : D) : Option ℕ :=
  (List.range numEntries).find? fun i => cells (i * 2) = key

/-- The test for room for one more packed entry. -/
def StTable.hasRoom (t : StTable D) : Bool :=
  (t.numEntries + 1) * 2 ≤ t.numBins && t.numEntries + 1 ≤ maxPackedNumhash

/-- A packed entry at the end. -/
def packedAppend (t : StTable D) (cells : ℕ → D) (key value : D) : StTable D :=
  { t with
    numEntries := t.numEntries + 1
    bins := .packed (Function.update (Function.update cells (t.numEntries * 2) key)
      (t.numEntries * 2 + 1) value) }

/-- `num_entries--` and the `memmove` over the packed entry `i`. -/
def packedRemove (t : StTable D) (cells : ℕ → D) (i : ℕ) : StTable D :=
  { t with
    numEntries := t.numEntries - 1
    bins := .packed fun j =>
      if i * 2 ≤ j ∧ j < i * 2 + 2 * (t.numEntries - 1 - i) then cells (j + 2) else cells j }

/-! ## The operations -/

/-- `st_lookup`. -/
def stLookup (type : StHashType D) (h : StHeap D) (t : StTable D) (key : D) :
    Except StFault (Option D) :=
  match t.bins with
  | .packed cells => .ok ((packedIndex cells t.numEntries key).map fun i => cells (i * 2 + 1))
  | .hashed bins => do
      let hashVal := type.hash key
      match ← findEntryFrom type h key hashVal (h.brk + 1) (bins (binPos hashVal t.numBins)) with
      | none => return none
      | some p => do
          let e ← h.load (some p)
          return some e.record

/-- The part of `st_insert` for entries that are not packed. -/
def insertHashed (type : StHashType D) (h : StHeap D) (t : StTable D) (key value : D) :
    Except StFault (Bool × StHeap D × StTable D) := do
  let bins ← t.chains
  let hashVal := type.hash key
  match ← findEntryFrom type h key hashVal (h.brk + 1) (bins (binPos hashVal t.numBins)) with
  | none => do
      let (h, t) ← addDirect h t key value hashVal
      return (false, h, t)
  | some p => do
      let e ← h.load (some p)
      let h ← h.store (some p) { e with record := value }
      return (true, h, t)

/-- The loop of `unpack_entries`, over the pairs that were packed. -/
def insertAll (type : StHashType D) :
    List (D × D) → StHeap D → StTable D → Except StFault (StHeap D × StTable D)
  | [], h, t => .ok (h, t)
  | (key, value) :: rest, h, t => do
      let (_, h, t) ← insertHashed type h t key value
      insertAll type rest h t

/-- The pairs of packed entries. -/
def packedPairs (cells : ℕ → D) (numEntries : ℕ) : List (D × D) :=
  (List.range numEntries).map fun i => (cells (i * 2), cells (i * 2 + 1))

/-- `unpack_entries`. -/
def unpackEntries (type : StHashType D) (h : StHeap D) (t : StTable D) (cells : ℕ → D) :
    Except StFault (StHeap D × StTable D) :=
  insertAll type (packedPairs cells t.numEntries) h
    { t with numEntries := 0, bins := .hashed fun _ => none }

/-- `st_insert`. -/
def stInsert (type : StHashType D) (h : StHeap D) (t : StTable D) (key value : D) :
    Except StFault (Bool × StHeap D × StTable D) :=
  match t.bins with
  | .packed cells =>
      match packedIndex cells t.numEntries key with
      | some i =>
          .ok (true, h, { t with bins := .packed (Function.update cells (i * 2 + 1) value) })
      | none =>
          if t.hasRoom then .ok (false, h, packedAppend t cells key value)
          else do
            let (h, t) ← unpackEntries type h t cells
            insertHashed type h t key value
  | .hashed _ => insertHashed type h t key value

/-- `st_add_direct`. -/
def stAddDirect (type : StHashType D) (h : StHeap D) (t : StTable D) (key value : D) :
    Except StFault (StHeap D × StTable D) :=
  match t.bins with
  | .packed cells =>
      if t.hasRoom then .ok (h, packedAppend t cells key value)
      else do
        let (h, t) ← unpackEntries type h t cells
        addDirect h t key value (type.hash key)
  | .hashed _ => addDirect h t key value (type.hash key)

/-- `st_delete`: whether there was an entry, its key and its record. -/
def stDelete [Zero D] (type : StHashType D) (h : StHeap D) (t : StTable D) (key : D) :
    Except StFault ((Bool × D × D) × StHeap D × StTable D) :=
  match t.bins with
  | .packed cells =>
      match packedIndex cells t.numEntries key with
      | some i => .ok ((true, key, cells (i * 2 + 1)), h, packedRemove t cells i)
      | none => .ok ((false, key, 0), h, t)
  | .hashed bins => do
      let b := binPos (type.hash key) t.numBins
      match ← unlinkFrom (fun _ e => type.equal key e.key) b (t.numEntries + 1) none (bins b) h bins
        with
      | none => return ((false, key, 0), h, t)
      | some (p, e, h, bins) => do
          let (h, t) ← removeEntry h { t with bins := .hashed bins } p
          let h ← h.free p
          return ((true, e.key, e.record), h, t)

/-- The inner loop of `st_clear`. -/
def freeChain : ℕ → Option ℕ → StHeap D → Except StFault (StHeap D)
  | 0, _, _ => .error .undefined
  | _ + 1, none, h => .ok h
  | fuel + 1, some p, h => do
      let e ← h.load (some p)
      let h ← h.free p
      freeChain fuel e.next h

/-- The outer loop of `st_clear`, over the bins below `n`. -/
def freeChains (fuel : ℕ) (bins : ℕ → Option ℕ) : ℕ → StHeap D → Except StFault (StHeap D)
  | 0, h => .ok h
  | n + 1, h => do
      let h ← freeChains fuel bins n h
      freeChain fuel (bins n) h

/-- `st_clear`. -/
def stClear (h : StHeap D) (t : StTable D) : Except StFault (StHeap D × StTable D) :=
  match t.bins with
  | .packed _ => .ok (h, { t with numEntries := 0 })
  | .hashed bins => do
      let h ← freeChains (t.numEntries + 1) bins t.numBins h
      return (h, { t with bins := .hashed fun _ => none, numEntries := 0, head := none })

/-- `*tail = entry` in the loop of `st_copy`, where `tail` is the head of the new table or the
`fore` of the last copy: the memory and the head. -/
def setTail (h : StHeap D) (prev first entry : Option ℕ) : Except StFault (StHeap D × Option ℕ) :=
  match prev with
  | none => .ok (h, entry)
  | some _ => do
      let ep ← h.load prev
      let h ← h.store prev { ep with fore := entry }
      return (h, first)

/-- The end of `st_copy`: the first and the last copy are linked. -/
def closeRing (h : StHeap D) (first last : Option ℕ) : Except StFault (StHeap D) := do
  let ef ← h.load first
  let h ← h.store first { ef with back := last }
  let el ← h.load last
  h.store last { el with fore := first }

/-- The loop of `st_copy` from the entry `ptr` on. `prev` is the last copy made and `first` the
first one. -/
def copyFrom (head : Option ℕ) (numBins : ℕ) :
    ℕ → Option ℕ → StHeap D → (ℕ → Option ℕ) → Option ℕ → Option ℕ →
      Except StFault (StHeap D × (ℕ → Option ℕ) × Option ℕ)
  | 0, _, _, _, _, _ => .error .undefined
  | fuel + 1, ptr, h, bins, prev, first => do
      let e ← h.load ptr
      let b := binPos e.hash numBins
      let entry := some h.brk
      let (h, first) ← setTail (h.alloc { e with next := bins b, back := prev }) prev first entry
      let bins := Function.update bins b entry
      if e.fore = head then
        let h ← closeRing h first entry
        return (h, bins, first)
      else copyFrom head numBins fuel e.fore h bins entry first

/-- `st_copy`. -/
def stCopy (h : StHeap D) (t : StTable D) : Except StFault (StHeap D × StTable D) :=
  match t.bins, t.head with
  | .packed _, _ => .ok (h, t)
  | .hashed _, none => .ok (h, { t with bins := .hashed fun _ => none })
  | .hashed _, some p => do
      let (h, bins, first) ← copyFrom (some p) t.numBins (t.numEntries + 1) (some p) h
        (fun _ => none) none none
      return (h, { t with bins := .hashed bins, head := first })

/-- The answers of a callback that `st_foreach` is modelled for. -/
inductive StRetval
  | «continue»
  | stop
  | delete
  deriving DecidableEq, Repr

/-- A callback of `st_foreach`: its answer to a pair may depend on all the pairs before. -/
abbrev StCallback (D : Type) := List (D × D) → D × D → StRetval

/-- The loop of `st_foreach` over packed entries, with the pairs visited so far. -/
def foreachPacked (func : StCallback D) :
    ℕ → ℕ → List (D × D) → StTable D → Except StFault (List (D × D) × StTable D)
  | 0, _, _, _ => .error .undefined
  | fuel + 1, i, visited, t =>
      match t.bins with
      | .hashed _ => .error .undefined
      | .packed cells =>
          if i < t.numEntries then
            let pair := (cells (i * 2), cells (i * 2 + 1))
            match func visited pair with
            | .continue => foreachPacked func fuel (i + 1) (visited ++ [pair]) t
            | .stop => .ok (visited ++ [pair], t)
            | .delete => foreachPacked func fuel i (visited ++ [pair]) (packedRemove t cells i)
          else .ok (visited, t)

/-- The loop of `st_foreach` over the ring, from the entry `ptr` on. -/
def foreachRing (func : StCallback D) :
    ℕ → Option ℕ → List (D × D) → StHeap D → StTable D →
      Except StFault (List (D × D) × StHeap D × StTable D)
  | 0, _, _, _, _ => .error .undefined
  | fuel + 1, ptr, visited, h, t => do
      let e ← h.load ptr
      let done := e.fore = t.head
      let visited' := visited ++ [(e.key, e.record)]
      match func visited (e.key, e.record) with
      | .continue =>
          if done ∨ t.head = none then return (visited', h, t)
          else foreachRing func fuel e.fore visited' h t
      | .stop => return (visited', h, t)
      | .delete => do
          let bins ← t.chains
          let b := binPos e.hash t.numBins
          match ← unlinkFrom (fun p _ => some p = ptr) b (t.numEntries + 1) none (bins b) h
            bins with
          | none =>
              if done ∨ t.head = none then return (visited', h, t)
              else foreachRing func fuel ptr visited' h t
          | some (p, _, h, bins) => do
              let (h, t) ← removeEntry h { t with bins := .hashed bins } p
              let h ← h.free p
              if e.fore = some p then return (visited', h, t)
              else if done ∨ t.head = none then return (visited', h, t)
              else foreachRing func fuel e.fore visited' h t

attribute [grind =] foreachRing

/-- `st_foreach`: the pairs the callback is given, in order. -/
def stForeach (func : StCallback D) (h : StHeap D) (t : StTable D) :
    Except StFault (List (D × D) × StHeap D × StTable D) :=
  match t.bins with
  | .packed _ => do
      let (visited, t) ← foreachPacked func (t.numEntries + 1) 0 [] t
      return (visited, h, t)
  | .hashed _ =>
      match t.head with
      | none => .ok ([], h, t)
      | some p => foreachRing func (t.numEntries + 1) (some p) [] h t

/-! ## The tables of one memory -/

/-- Tables in one memory. -/
structure StState (D : Type) where
  heap : StHeap D
  tables : List (StTable D)

/-- An operation on a table; a copy becomes a new table. -/
inductive StOp (D : Type)
  | insert (key value : D)
  | addDirect (key value : D)
  | delete (key : D)
  | lookup (key : D)
  | numEntries
  | clear
  | copy
  | foreach (func : StCallback D)

/-- What an operation answers. -/
inductive StAnswer (D : Type)
  | void
  | flag (b : Bool)
  | found (value : Option D)
  | deleted (b : Bool) (key value : D)
  | count (n : ℕ)
  | visited (pairs : List (D × D))
  | fault (f : StFault)
  deriving DecidableEq

/-- An operation on one table: its answer, the memory, the table and the copy made. -/
def stOp [Zero D] (type : StHashType D) (h : StHeap D) (t : StTable D) :
    StOp D → Except StFault (StAnswer D × StHeap D × StTable D × List (StTable D))
  | .insert key value => do
      let (b, h, t) ← stInsert type h t key value
      return (.flag b, h, t, [])
  | .addDirect key value => do
      let (h, t) ← stAddDirect type h t key value
      return (.void, h, t, [])
  | .delete key => do
      let ((b, key, value), h, t) ← stDelete type h t key
      return (.deleted b key value, h, t, [])
  | .lookup key => do
      let value ← stLookup type h t key
      return (.found value, h, t, [])
  | .numEntries => return (.count t.numEntries, h, t, [])
  | .clear => do
      let (h, t) ← stClear h t
      return (.void, h, t, [])
  | .copy => do
      let (h, t') ← stCopy h t
      return (.void, h, t, [t'])
  | .foreach func => do
      let (visited, h, t) ← stForeach func h t
      return (.visited visited, h, t, [])

/-- The operation on the table of a number. -/
def stStep [Zero D] (type : StHashType D) (s : StState D) (op : ℕ × StOp D) :
    StAnswer D × StState D :=
  match s.tables[op.1]? with
  | none => (.void, s)
  | some t =>
      match stOp type s.heap t op.2 with
      | .error f => (.fault f, s)
      | .ok (ans, h, t, copies) => (ans, ⟨h, s.tables.set op.1 t ++ copies⟩)

end MacRuby
