import MacRuby.Lib.Assoc
import MacRuby.St.Table

/-!
# Ordered maps

What a hash table is for: a finite map that keeps its pairs in the order in which their keys were
first inserted. The operations here are those of `StOp`, on association lists, and answer what
the tables have to answer.

## Main definitions

* `walk` — the pairs a callback is given, and those it keeps.
* `mapOp`, `mapStep` — the operations on one map, and on the maps of a list.
-/

namespace MacRuby

variable {D : Type}

/-- The pairs that a callback is given, after those visited before, and the pairs that stay. -/
def walk (func : StCallback D) : List (D × D) → List (D × D) → List (D × D) × List (D × D)
  | visited, [] => (visited, [])
  | visited, pair :: m =>
      match func visited pair with
      | .continue =>
          let (visited, kept) := walk func (visited ++ [pair]) m
          (visited, pair :: kept)
      | .stop => (visited ++ [pair], pair :: m)
      | .delete => walk func (visited ++ [pair]) m

attribute [grind =] walk

section Walk

variable {func : StCallback D} {visited : List (D × D)} {pair : D × D}

theorem walk_continue (hf : func visited pair = .continue) (m : List (D × D)) :
    walk func visited (pair :: m) =
      ((walk func (visited ++ [pair]) m).1, pair :: (walk func (visited ++ [pair]) m).2) := by
  rw [walk, hf]

theorem walk_stop (hf : func visited pair = .stop) (m : List (D × D)) :
    walk func visited (pair :: m) = (visited ++ [pair], pair :: m) := by
  rw [walk, hf]

theorem walk_delete (hf : func visited pair = .delete) (m : List (D × D)) :
    walk func visited (pair :: m) = walk func (visited ++ [pair]) m := by
  rw [walk, hf]

end Walk

variable [DecidableEq D]

/-- An operation on one map: its answer, the map and the copy made. -/
def mapOp [Zero D] (type : StHashType D) (m : List (D × D)) :
    StOp D → StAnswer D × List (D × D) × List (List (D × D))
  | .insert key value =>
      (.flag (Assoc.lookup type.equal m key).isSome, Assoc.store type.equal m key value, [])
  | .addDirect key value => (.void, m ++ [(key, value)], [])
  | .delete key =>
      match Assoc.entry type.equal m key with
      | some (key', value) => (.deleted true key' value, Assoc.remove type.equal m key, [])
      | none => (.deleted false key 0, m, [])
  | .lookup key => (.found (Assoc.lookup type.equal m key), m, [])
  | .numEntries => (.count m.length, m, [])
  | .clear => (.void, [], [])
  | .copy => (.void, m, [m])
  | .foreach func => (.visited (walk func [] m).1, (walk func [] m).2, [])

/-- The operation on the map of a number. -/
def mapStep [Zero D] (type : StHashType D) (ms : List (List (D × D))) (op : ℕ × StOp D) :
    StAnswer D × List (List (D × D)) :=
  match ms[op.1]? with
  | none => (.void, ms)
  | some m =>
      let (ans, m, copies) := mapOp type m op.2
      (ans, ms.set op.1 m ++ copies)

end MacRuby
