import MacRuby.Dir.Fnmatch

/-!
# `glob_helper`

The walk through a directory tree that `Dir.glob` makes, with the list that it makes of a pattern.
The file system is a tree of names. A walk is the paths that the function was called with, in
order, and the status that it ended with.

## Main definitions

* `Tree` — a finite directory tree without symbolic links.
* `GlobPattern`, `globMakePattern` — the list of a pattern; a pointer into it is a tail.
* `Walk` — calls and a status.
* `globHelper`, `rubyGlob0` — the walk.
-/

namespace MacRuby.Dir

/-! ## The file system -/

/-- A finite directory tree without symbolic links. A path is the list of its names; it is there
when it has a kind, which tells whether it is a directory. -/
structure Tree where
  kind : List (List UInt8) → Option Bool
  /-- The names that `readdir` lists. -/
  entries : List (List UInt8) → List (List UInt8)
  height : ℕ
  root : kind [] = some true
  mem_entries : ∀ ns n, n ∈ entries ns ↔ kind ns = some true ∧ (kind (ns ++ [n])).isSome = true
  nodup_entries : ∀ ns, (entries ns).Nodup
  parent : ∀ ns n, (kind (ns ++ [n])).isSome = true → kind ns = some true
  name_ok : ∀ ns n, (kind (ns ++ [n])).isSome = true →
    n ≠ [] ∧ n ≠ [46] ∧ n ≠ [46, 46] ∧ 47 ∉ n ∧ 0 ∉ n
  length_le : ∀ ns, (kind ns).isSome = true → ns.length ≤ height

/-- `lstat`, and `stat`, which is the same without symbolic links: whether the path is a
directory, if it is there. -/
def Tree.lstat (t : Tree) (path : List UInt8) : Option Bool := t.kind (path.splitOn 47)

/-- `opendir` and `readdir`; the empty path is the directory `.` here. -/
def Tree.readdir (t : Tree) (path : List UInt8) : Option (List (List UInt8)) :=
  let ns := if path = [] then [] else path.splitOn 47
  if t.kind ns = some true then some (t.entries ns) else none

/-! ## Patterns -/

/-- `struct glob_pattern`. -/
inductive GlobPattern
  | plain (str : List UInt8)
  | magical (str : List UInt8)
  | recursive
  | matchAll
  | matchDir
  deriving DecidableEq, Repr

/-- `ISALPHA(c)`. -/
def isAlpha (c : UInt8) : Bool := isUpper c || (97 ≤ c && c ≤ 122)

/-- `has_magic(s, flags)`, where `FNM_SYSCASE` is 0. -/
def hasMagic (fl : Flags) : List UInt8 → Bool
  | [] => false
  | c :: p =>
      if c = 42 ∨ c = 63 ∨ c = 91 then true
      else if c = 92 then
        if fl.escape then
          match p with
          | [] => false
          | _ :: q => hasMagic fl q
        else hasMagic fl p
      else if isAlpha c && fl.casefold then true
      else hasMagic fl p

attribute [grind =] hasMagic

/-- `find_dirsep(s, flags)`: what stands before the separator, and the pattern from there on. -/
def findDirsep (escape : Bool) (isOpen : Bool) : List UInt8 → List UInt8 × List UInt8
  | [] => ([], [])
  | c :: p =>
      if c = 47 ∧ isOpen = false then ([], c :: p)
      else if c = 92 ∧ escape = true then
        match p with
        | [] => ([c], [])
        | d :: q =>
            let r := findDirsep escape isOpen q
            (c :: d :: r.1, r.2)
      else
        let r := findDirsep escape (if c = 91 then true else if c = 93 then false else isOpen) p
        (c :: r.1, r.2)
termination_by p => p.length

/-- The loop of `glob_make_pattern`, with the last element of the list; every turn takes a byte at
least. -/
def globMakeLoop (fl : Flags) : ℕ → Bool → List UInt8 → List GlobPattern
  | 0, _, _ => []
  | n + 1, dirsep, p =>
      if p = [] then [if dirsep then .matchDir else .matchAll]
      else if skipRecursive p ≠ p then .recursive :: globMakeLoop fl n true (skipRecursive p)
      else
        let r := findDirsep fl.escape false p
        (if hasMagic fl r.1 then .magical r.1 else .plain r.1) ::
          globMakeLoop fl n (r.2 ≠ []) r.2.tail

/-- `glob_make_pattern(p, flags)`. -/
def globMakePattern (fl : Flags) (p : List UInt8) : List GlobPattern :=
  globMakeLoop fl (p.length + 1) false p

/-- `remove_backslashes(p)`. -/
def removeBackslashes : List UInt8 → List UInt8
  | [] => []
  | c :: p =>
      if c = 92 then
        match p with
        | [] => []
        | d :: q => d :: removeBackslashes q
      else c :: removeBackslashes p

/-- `join_path(path, dirsep, name)`. -/
def joinPath (path : List UInt8) (dirsep : Bool) (name : List UInt8) : List UInt8 :=
  path ++ (if dirsep then [47] else []) ++ name

/-! ## Walks -/

/-- How a walk ends: with status 0, with another status, or for want of turns. -/
inductive Status
  | ok
  | stopped (status : ℤ)
  | exhausted
  deriving DecidableEq, Repr

/-- The paths that the function was called with, and how the walk ended. -/
structure Walk where
  calls : List (List UInt8)
  status : Status
  deriving DecidableEq, Repr

namespace Walk

def done : Walk := ⟨[], .ok⟩

/-- `if (status) return status`. -/
def andThen (w k : Walk) : Walk :=
  if w.status = .ok then ⟨w.calls ++ k.calls, k.status⟩ else w

/-- Walks in a loop, `if (status) break`. -/
def all (ws : List Walk) : Walk := ws.foldr andThen done

end Walk

/-- `enum answer`. -/
inductive Answer3
  | yes
  | no
  | unknown
  deriving DecidableEq, Repr

section Helper

variable (fl : Flags) (t : Tree) (func : List UInt8 → ℤ)

/-- `glob_call_func(func, path, arg)`. -/
def globCallFunc (path : List UInt8) : Walk :=
  ⟨[path], if func path = 0 then .ok else .stopped (func path)⟩

/-- The pattern behind a `RECURSIVE`, 0 times recursion. -/
def afterRecursion : List GlobPattern → List GlobPattern
  | .recursive :: p => p
  | p => p

/-- `fnmatch(p, s, flags) == 0` -/
def fnmatches (p s : List UInt8) : Bool := fnmatch fl p s == some 0

/-- The tails that go on with an entry; `isdir` tells whether it is a directory to recur into. -/
def newTails (tails : List (List GlobPattern)) (isdir : Bool) (name : List UInt8) :
    List (List GlobPattern) :=
  tails.flatMap fun tail =>
    (match tail with
      | .recursive :: _ => if isdir then [tail] else []
      | _ => []) ++
    match afterRecursion tail with
    | .plain str :: next => if fnmatches fl str name then [next] else []
    | .magical str :: next => if fnmatches fl str name then [next] else []
    | _ => []

/-- The loop over the plain patterns: the first, with those that match its name too, and then what
is left; a pattern is its string and what follows it. -/
def plainGroups : ℕ → List (List UInt8 × List GlobPattern) →
    List (List UInt8 × List (List GlobPattern))
  | 0, _ => []
  | _, [] => []
  | n + 1, (str, next) :: rest =>
      let name := if fl.escape then removeBackslashes str else str
      (name, next :: (rest.filter fun q => fnmatches fl q.1 name).map Prod.snd) ::
        plainGroups n (rest.filter fun q => !fnmatches fl q.1 name)

/-- The string and the rest of a plain pattern. -/
def plainTail : List GlobPattern → Option (List UInt8 × List GlobPattern)
  | .plain str :: next => some (str, next)
  | _ => none

/-- `glob_helper(path, dirsep, exist, isdir, beg, end, flags, func, arg)`, for so many levels. The
last branch of the first `isdir` is the Objective-C constant `NO`, which is 0 and so `DIR_YES`. -/
def globHelper : ℕ → List UInt8 → Bool → Answer3 → Answer3 → List (List GlobPattern) → Walk
  | 0, _, _, _, _, _ => ⟨[], .exhausted⟩
  | n + 1, path, dirsep, exist, isdir, tails =>
      let recursive := tails.any fun p => p.head? = some .recursive
      let heads := tails.map fun p => (afterRecursion p).head?
      let plain := heads.any fun h => h matches some (.plain _)
      let magical := heads.any fun h => h matches some (.magical _)
      let matchAll := heads.any fun h => h = some .matchAll
      let matchDir := heads.any fun h => h = some .matchDir
      let a : Answer3 × Answer3 :=
        if path ≠ [] ∧ matchAll ∧ exist = .unknown then
          match t.lstat path with
          | some _ => (.yes, .yes)
          | none => (.no, .no)
        else (exist, isdir)
      let a : Answer3 × Answer3 :=
        if path ≠ [] ∧ matchDir ∧ a.2 = .unknown then
          match t.lstat path with
          | some true => (.yes, .yes)
          | some false => (.yes, .no)
          | none => (.no, .no)
        else a
      let w := if path ≠ [] ∧ matchAll ∧ a.1 = .yes then globCallFunc func path else .done
      let w := w.andThen (if path ≠ [] ∧ matchDir ∧ a.2 = .yes
        then globCallFunc func (joinPath path dirsep []) else .done)
      w.andThen <|
        if a.1 = .no ∨ a.2 = .no then .done
        else if magical ∨ recursive then
          match t.readdir path with
          | none => .done
          | some names => Walk.all <| names.map fun name =>
              let buf := joinPath path dirsep name
              let isdir : Answer3 :=
                if recursive ∧ name ≠ [46] ∧ name ≠ [46, 46] ∧ fnmatches fl [42] name then
                  if t.lstat buf = some true then .yes else .no
                else .unknown
              globHelper n buf true .yes isdir (newTails fl tails (isdir = .yes) name)
        else if plain then
          Walk.all <| (plainGroups fl tails.length (tails.filterMap plainTail)).map fun g =>
            globHelper n (joinPath path dirsep g.1) true .unknown .unknown g.2
        else .done

/-- `ruby_glob0(path, flags, func, arg)`; the levels are those of the tree and of the list. -/
def rubyGlob0 (path : List UInt8) : Walk :=
  let root := if path.head? = some 47 then path.tail else path
  let list := globMakePattern fl root
  globHelper fl t func (t.height + list.length + 1) (if path.head? = some 47 then [47] else [])
    false .unknown .unknown [list]

end Helper

end MacRuby.Dir
