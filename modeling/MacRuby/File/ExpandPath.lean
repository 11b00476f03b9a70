import MacRuby.File.Path
import MacRuby.Lib.Result

/-!
# `File.expand_path`

`file_expand_path` writes the path into the bytes of the string `result`, with a pointer `p` that
sits on the last separator. `buflen` is kept beside the string and is meant to be its length in
bytes; where the string is not grown with it, the code writes behind its end.

## Main definitions

* `Buf`, `bufcheck`, `write` — the buffer.
* `goBack`, `push`, `scan`, `finish` — the loop over the path.
* `expandFrom`, `fileExpandPath` — the function.
-/

namespace MacRuby.File

/-- Why there is no result. -/
inductive Failure where
  /-- Memory behind the bytes of the string is read or written. -/
  | overrun
  /-- An empty buffer is doubled for ever. -/
  | loops
  /-- An `ArgumentError`: its format, and what is put into it. -/
  | argumentError (format : String) (arg : List UInt8)
  deriving DecidableEq, Repr

/-- What the function asks the system for. -/
structure Env where
  /-- `getenv("HOME")` -/
  home : Option (List UInt8)
  /-- `getpwnam(name)->pw_dir` -/
  pwDir : List UInt8 → Option (List UInt8)
  /-- `my_getcwd()` -/
  getcwd : List UInt8
  /-- `MAXPATHLEN` -/
  maxpathlen : ℕ

/-- The bytes of `result`, and the variables `p` and `buflen`. -/
structure Buf where
  data : List UInt8
  p : ℕ
  buflen : ℕ
  deriving DecidableEq, Repr

/-! ## The buffer -/

/-- `do {buflen *= 2;} while (limit >= buflen)`, or nothing if `limit < buflen`. -/
def doubled (limit buflen : ℕ) : ℕ :=
  if buflen = 0 then 0
  else if limit < buflen then buflen
  else doubled limit (buflen * 2)
termination_by limit + 1 - buflen

/-- `CFDataSetLength`: new bytes are zero. -/
def resize (data : List UInt8) (len : ℕ) : List UInt8 :=
  data.take len ++ List.replicate (len - data.length) 0

/-- `BUFCHECK(limit >= buflen)`. -/
def bufcheck (buf : Buf) (limit : ℕ) : Except Failure Buf :=
  if limit < buf.buflen then .ok buf
  else if buf.buflen = 0 then .error .loops
  else
    let buflen := doubled limit buf.buflen
    .ok ⟨resize buf.data buflen, buf.p, buflen⟩

/-- Copying bytes to place `i`. -/
def write (buf : Buf) (i : ℕ) (bytes : List UInt8) : Except Failure Buf :=
  if i + bytes.length ≤ buf.data.length then
    .ok { buf with data := buf.data.take i ++ (bytes ++ buf.data.drop (i + bytes.length)) }
  else .error .overrun

/-- The string that begins at `buf`. -/
def cstr (data : List UInt8) : Except Failure (List UInt8) :=
  if 0 ∈ data then .ok (data.takeWhile (· ≠ 0)) else .error .overrun

/-! ## The loop -/

/-- Going back to the parent. -/
def goBack (buf : Buf) : Except Failure Buf := do
  let buf ← write buf buf.p [0]
  let path ← cstr buf.data
  match rbPathLastSeparator path 0 none with
  | none => write buf buf.p [47]
  | some n => return { buf with p := n }

/-- A path element, and a separator after it. -/
def push (buf : Buf) (elem : List UInt8) : Except Failure Buf := do
  let buf ← bufcheck buf (buf.p + (elem.length + 1))
  let buf ← write buf (buf.p + 1) (elem ++ [47])
  return { buf with p := buf.p + 1 + elem.length }

/-- The loop `while (*s)`: `elem` is what stands between `b` and `s`. At the end what is left of the
last element is returned. -/
def scan (buf : Buf) (elem : List UInt8) (s : List UInt8) : Except Failure (Buf × List UInt8) :=
  match s with
  | [] => .ok (buf, elem)
  | c :: s =>
      if c = 46 then
        if elem = [] then
          if s = [] then .ok (buf, [])
          else if s.head? = some 46 then
            if s.tail = [] ∨ s.tail.head? = some 47 then
              match goBack buf with
              | .error e => .error e
              | .ok buf => scan buf [] s.tail
            else scan buf [46] s
          else if s.head? = some 47 then scan buf [] s.tail
          else scan buf [46] s
        else scan buf (elem ++ [46]) s
      else if c = 47 then
        if elem = [] then scan buf [] s
        else
          match push buf elem with
          | .error e => .error e
          | .ok buf => scan buf [] s
      else scan buf (elem ++ [c]) s
termination_by s.length
decreasing_by all_goals (simp only [List.length_cons, List.length_tail]; omega)

/-- What stands behind the loop: the last element, and the separator of the root. -/
def finish (buf : Buf) (elem : List UInt8) : Except Failure (List UInt8) := do
  let buf ← if elem = [] then pure buf else do
    let buf ← bufcheck buf (buf.p + elem.length)
    let buf ← write buf (buf.p + 1) elem
    pure { buf with p := buf.p + 1 + elem.length }
  let p := if buf.p + 1 = skiproot buf.data then buf.p + 1 else buf.p
  return resize buf.data p

/-! ## The function -/

/-- `if (p > buf && p[-1] == '/') --p; else ...`, and `p[1] = 0`. -/
def settle (buf : Buf) : Except Failure Buf := do
  let buf ← if 0 < buf.p ∧ buf.data[buf.p - 1]? = some 47 then pure { buf with p := buf.p - 1 }
    else do
      let buf ← bufcheck { buf with buflen := buf.buflen + 1 } buf.p
      write buf buf.p [47]
  write buf (buf.p + 1) [0]

/-- `strcpy(buf, dir)`, when there is room for it. -/
def copyDir (buf : Buf) (dir : List UInt8) : Except Failure Buf := do
  let buf ← if buf.buflen < dir.length then bufcheck buf (dir.length - 1) else pure buf
  write buf 0 (dir ++ [0])

/-- `p = chompdirsep(skiproot(buf))`. -/
def toEnd (buf : Buf) : Except Failure Buf := do
  let path ← cstr buf.data
  return { buf with p := chompdirsep (path.drop (skiproot path)) (skiproot path) }

/-- `file_expand_path(fname, dname, result)`, where `relative` is what is done with a relative
path. -/
def expandFrom (env : Env) (relative : List UInt8 → Except Failure Buf) (fname : List UInt8)
    (result : List UInt8) : Except Failure (List UInt8) := do
  let buf : Buf := ⟨result, 0, result.length⟩
  let (buf, s) ←
    if fname.head? = some 126 then
      let s := fname.tail
      if s = [] ∨ s.head? = some 47 then
        match env.home with
        | none => throw (.argumentError "couldn't find HOME environment -- expanding `%s'" fname)
        | some dir => do
            let buf ← copyDir buf dir
            pure ({ buf with p := dir.length }, s)
      else do
        let user := s.takeWhile (· ≠ 47)
        let buf ← bufcheck buf (buf.p + user.length)
        let buf ← write buf buf.p (user ++ [0])
        match env.pwDir user with
        | none => throw (.argumentError "user %s doesn't exist" user)
        | some dir => do
            let buf ← copyDir { buf with p := user.length } dir
            pure ({ buf with p := dir.length }, s.drop user.length)
    else if fname.head? = some 47 then do
      let k := skiproot fname
      let buf ← bufcheck { buf with p := k } k
      let buf ← write buf 0 (slashes k)
      pure (buf, fname.drop k)
    else do
      let buf ← relative result
      pure (buf, fname)
  let buf ← settle buf
  let (buf, elem) ← scan buf [] s
  finish buf elem

/-- A relative path without a directory. -/
def fromCwd (env : Env) (result : List UInt8) : Except Failure Buf := do
  let buf ← copyDir ⟨result, 0, result.length⟩ env.getcwd
  toEnd buf

/-- A relative path with a directory, which is expanded first.  The string has byte data then, and
`RSTRING_LEN` is its length. -/
def fromDir (env : Env) (dname : List UInt8) (result : List UInt8) : Except Failure Buf := do
  let result ← expandFrom env (fromCwd env) dname result
  let buf ← bufcheck ⟨result, 0, result.length⟩ (result.length + 1)
  toEnd buf

/-- `rb_file_expand_path(fname, dname)`. -/
def fileExpandPath (env : Env) (fname : List UInt8) (dname : Option (List UInt8)) :
    Except Failure (List UInt8) :=
  let relative := match dname with
    | none => fromCwd env
    | some dname => fromDir env dname
  expandFrom env relative fname (List.replicate (env.maxpathlen + 2) 32)

end MacRuby.File
