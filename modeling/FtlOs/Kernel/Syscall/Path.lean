import Mathlib.Data.List.Infix
import FtlOs.Util.Error

/-!
# Paths returned to user space

`sys_getcwd` and `sys_readlinkat` (`kernel/src/syscall/fs/mod.rs`) take the names of
`VfsFile::path_str` and write them into a user buffer, the second through
`tools::path::write_path_to`.  `path_str` walks from the file up through its parents, and
through the mounts it is seen through, to the root of the vfs; the root's name is `""`, so the
list always starts with an empty name.  Both writers put a slash before every name, the empty
one included: the root comes out as `/`, and every other path as `//c1/.../cn`.

The writers are modelled at the level of their slice operations: an index or a range out of
bounds, and a failed `assert!`, are a panic, `none`.  Left out: the user-pointer checks of
`UserCheck` (a fault is an error before anything is written) and the lookup of the path.
-/

namespace FtlOs
namespace Path

/-- One component of a path: the bytes of its `&str`. -/
abbrev Component := List UInt8

/-- `b'/'`. -/
def slash : UInt8 := 0x2F

/-! ## Slice writes -/

section Slice

variable {α : Type}

/-- `dst[i] = v`: out of bounds is a panic. -/
def setAt (dst : List α) (i : Nat) (v : α) : Option (List α) :=
  if i < dst.length then some (dst.set i v) else none

/-- `dst[p..p + s.len()].copy_from_slice(s)`: out of bounds is a panic. -/
def copyAt (dst : List α) (p : Nat) (s : List α) : Option (List α) :=
  if p + s.length ≤ dst.length then some (dst.take p ++ s ++ dst.drop (p + s.length))
  else none

/-- Writing the byte after a written prefix `w` replaces the first byte after it. -/
theorem setAt_append (w u : List α) (a v : α) :
    setAt (w ++ a :: u) w.length v = some (w ++ v :: u) := by
  simp [setAt]

/-- Copying right after a written prefix `w` replaces as many bytes as it copies. -/
theorem copyAt_append (w u s : List α) (room : s.length ≤ u.length) :
    copyAt (w ++ u) w.length s = some (w ++ s ++ u.drop s.length) := by
  simp [copyAt, room]

end Slice

/-! ## `VfsFile::path_str` -/

/-- A dentry and its parents.  `Dentry::new_root` makes the root of a file system, the vfs's
or a mounted one's, with no parent and the name `""`; every other dentry has a parent and a
name of its own. -/
inductive Dentry
  | root (fs : Nat)
  | child (parent : Dentry) (name : Component)
  deriving DecidableEq

namespace Dentry

/-- `Dentry::name`. -/
def name : Dentry → Component
  | root _ => []
  | child _ name => name

/-- `Dentry::parent`. -/
def parent : Dentry → Option Dentry
  | root _ => none
  | child parent _ => some parent

/-- How many parents the dentry has. -/
def depth : Dentry → Nat
  | root _ => 0
  | child parent _ => parent.depth + 1

theorem parent_eq_none_iff {d : Dentry} : d.parent = none ↔ ∃ fs, d = root fs := by
  cases d <;> simp [parent]

theorem parent_eq_some_iff {d p : Dentry} : d.parent = some p ↔ ∃ name, d = child p name := by
  cases d <;> simp [parent, eq_comm]

end Dentry

/-- The mount a path is seen through, the `Option<NonNull<Mount>>` of `Path`: `vfs` is `None`,
the tree of the vfs root; `mounted parent locate fs` is the file system `fs`, whose root is
`Dentry.root fs`, mounted over the dentry `locate` of the mount `parent`. -/
inductive Mount
  | vfs
  | mounted (parent : Mount) (locate : Dentry) (fs : Nat)
  deriving DecidableEq

/-- `Path`: a dentry and the mount it is seen through. -/
structure VfsPath where
  mount : Mount
  dentry : Dentry
  deriving DecidableEq

/-- `Path::run_mount_prev`: while the dentry is the root of its mount, step back to where that
mount is. -/
def runMountPrev : Mount → Dentry → VfsPath
  | .vfs, d => ⟨.vfs, d⟩
  | .mounted parent locate fs, d =>
    if d = .root fs then runMountPrev parent locate else ⟨.mounted parent locate fs, d⟩

/-- `Path::parent`. -/
def VfsPath.parent (p : VfsPath) : Option VfsPath :=
  let p := runMountPrev p.mount p.dentry
  p.dentry.parent.map (⟨p.mount, ·⟩)

/-- The dentries above a path, through every mount: what the loop of `path_str` climbs. -/
def height : Mount → Dentry → Nat
  | .vfs, d => d.depth
  | .mounted parent locate _, d => d.depth + height parent locate + 1

theorem height_child (m : Mount) (d : Dentry) (name : Component) :
    height m (.child d name) = height m d + 1 := by
  cases m with
  | vfs => rfl
  | mounted parent locate fs =>
    simp only [height, Dentry.depth]
    omega

/-- Stepping back over mount roots never climbs. -/
theorem height_runMountPrev (m : Mount) (d : Dentry) :
    height (runMountPrev m d).mount (runMountPrev m d).dentry ≤ height m d := by
  fun_induction runMountPrev m d with
  | case1 d => exact Nat.le_refl _
  | case2 parent locate fs ih =>
    -- off the root of `fs`, back to `locate`
    simp only [height]
    omega
  | case3 parent locate fs d _ => exact Nat.le_refl _

/-- `run_mount_prev` moves only off a mount's root. -/
theorem runMountPrev_dentry (m : Mount) (d : Dentry) :
    (runMountPrev m d).dentry = d ∨ ∃ fs, d = .root fs := by
  fun_induction runMountPrev m d with
  | case1 d => exact .inl rfl
  | case2 parent locate fs _ => exact .inr ⟨fs, rfl⟩
  | case3 parent locate fs d _ => exact .inl rfl

theorem height_parent_lt {p q : VfsPath} (up : p.parent = some q) :
    height q.mount q.dentry < height p.mount p.dentry := by
  obtain ⟨d, above, rfl⟩ := Option.map_eq_some_iff.mp up
  obtain ⟨name, below⟩ := Dentry.parent_eq_some_iff.mp above
  have climbed := height_runMountPrev p.mount p.dentry
  rw [below, height_child] at climbed
  exact Nat.lt_of_succ_le climbed

/-- A path with no parent is a root, whose name is empty. -/
theorem name_of_parent_eq_none {p : VfsPath} (top : p.parent = none) : p.dentry.name = [] := by
  have noParent : (runMountPrev p.mount p.dentry).dentry.parent = none :=
    Option.map_eq_none_iff.mp top
  obtain ⟨fs, isRoot⟩ := Dentry.parent_eq_none_iff.mp noParent
  rcases runMountPrev_dentry p.mount p.dentry with same | ⟨fs', atRoot⟩
  · rw [← same, isRoot]
    rfl
  · rw [atRoot]
    rfl

/-- The loop of `VfsFile::path_str`: push the name, go to the parent. -/
def pathStrLoop (p : VfsPath) (v : List Component) : List Component :=
  match _up : p.parent with
  | none => v ++ [p.dentry.name]
  | some q => pathStrLoop q (v ++ [p.dentry.name])
termination_by height p.mount p.dentry
decreasing_by exact height_parent_lt _up

/-- `VfsFile::path_str`: the names from the top down. -/
def pathStr (p : VfsPath) : List Component := (pathStrLoop p []).reverse

theorem pathStrLoop_of_parent_eq_none {p : VfsPath} (top : p.parent = none) (v : List Component) :
    pathStrLoop p v = v ++ [p.dentry.name] := by
  rw [pathStrLoop]
  split
  · rfl
  · simp_all

theorem pathStrLoop_of_parent_eq_some {p q : VfsPath} (up : p.parent = some q)
    (v : List Component) : pathStrLoop p v = pathStrLoop q (v ++ [p.dentry.name]) := by
  rw [pathStrLoop]
  split
  · simp_all
  · simp_all

/-- The loop only appends to what it was given. -/
theorem pathStrLoop_eq_append (p : VfsPath) (v : List Component) :
    pathStrLoop p v = v ++ pathStrLoop p [] := by
  cases up : p.parent with
  | none => simp [pathStrLoop_of_parent_eq_none up]
  | some q =>
    rw [pathStrLoop_of_parent_eq_some up, pathStrLoop_of_parent_eq_some up,
      pathStrLoop_eq_append q, pathStrLoop_eq_append q (_ ++ _)]
    simp
termination_by height p.mount p.dentry
decreasing_by all_goals exact height_parent_lt up

theorem pathStr_of_parent_eq_none {p : VfsPath} (top : p.parent = none) : pathStr p = [[]] := by
  simp [pathStr, pathStrLoop_of_parent_eq_none top, name_of_parent_eq_none top]

theorem pathStr_of_parent_eq_some {p q : VfsPath} (up : p.parent = some q) :
    pathStr p = pathStr q ++ [p.dentry.name] := by
  rw [pathStr, pathStrLoop_of_parent_eq_some up, pathStrLoop_eq_append, pathStr]
  simp

/-- `path_str` starts with the empty name of the root it climbed to. -/
theorem head_pathStr (p : VfsPath) : (pathStr p).head? = some [] := by
  cases up : p.parent with
  | none => rw [pathStr_of_parent_eq_none up]; rfl
  | some q =>
    have above := head_pathStr q
    rw [pathStr_of_parent_eq_some up, List.head?_append, above]
    rfl
termination_by height p.mount p.dentry
decreasing_by exact height_parent_lt up

/-- Below the top, `path_str` has the root's empty name and at least one name after it. -/
theorem pathStr_of_parent_isSome {p : VfsPath} (up : p.parent.isSome) :
    ∃ name names, pathStr p = [] :: name :: names := by
  obtain ⟨q, up⟩ := Option.isSome_iff_exists.mp up
  obtain ⟨rest, first⟩ := List.head?_eq_some_iff.mp (head_pathStr q)
  cases rest with
  | nil => exact ⟨p.dentry.name, [], by rw [pathStr_of_parent_eq_some up, first]; rfl⟩
  | cons name names =>
    exact ⟨name, names ++ [p.dentry.name], by rw [pathStr_of_parent_eq_some up, first]; rfl⟩

/-! ## The code -/

/-- `path.iter().fold(0, |a, s| a + s.len() + 1)`: a slash and the bytes of each
component. -/
def pathLen (path : List Component) : Nat :=
  path.foldl (fun a s => a + s.length + 1) 0

/-- The loop of `sys_getcwd` over the components, from the position `p` that the
buffer has been re-sliced to. -/
def getcwdLoop : List Component → List UInt8 → Nat → Option (List UInt8 × Nat)
  | [], buf, p => some (buf, p)
  | s :: path, buf, p => do
    let buf ← setAt buf p slash
    let buf ← copyAt buf (p + 1) s
    getcwdLoop path buf (p + 1 + s.length)

/-- `sys_getcwd` with the user buffer `buf` at address `bufIn` and the current
directory `cwd`: the return value and the buffer afterwards. -/
def sysGetcwd (bufIn : Nat) (cwd : VfsPath) (buf : List UInt8) :
    Option (SysR Nat × List UInt8) :=
  if bufIn = 0 then some (.error .EINVAL, buf) else
  let path := pathStr cwd
  let cwdLen := max (pathLen path + 1) 2
  if buf.length ≤ cwdLen then some (.error .ERANGE, buf) else do
    -- `let mut buf = &mut buf[..cwd_len]`
    let window := buf.take cwdLen
    let (window, p) ← if path.isEmpty then (setAt window 0 slash).map (·, 1)
      else pure (window, 0)
    let (window, p) ← getcwdLoop path window p
    let window ← setAt window p 0
    pure (.ok bufIn, window ++ buf.drop cwdLen)

/-- The loop of `write_path_to`, where `max` is `dst.len() - 1`. -/
def writePathLoop (max : Nat) : List Component → List UInt8 → Nat → Option (List UInt8 × Nat)
  | [], dst, p => some (dst, p)
  | s :: src, dst, p =>
    -- `assert!(p + 1 + s.len() <= max)`
    if p + 1 + s.length ≤ max then do
      let dst ← setAt dst p slash
      let dst ← copyAt dst (p + 1) s
      writePathLoop max src dst (p + 1 + s.length)
    else none

/-- `write_path_to`. -/
def writePathTo (src : List Component) (dst : List UInt8) : Option (List UInt8) :=
  if dst.length < 2 then none else do
    let max := dst.length - 1
    let dst ← setAt dst 0 slash
    let dst ← setAt dst max 0
    let (dst, p) ← writePathLoop max src dst 0
    setAt dst p 0

/-- `sys_readlinkat` once `fd_path_open` has found the file `inode`, with the user
buffer `dst` of `size` bytes: the return value and the buffer afterwards. -/
def sysReadlinkat (inode : VfsPath) (dst : List UInt8) : Option (SysR Nat × List UInt8) :=
  let path := pathStr inode
  let plen := max (pathLen path) 1 + 1
  if plen ≥ dst.length then some (.error .ENAMETOOLONG, dst)
  else (writePathTo path dst).map fun dst' => (.ok (min plen dst.length), dst')

/-! ## What the path spells -/

/-- Each component after a slash: `/c1/c2.../cn`, empty for the root. -/
def joined (path : List Component) : List UInt8 :=
  path.flatMap (slash :: ·)

/-- The canonical absolute path: `joined`, and `/` for the root. -/
def canonical (path : List Component) : List UInt8 :=
  if path = [] then [slash] else joined path

@[simp] theorem joined_nil : joined [] = [] := rfl

@[simp] theorem joined_cons (s : Component) (path : List Component) :
    joined (s :: path) = slash :: s ++ joined path := rfl

theorem length_joined_pos {path : List Component} (nonRoot : path ≠ []) :
    0 < (joined path).length := by
  cases path with
  | nil => contradiction
  | cons s path => simp

/-- The fold counts one accumulated length on top of `joined`. -/
theorem foldl_pathLen (path : List Component) (n : Nat) :
    path.foldl (fun a s => a + s.length + 1) n = n + (joined path).length := by
  induction path generalizing n with
  | nil => simp
  | cons s path ih => simp [ih]; omega

theorem pathLen_eq (path : List Component) : pathLen path = (joined path).length := by
  simp [pathLen, foldl_pathLen]

/-- For a path of at least one name, `sys_getcwd`'s `cwd_len` is what `joined` spells and
its NUL. -/
theorem cwdLen_eq {path : List Component} (named : path ≠ []) :
    max (pathLen path + 1) 2 = (joined path).length + 1 := by
  have := length_joined_pos named
  rw [pathLen_eq]
  omega

theorem pathStr_ne_nil (p : VfsPath) : pathStr p ≠ [] := fun empty => by
  simpa [empty] using head_pathStr p

/-! ## The loops -/

/-- The loop of `sys_getcwd` writes `joined path` after the prefix it has written,
when the rest of the buffer has room for it. The induction is on the components,
the written prefix growing by one component at each step. -/
theorem getcwdLoop_spec (path : List Component) (w u : List UInt8)
    (room : (joined path).length ≤ u.length) :
    getcwdLoop path (w ++ u) w.length
      = some (w ++ joined path ++ u.drop (joined path).length,
          w.length + (joined path).length) := by
  induction path generalizing w u with
  | nil => simp [getcwdLoop]
  | cons s path ih =>
    obtain ⟨a, u, rfl⟩ : ∃ a u', u = a :: u' := by
      cases u with
      | nil => simp at room
      | cons a u => exact ⟨a, u, rfl⟩
    simp only [joined_cons, List.length_cons, List.length_append] at room
    -- the slash goes over `a`, the bytes of `s` over the next `s.length` bytes
    have copied : copyAt (w ++ slash :: u) (w.length + 1) s
        = some ((w ++ slash :: s) ++ u.drop s.length) := by
      have := copyAt_append (w ++ [slash]) u s (by omega)
      simpa using this
    have rest := ih (w ++ slash :: s) (u.drop s.length) (by simp; omega)
    simp only [getcwdLoop, setAt_append, Option.bind_eq_bind, Option.bind_some, copied]
    simp only [List.length_append, List.length_cons] at rest
    rw [show w.length + 1 + s.length = w.length + (s.length + 1) by omega, rest]
    simp [List.drop_drop]
    omega

/-- While the path fits below `max`, the `assert!` of `write_path_to` holds at
every component and its loop is the loop of `sys_getcwd`. -/
theorem writePathLoop_eq_getcwdLoop (max : Nat) (path : List Component) (dst : List UInt8)
    (p : Nat) (fits : p + (joined path).length ≤ max) :
    writePathLoop max path dst p = getcwdLoop path dst p := by
  induction path generalizing dst p with
  | nil => rfl
  | cons s path ih =>
    simp only [joined_cons, List.length_cons, List.length_append] at fits
    have asserted : p + 1 + s.length ≤ max := by omega
    simp only [writePathLoop, getcwdLoop, asserted, if_true]
    congr 1
    funext dst
    congr 1
    funext dst
    exact ih dst _ (by omega)

/-! ## The two system calls -/

/-- `sys_getcwd` either reports `ERANGE` and leaves the buffer alone, or writes a slash before
each name of `path_str` and a NUL over the start of the buffer; it never panics. -/
theorem sysGetcwd_spec (bufIn : Nat) (cwd : VfsPath) (buf : List UInt8) (nonNull : bufIn ≠ 0) :
    sysGetcwd bufIn cwd buf =
      if buf.length ≤ (joined (pathStr cwd)).length + 1 then some (.error .ERANGE, buf)
      else some (.ok bufIn,
        joined (pathStr cwd) ++ 0 :: buf.drop ((joined (pathStr cwd)).length + 1)) := by
  have named := pathStr_ne_nil cwd
  simp only [sysGetcwd, nonNull, if_false]
  generalize pathStr cwd = path at named ⊢
  rw [cwdLen_eq named]
  by_cases short : buf.length ≤ (joined path).length + 1
  · simp only [short, if_true]
  simp only [short, if_false]
  -- `path_str` is never empty: the names in turn, then the NUL in the one byte left
  obtain ⟨pre, x, rest, rfl, hpre⟩ :
      ∃ pre x rest, buf = pre ++ x :: rest ∧ pre.length = (joined path).length := by
    cases after : buf.drop (joined path).length with
    | nil => simp at after; omega
    | cons x rest =>
      refine ⟨buf.take (joined path).length, x, rest, ?_, by simp; omega⟩
      rw [← after, List.take_append_drop]
  have window : (pre ++ x :: rest).take ((joined path).length + 1) = pre ++ [x] := by
    rw [List.take_append, List.take_of_length_le (by omega), hpre]
    simp
  have loop : getcwdLoop path (pre ++ [x]) 0 = some (joined path ++ [x], (joined path).length) := by
    have := getcwdLoop_spec path [] (pre ++ [x]) (by simp; omega)
    simpa [hpre] using this
  have nul : setAt (joined path ++ [x]) (joined path).length 0 = some (joined path ++ [0]) :=
    setAt_append _ [] x 0
  simp [window, loop, nul, named]

/-- `write_path_to` writes `joined path` and a NUL from the start of `dst`, and a
NUL over its last byte, whenever the path and its NUL leave that byte free. For an
empty list the NUL would land on the slash written first. -/
theorem writePathTo_spec (path : List Component) (dst : List UInt8)
    (room : (joined path).length + 2 ≤ dst.length) :
    writePathTo path dst
      = some (joined path ++ 0 :: (dst.set (dst.length - 1) 0).drop ((joined path).length + 1)) := by
  have notShort : ¬ dst.length < 2 := by omega
  -- the slash at `0` and the NUL at `max` are different bytes
  have swapped : (dst.set 0 slash).set (dst.length - 1) 0 = (dst.set (dst.length - 1) 0).set 0 slash :=
    List.set_comm _ _ (by omega)
  set marked := (dst.set (dst.length - 1) 0).set 0 slash
  have first : setAt dst 0 slash = some (dst.set 0 slash) := by
    rw [setAt, if_pos (by omega)]
  have last : setAt (dst.set 0 slash) (dst.length - 1) 0 = some marked := by
    rw [setAt, if_pos (by simp; omega), swapped]
  have within : (joined path).length < marked.length := by simp [marked]; omega
  have loop : writePathLoop (dst.length - 1) path marked 0
      = some (joined path ++ marked[(joined path).length] :: marked.drop ((joined path).length + 1),
          (joined path).length) := by
    rw [writePathLoop_eq_getcwdLoop _ path marked 0 (by omega), ← List.drop_eq_getElem_cons within]
    simpa using getcwdLoop_spec path [] marked (by omega)
  have tail : marked.drop ((joined path).length + 1)
      = (dst.set (dst.length - 1) 0).drop ((joined path).length + 1) :=
    List.drop_set_of_lt (by omega)
  simp [writePathTo, notShort, first, last, loop, setAt_append, tail]

/-- `sys_readlinkat` either reports `ENAMETOOLONG` and leaves the buffer alone, or writes a
slash before each name of `path_str`, a NUL, and a NUL over the last byte; it never panics. -/
theorem sysReadlinkat_spec (inode : VfsPath) (dst : List UInt8) :
    sysReadlinkat inode dst =
      if dst.length ≤ (joined (pathStr inode)).length + 1 then some (.error .ENAMETOOLONG, dst)
      else some (.ok ((joined (pathStr inode)).length + 1), joined (pathStr inode) ++
        0 :: (dst.set (dst.length - 1) 0).drop ((joined (pathStr inode)).length + 1)) := by
  have named := length_joined_pos (pathStr_ne_nil inode)
  simp only [sysReadlinkat, pathLen_eq, ge_iff_le, Nat.max_eq_left named]
  by_cases short : dst.length ≤ (joined (pathStr inode)).length + 1
  · simp only [short, if_true]
  · rw [if_neg short, if_neg short, writePathTo_spec _ dst (by omega)]
    simp only [Option.map_some, Option.some.injEq, Prod.mk.injEq, and_true]
    congr 1
    omega

/-! ## What the two calls write -/

/-- At the top of the vfs `path_str` is the root's empty name alone, which both calls spell
`/`. -/
theorem joined_pathStr_of_parent_eq_none {p : VfsPath} (top : p.parent = none) :
    joined (pathStr p) = [slash] := by
  rw [pathStr_of_parent_eq_none top]
  rfl

/-- Anywhere below the top, the root's empty name gets a slash of its own before the next. -/
theorem joined_pathStr_of_parent_isSome {p : VfsPath} (up : p.parent.isSome) :
    ∃ rest, joined (pathStr p) = slash :: slash :: rest := by
  obtain ⟨name, names, named⟩ := pathStr_of_parent_isSome up
  exact ⟨name ++ joined names, by simp [named]⟩

/-- A canonical path never starts with two slashes: its first name is not empty and holds no
slash. -/
theorem canonical_take_two {cs : List Component} (proper : ∀ c ∈ cs, c ≠ [] ∧ slash ∉ c) :
    (canonical cs ++ [0]).take 2 ≠ [slash, slash] := by
  cases cs with
  | nil => simp [canonical, slash]
  | cons c cs =>
    obtain ⟨nonempty, noSlash⟩ := proper c List.mem_cons_self
    obtain ⟨a, c, rfl⟩ := List.exists_cons_of_ne_nil nonempty
    have notSlash : a ≠ slash := fun same => noSlash (same ▸ List.mem_cons_self)
    simp [canonical, notSlash]

theorem doubled_not_canonical {cs : List Component} (proper : ∀ c ∈ cs, c ≠ [] ∧ slash ∉ c)
    {out : List UInt8} (doubled : out.take 2 = [slash, slash]) : ¬ canonical cs ++ [0] <+: out := by
  intro before
  have long : 2 ≤ (canonical cs ++ [0]).length := by
    cases cs with
    | nil => simp [canonical]
    | cons c cs => simp [canonical]; omega
  have agree := (List.IsPrefix.take before 2).eq_of_length (by
    rw [doubled, List.length_take]
    simp only [List.length_cons, List.length_nil]
    omega)
  exact canonical_take_two proper (agree.trans doubled)

/-- At the top of the vfs both calls write `/` and a NUL, when the buffer has room for them. -/
theorem getcwd_readlinkat_top {p : VfsPath} (top : p.parent = none) {bufIn : Nat}
    (nonNull : bufIn ≠ 0) {buf : List UInt8} (room : 3 ≤ buf.length) :
    sysGetcwd bufIn p buf = some (.ok bufIn, slash :: 0 :: buf.drop 2) ∧
      sysReadlinkat p buf = some (.ok 2, slash :: 0 :: (buf.set (buf.length - 1) 0).drop 2) := by
  have spelled := joined_pathStr_of_parent_eq_none top
  rw [sysGetcwd_spec _ _ _ nonNull, sysReadlinkat_spec, spelled]
  simp only [List.length_singleton, if_neg (show ¬ buf.length ≤ 1 + 1 by omega)]
  exact ⟨rfl, rfl⟩

/-- Anywhere below the top of the vfs both calls succeed on a buffer with room and write two
slashes first, which no canonical path begins with: `/a` comes out as `//a`. -/
theorem getcwd_readlinkat_double_slash (p : VfsPath) (up : p.parent.isSome) (bufIn : Nat)
    (nonNull : bufIn ≠ 0) (buf : List UInt8) (room : (joined (pathStr p)).length + 2 ≤ buf.length) :
    ∃ cwd link, sysGetcwd bufIn p buf = some (.ok bufIn, cwd) ∧
      sysReadlinkat p buf = some (.ok ((joined (pathStr p)).length + 1), link) ∧
      cwd.take 2 = [slash, slash] ∧ link.take 2 = [slash, slash] ∧
      ∀ cs : List Component, (∀ c ∈ cs, c ≠ [] ∧ slash ∉ c) →
        ¬ canonical cs ++ [0] <+: cwd ∧ ¬ canonical cs ++ [0] <+: link := by
  obtain ⟨rest, doubled⟩ := joined_pathStr_of_parent_isSome up
  have fits : ¬ buf.length ≤ (joined (pathStr p)).length + 1 := by omega
  refine ⟨_, _, by rw [sysGetcwd_spec _ _ _ nonNull, if_neg fits],
    by rw [sysReadlinkat_spec, if_neg fits], by simp [doubled], by simp [doubled],
    fun cs proper => ⟨doubled_not_canonical proper ?_, doubled_not_canonical proper ?_⟩⟩
  all_goals simp [doubled]

/-- The directory `a` in the root of the vfs. -/
def dirA : VfsPath := ⟨.vfs, .child (.root 0) [0x61]⟩

theorem getcwd_readlinkat_double_slash_dirA :
    dirA.parent.isSome ∧ (0x1000 : Nat) ≠ 0 ∧
      (joined (pathStr dirA)).length + 2 ≤ [7, 7, 7, 7, 7].length ∧
      ∃ cwd link, sysGetcwd 0x1000 dirA [7, 7, 7, 7, 7] = some (.ok 0x1000, cwd) ∧
        sysReadlinkat dirA [7, 7, 7, 7, 7] =
          some (.ok ((joined (pathStr dirA)).length + 1), link) ∧
        cwd.take 2 = [slash, slash] ∧ link.take 2 = [slash, slash] ∧
        ∀ cs : List Component, (∀ c ∈ cs, c ≠ [] ∧ slash ∉ c) →
          ¬ canonical cs ++ [0] <+: cwd ∧ ¬ canonical cs ++ [0] <+: link := by
  have names : pathStr dirA = [[], [0x61]] := by
    rw [pathStr_of_parent_eq_some (q := ⟨.vfs, .root 0⟩) rfl, pathStr_of_parent_eq_none rfl]
    rfl
  have room : (joined (pathStr dirA)).length + 2 ≤ [7, 7, 7, 7, 7].length := by
    rw [names]
    decide
  exact ⟨rfl, by decide, room,
    getcwd_readlinkat_double_slash dirA rfl 0x1000 (by decide) [7, 7, 7, 7, 7] room⟩

end Path
end FtlOs
