import FtlOs.Kernel.Process.FdSpec
import FtlOs.Library.Run

/-!
# The lowest-free descriptor law of `FdTable`

`search_start` caches where the search for a free descriptor may begin: every
descriptor below it is meant to be open, so that `alloc_fd_min` can start at
`max min search_start`.  This module states that invariant, proves that every
operation but `exec_run` keeps it, and derives the allocation law: `insert_min(min)` returns the least
free descriptor from `min`, unless every descriptor from the search point up
to `usize::MAX` is open.  `exec_run` closes descriptors below `search_start`
without lowering it, and a search that runs past `usize::MAX` wraps to `0`;
both defects are stated at the end.
-/

namespace FtlOs
namespace FdTable

open LeastFree FastMap

variable {F : Type} {t t' t₁ : FdTable F} {min fd g : Nat} {file : F} {closeOnExec : Bool}
  {op : Nat}

/-! ## The invariant -/

/-- Every descriptor below `search_start` is open. -/
def BelowOpen (t : FdTable F) : Prop := FullFrom t.map.Occupied 0 t.searchStart

/-- The search start is sound: every descriptor below it is open, and it is a
`usize`. -/
structure SearchSound (t : FdTable F) : Prop where
  belowOpen : t.BelowOpen
  searchSmall : t.searchStart < 2 ^ 64

/-- A table whose search start did not rise, and whose open set did not shrink
below it, keeps a sound search start. -/
theorem SearchSound.of_grow (sound : t.SearchSound) (lower : t'.searchStart ≤ t.searchStart)
    (keep : ∀ g, g < t'.searchStart → t.map.Occupied g → t'.map.Occupied g) :
    t'.SearchSound := by
  refine ⟨?_, Nat.lt_of_le_of_lt lower sound.searchSmall⟩
  intro g _ above
  exact keep g above (sound.belowOpen g (Nat.zero_le g) (Nat.lt_of_lt_of_le above lower))

/-! ## `alloc_fd_min` and `insert_min` -/

theorem allocFdMin_of_full (full : t.limit.rlimMax ≤ t.map.len) :
    t.allocFdMin min = .error .EMFILE := by
  rw [allocFdMin, if_pos full]

theorem allocFdMin_of_room (room : t.map.len < t.limit.rlimMax) :
    t.allocFdMin min = .ok
      (if max min t.searchStart = t.searchStart then
          { t with searchStart := t.map.findSpace (max min t.searchStart) }
        else t,
        t.map.findSpace (max min t.searchStart)) := by
  rw [allocFdMin, if_neg (Nat.not_le.mpr room)]
  dsimp only
  split_ifs <;> rfl

/-- What a successful `alloc_fd_min` returns: the store is untouched and the
search start follows the result exactly when the search began there. -/
theorem allocFdMin_ok_inv (alloc : t.allocFdMin min = .ok (t₁, fd)) :
    t.map.len < t.limit.rlimMax ∧ fd = t.map.findSpace (max min t.searchStart) ∧
      t₁.map = t.map ∧ t₁.limit = t.limit ∧
      t₁.searchStart = if max min t.searchStart = t.searchStart then fd else t.searchStart := by
  by_cases full : t.limit.rlimMax ≤ t.map.len
  · rw [allocFdMin_of_full full] at alloc
    cases alloc
  · have room : t.map.len < t.limit.rlimMax := Nat.lt_of_not_le full
    rw [allocFdMin_of_room room] at alloc
    split_ifs at alloc ⊢ with same
    · cases alloc
      exact ⟨room, rfl, rfl, rfl, rfl⟩
    · cases alloc
      exact ⟨room, rfl, rfl, rfl, rfl⟩

/-- A successful allocation keeps the search start sound: when it moves, it
moves to the result of a search that found every descriptor before it open. -/
theorem SearchSound.allocFdMin (sound : t.SearchSound)
    (alloc : t.allocFdMin min = .ok (t₁, fd)) : t₁.SearchSound := by
  obtain ⟨-, found, sameMap, -, start⟩ := allocFdMin_ok_inv alloc
  split_ifs at start with fromStart
  · rw [fromStart] at found
    rcases findSpace_spec (m := t.map) sound.searchSmall with
      ⟨⟨-, -, full⟩, bound⟩ | ⟨wrapped, -⟩
    · -- the search ran from `search_start` over open descriptors up to `fd`
      refine ⟨?_, start ▸ found ▸ bound⟩
      unfold BelowOpen
      rw [start, sameMap, found]
      exact sound.belowOpen.trans full
    · -- the search wrapped: the new search start is `0`
      refine ⟨?_, by omega⟩
      unfold BelowOpen
      rw [start, found, wrapped]
      exact fullFrom_empty _ 0
  · exact sound.of_grow start.le fun g _ open_ => sameMap ▸ open_

/-- What a successful `insert_min` returns: the allocation, then the node stored
at the allocated descriptor. -/
theorem insertMin_ok_inv (inserted : t.insertMin min file closeOnExec op = some (.ok (t', fd))) :
    ∃ t₁ m', t.allocFdMin min = .ok (t₁, fd) ∧
      t₁.map.tryInsert fd ⟨file, closeOnExec, op⟩ = some m' ∧ t' = { t₁ with map := m' } := by
  unfold insertMin at inserted
  split at inserted
  · cases inserted
  · rename_i t₁ fd₁ alloc
    obtain ⟨m', stored, result⟩ := Option.map_eq_some_iff.mp inserted
    cases result
    exact ⟨t₁, m', alloc, stored, rfl⟩

/-- `insert_min` panics exactly when the allocated descriptor is already open. -/
theorem insertMin_eq_none_iff :
    t.insertMin min file closeOnExec op = none ↔
      ∃ t₁ fd, t.allocFdMin min = .ok (t₁, fd) ∧ t₁.map.Occupied fd := by
  unfold insertMin
  split
  · rename_i e alloc
    simp [alloc]
  · rename_i t₁ fd₁ alloc
    rw [Option.map_eq_none_iff, tryInsert_eq_none_iff, alloc]
    constructor
    · intro taken
      exact ⟨t₁, fd₁, rfl, taken⟩
    · rintro ⟨t₂, fd₂, same, taken⟩
      cases same
      exact taken

theorem SearchSound.insertMin (sound : t.SearchSound)
    (inserted : t.insertMin min file closeOnExec op = some (.ok (t', fd))) : t'.SearchSound := by
  obtain ⟨t₁, m', alloc, stored, rfl⟩ := insertMin_ok_inv inserted
  exact (sound.allocFdMin alloc).of_grow le_rfl
    fun g _ open_ => (occupied_of_tryInsert stored).mpr (.inr open_)

/-! ## The other calls -/

/-- The table after a call that returns `SysR`: the new table on success, the
old one after an error, which changes nothing. -/
def afterCall {α : Type} (t : FdTable F) : SysR (FdTable F × α) → FdTable F
  | .ok (t', _) => t'
  | .error _ => t

section Calls

variable {α : Type} {r : SysR (FdTable F × α)} {cmd arg : Nat}

theorem SearchSound.afterCall (sound : t.SearchSound)
    (ok : ∀ t' x, r = .ok (t', x) → t'.SearchSound) : (t.afterCall r).SearchSound := by
  cases r with
  | error e => exact sound
  | ok result => exact ok result.1 result.2 rfl

/-- The outcomes of `fcntl`: `EBADF` for a closed descriptor, a duplicate made by
`insert_min`, a read that leaves the table, or a write through `get_mut`. -/
theorem fcntl_cases {r : SysR (FdTable F × Nat)} (called : t.fcntl fd cmd arg = some r) :
    r = .error .EBADF ∨
      (∃ node : FdNode F, t.insertMin arg node.file node.closeOnExec node.op = some r) ∨
      (∃ x, r = .ok (t, x)) ∨
      (∃ f, r = .ok ({ t with map := t.map.modify fd f }, 0)) := by
  unfold fcntl at called
  split at called
  · exact .inl (Option.some.inj called).symm
  · rename_i node _
    -- one case per command, in the order of the source's match
    by_cases dupCmd : cmd = F_DUPFD ∨ cmd = F_DUPFD_CLOEXEC
    · rw [if_pos dupCmd] at called
      exact .inr (.inl ⟨node, called⟩)
    rw [if_neg dupCmd] at called
    by_cases getFd : cmd = F_GETFD
    · rw [if_pos getFd] at called
      exact .inr (.inr (.inl ⟨_, (Option.some.inj called).symm⟩))
    rw [if_neg getFd] at called
    by_cases setFd : cmd = F_SETFD
    · rw [if_pos setFd] at called
      exact .inr (.inr (.inr ⟨_, (Option.some.inj called).symm⟩))
    rw [if_neg setFd] at called
    by_cases getFl : cmd = F_GETFL
    · rw [if_pos getFl] at called
      exact .inr (.inr (.inl ⟨_, (Option.some.inj called).symm⟩))
    rw [if_neg getFl] at called
    by_cases setFl : cmd = F_SETFL
    · rw [if_pos setFl] at called
      exact .inr (.inr (.inr ⟨_, (Option.some.inj called).symm⟩))
    rw [if_neg setFl] at called
    cases called

theorem SearchSound.fcntl (sound : t.SearchSound) {r : SysR (FdTable F × Nat)}
    (called : t.fcntl fd cmd arg = some r) : (t.afterCall r).SearchSound := by
  apply sound.afterCall
  intro t' x result
  rcases fcntl_cases called with rfl | ⟨node, inserted⟩ | ⟨y, rfl⟩ | ⟨f, rfl⟩
  · cases result
  · exact sound.insertMin (result ▸ inserted)
  · cases result
    exact sound
  · cases result
    exact sound.of_grow le_rfl fun g _ open_ => occupied_modify.mpr open_

/-- `dup` is `insert` of the node's file, or `EBADF`. -/
theorem dup_cases {r : SysR (FdTable F × Nat)} (called : t.dup fd = some r) :
    r = .error .EBADF ∨ ∃ node : FdNode F, t.insertMin 0 node.file false node.op = some r := by
  unfold dup at called
  split at called
  · exact .inl (Option.some.inj called).symm
  · exact .inr ⟨_, called⟩

theorem replaceDup_ok_inv {oldFd newFd flags : Nat}
    (replaced : t.replaceDup oldFd newFd flags = .ok (t', ())) :
    ∃ v, t' = { t with map := (t.map.insert newFd v).1 } := by
  unfold replaceDup at replaced
  split_ifs at replaced
  split at replaced
  · cases replaced
  · cases replaced
    exact ⟨_, rfl⟩

theorem setLimit_ok_inv {new : Option RLimit} {old : RLimit}
    (set : t.setLimit new = .ok (t', old)) : t'.map = t.map ∧ t'.searchStart = t.searchStart := by
  unfold setLimit at set
  split at set
  · cases set
    exact ⟨rfl, rfl⟩
  · split at set
    · cases set
    · cases set
      exact ⟨rfl, rfl⟩

end Calls

/-- `exec_run` closes exactly the close-on-exec descriptors. -/
theorem execRun_get : t.execRun.map.get g = (t.map.get g).filter fun n => !n.closeOnExec := by
  have verdict : ∀ (s : Nat × Bool) (k : Nat) (n : FdNode F), (execRunVisit s k n).2 = !n.closeOnExec :=
    fun _ _ _ => rfl
  unfold execRun
  exact get_retain verdict

theorem execRun_searchStart : t.execRun.searchStart = t.searchStart := by
  unfold execRun
  rfl

/-! ## Runs of calls from `FdTable::new` -/

/-- The calls the kernel makes on a descriptor table. -/
inductive Call (F : Type) where
  | insert (file : F) (closeOnExec : Bool) (op : Nat)
  | insertMin (min : Nat) (file : F) (closeOnExec : Bool) (op : Nat)
  | dup (fd : Nat)
  | fcntl (fd cmd arg : Nat)
  | setInsert (fd : Nat) (file : F) (closeOnExec : Bool) (op : Nat)
  | replaceDup (oldFd newFd flags : Nat)
  | remove (fd : Nat)
  | execRun
  | setLimit (new : Option RLimit)

/-- One call on the table; `none` when it panics. -/
def step (t : FdTable F) : Call F → Option (FdTable F)
  | .insert file closeOnExec op => (t.insert file closeOnExec op).map t.afterCall
  | .insertMin min file closeOnExec op => (t.insertMin min file closeOnExec op).map t.afterCall
  | .dup fd => (t.dup fd).map t.afterCall
  | .fcntl fd cmd arg => (t.fcntl fd cmd arg).map t.afterCall
  | .setInsert fd file closeOnExec op => some (t.setInsert fd file closeOnExec op)
  | .replaceDup oldFd newFd flags => some (t.afterCall (t.replaceDup oldFd newFd flags))
  | .remove fd => some (t.remove fd).1
  | .execRun => some t.execRun
  | .setLimit new => some (t.afterCall (t.setLimit new))

theorem SearchSound.insertMinCall {r : SysR (FdTable F × Nat)} (sound : t.SearchSound)
    (called : t.insertMin min file closeOnExec op = some r) : (t.afterCall r).SearchSound :=
  sound.afterCall fun _ _ result => sound.insertMin (result ▸ called)

/-- Every call but `exec_run` keeps the search start sound. -/
theorem SearchSound.step {call : Call F} (sound : t.SearchSound) (notExec : call ≠ .execRun)
    (stepped : t.step call = some t') : t'.SearchSound := by
  cases call with
  | insert file closeOnExec op =>
      obtain ⟨r, called, rfl⟩ := Option.map_eq_some_iff.mp stepped
      exact sound.insertMinCall called
  | insertMin min file closeOnExec op =>
      obtain ⟨r, called, rfl⟩ := Option.map_eq_some_iff.mp stepped
      exact sound.insertMinCall called
  | dup fd =>
      obtain ⟨r, called, rfl⟩ := Option.map_eq_some_iff.mp stepped
      rcases dup_cases called with rfl | ⟨node, inserted⟩
      · exact sound
      · exact sound.insertMinCall inserted
  | fcntl fd cmd arg =>
      obtain ⟨r, called, rfl⟩ := Option.map_eq_some_iff.mp stepped
      exact sound.fcntl called
  | setInsert fd file closeOnExec op =>
      -- the search start drops to `fd + 1` (or wraps to `0`) and `fd` becomes open
      cases stepped
      exact sound.of_grow (Nat.min_le_left _ _) fun g _ open_ => occupied_insert.mpr (.inr open_)
  | replaceDup oldFd newFd flags =>
      cases stepped
      refine sound.afterCall fun t' _ replaced => ?_
      obtain ⟨v, rfl⟩ := replaceDup_ok_inv replaced
      exact sound.of_grow le_rfl fun g _ open_ => occupied_insert.mpr (.inr open_)
  | remove fd =>
      -- the search start drops to `fd`, so every descriptor below it is another one
      cases stepped
      refine sound.of_grow (Nat.min_le_left _ _) fun g below open_ => ?_
      have other : g ≠ fd := Nat.ne_of_lt (Nat.lt_of_lt_of_le below (Nat.min_le_right _ _))
      exact occupied_remove.mpr ⟨other, open_⟩
  | execRun => exact absurd rfl notExec
  | setLimit new =>
      cases stepped
      refine sound.afterCall fun t' _ set => ?_
      obtain ⟨sameMap, sameStart⟩ := setLimit_ok_inv set
      exact sound.of_grow sameStart.le fun g _ open_ => sameMap ▸ open_

theorem toOption_eq_some {β : Type} {r : SysR β} {b : β} : r.toOption = some b ↔ r = .ok b := by
  cases r <;> simp [Except.toOption]

/-- `FdTable::new` starts with a sound search start. -/
theorem searchSound_new {stdin stdout : F} (made : new stdin stdout = some t) : t.SearchSound := by
  have start : (⟨FastMap.new, 0, USER_FNO_DEFAULT⟩ : FdTable F).SearchSound :=
    ⟨fullFrom_empty _ 0, by norm_num⟩
  have keeps : ∀ {t : FdTable F} {file : F} {r : SysR (FdTable F × Nat)} {result},
      t.SearchSound → t.insert file false 0 = some r → r.toOption = some result →
        result.1.SearchSound := by
    intro t file r result sound called converted
    rw [toOption_eq_some] at converted
    subst converted
    exact sound.insertMin called
  unfold new at made
  simp only [Option.bind_eq_bind, Option.bind_eq_some_iff, Option.pure_def,
    Option.some.injEq] at made
  obtain ⟨r₁, called₁, p₁, converted₁, -, -, r₂, called₂, p₂, converted₂, -, -, r₃, called₃, p₃,
    converted₃, -, -, rfl⟩ := made
  exact keeps (keeps (keeps start called₁ converted₁) called₂ converted₂) called₃ converted₃

/-- The search start stays sound over every run of calls from `FdTable::new` without
`exec_run`. -/
theorem searchSound_of_run {stdin stdout : F} {t₀ : FdTable F} (made : new stdin stdout = some t₀)
    (calls : List (Call F)) (noExec : ∀ call ∈ calls, call ≠ .execRun)
    (finished : Run.run step t₀ calls = some t) : t.SearchSound :=
  Run.invariant_of_run (fun _ _ _ sound notExec stepped => sound.step notExec stepped)
    calls t₀ t (searchSound_new made) noExec finished

/-! ## The allocation law -/

/-- With a sound search start, `insert_min(min)` stores the node at the least
free descriptor from `min`, unless every descriptor from the search point up to
`usize::MAX` is open; `insert` and `dup` are the case `min = 0`. -/
theorem insertMin_least_free (sound : t.SearchSound) (small : min < 2 ^ 64)
    (room : t.map.len < t.limit.rlimMax)
    (noWrap : ¬FullFrom t.map.Occupied (max min t.searchStart) (2 ^ 64)) :
    ∃ t' fd, t.insertMin min file closeOnExec op = some (.ok (t', fd)) ∧
      IsLeastFree t.map.Occupied min fd ∧
      ∀ g, t'.map.get g = if g = fd then some ⟨file, closeOnExec, op⟩ else t.map.get g := by
  have searchSmall : max min t.searchStart < 2 ^ 64 := max_lt small sound.searchSmall
  -- the search from `max min search_start` stops at the least free descriptor there
  have least : IsLeastFree t.map.Occupied (max min t.searchStart)
      (t.map.findSpace (max min t.searchStart)) := by
    rcases findSpace_spec (m := t.map) searchSmall with ⟨least, -⟩ | ⟨-, full⟩
    · exact least
    · exact absurd full noWrap
  -- what it skipped, from `min` up to `search_start`, is open
  have skipped : FullFrom t.map.Occupied min (max min t.searchStart) := by
    intro g _ above
    exact sound.belowOpen g (Nat.zero_le g) (by omega)
  have fromMin := least.of_fullFrom skipped (le_max_left _ _)
  obtain ⟨t₁, alloc⟩ : ∃ t₁, t.allocFdMin min = .ok (t₁, t.map.findSpace (max min t.searchStart)) :=
    ⟨_, allocFdMin_of_room room⟩
  obtain ⟨-, -, sameMap, -, -⟩ := allocFdMin_ok_inv alloc
  have free : t₁.map.tryInsert (t.map.findSpace (max min t.searchStart)) ⟨file, closeOnExec, op⟩ ≠
      none := by
    rw [Ne, tryInsert_eq_none_iff, sameMap]
    exact least.2.1
  obtain ⟨m', stored⟩ := Option.ne_none_iff_exists'.mp free
  refine ⟨{ t₁ with map := m' }, _, ?_, fromMin, fun g => ?_⟩
  · simp [insertMin, alloc, stored]
  · rw [get_of_tryInsert stored, sameMap]

/-! ## Where the law breaks -/

/-- `exec_run` closes the close-on-exec descriptors but leaves `search_start`
where it was, so a closed descriptor below it leaves a search start that is not
sound: the search computed by the closure is dropped. -/
theorem execRun_breaks_belowOpen {node : FdNode F} (below : fd < t.searchStart)
    (found : t.map.get fd = some node) (closing : node.closeOnExec = true) :
    ¬t.execRun.BelowOpen := by
  intro belowOpen
  have reopened := belowOpen fd (Nat.zero_le fd) (by rw [execRun_searchStart]; exact below)
  unfold Occupied at reopened
  rw [execRun_get, found] at reopened
  simp [closing] at reopened

/-- The failing run: `new`, `fcntl(1, F_SETFD, FD_CLOEXEC)`, `exec_run`, `insert`.
Descriptor `1` is closed, yet `insert` returns `3`. -/
theorem insert_after_execRun_skips_closed_fd :
    (do
      let t ← FdTable.new (0 : Nat) 1
      let (t, _) ← (← t.fcntl 1 F_SETFD FD_CLOEXEC).toOption
      let t := t.execRun
      let (_, fd) ← (← t.insert 2 false 0).toOption
      pure (t.get 1, fd)) = some (none, 3) := by
  decide +kernel

/-- A duplicate requested from `usize::MAX` while that descriptor and `0` are open:
the scan of the map steps past `usize::MAX`, wraps to `0`, and the `expect` of
`insert_min` panics on the open descriptor `0`. -/
theorem fcntl_dupfd_from_usize_max_panics {node : FdNode F} (sound : t.SearchSound)
    (found : t.map.get fd = some node) (room : t.map.len < t.limit.rlimMax)
    (topOpen : t.map.Occupied (2 ^ 64 - 1)) (zeroOpen : t.map.Occupied 0) :
    t.fcntl fd F_DUPFD (2 ^ 64 - 1) = none := by
  have start : max (2 ^ 64 - 1) t.searchStart = 2 ^ 64 - 1 := by
    have := sound.searchSmall
    omega
  -- the search from `usize::MAX` can only wrap: `usize::MAX` itself is open
  have wrapped : t.map.findSpace (2 ^ 64 - 1) = 0 := by
    rcases findSpace_spec (m := t.map) (show 2 ^ 64 - 1 < 2 ^ 64 by norm_num) with
      ⟨⟨above, free, -⟩, bound⟩ | ⟨wrapped, -⟩
    · have top : t.map.findSpace (2 ^ 64 - 1) = 2 ^ 64 - 1 := by omega
      rw [top] at free
      exact absurd topOpen free
    · exact wrapped
  unfold fcntl
  rw [found]
  simp only [F_DUPFD, true_or, if_true]
  rw [insertMin_eq_none_iff]
  have alloc : t.allocFdMin (2 ^ 64 - 1) = _ := allocFdMin_of_room room
  rw [start, wrapped] at alloc
  refine ⟨_, 0, alloc, ?_⟩
  split_ifs <;> exact zeroOpen

end FdTable
end FtlOs
