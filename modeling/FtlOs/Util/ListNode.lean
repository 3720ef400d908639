import Mathlib

/-!
# Intrusive lists

`ftl_util::list::ListNode` is a circular doubly linked list threaded through
its nodes, with a sentinel head.  The model keeps the nodes after the head in
`next` order.  `pop_many_ex` goes once around the list, unlinks each node
`need_pop` accepts, and stops once it has unlinked `max` of them; the test
comes after the count is raised, so `max = 0` never stops it.
-/

namespace FtlOs

namespace ListNode

variable {α : Type*}

/-- `pop_many_ex`, with `n` nodes popped so far: the nodes left linked, and the
nodes popped, in order. -/
def popManyEx (max : Nat) (needPop : α → Bool) : Nat → List α → List α × List α
  | _, [] => ([], [])
  | n, x :: rest =>
    if needPop x then
      if n + 1 = max then (rest, [x])
      else
        let (kept, popped) := popManyEx max needPop (n + 1) rest
        (kept, x :: popped)
    else
      let (kept, popped) := popManyEx max needPop n rest
      (x :: kept, popped)

variable (max : Nat) (needPop : α → Bool)

/-- At or past the bound the test never fires: every node `need_pop` accepts
is popped. -/
theorem popManyEx_of_le {n : Nat} (past : max ≤ n) (l : List α) :
    (popManyEx max needPop n l).2 = l.filter needPop := by
  induction l generalizing n with
  | nil => simp [popManyEx]
  | cons x rest ih =>
    unfold popManyEx
    split
    case isTrue accepted =>
      rw [if_neg (by omega)]
      simp [accepted, ih (show max ≤ n + 1 by omega)]
    case isFalse rejected => simp [rejected, ih past]

end ListNode

end FtlOs
