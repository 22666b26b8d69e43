/-
# The alphabet of Unicode

The alphabet that commands are run over.
-/

import Generics.Text.Alphabet
import Generics.Text.Identifier
import Generics.Text.Visible

namespace Generics

open Text

/-- The tables of Unicode. -/
@[reducible] def Alphabet.unicode : Alphabet where
  opens c := inRanges c.toNat startRanges
  continues c := inRanges c.toNat startRanges || inRanges c.toNat extendRanges
  shows c := inRanges c.toNat visibleRanges

end Generics
