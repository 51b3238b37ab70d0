/-!
# Failures

Why something failed is a value of a type of its own for each kind of work. Reports name the kind
of a failure by a fixed word, and the words for a failure inside of another one are joined by a
dot. A failure has a text unless it only passes on that some other format could not be read.
-/

namespace RoomCrypt

/-- Failures that can be reported. -/
class Failure (ε : Type) where
  /-- The word for the kind of failure. -/
  kind : ε → String
  /-- The text of the failure, where there is one of our own. -/
  message? : ε → Option String

end RoomCrypt
