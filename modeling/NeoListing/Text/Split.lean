/-! # Cutting text at a separator -/

namespace NeoListing.Text

variable {α : Type} [DecidableEq α]

/-- The pieces between the separators, one more than there are separators. -/
def pieces (separator : α) : List α → List (List α)
  | [] => [[]]
  | c :: rest =>
    if c = separator then [] :: pieces separator rest
    else match pieces separator rest with
      | [] => [[c]]
      | piece :: more => (c :: piece) :: more

/-- What stands before and after the first separator; without one, everything and nothing. -/
def cut (separator : α) (cs : List α) : List α × List α :=
  (cs.takeWhile (· != separator), (cs.dropWhile (· != separator)).drop 1)

end NeoListing.Text
