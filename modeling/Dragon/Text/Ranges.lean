/-!
# Sets of code points given by closed intervals

The character classes of this library are such tables, and ASCII is decided without them.
-/
namespace Dragon.Text

/-- Closed intervals of code points, in increasing order. -/
abbrev Ranges := List (Nat × Nat)

/-- The intervals of a table of runs: how many code points it leaves out, how many it takes in, and
so on by turns, from the first one on. -/
def Ranges.ofRuns (first : Nat) : List Nat → Ranges
  | gap :: size :: runs =>
    (first + gap, first + gap + size - 1) :: ofRuns (first + gap + size) runs
  | _ => []

def Ranges.contains (table : Ranges) (c : Char) : Bool :=
  table.any fun range => range.1 ≤ c.toNat && c.toNat ≤ range.2

end Dragon.Text
