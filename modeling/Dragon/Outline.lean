/-!
# Outlines

Trees of titled nodes with labelled entries, printed one line each and indented by two spaces a
level.
-/
namespace Dragon

mutual

inductive Outline where
  | leaf (line : String)
  | node (title : String) (entries : List Entry)

inductive Entry where
  | text (label value : String)
  | child (label : String) (content : Outline)
  | items (label : String) (contents : List Outline)

end

namespace Outline

def indent (depth : Nat) : String := String.ofList (List.replicate (2 * depth) ' ')

mutual

/-- The printed lines of an outline at a depth. -/
def lines (depth : Nat) : Outline → List String
  | leaf line => [indent depth ++ line]
  | node title entries => (indent depth ++ title) :: entryLines depth entries

def entryLines (depth : Nat) : List Entry → List String
  | [] => []
  | .text label value :: rest =>
    s!"{indent depth}  {label}: {value}" :: entryLines depth rest
  | .child label content :: rest =>
    s!"{indent depth}  {label}:" :: (lines (depth + 2) content ++ entryLines depth rest)
  | .items label [] :: rest => s!"{indent depth}  {label}: []" :: entryLines depth rest
  | .items label (content :: contents) :: rest =>
    s!"{indent depth}  {label}:" ::
      (lines (depth + 2) content ++ itemLines (depth + 2) contents ++ entryLines depth rest)

def itemLines (depth : Nat) : List Outline → List String
  | [] => []
  | content :: rest => lines depth content ++ itemLines depth rest

end

/-- The line at the top, without what stands under it. -/
def title : Outline → String
  | leaf line => line
  | node title _ => title

end Outline

end Dragon
