/-
File hierarchies, and what a path names in one.

A folder's content is kept in the shape of a recursion over it: the
first name with what it stands for, and the names beside it. A path is a
list of steps (`Heading`), and where it leads is kept with the folders
above (`Place`), so that a step up needs no search. Names are compared
by a test that the user of this file brings, and the first name that
passes it counts.
-/
namespace Rust

/-- What a folder holds: leaves with their content, and folders. -/
inductive Hierarchy (ν α : Type) where
  | empty
  | leaf (name : ν) (content : α) (beside : Hierarchy ν α)
  | folder (name : ν) (below beside : Hierarchy ν α)

/-- A leaf, or a folder with the folders above it, the nearest first. -/
inductive Place (ν α : Type) where
  | leaf (content : α)
  | folder (here : Hierarchy ν α) (above : List (Hierarchy ν α))

/-- One step of a path. -/
inductive Heading (κ : Type) where
  | here
  | up
  | down (key : κ)

variable {ν α κ : Type}

namespace Hierarchy

/-- What the first name that passes the test stands for, below the folders
`above`. -/
def lookup (same : ν → Bool) (above : List (Hierarchy ν α)) :
    Hierarchy ν α → Option (Place ν α)
  | empty => none
  | leaf name content beside =>
      if same name then some (.leaf content) else lookup same above beside
  | folder name below beside =>
      if same name then some (.folder below above)
      else lookup same above beside

/-- The names of a folder and what they stand for, in their order. -/
def places (above : List (Hierarchy ν α)) :
    Hierarchy ν α → List (ν × Place ν α)
  | empty => []
  | leaf name content beside =>
      (name, .leaf content) :: places above beside
  | folder name below beside =>
      (name, .folder below above) :: places above beside

/-- All names with their levels, a folder before what it holds; a folder
has no content. -/
def preorder : Nat → Hierarchy ν α → List (Nat × ν × Option α)
  | _, empty => []
  | level, leaf name content beside =>
      (level, name, some content) :: preorder level beside
  | level, folder name below beside =>
      (level, name, none)
        :: (preorder (level + 1) below ++ preorder level beside)

/-- The same hierarchy of other names and contents. -/
def map {ν' α' : Type} (name : ν → ν') (content : α → α') :
    Hierarchy ν α → Hierarchy ν' α'
  | empty => empty
  | leaf n a beside => leaf (name n) (content a) (map name content beside)
  | folder n below beside =>
      folder (name n) (map name content below) (map name content beside)

end Hierarchy

namespace Place

/-- The folder above a folder, which is the folder itself at the top. -/
def parent (here : Hierarchy ν α) : List (Hierarchy ν α) → Place ν α
  | [] => .folder here []
  | there :: above => .folder there above

variable (same : κ → ν → Bool)

/-- Where a step leads: the folder at the top is its own parent, and from
a leaf there is no way on. -/
def go : Place ν α → Heading κ → Option (Place ν α)
  | leaf _, _ => none
  | folder here above, .here => some (folder here above)
  | folder here [], .up => some (folder here [])
  | folder _ (parent :: above), .up => some (folder parent above)
  | folder here above, .down key =>
      here.lookup (same key) (here :: above)

/-- Where a path leads. -/
def walk : List (Heading κ) → Place ν α → Option (Place ν α)
  | [], p => some p
  | step :: steps, p => (p.go same step).bind (walk steps)

variable {same}

/-- The last step of a path. -/
theorem walk_concat (steps : List (Heading κ)) (step : Heading κ)
    (p : Place ν α) :
    p.walk same (steps ++ [step])
      = (p.walk same steps).bind fun q => q.go same step := by
  induction steps generalizing p with
  | nil =>
      show (p.go same step).bind some = p.go same step
      cases p.go same step with
      | none => rfl
      | some q => rfl
  | cons first steps ih =>
      rw [List.cons_append, walk, walk, Option.bind_assoc]
      congr
      funext q
      exact ih q

end Place

end Rust
