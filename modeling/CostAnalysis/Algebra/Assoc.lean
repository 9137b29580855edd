/-!
# Ordered association lists

Finite maps as lists of entries in increasing order of their keys.  Two lists
with the same entries are equal as lists, which is what makes the polynomials
built on them a normal form.  Every write goes through `alter`, which keeps the
order and removes an entry whose new value is undefined.
-/

namespace CostAnalysis.Assoc

variable {κ : Type u} {ν : Type v} [Ord κ]

/-- The value stored for a key. -/
def find? (k : κ) : List (κ × ν) → Option ν
  | [] => none
  | (k', v) :: rest => if compare k k' == .eq then some v else find? k rest

/-- Replaces the value of a key by what `f` makes of it. -/
def alter (k : κ) (f : Option ν → Option ν) : List (κ × ν) → List (κ × ν)
  | [] =>
    match f none with
    | none => []
    | some v => [(k, v)]
  | (k', v') :: rest =>
    match compare k k' with
    | .lt =>
      match f none with
      | none => (k', v') :: rest
      | some v => (k, v) :: (k', v') :: rest
    | .eq =>
      match f (some v') with
      | none => rest
      | some v => (k', v) :: rest
    | .gt => (k', v') :: alter k f rest

/-- Stores a value for a key. -/
def insert (k : κ) (v : ν) (entries : List (κ × ν)) : List (κ × ν) :=
  alter k (fun _ => some v) entries

/-- Removes a key. -/
def erase (k : κ) (entries : List (κ × ν)) : List (κ × ν) :=
  alter k (fun _ => none) entries

/-- Inserts an element into an increasing list without repetitions. -/
def insertElement (k : κ) : List κ → List κ
  | [] => [k]
  | k' :: rest =>
    match compare k k' with
    | .lt => k :: k' :: rest
    | .eq => k' :: rest
    | .gt => k' :: insertElement k rest

/-- The increasing list without repetitions of the given elements. -/
def sortedSet (elements : List κ) : List κ :=
  elements.foldl (fun set k => insertElement k set) []

/-- The last of the greatest elements of a list. -/
def lastGreatest? (cmp : α → α → Ordering) : List α → Option α
  | [] => none
  | a :: rest => some (rest.foldl (fun best b => if cmp best b == .gt then best else b) a)

end CostAnalysis.Assoc
