import CostAnalysis.Settings.Document

/-!
# Tables of a TOML document

The tables of a document are nested, and each has a way in which it came to be.
This decides how it may grow: a header opens a table once, and a path of keys
with dots adds to no table that a header has opened.

## Main definitions

* `Item` — a value, a table, or a list of tables that headers opened one after
  the other
* `Fields.change?` — works on the table at the end of a path
* `Fields.openTable?`, `Fields.appendTable?`, `Fields.insert?` — the three ways
  to grow
-/

namespace CostAnalysis.Toml

/-- How a table came to be. -/
inductive TableKind where
  /-- A header of its own opened it. -/
  | header
  /-- The header of a table inside opened it on the way. -/
  | implied
  /-- A path of keys opened it on the way. -/
  | dotted
deriving DecidableEq

/-- What a key stands for. -/
inductive Item where
  | value (v : Document)
  | table (kind : TableKind) (fields : List (String × Item))
  /-- A list of tables, of which only the last can grow. -/
  | tables (earlier : List (List (String × Item))) (last : List (String × Item))

/-- The contents of a table. -/
abbrev Fields := List (String × Item)

/-- The ways to a table inside another one. -/
inductive Route where
  /-- The way of a header, which may pass every table. -/
  | header
  /-- The way of a path of keys. -/
  | keys
deriving DecidableEq

/-- How a table that a way opens came to be. -/
def Route.opens : Route → TableKind
  | .header => .implied
  | .keys => .dotted

/-- Whether a way may enter a table; `ends` says whether it ends there. -/
def Route.enters (route : Route) (kind : TableKind) (ends : Bool) : Bool :=
  match route, kind with
  | .header, _ => true
  | .keys, .header => false
  | .keys, .implied => !ends
  | .keys, .dotted => true

namespace Fields

/-- Gives a key another meaning. -/
def set (key : String) (item : Item) (fields : Fields) : Fields :=
  if (fields.lookup key).isSome then
    fields.map fun field => if field.1 == key then (key, item) else field
  else fields ++ [(key, item)]

/-- Works on the table at the end of a path, and opens the tables on the way
that are missing.  A list of tables is entered at its last one. -/
def change? (route : Route) (f : Fields → Option Fields) : List String → Fields → Option Fields
  | [], fields => f fields
  | key :: path, fields =>
    match fields.lookup key with
    | none =>
      (change? route f path []).map fun inner => set key (.table route.opens inner) fields
    | some (.table kind inner) =>
      if route.enters kind path.isEmpty then
        (change? route f path inner).map fun inner => set key (.table kind inner) fields
      else none
    | some (.tables earlier last) =>
      if route.enters .implied path.isEmpty then
        (change? route f path last).map fun last => set key (.tables earlier last) fields
      else none
    | some (.value _) => none

/-- The keys before the last one of a path, and the last one. -/
def splitPath (path : List String) : List String × String :=
  (path.dropLast, path.getLastD "")

/-- Opens the table that a header names. -/
def openTable? (path : List String) (fields : Fields) : Option Fields :=
  let (way, key) := splitPath path
  change? .header
    (fun inner =>
      match inner.lookup key with
      | none => some (set key (.table .header []) inner)
      | some (.table .implied contents) => some (set key (.table .header contents) inner)
      | some _ => none)
    way fields

/-- Opens one more table in the list of tables that a header names. -/
def appendTable? (path : List String) (fields : Fields) : Option Fields :=
  let (way, key) := splitPath path
  change? .header
    (fun inner =>
      match inner.lookup key with
      | none => some (set key (.tables [] []) inner)
      | some (.tables earlier last) => some (set key (.tables (earlier ++ [last]) []) inner)
      | some _ => none)
    way fields

/-- Adds a value under a path of keys, of which the last one is new. -/
def insert? (path : List String) (v : Document) (fields : Fields) : Option Fields :=
  let (way, key) := splitPath path
  change? .keys
    (fun inner => if (inner.lookup key).isSome then none else some (set key (.value v) inner))
    way fields

end Fields

mutual

/-- An item as a document. -/
def Item.toDocument : Item → Document
  | .value v => v
  | .table _ fields => .table (Item.fieldDocuments fields)
  | .tables earlier last =>
    .list (Item.tableDocuments earlier ++ [.table (Item.fieldDocuments last)]) false

/-- The fields of a table as documents. -/
def Item.fieldDocuments : List (String × Item) → List (String × Document)
  | [] => []
  | (key, item) :: rest => (key, item.toDocument) :: Item.fieldDocuments rest

/-- Tables as documents. -/
def Item.tableDocuments : List (List (String × Item)) → List Document
  | [] => []
  | fields :: rest => .table (Item.fieldDocuments fields) :: Item.tableDocuments rest

end

/-- A table as a document. -/
def Fields.toDocument (fields : Fields) : Document :=
  .table (Item.fieldDocuments fields)

end CostAnalysis.Toml
