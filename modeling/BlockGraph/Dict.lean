/-!
# Dictionaries

A dictionary maps texts to values and lists its entries in the order of their keys, which is the
order of code points.  `Dict.put` keeps the entries ordered and each key once; a key put again
keeps only its last value.
-/

namespace BlockGraph

/-- Entries in increasing order of their keys. -/
abbrev Dict (α : Type) := List (String × α)

namespace Dict

variable {α : Type}

/-- Enters a value under a key, in place of the one that was there. -/
def put (key : String) (value : α) : Dict α → Dict α
  | [] => [(key, value)]
  | (k, v) :: rest =>
    if key = k then (key, value) :: rest
    else if key < k then (key, value) :: (k, v) :: rest
    else (k, v) :: put key value rest

def get? (key : String) : Dict α → Option α
  | [] => none
  | (k, v) :: rest => if key = k then some v else get? key rest

/-- The dictionary of a list of entries; of entries with one key the last counts. -/
def ofList (entries : List (String × α)) : Dict α :=
  entries.foldl (fun d (k, v) => put k v d) []

def keys (d : Dict α) : List String := d.map Prod.fst

end Dict

end BlockGraph
