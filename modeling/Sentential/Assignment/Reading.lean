/-
Assignments written as text.  Items stand between spaces, commas and semicolons;
each is the name of a variable, after a sign if the variable is false.
-/
import Sentential.Assignment.Basic
import Sentential.Variable.Registry

namespace Sentential

/-- The characters between items. -/
def itemSeparators : List Char := [' ', ',', ';']

/-- The characters that make an item false. -/
def falseSigns : List Char := ['~', '!']

/-- An item put before others, unless it is empty. -/
def consItem (item : List Char) (items : List (List Char)) : List (List Char) :=
  if item.isEmpty then items else item :: items

/-- The characters up to the first separator, and the items after it. -/
def splitItems : List Char → List Char × List (List Char)
  | [] => ([], [])
  | c :: rest =>
      let (item, items) := splitItems rest
      if c ∈ itemSeparators then ([], consItem item items) else (c :: item, items)

/-- The items of a text. -/
def itemsOf (text : List Char) : List (List Char) :=
  let (item, items) := splitItems text
  consItem item items

/-- The name written in an item and the value that the item gives it. -/
def signedName : List Char → List Char × Bool
  | [] => ([], true)
  | c :: rest => if c ∈ falseSigns then (rest, false) else (c :: rest, true)

namespace Registry

/-- Sets the values written in items, from left to right up to the first that
names no variable.  The names read are enrolled in any case. -/
def readItems (r : Registry) (a : Assignment) :
    List (List Char) → Option Assignment × Registry
  | [] => (some a, r)
  | item :: rest =>
      let (name, value) := signedName item
      match r.trimmedVariable? name with
      | (some v, r) => readItems r (a.insert v value) rest
      | (none, r) => (none, r)

/-- Reads a text as an assignment. -/
def readAssignment (r : Registry) (text : String) : Except ReadError Assignment × Registry :=
  match r.readItems ∅ (itemsOf text.toList) with
  | (some a, r) => (.ok a, r)
  | (none, r) => (.error (.invalidAssignment text), r)

end Registry

end Sentential
