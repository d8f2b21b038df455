/-! Documents: trees of data without a meaning of their own.

The members of an object are kept in the order of their names, so that two
documents are equal exactly when they hold the same data. -/
namespace Schemata

inductive Document
  | null
  | bool (b : Bool)
  | int (i : Int)
  | number (x : Float)
  | text (s : String)
  | array (elements : List Document)
  | object (members : List (String × Document))
deriving Inhabited

namespace Document

/-- Members with one more in its place, or with the one of the same name replaced. -/
def insertMember (name : String) (value : Document) :
    List (String × Document) → List (String × Document)
  | [] => [(name, value)]
  | m :: rest =>
    if name = m.1 then (name, value) :: rest
    else if name < m.1 then (name, value) :: m :: rest
    else m :: insertMember name value rest

/-- The object with these members; of two with one name the last one stays. -/
def ofMembers (members : List (String × Document)) : Document :=
  object (members.foldl (fun acc m => insertMember m.1 m.2 acc) [])

end Document
end Schemata
