/-! The types a schema can use without declaring them.

A fundamental type is a scalar; next to these a schema can name the two open
types `any` and `custom`. The names of all of them are reserved. -/
namespace Schemata

/-- Scalar types. -/
inductive Fundamental
  | string
  | enumeration
  | int
  | number
  | bool
  | guid
  | dateTime
  | date
  | time
  | duration
  | uri
  | filename
  | directory
deriving DecidableEq, Repr, Inhabited

namespace Fundamental

def all : List Fundamental :=
  [string, enumeration, int, number, bool, guid, dateTime, date, time, duration, uri, filename,
   directory]

def keyword : Fundamental → String
  | string => "string"
  | enumeration => "enum"
  | int => "int"
  | number => "number"
  | bool => "bool"
  | guid => "guid"
  | dateTime => "datetime"
  | date => "date"
  | time => "time"
  | duration => "duration"
  | uri => "uri"
  | filename => "filename"
  | directory => "directory"

def ofKeyword? (word : String) : Option Fundamental := all.find? (·.keyword == word)

end Fundamental

/-- Types with a reserved name. -/
inductive Builtin
  | fundamental (type : Fundamental)
  | any
  | custom
deriving DecidableEq, Repr, Inhabited

namespace Builtin

def keyword : Builtin → String
  | fundamental type => type.keyword
  | any => "any"
  | custom => "custom"

def ofKeyword? (word : String) : Option Builtin :=
  if word = "any" then some any
  else if word = "custom" then some custom
  else (Fundamental.ofKeyword? word).map fundamental

def fundamental? : Builtin → Option Fundamental
  | fundamental type => some type
  | _ => none

def isFundamental (b : Builtin) : Bool := b.fundamental?.isSome

/-- Whether no declaration may take this name. -/
def isReserved (name : String) : Bool := (ofKeyword? name).isSome

theorem ofKeyword?_keyword (b : Builtin) : ofKeyword? b.keyword = some b := by
  cases b with
  | fundamental type => cases type <;> decide
  | any => decide
  | custom => decide

end Builtin
end Schemata
