import RemoteQuery.Mapping.Basic

/-!
# The standard mappings

Functions of strings, dates, numbers and sequences, and the members of nullable values. The text
of an arbitrary object is mapped as well, but server and client format values differently, so a
split leaves it to the client.
-/

namespace RemoteQuery.MappingTable

def property (owner name : String) : Signature := ⟨owner, name, none⟩

def method (owner name : String) (params : List String) : Signature := ⟨owner, name, some params⟩

def fixed (signature : Signature) (template : String) : Mapping :=
  ⟨signature, .static, template, template, false⟩

def stringMethod (name : String) (params : List String) (wire : String) : Mapping :=
  .function (method "String" name params) .static wire (params.length + 1)

def sequenceOperator (name : String) (params : List String) (wire : String) : Mapping :=
  .function (method "Enumerable" name params) .chained wire params.length

def dateProperty (name wire : String) (arity : Nat) : Mapping :=
  .function (property "DateTime" name) .static wire arity

def rounding (name operand wire : String) : Mapping :=
  .function (method "Math" name [operand]) .static wire 1

def standardStrings : List Mapping :=
  [stringMethod "Contains" ["String"] "contains",
    stringMethod "StartsWith" ["String"] "startswith",
    stringMethod "EndsWith" ["String"] "endswith",
    stringMethod "IndexOf" ["String"] "indexof",
    stringMethod "Replace" ["String", "String"] "replace",
    stringMethod "Substring" ["Int32"] "substring",
    stringMethod "Substring" ["Int32", "Int32"] "substring",
    stringMethod "ToLower" [] "tolower",
    stringMethod "ToUpper" [] "toupper",
    stringMethod "Trim" [] "trim",
    .function (property "String" "Length") .static "length" 1,
    .function (method "String" "Concat" ["String", "String"]) .static "concat" 2,
    fixed (method "String" "IsNullOrEmpty" ["String"])
      "((\x7b0\x7d eq null) or (\x7b0\x7d eq ''))"]

def standardDates : List Mapping :=
  [dateProperty "Year" "year" 1,
    dateProperty "Month" "month" 1,
    dateProperty "Day" "day" 1,
    dateProperty "Hour" "hour" 1,
    dateProperty "Minute" "minute" 1,
    dateProperty "Second" "second" 1,
    dateProperty "Now" "now" 0,
    dateProperty "UtcNow" "now" 0]

def standardNumbers : List Mapping :=
  [rounding "Round" "Double" "round",
    rounding "Floor" "Double" "floor",
    rounding "Ceiling" "Double" "ceiling",
    rounding "Round" "Decimal" "round",
    rounding "Floor" "Decimal" "floor",
    rounding "Ceiling" "Decimal" "ceiling"]

def standardSequences : List Mapping :=
  [sequenceOperator "Any" ["Sequence"] "any",
    sequenceOperator "Any" ["Sequence", "Lambda"] "any",
    sequenceOperator "All" ["Sequence", "Lambda"] "all",
    sequenceOperator "Count" ["Sequence"] "count",
    sequenceOperator "Count" ["Sequence", "Lambda"] "count",
    sequenceOperator "Sum" ["Sequence", "Lambda"] "sum",
    sequenceOperator "Min" ["Sequence", "Lambda"] "min",
    sequenceOperator "Max" ["Sequence", "Lambda"] "max",
    sequenceOperator "Average" ["Sequence", "Lambda"] "average"]

def standardObjects : List Mapping :=
  [fixed (property "Nullable" "Value") "\x7b0\x7d",
    fixed (property "Nullable" "HasValue") "(\x7b0\x7d ne null)",
    { fixed (method "Object" "ToString" []) "cast(\x7b0\x7d,String)" with prefersLocal := true }]

def standard : MappingTable :=
  .ofList (standardStrings ++ standardDates ++ standardNumbers ++ standardSequences ++
    standardObjects)

end RemoteQuery.MappingTable
