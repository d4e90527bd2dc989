/-
The syntax reference: what queries look like, for the user of the command line.
-/

namespace FieldQuery.CommandLine

/-- The lines of the syntax reference. -/
def referenceLines : List String :=
  [ "FIELDQ SYNTAX",
    "",
    "A query selects fields from a JSON object and optionally filters the whole",
    "document with a where condition:",
    "",
    "  <selector>[, <selector>...] [where <condition>]",
    "",
    "SELECTORS",
    "",
    "  .                 The whole document",
    "  .name             Top-level field",
    "  .data.id          Nested field",
    "  .a, .b            Several fields, merged into one object",
    "",
    "A single selector returns the field's value as is. Several selectors build an",
    "object that mirrors their paths. Every selector must exist in the document,",
    "otherwise the query fails.",
    "",
    "CONDITIONS",
    "",
    "  (.id == 1)                    Comparison",
    "  ((.a == 1) and (.b != 2))     Conjunction",
    "  ((.a == 1) or (.b == 2))      Disjunction",
    "  (.id in [1, 2, 3])            Membership (parsed, see below)",
    "  (.tags contains [\"x\"])        Containment (parsed, never matches)",
    "",
    "Conditions are built in the order operators appear, with no precedence.",
    "Wrap every comparison in its own parentheses when combining them.",
    "",
    "OPERATORS",
    "",
    "  ==  !=            Equality",
    "  <  <=  >  >=      Ordering",
    "  and  or           Logical combination",
    "  in  contains      Membership tests against a literal list",
    "",
    "The left side of a comparison must be a field. The right side can be a field",
    "or a literal. A field missing from the document makes the comparison false.",
    "",
    "LITERALS",
    "",
    "  true  false       Booleans",
    "  42  -7  0.5       Numbers",
    "  \"text\"            String (no escapes)",
    "  'c'               Character (no escapes)",
    "  [1, \"a\", true]    Literal list, only after in or contains",
    "",
    "COMPARISON RULES",
    "",
    "  integer vs float  The float is truncated to an integer",
    "  float vs integer  The integer is promoted to a float",
    "  string vs string  Quotes around the right-hand literal are ignored",
    "  anything else     Never equal, never ordered",
    "",
    "RESULT",
    "",
    "  A query whose condition does not hold prints nothing and exits 0.",
    "",
    "EXAMPLES",
    "",
    "  fieldq check '.name where (.id == 1)' --input '\x7b\"id\": 1, \"name\": \"Ada\"\x7d'",
    "  fieldq check '.data.id, .data.name' --merge deep < doc.json",
    "  fieldq ast '.name where ((.id == 1) and (.age > 30))'",
    "  fieldq paths --input '\x7b\"data\": \x7b\"id\": 1\x7d\x7d'" ]

/-- The syntax reference. -/
def reference : String := String.join (referenceLines.map (· ++ "\n"))

end FieldQuery.CommandLine
