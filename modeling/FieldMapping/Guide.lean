/-!
# The guide

The program explains the language it reads: an overview, and a text on each `Topic`. A topic is
asked for by one of its names, in any mixture of upper and lower case (`Topic.ofName?`).
-/

namespace FieldMapping.Guide

/-- A text from its lines. -/
def paragraph (lines : List String) : String :=
  String.join (lines.map (· ++ "\n"))

/-! ### Texts -/

/-- What the field mapping language is for, its topics, and its forms in short. -/
def overview : String :=
  paragraph [
    "SIMPLEQL DOCUMENTATION",
    "",
    "SimpleQL describes how output fields are sourced from named data providers.",
    "Each statement names an output key and says where its value comes from.",
    "",
    "DOCUMENTATION CATEGORIES",
    "",
    "  statements        Statements, separators and nested blocks",
    "  types             Field mappings vs provider/type references",
    "  parameters        Keyed parameters, quoted literals and indexed references",
    "  processors        Processor pipelines introduced with |",
    "  errors            What the parser rejects and how errors are reported",
    "",
    "QUICK REFERENCE",
    "",
    "  name              Pass a field through unchanged",
    "  name: field       Map a lowercase-leading source field",
    "  name: Type        Read from a provider",
    "  name: Type \x7b \x7d    Nested mappings scoped to the provider",
    "  Type(k: v)        Keyed parameters",
    "  $foo[$$bar.baz]   Indexed reference",
    "  Type | P(x) | Q   Processor pipeline",
    "",
    "Run 'simpleql doc <category>' for detailed documentation."]

/-- Statements, what separates them, and blocks. -/
def statementsText : String :=
  paragraph [
    "STATEMENTS",
    "",
    "A document is a list of statements:",
    "",
    "  name [: type-or-field] [\x7b statements \x7d]",
    "",
    "SEPARATORS",
    "  Statements are separated by ',' or a line break. The two are",
    "  interchangeable, and a comma swallows the line break after it.",
    "  Trailing separators before '\x7d' or the end of input are ignored.",
    "",
    "    a: b, c: d",
    "    a: b",
    "    c: d",
    "",
    "NESTED BLOCKS",
    "  A block scopes its statements to the enclosing statement. Blocks may",
    "  not be empty.",
    "",
    "    $root: Member \x7b",
    "      honourMember: member,",
    "      payerStatus,",
    "    \x7d,",
    "    foo: All"]

/-- Fields and type references. -/
def typesText : String :=
  paragraph [
    "FIELDS AND TYPES",
    "",
    "The right-hand side of 'name: value' is classified by its first character:",
    "",
    "  b..z and above    Field mapping, e.g. 'status: payerStatus'",
    "  anything else     Type reference, e.g. 'foo: All', 'x: $ctx'",
    "",
    "Note that a value starting with 'a' is a type reference.",
    "",
    "A type reference may take keyed parameters and a processor pipeline:",
    "",
    "  clause: Fengdie(path: insmutual_clause, base: $foo) | Trim"]

/-- Parameters of a type reference, and the values they take. -/
def parametersText : String :=
  paragraph [
    "PARAMETERS",
    "",
    "Keyed parameters follow a type name in parentheses:",
    "",
    "  Fengdie(path: insmutual_clause, base: $foo)",
    "  Fengdie(insxhbbff_old_upgrade)              Key without a value",
    "",
    "VALUES",
    "  plain             insmutual_clause, $foo",
    "  quoted            \"x > 1\", 'a, b'           Kept with their quotes",
    "  indexed           $code[$$foo.bar]          One level of [ ] only"]

/-- Pipelines of processors. -/
def processorsText : String :=
  paragraph [
    "PROCESSORS",
    "",
    "A pipeline runs the output of a type reference through named processors,",
    "left to right:",
    "",
    "  list: Items(id: $id) | Filter(\"x > 1\") | Take(10)",
    "  name: User | Trim",
    "",
    "Processor parameters are positional and use the same value forms as",
    "keyed parameters. A processor with parentheses needs at least one value."]

/-- What is refused, and how it is reported. -/
def errorsText : String :=
  paragraph [
    "ERRORS",
    "",
    "Parsing stops at the first problem. Nothing is returned for the rest of",
    "the document. Rejected input includes:",
    "",
    "  root: Member \x7b a: b              Missing closing brace",
    "  root: Member\x7b\x7d                   Empty block",
    "  root: Member($if: \"a > 1)        Unterminated string",
    "  root: Member(code: $c[$$f.bar)   Missing closing bracket",
    "  root: Member(k, v)               Missing ':' after a key",
    "",
    "Errors show the line and column plus the text leading up to the problem:",
    "",
    "  Unexpected token '\x7d' at line 1, column 14:",
    "   root: Member\x7b\x7d",
    "                ^"]

/-! ### Topics -/

/-- Something that the guide has a text on. -/
inductive Topic where
  | statements
  | types
  | parameters
  | processors
  | errors
  deriving DecidableEq, Repr

namespace Topic

/-- The text on a topic. -/
def text : Topic → String
  | statements => statementsText
  | types => typesText
  | parameters => parametersText
  | processors => processorsText
  | errors => errorsText

/-- The names of a topic, its own name first. -/
def names : Topic → List String
  | statements => ["statements", "statement", "fields"]
  | types => ["types", "type", "providers"]
  | parameters => ["parameters", "params", "param"]
  | processors => ["processors", "processor", "pipes"]
  | errors => ["errors", "error"]

/-- All topics, in the order of the overview. -/
def all : List Topic :=
  [statements, types, parameters, processors, errors]

/-- Whether two names differ at most in the case of their letters. -/
def sameName (a b : String) : Bool :=
  a.toList.map Char.toLower == b.toList.map Char.toLower

/-- The topic with a name. -/
def ofName? (name : String) : Option Topic :=
  all.find? (·.names.any (sameName name))

end Topic

end FieldMapping.Guide
