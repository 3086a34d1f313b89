/-!
# Media types

A media type names a type and a subtype, the subtype can end in a suffix after a plus sign, and
parameters can follow. Letters of either case count the same.
-/

namespace CausalStore.Http

structure MediaType where
  type : String
  subtype : String
  suffix : Option String
  deriving DecidableEq

namespace MediaType

/-- The characters of names, and of values without quotes. -/
def isToken (c : Char) : Bool := c.isAlphanum || c ∈ "!#$%&'*+-.^_\x60|~".toList

/-- The characters of values within quotes. -/
def isQuotable (c : Char) : Bool := ' ' ≤ c && c ≤ '~'

/-- Where one is in a list of parameters. -/
inductive Place where
  | beforeName
  | name
  | valueStart
  | value
  | quoteStart
  | quoted
  | afterQuote
  deriving DecidableEq

namespace Place

/-- The place behind the next character, if it may stand here. A value in quotes is not empty, so its
first character is taken even if it is a quote. -/
def step : Place → Char → Option Place
  | beforeName, c => if c = ' ' then some beforeName else if isToken c then some name else none
  | name, c => if isToken c then some name else if c = '=' then some valueStart else none
  | valueStart, c => if c = '"' then some quoteStart else if isToken c then some value else none
  | value, c => if isToken c then some value else if c = ';' then some beforeName else none
  | quoteStart, c => if isQuotable c then some quoted else none
  | quoted, c => if c = '"' then some afterQuote else if isQuotable c then some quoted else none
  | afterQuote, c => if c = ' ' then some afterQuote else if c = ';' then some beforeName else none

/-- Whether the list can end here. -/
def isEnd : Place → Bool
  | beforeName | valueStart | value | afterQuote => true
  | name | quoteStart | quoted => false

end Place

/-- Whether the text behind the first semicolon is a list of parameters. -/
def areParameters (s : List Char) : Bool := (s.foldlM Place.step .beforeName).any Place.isEnd

def lowerText (cs : List Char) : String := String.ofList (cs.map Char.toLower)

/-- Splits a suffix off, from behind the last plus sign that does not come first. -/
def ofNames (type whole : List Char) : MediaType :=
  match whole.reverse.span (· ≠ '+') with
  | (suffix, '+' :: rest) =>
    if rest = [] then ⟨lowerText type, lowerText whole, none⟩
    else ⟨lowerText type, lowerText rest.reverse, some (lowerText suffix.reverse)⟩
  | _ => ⟨lowerText type, lowerText whole, none⟩

def parse? (text : String) : Option MediaType :=
  match text.toList.span isToken with
  | (type, '/' :: r) =>
    if type = [] then none
    else
      match r.span isToken with
      | (whole, []) => some (ofNames type whole)
      | (whole, ';' :: parameters) =>
        if whole ≠ [] ∧ areParameters parameters then some (ofNames type whole) else none
      | _ => none
  | _ => none

/-- Whether bodies of this type are read as structured text. -/
def isJson (m : MediaType) : Bool :=
  m.type = "application" && (m.subtype = "json" || m.suffix = some "json")

end MediaType

end CausalStore.Http
