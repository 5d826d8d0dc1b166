/-!
# Kinds of documented items

Every entry has a kind, which ranks it, labels it and colours it. A kind is stored as its tag, its
position in `Kind.all`. The kind `redirect`, whose name is `alias`, is reserved for entries that
lead to another entry and take their kind from it.
-/

namespace PrefixSearch

/-- The visual category of a kind. -/
inductive CssClass where
  | plain | primary | success | warning | danger | info | dim
deriving DecidableEq, Repr, Inhabited

namespace CssClass

/-- All categories, each at the position of its stored code. -/
def all : List CssClass :=
  [.plain, .primary, .success, .warning, .danger, .info, .dim]

/-- The stored code of a category. -/
def code : CssClass → UInt8
  | .plain => 0
  | .primary => 1
  | .success => 2
  | .warning => 3
  | .danger => 4
  | .info => 5
  | .dim => 6

def ofCode? (code : UInt8) : Option CssClass :=
  all[code.toNat]?

def name : CssClass → String
  | .plain => "default"
  | .primary => "primary"
  | .success => "success"
  | .warning => "warning"
  | .danger => "danger"
  | .info => "info"
  | .dim => "dim"

/-- The class name that the search page's style sheet uses. -/
def className (css : CssClass) : String :=
  "m-" ++ css.name

def ofName? (name : String) : Option CssClass :=
  all.find? (·.name = name)

theorem ofCode?_code (css : CssClass) : ofCode? css.code = some css := by
  cases css <;> rfl

end CssClass

/-- The kind of a documented item. -/
inductive Kind where
  | redirect
  | page
  | moduleScope
  | namespaceScope
  | group
  | classType
  | structType
  | unionType
  | typedef
  | enumType
  | dir
  | file
  | function
  | property
  | define
  | enumValue
  | var
  | value
deriving DecidableEq, Repr, Inhabited

namespace Kind

/-- All kinds, each at the position of its tag. -/
def all : List Kind :=
  [.redirect, .page, .moduleScope, .namespaceScope, .group, .classType, .structType, .unionType,
    .typedef, .enumType, .dir, .file, .function, .property, .define, .enumValue, .var, .value]

/-- The stored tag of a kind. Tags also rank kinds: pages and scopes before functions and values. -/
def tag : Kind → UInt8
  | .redirect => 0
  | .page => 1
  | .moduleScope => 2
  | .namespaceScope => 3
  | .group => 4
  | .classType => 5
  | .structType => 6
  | .unionType => 7
  | .typedef => 8
  | .enumType => 9
  | .dir => 10
  | .file => 11
  | .function => 12
  | .property => 13
  | .define => 14
  | .enumValue => 15
  | .var => 16
  | .value => 17

def ofTag? (tag : UInt8) : Option Kind :=
  all[tag.toNat]?

/-- The name of a kind in entry lists. -/
def name : Kind → String
  | .redirect => "alias"
  | .page => "page"
  | .moduleScope => "module"
  | .namespaceScope => "namespace"
  | .group => "group"
  | .classType => "class"
  | .structType => "struct"
  | .unionType => "union"
  | .typedef => "typedef"
  | .enumType => "enum"
  | .dir => "dir"
  | .file => "file"
  | .function => "function"
  | .property => "property"
  | .define => "define"
  | .enumValue => "enum_value"
  | .var => "variable"
  | .value => "value"

def ofName? (name : String) : Option Kind :=
  all.find? (·.name = name)

/-- The name of a kind in error messages. -/
def title : Kind → String
  | .redirect => "Alias"
  | .page => "Page"
  | .moduleScope => "Module"
  | .namespaceScope => "Namespace"
  | .group => "Group"
  | .classType => "Class"
  | .structType => "Struct"
  | .unionType => "Union"
  | .typedef => "Typedef"
  | .enumType => "Enum"
  | .dir => "Dir"
  | .file => "File"
  | .function => "Function"
  | .property => "Property"
  | .define => "Define"
  | .enumValue => "EnumValue"
  | .var => "Variable"
  | .value => "Value"

/-- The label that is shown next to a result of the kind. -/
def label : Kind → String
  | .function => "func"
  | .enumValue => "enum val"
  | .var => "var"
  | .value => "data"
  | kind => kind.name

def cssClass : Kind → CssClass
  | .page | .group => .success
  | .moduleScope | .namespaceScope | .classType | .structType | .unionType | .typedef
  | .enumType => .primary
  | .dir | .file => .warning
  | .function | .property | .define => .info
  | .redirect | .enumValue | .var | .value => .plain

theorem ofTag?_tag (kind : Kind) : ofTag? kind.tag = some kind := by
  cases kind <;> rfl

end Kind

/-- One row of a file's type map: how results of a kind are labelled and coloured. -/
structure TypeRow where
  kind : Kind
  cssClass : CssClass
  label : String
deriving DecidableEq, Repr

/-- The row of a kind. -/
def Kind.typeRow (kind : Kind) : TypeRow :=
  { kind, cssClass := kind.cssClass, label := kind.label }

end PrefixSearch
