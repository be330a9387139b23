import SourceChunks.Failure

/-!
# Languages

The languages whose sources can be cut into chunks. A language says what kind of construct a block
is, from the text that its first line begins with.
-/

namespace SourceChunks

/-- A language with rules for its blocks. -/
inductive Language where
  | python
  | javascript
  | c
  | cpp
  | rust
  deriving DecidableEq, Repr

namespace Language

/-- Every language. -/
def all : List Language := [.python, .javascript, .c, .cpp, .rust]

/-- The name under which a language is asked for. -/
def name : Language → Bytes
  | .python => bytes "python"
  | .javascript => bytes "javascript"
  | .c => bytes "c"
  | .cpp => bytes "cpp"
  | .rust => bytes "rust"

/-- The language of a name. -/
def ofName? (n : Bytes) : Option Language := all.find? fun l => l.name = n

/-- The language of a name, which must be supported. -/
def named (name : Bytes) : Except Failure Language :=
  match ofName? name with
  | some language => .ok language
  | none => .error (.unsupportedLanguage name)

/-- The beginnings of a first line that tell the kind of a block, in the order in which they are
tried. -/
def rules : Language → List (Bytes × Bytes)
  | .python =>
    [(bytes "async def ", bytes "function_definition"),
      (bytes "def ", bytes "function_definition"),
      (bytes "class ", bytes "class_definition"),
      (bytes "@", bytes "decorated_definition"),
      (bytes "import ", bytes "import_statement"),
      (bytes "from ", bytes "import_from_statement")]
  | .javascript =>
    [(bytes "async function", bytes "function_declaration"),
      (bytes "function", bytes "function_declaration"),
      (bytes "class ", bytes "class_declaration"),
      (bytes "export ", bytes "export_statement"),
      (bytes "import ", bytes "import_statement"),
      (bytes "const ", bytes "lexical_declaration"),
      (bytes "let ", bytes "lexical_declaration"),
      (bytes "var ", bytes "variable_declaration")]
  | .c =>
    [(bytes "#include", bytes "preproc_include"),
      (bytes "#define", bytes "preproc_def"),
      (bytes "struct ", bytes "struct_specifier"),
      (bytes "typedef ", bytes "type_definition"),
      (bytes "enum ", bytes "enum_specifier")]
  | .cpp =>
    [(bytes "#include", bytes "preproc_include"),
      (bytes "#define", bytes "preproc_def"),
      (bytes "namespace ", bytes "namespace_definition"),
      (bytes "template", bytes "template_declaration"),
      (bytes "class ", bytes "class_specifier"),
      (bytes "struct ", bytes "struct_specifier"),
      (bytes "enum ", bytes "enum_specifier")]
  | .rust =>
    [(bytes "pub fn ", bytes "function_item"),
      (bytes "fn ", bytes "function_item"),
      (bytes "pub struct ", bytes "struct_item"),
      (bytes "struct ", bytes "struct_item"),
      (bytes "impl", bytes "impl_item"),
      (bytes "pub enum ", bytes "enum_item"),
      (bytes "enum ", bytes "enum_item"),
      (bytes "mod ", bytes "mod_item"),
      (bytes "use ", bytes "use_declaration"),
      (bytes "trait ", bytes "trait_item")]

/-- Whether a block that no rule covers is a function if its first line has a parenthesis. -/
def parenthesisMeansFunction (l : Language) : Bool := l = .c ∨ l = .cpp

/-- The kind of the block that begins with a line. -/
def nodeType (l : Language) (firstLine : Bytes) : Bytes :=
  match l.rules.find? fun rule => rule.1.isPrefixOf firstLine with
  | some rule => rule.2
  | none =>
    if l.parenthesisMeansFunction && firstLine.contains 0x28 then bytes "function_definition"
    else bytes "block"

/-- The extensions of source files, in small letters, with the language of each. -/
def extensions : List (Bytes × Language) :=
  [(bytes ".py", .python), (bytes ".js", .javascript), (bytes ".jsx", .javascript),
    (bytes ".ts", .javascript), (bytes ".tsx", .javascript), (bytes ".c", .c), (bytes ".h", .c),
    (bytes ".cpp", .cpp), (bytes ".cc", .cpp), (bytes ".cxx", .cpp), (bytes ".hpp", .cpp),
    (bytes ".rs", .rust)]

/-- The language of a file extension, capital or small. -/
def ofExtension? (extension : Bytes) : Option Language :=
  (extensions.find? fun e => e.1 = Bytes.lowercase extension).map Prod.snd

/-- Every language is found by its name. -/
theorem ofName?_name (l : Language) : ofName? l.name = some l := by
  cases l <;> decide

/-- A name belongs to at most one language. -/
theorem ofName?_eq_some_iff {n : Bytes} {l : Language} : ofName? n = some l ↔ n = l.name := by
  constructor
  · intro h
    have hname : l.name = n := by simpa using List.find?_some h
    exact hname.symm
  · rintro rfl
    exact ofName?_name l

end Language

end SourceChunks
