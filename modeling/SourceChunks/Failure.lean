import SourceChunks.Bytes

/-!
# Failures

Everything that can go wrong, as causes. The wording that a user sees is decided here and nowhere
else.
-/

namespace SourceChunks

/-- Why the file system refuses an operation. -/
inductive FileError where
  | notFound
  | notADirectory
  | isADirectory
  | notEmpty
  | exists
  | invalidArgument
  | nameTooLong
  deriving DecidableEq, Repr

/-- The wording of a refusal. -/
def FileError.message : FileError → Bytes
  | .notFound => bytes "No such file or directory"
  | .notADirectory => bytes "Not a directory"
  | .isADirectory => bytes "Is a directory"
  | .notEmpty => bytes "Directory not empty"
  | .exists => bytes "File exists"
  | .invalidArgument => bytes "Invalid argument"
  | .nameTooLong => bytes "File name too long"

/-- A file to which a text could not be written. -/
structure Unwritten where
  /-- The path of the file. -/
  path : Bytes
  /-- Whether the file could be opened, so that the text that was in it is gone. -/
  isOpened : Bool
  deriving DecidableEq, Repr

/-- Why an operation of this library fails. -/
inductive Failure where
  /-- There are no rules for a language. -/
  | unsupportedLanguage (name : Bytes)
  /-- The extension of a path belongs to no language. -/
  | undeterminedLanguage (path : Bytes)
  /-- A file to read is not there. -/
  | cannotOpen (path : Bytes)
  /-- No factory makes resources of a type. -/
  | unknownResource (type : Bytes)
  /-- A factory made nothing. -/
  | emptyFactory (type : Bytes)
  /-- A resource taken for a parser is none. -/
  | notAParser (language : Bytes)
  /-- The directory of a cache cannot be made. -/
  | cacheDirectory (path : Bytes) (cause : FileError)
  /-- The index of a cache is not a document of the right form. -/
  | malformedIndex (path : Bytes)
  /-- The index of a cache cannot be written. -/
  | unwritableIndex (file : Unwritten)
  /-- A newly written index cannot take the place of the old one. -/
  | unreplaceableIndex (path : Bytes) (cause : FileError)
  /-- An export cannot be written. -/
  | unwritableExport (file : Unwritten)
  /-- An import cannot be read. -/
  | unreadableImport (path : Bytes)
  /-- An import is not a document. -/
  | unparsableImport (path : Bytes)
  /-- A document to import has no entries. -/
  | importWithoutEntries
  /-- An entry of a document to import is not of the right form. -/
  | malformedImport
  /-- A document is not of the right form, or a text in it is not well-formed UTF-8. -/
  | malformedDocument
  deriving DecidableEq, Repr

/-- What was tried, depending on how far one came with it. -/
def Unwritten.attempt (file : Unwritten) : Bytes :=
  if file.isOpened then bytes "Failed writing " else bytes "Cannot write "

/-- The wording of a failure; a malformed document has none. -/
def Failure.message : Failure → Bytes
  | .unsupportedLanguage name => bytes "No parser available for language: " ++ name
  | .undeterminedLanguage path => bytes "Cannot determine language for " ++ path
  | .cannotOpen path => bytes "Cannot open " ++ path
  | .unknownResource type => bytes "Unknown resource type: " ++ type
  | .emptyFactory type => bytes "Factory produced no resource for: " ++ type
  | .notAParser language => bytes "Pool returned a non-parser resource for " ++ language
  | .cacheDirectory path cause =>
    bytes "Cannot create cache directory " ++ path ++ bytes ": " ++ cause.message
  | .malformedIndex path => bytes "Cannot parse " ++ path ++ bytes ": "
  | .unwritableIndex file => file.attempt ++ file.path
  | .unreplaceableIndex path cause => bytes "Cannot replace " ++ path ++ bytes ": " ++ cause.message
  | .unwritableExport file => file.attempt ++ bytes "export file " ++ file.path
  | .unreadableImport path => bytes "Cannot open import file " ++ path
  | .unparsableImport path => bytes "Cannot parse import file " ++ path ++ bytes ": "
  | .importWithoutEntries => bytes "Import document has no \"entries\" object"
  | .malformedImport => bytes "Malformed import document: "
  | .malformedDocument => []

end SourceChunks
