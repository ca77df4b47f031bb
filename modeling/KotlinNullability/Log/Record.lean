import KotlinNullability.Text

/-!
# Log records

A record has a level, the name of the logger that made it, and a message. The loggers of the library
are named by the component that speaks.
-/

namespace KotlinNullability.Log

/-- How serious a record is. -/
inductive Level where
  | debug
  | info
  | warning
  | error
  | critical
  deriving DecidableEq, Repr

namespace Level

/-- The rank of a level; more serious levels rank higher. -/
def rank : Level → Nat
  | debug => 10
  | info => 20
  | warning => 30
  | error => 40
  | critical => 50

/-- The name of a level. -/
def label : Level → Text
  | debug => "DEBUG"
  | info => "INFO"
  | warning => "WARNING"
  | error => "ERROR"
  | critical => "CRITICAL"

/-- The levels in order. -/
def all : List Level := [debug, info, warning, error, critical]

/-- Whether a record of this level passes a threshold. -/
def passes (level threshold : Level) : Bool := threshold.rank ≤ level.rank

end Level

/-- A record of the log. -/
structure Record where
  level : Level
  logger : Text
  message : Text
  deriving DecidableEq, Repr

/-- The parts of the program that write to the log. -/
inductive Component where
  | packing
  | stringTable
  | classReader
  | matching
  | cache
  | oracle
  | journal
  | commandLine
  deriving DecidableEq, Repr

/-- The logger that stands above the loggers of all components. -/
def rootLogger : Text := "kotlin_metadata_reader"

/-- The logger of a component. -/
def Component.logger : Component → Text
  | packing => rootLogger ++ ".core.bit_encoding"
  | stringTable => rootLogger ++ ".domain.services.parsing.string_table"
  | classReader => rootLogger ++ ".domain.services.parsing.schema_walker"
  | matching => rootLogger ++ ".domain.services.matching.signature_matcher"
  | cache => rootLogger ++ ".domain.repositories.cache.metadata_cache"
  | oracle => rootLogger ++ ".domain.services.nullability_service"
  | journal => rootLogger ++ ".infrastructure.logging.logger_setup"
  | commandLine => rootLogger ++ ".main"

/-- Whether a logger is the root of the components' loggers or stands below it. -/
def isOurs (logger : Text) : Bool :=
  logger = rootLogger || (rootLogger ++ ".").isPrefixOf logger

end KotlinNullability.Log
