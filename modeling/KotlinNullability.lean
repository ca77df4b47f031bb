import KotlinNullability.Association
import KotlinNullability.Binary64
import KotlinNullability.Binary64.Decimal
import KotlinNullability.Cache
import KotlinNullability.Cache.Concurrent
import KotlinNullability.Cache.Race
import KotlinNullability.Cache.Session
import KotlinNullability.CommandLine
import KotlinNullability.CommandLine.Arguments
import KotlinNullability.CommandLine.Report
import KotlinNullability.Config
import KotlinNullability.Config.Baseline
import KotlinNullability.Config.Dotenv
import KotlinNullability.Config.Environment
import KotlinNullability.DecodeError
import KotlinNullability.FileTree
import KotlinNullability.Header
import KotlinNullability.Header.File
import KotlinNullability.Json
import KotlinNullability.Json.Misfit
import KotlinNullability.Json.Reader
import KotlinNullability.Jvm.Method
import KotlinNullability.Log.Journal
import KotlinNullability.Log.Note
import KotlinNullability.Log.Record
import KotlinNullability.Log.Task
import KotlinNullability.Main
import KotlinNullability.Metadata.Class
import KotlinNullability.Metadata.Function
import KotlinNullability.Metadata.Match
import KotlinNullability.Oracle
import KotlinNullability.Packing
import KotlinNullability.Path
import KotlinNullability.Proofs.Association
import KotlinNullability.Proofs.Cache.Alone
import KotlinNullability.Proofs.Cache.Deed
import KotlinNullability.Proofs.Cache.Exclusion
import KotlinNullability.Proofs.Cache.GlobalLock
import KotlinNullability.Proofs.Cache.OneComputation
import KotlinNullability.Proofs.Cache.OneValue
import KotlinNullability.Proofs.Cache.Operations
import KotlinNullability.Proofs.Cache.Program
import KotlinNullability.Proofs.Cache.Progress
import KotlinNullability.Proofs.Cache.RaceOutcome
import KotlinNullability.Proofs.Cache.Racing
import KotlinNullability.Proofs.Cache.Reentrant
import KotlinNullability.Proofs.Cache.Registry
import KotlinNullability.Proofs.Cache.Run
import KotlinNullability.Proofs.Cache.Statistics
import KotlinNullability.Proofs.Cache.Step
import KotlinNullability.Proofs.Cache.Turn
import KotlinNullability.Proofs.CommandLine.Arguments
import KotlinNullability.Proofs.CommandLine.Exit
import KotlinNullability.Proofs.CommandLine.Listing
import KotlinNullability.Proofs.Config.Baseline
import KotlinNullability.Proofs.Config.Precedence
import KotlinNullability.Proofs.Config.VariableFile
import KotlinNullability.Proofs.Guarded.Family
import KotlinNullability.Proofs.Guarded.Message
import KotlinNullability.Proofs.Guarded.Metadata
import KotlinNullability.Proofs.Guarded.Session
import KotlinNullability.Proofs.Guarded.Window
import KotlinNullability.Proofs.Header
import KotlinNullability.Proofs.Header.Numbers
import KotlinNullability.Proofs.Jvm.Key
import KotlinNullability.Proofs.Metadata.Concatenation
import KotlinNullability.Proofs.Metadata.Consumption
import KotlinNullability.Proofs.Metadata.FieldOrder
import KotlinNullability.Proofs.Metadata.Interpretation
import KotlinNullability.Proofs.Metadata.Keys
import KotlinNullability.Proofs.Metadata.Kind
import KotlinNullability.Proofs.Metadata.Layout
import KotlinNullability.Proofs.Metadata.Names
import KotlinNullability.Proofs.Metadata.RoundTrip
import KotlinNullability.Proofs.Metadata.Truncation
import KotlinNullability.Proofs.Metadata.UnknownFields
import KotlinNullability.Proofs.Metadata.Wording
import KotlinNullability.Proofs.Metadata.Written
import KotlinNullability.Proofs.Oracle.Errors
import KotlinNullability.Proofs.Oracle.Fidelity
import KotlinNullability.Proofs.Oracle.Refinement
import KotlinNullability.Proofs.Oracle.Verdict
import KotlinNullability.Proofs.Packing
import KotlinNullability.Proofs.Packing.Cut
import KotlinNullability.Proofs.Packing.Reassembly
import KotlinNullability.Proofs.Packing.Unmarked
import KotlinNullability.Proofs.Path
import KotlinNullability.Proofs.Results
import KotlinNullability.Proofs.StringTable.Lists
import KotlinNullability.Proofs.StringTable.Positions
import KotlinNullability.Proofs.StringTable.Slots
import KotlinNullability.Proofs.StringTable.Written
import KotlinNullability.Proofs.Text.Numeral
import KotlinNullability.Proofs.Text.Utf8
import KotlinNullability.Proofs.Wire.DeclaredLength
import KotlinNullability.Proofs.Wire.EncodedFields
import KotlinNullability.Proofs.Wire.IntegerKinds
import KotlinNullability.Proofs.Wire.Loop
import KotlinNullability.Proofs.Wire.Meaning
import KotlinNullability.Proofs.Wire.ReadBack
import KotlinNullability.Proofs.Wire.Session
import KotlinNullability.Proofs.Wire.Skipping
import KotlinNullability.Proofs.Wire.Spelling
import KotlinNullability.Proofs.Wire.Tokens
import KotlinNullability.Proofs.Wire.Truncation
import KotlinNullability.Proofs.Wire.VarintValue
import KotlinNullability.Proofs.Wire.Walk
import KotlinNullability.Proofs.Wire.Wording
import KotlinNullability.StringTable
import KotlinNullability.StringTable.Predefined
import KotlinNullability.StringTable.Record
import KotlinNullability.Text
import KotlinNullability.Text.DecimalDigit
import KotlinNullability.Text.Numeral
import KotlinNullability.Text.Printable
import KotlinNullability.Text.Quoted
import KotlinNullability.Text.Utf8
import KotlinNullability.Text.WhiteSpace
import KotlinNullability.Version
import KotlinNullability.Wire.Cursor
import KotlinNullability.Wire.Message
import KotlinNullability.Wire.Reader
import KotlinNullability.Wire.Tag
import KotlinNullability.Wire.Varint
import KotlinNullability.Wire.Writer
