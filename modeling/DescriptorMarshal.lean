import DescriptorMarshal.Codec.Context
import DescriptorMarshal.Codec.Convert
import DescriptorMarshal.Codec.Decode
import DescriptorMarshal.Codec.Number
import DescriptorMarshal.Codec.Release
import DescriptorMarshal.Codec.Reset
import DescriptorMarshal.CommandLine
import DescriptorMarshal.Cpp.Code
import DescriptorMarshal.Cpp.Fill
import DescriptorMarshal.Cpp.Literal
import DescriptorMarshal.Cpp.Lookup
import DescriptorMarshal.Cpp.NameMap
import DescriptorMarshal.Cpp.Release
import DescriptorMarshal.Cpp.Reset
import DescriptorMarshal.Cpp.Sources
import DescriptorMarshal.Entries
import DescriptorMarshal.Generator
import DescriptorMarshal.Host.ArrayKind
import DescriptorMarshal.Host.Value
import DescriptorMarshal.Idl.Document
import DescriptorMarshal.Idl.Record
import DescriptorMarshal.Json.Basic
import DescriptorMarshal.Json.Reader
import DescriptorMarshal.Json.Token
import DescriptorMarshal.Json.Writer
import DescriptorMarshal.Main
import DescriptorMarshal.Naming
import DescriptorMarshal.Native.Heap
import DescriptorMarshal.Native.Value
import DescriptorMarshal.Native.Weight
import DescriptorMarshal.Number.Binary
import DescriptorMarshal.Number.Decimal
import DescriptorMarshal.Number.Range
import DescriptorMarshal.Number.Rounding
import DescriptorMarshal.Number.Shortest
import DescriptorMarshal.Plan.Basic
import DescriptorMarshal.Plan.Build
import DescriptorMarshal.Plan.Embedding
import DescriptorMarshal.Plan.NameTable
import DescriptorMarshal.Plan.Set
import DescriptorMarshal.Proofs.Acceptance
import DescriptorMarshal.Proofs.Accounting
import DescriptorMarshal.Proofs.Agenda
import DescriptorMarshal.Proofs.Allocation
import DescriptorMarshal.Proofs.Assembly
import DescriptorMarshal.Proofs.Atomicity
import DescriptorMarshal.Proofs.Attachment
import DescriptorMarshal.Proofs.Balance
import DescriptorMarshal.Proofs.Casing
import DescriptorMarshal.Proofs.Coherence
import DescriptorMarshal.Proofs.Completeness
import DescriptorMarshal.Proofs.Conformance
import DescriptorMarshal.Proofs.Constants
import DescriptorMarshal.Proofs.Conversion
import DescriptorMarshal.Proofs.Counting
import DescriptorMarshal.Proofs.Cycles
import DescriptorMarshal.Proofs.Declaration
import DescriptorMarshal.Proofs.Defaults
import DescriptorMarshal.Proofs.Depth
import DescriptorMarshal.Proofs.Destruction
import DescriptorMarshal.Proofs.Disposal
import DescriptorMarshal.Proofs.Embedding
import DescriptorMarshal.Proofs.Exactness
import DescriptorMarshal.Proofs.Extension
import DescriptorMarshal.Proofs.Fallbacks
import DescriptorMarshal.Proofs.Filling
import DescriptorMarshal.Proofs.HeapGrowth
import DescriptorMarshal.Proofs.Identifiers
import DescriptorMarshal.Proofs.Independence
import DescriptorMarshal.Proofs.Indexing
import DescriptorMarshal.Proofs.Layout
import DescriptorMarshal.Proofs.Lifetime
import DescriptorMarshal.Proofs.Literals
import DescriptorMarshal.Proofs.Lookup
import DescriptorMarshal.Proofs.Meaning
import DescriptorMarshal.Proofs.Nearest
import DescriptorMarshal.Proofs.Nesting
import DescriptorMarshal.Proofs.Numbers
import DescriptorMarshal.Proofs.Numerals
import DescriptorMarshal.Proofs.Ownership
import DescriptorMarshal.Proofs.Reading
import DescriptorMarshal.Proofs.Records
import DescriptorMarshal.Proofs.Release
import DescriptorMarshal.Proofs.Rendering
import DescriptorMarshal.Proofs.Reset
import DescriptorMarshal.Proofs.Rounding
import DescriptorMarshal.Proofs.Session
import DescriptorMarshal.Proofs.Shortest
import DescriptorMarshal.Proofs.Slots
import DescriptorMarshal.Proofs.Spelling
import DescriptorMarshal.Proofs.Staleness
import DescriptorMarshal.Proofs.Statements
import DescriptorMarshal.Proofs.StringLiteral
import DescriptorMarshal.Proofs.Symbols
import DescriptorMarshal.Proofs.Tables
import DescriptorMarshal.Proofs.Termination
import DescriptorMarshal.Proofs.Typing
import DescriptorMarshal.Proofs.Visibility
import DescriptorMarshal.Schema.Assemble
import DescriptorMarshal.Schema.Basic
import DescriptorMarshal.Schema.Error
import DescriptorMarshal.Schema.Index
import DescriptorMarshal.Schema.Listing
import DescriptorMarshal.Schema.Literal
import DescriptorMarshal.Schema.Node
import DescriptorMarshal.Schema.Resolve
import DescriptorMarshal.Schema.Type
import DescriptorMarshal.Text.Blank
import DescriptorMarshal.Text.UpperCase
