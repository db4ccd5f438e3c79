import OasValidator.Library.Cut
import OasValidator.Library.Table
import OasValidator.Library.Words
import OasValidator.Library.Scanning
import OasValidator.Library.Template
import OasValidator.Library.Cells
import OasValidator.Library.Json
import OasValidator.Library.JsonText
import OasValidator.Library.Locks
import OasValidator.Library.JsonPlaces
import OasValidator.Library.Tree
import OasValidator.PathTrie.Walk
import OasValidator.PathTrie.Order
import OasValidator.PathTrie.Invariant
import OasValidator.PathTrie.Linked
import OasValidator.PathTrie.LinkedRuns
import OasValidator.Deserializer.Build
import OasValidator.Deserializer.Text
import OasValidator.Deserializer.Decoding
import OasValidator.Deserializer.Values
import OasValidator.Deserializer.Whole
import OasValidator.Deserializer.Object
import OasValidator.Deserializer.Locality
import OasValidator.Deserializer.Meaning
import OasValidator.Deserializer.Serialization
import OasValidator.Deserializer.Declared
import OasValidator.Deserializer.Strings
import OasValidator.Deserializer.Words
import OasValidator.Deserializer.Language
import OasValidator.Deserializer.Arrays
import OasValidator.Deserializer.ObjectTexts
import OasValidator.Deserializer.ObjectLanguage
import OasValidator.Deserializer.Failures
import OasValidator.Validators.Base
import OasValidator.Validators.Json
import OasValidator.Validators.Param
import OasValidator.Validators.Store
import OasValidator.Validators.Messages
import OasValidator.Validators.Query
import OasValidator.Validators.Slices
import OasValidator.Validators.Verdict
import OasValidator.Validators.Exploded
import OasValidator.Validators.Scalars
import OasValidator.Validators.Rest
import OasValidator.Validators.Reports
import OasValidator.Validators.ErrorTrees
import OasValidator.Validators.Success
import OasValidator.Validators.WholeText
import OasValidator.Validators.Descriptions
import OasValidator.Imp.References
import OasValidator.Imp.Resolved
import OasValidator.Imp.Termination
import OasValidator.Imp.Construct
import OasValidator.Imp.Lookup
import OasValidator.Imp.Requests
import OasValidator.Imp.Sequence
import OasValidator.Imp.Tables
import OasValidator.Imp.Routes
import OasValidator.Imp.Soundness
import OasValidator.Imp.Captured
import OasValidator.Imp.Completeness
import OasValidator.Imp.Interference
import OasValidator.Imp.Runs
import OasValidator.Imp.Calls
import OasValidator.Imp.Fallback
import OasValidator.Imp.ErrorTexts
import OasValidator.Imp.Exchanges
import OasValidator.Imp.MappedOrder
import OasValidator.Imp.Lifetimes
import OasValidator.Imp.Sharing
import OasValidator.Imp.Returns
import OasValidator.Imp.Demands
import OasValidator.Imp.Permuted
import OasValidator.Imp.Expanded
import OasValidator.Imp.Inlining
import OasValidator.Imp.AnyOrder
import OasValidator.Imp.Preresolved
import OasValidator.Imp.Pointers
import OasValidator.Imp.SpecRefs
import OasValidator.Imp.HeaderNames
import OasValidator.Imp.Operations
import OasValidator.Imp.Acceptance
import OasValidator.Imp.Blame
import OasValidator.Imp.Filled
import OasValidator.Imp.Layout
import OasValidator.Imp.Threads
import OasValidator.Imp.Iteration
import OasValidator.Imp.EmptyValues
