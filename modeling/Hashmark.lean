import Hashmark.Text.Case
import Hashmark.Text.Blank
import Hashmark.Dict
import Hashmark.Number.Layout
import Hashmark.Number.Numeral
import Hashmark.Json.Reader
import Hashmark.Syntax
import Hashmark.Source
import Hashmark.Expression.Token
import Hashmark.Expression.Parser
import Hashmark.Fault
import Hashmark.Value.Arithmetic
import Hashmark.Escape
import Hashmark.Scopes
import Hashmark.Callable.Policy
import Hashmark.Callable.Builtin
import Hashmark.Marker.Lexer
import Hashmark.Template
import Hashmark.Expression.Evaluation
import Hashmark.Render
import Hashmark.Timestamp
import Hashmark.Path
import Hashmark.Artifact.Basic
import Hashmark.Json.Fields
import Hashmark.Artifact.Encoding
import Hashmark.Artifact.Decoding
import Hashmark.Optimize.Fold
import Hashmark.Optimize.Region
import Hashmark.Optimize.Minify
import Hashmark.Optimize
import Hashmark.Catalog.Basic
import Hashmark.Catalog.Library
import Hashmark.Disk
import Hashmark.Catalog.SearchPath
import Hashmark.Compile
import Hashmark.Cache.Key
import Hashmark.Cache.Backend
import Hashmark.Cache.Memory
import Hashmark.Cache.Directory
import Hashmark.Engine
import Hashmark.Config
import Hashmark.Site
import Hashmark.CommandLine.Arguments
import Hashmark.CommandLine.Help
import Hashmark.CommandLine.Run
import Hashmark.Main
import Hashmark.Proofs.Caching.Transparency
import Hashmark.Proofs.Optimizing.Neutrality
import Hashmark.Proofs.Optimizing.NormalForm
import Hashmark.Proofs.Optimizing.Hiding
import Hashmark.Proofs.Elements.Exactness
import Hashmark.Proofs.Elements.Idempotence
import Hashmark.Proofs.Callables.Compiled
import Hashmark.Proofs.Escaping.Output
import Hashmark.Proofs.Compiling.Inheritance
import Hashmark.Proofs.Caching.Files
import Hashmark.Proofs.Caching.Sharing
import Hashmark.Proofs.Caching.Repeats
import Hashmark.Proofs.Caching.Queue
import Hashmark.Proofs.Parsing.Tiling
import Hashmark.Proofs.Storing.RoundTrip
import Hashmark.Proofs.Writing.Trees
import Hashmark.Proofs.Grammar.Composition
import Hashmark.Proofs.Grammar.Chains
import Hashmark.Proofs.Grammar.Printing
import Hashmark.Proofs.Grammar.Extents
import Hashmark.Proofs.Compiling.Circles
import Hashmark.Proofs.Compiling.Dependencies
import Hashmark.Proofs.Rendering.InPlace
import Hashmark.Proofs.Rendering.Unwinding
import Hashmark.Proofs.Rendering.Variables
import Hashmark.Proofs.Callables.Forgiving
import Hashmark.Proofs.Files.Confinement
import Hashmark.Proofs.Ordering.Sorting
import Hashmark.Proofs.Compiling.Diagnostics
import Hashmark.Proofs.Elements.Termination
import Hashmark.Proofs.Evaluating.Division
