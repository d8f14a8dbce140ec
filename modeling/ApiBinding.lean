import ApiBinding.Client.Decode
import ApiBinding.Client.Encode
import ApiBinding.Compile
import ApiBinding.Document.Decode
import ApiBinding.Proofs.Compilation.Closure
import ApiBinding.Proofs.Compilation.Ending
import ApiBinding.Proofs.Compilation.Names
import ApiBinding.Proofs.Compilation.Tagging
import ApiBinding.Proofs.Composition.Cycles
import ApiBinding.Proofs.Composition.Flattening
import ApiBinding.Proofs.Endpoint.Signatures
import ApiBinding.Proofs.Resolver.Reporting
import ApiBinding.Proofs.Compilation.Operations
import ApiBinding.Proofs.Compilation.Stability
import ApiBinding.Proofs.Resolver.BackReferences
import ApiBinding.Proofs.Compilation.Nullability
import ApiBinding.Proofs.Compilation.Canonical
import ApiBinding.Proofs.Compilation.Discovery
import ApiBinding.Proofs.Compilation.Memberships
import ApiBinding.Proofs.Compilation.Rings
import ApiBinding.Proofs.Compilation.Writing
import ApiBinding.Proofs.Compilation.TagSources
import ApiBinding.Proofs.Compilation.Spelling
import ApiBinding.Proofs.Compilation.Origins
import ApiBinding.Proofs.Composition.Overrides
import ApiBinding.Proofs.Document.RoundTrip
import ApiBinding.Proofs.Composition.Contributions
import ApiBinding.Proofs.Composition.Laws
import ApiBinding.Proofs.Composition.Unions
import ApiBinding.Proofs.Composition.Redeclarations
import ApiBinding.Proofs.Resolver.Failures
import ApiBinding.Proofs.Compilation.Repeats
import ApiBinding.Proofs.Compilation.Responses
import ApiBinding.Proofs.Compilation.Sending
import ApiBinding.Proofs.Endpoint.Lookups
import ApiBinding.Proofs.Naming.ReservedWords
import ApiBinding.Proofs.Naming.Recasing
import ApiBinding.Proofs.Client.UnionTypes
import ApiBinding.Proofs.Endpoint.Grammar
import ApiBinding.Proofs.Document.Search
import ApiBinding.Proofs.Document.Pointers
