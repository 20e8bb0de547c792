import IncrementalJson.Generator
import IncrementalJson.Parser
import IncrementalJson.Proofs.InternalErrors
import IncrementalJson.Proofs.Reading.AnyValue
import IncrementalJson.Proofs.Reading.Containers
import IncrementalJson.Proofs.Reading.DepthLimit
import IncrementalJson.Proofs.Reading.ExactIntegers
import IncrementalJson.Proofs.Reading.Lifecycle
import IncrementalJson.Proofs.Reading.MemberNames
import IncrementalJson.Proofs.Reading.Refinement
import IncrementalJson.Proofs.Reading.Truncation
import IncrementalJson.Proofs.Reading.Unescaping
import IncrementalJson.Proofs.Reading.Wrappers
import IncrementalJson.Proofs.Records.PresenceMap
import IncrementalJson.Proofs.RoundTrip.Canonical
import IncrementalJson.Proofs.Stack.CallStack
import IncrementalJson.Proofs.Stack.Scripts
import IncrementalJson.Proofs.Termination
import IncrementalJson.Proofs.Viewing.Integers
import IncrementalJson.Proofs.Viewing.Kinds
import IncrementalJson.Proofs.Viewing.Paths
import IncrementalJson.Proofs.Writing.Buffers
import IncrementalJson.Proofs.Writing.DepthLimit
import IncrementalJson.Proofs.Writing.Failures
import IncrementalJson.Proofs.Writing.Spill
import IncrementalJson.Record
import IncrementalJson.Value.Variant
