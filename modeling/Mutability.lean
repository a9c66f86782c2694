import Mutability.Analysis.Configuration
import Mutability.Analysis.Configuration.Reader
import Mutability.Analysis.Fixpoint
import Mutability.Analysis.Trace
import Mutability.Codec.Basic
import Mutability.Codec.Facts
import Mutability.Codec.Markers
import Mutability.Codec.Types
import Mutability.Derivation.Entities
import Mutability.Derivation.Parts
import Mutability.Entity.Kind
import Mutability.Entity.Store
import Mutability.Json.Basic
import Mutability.Json.Magnitude
import Mutability.Json.Printer
import Mutability.Json.Reader
import Mutability.Json.Scanner
import Mutability.Lattice.Convention
import Mutability.Lattice.Fact
import Mutability.Lattice.Grade
import Mutability.Lattice.Level
import Mutability.Lattice.MultiLevel
import Mutability.Lattice.Property
import Mutability.Lattice.Size
import Mutability.Marker.Basic
import Mutability.Marker.Contract
import Mutability.Marker.Eventual
import Mutability.Marker.Set
import Mutability.Text.Blank
import Mutability.Text.Names
import Mutability.Types.Assignability
import Mutability.Types.Bindings
import Mutability.Types.Declaration
import Mutability.Types.Distance
import Mutability.Types.Expr
import Mutability.Types.Hierarchy
import Mutability.Types.Matching
import Mutability.Types.Mode
import Mutability.Types.Outcome
import Mutability.Types.Platform
import Mutability.Types.Primitive
import Mutability.Types.Supertype
import Mutability.Proofs.FactOrder
import Mutability.Proofs.StoreRuns
import Mutability.Proofs.EstablishedGrades
import Mutability.Proofs.PlatformTypes
import Mutability.Proofs.Vocabulary
import Mutability.Proofs.ArgumentInvariance
import Mutability.Proofs.SupertypePath
import Mutability.Proofs.SubtypeAssignable
import Mutability.Proofs.Moves
import Mutability.Proofs.Depth
import Mutability.Proofs.Termination
import Mutability.Proofs.ReentryGuard
import Mutability.Proofs.Registration
import Mutability.Proofs.ErasedReachability
import Mutability.Proofs.Resolution
import Mutability.Proofs.ModeRelations
import Mutability.Proofs.Derivability
import Mutability.Proofs.LowerArguments
import Mutability.Proofs.Extension
import Mutability.Proofs.Proposals
import Mutability.Proofs.FixpointRuns
import Mutability.Proofs.ProcessingOrder
import Mutability.Proofs.Substitution
import Mutability.Proofs.GroundSupertypes
import Mutability.Proofs.MarkerConsistency
import Mutability.Proofs.ContractFacts
import Mutability.Proofs.ContractTrip
import Mutability.Proofs.AbsentContracts
import Mutability.Proofs.DescriptorTrip
import Mutability.Proofs.RoundTrip
import Mutability.Proofs.RunSpans
import Mutability.Proofs.AcyclicBindings
import Mutability.Proofs.TranslationDepth
import Mutability.Proofs.MatchRecovery
import Mutability.Proofs.WildcardContainment
import Mutability.Proofs.SupertypeBindings
import Mutability.Proofs.BoundOrder
import Mutability.Proofs.MemberTypes
import Mutability.Proofs.InvariantSymmetry
import Mutability.Proofs.EitherDirection
import Mutability.Proofs.Boxing
import Mutability.Proofs.OwnBindings
import Mutability.Proofs.InexpressibleStates
import Mutability.Proofs.DistanceLaws
import Mutability.Proofs.SizeCodes
import Mutability.Proofs.EndlessSearch
import Mutability.Proofs.WaysUp
