import Backchain.Engine
import Backchain.Json.Forms
import Backchain.Partition.Classes
import Backchain.Partition.Tables
import Backchain.Proofs.Lists
import Backchain.Proofs.Equalities
import Backchain.Proofs.PartitionClosure
import Backchain.Proofs.UnificationClosure
import Backchain.Proofs.LeastModel
import Backchain.Proofs.Exploration
import Backchain.Proofs.ProofForest
import Backchain.Proofs.ProofInstances
import Backchain.Proofs.Expansion
import Backchain.Proofs.SearchEnumeration
import Backchain.Proofs.SearchModel
import Backchain.Proofs.ProofEnumeration
import Backchain.Proofs.ActiveDomain
import Backchain.Proofs.SolutionBindings
import Backchain.Proofs.QueryAnswers
import Backchain.Proofs.SearchLimits
import Backchain.Proofs.PartitionHistory
import Backchain.Proofs.SearchTermination
import Backchain.Proofs.ProofProducts
import Backchain.Proofs.ForcedValues
import Backchain.Proofs.JointAnswers
import Backchain.Proofs.JointModel
import Backchain.Proofs.KeyRenaming
import Backchain.Proofs.ScopeRenaming
import Backchain.Proofs.ProofRenaming
import Backchain.Proofs.ConstrainedSearch
import Backchain.Proofs.SearchMirroring
import Backchain.Proofs.SequencedSearch
import Backchain.Proofs.ProofRearrangement
import Backchain.Proofs.ReorderedSearch
import Backchain.Proofs.GrowingDatabase
import Backchain.Proofs.SearchLockstep
import Backchain.Proofs.ShiftedSearch
import Backchain.Proofs.FreshScopes
import Backchain.Proofs.VariableNames
import Backchain.Proofs.RelevantClauses
import Backchain.Proofs.NonrecursiveRules
import Backchain.Proofs.MostGeneralUnification
import Backchain.Proofs.ClassListing
import Backchain.Proofs.MergedBindings
import Backchain.Proofs.TreeWeights
import Backchain.Proofs.AlignedTables
import Backchain.Proofs.PartitionTables
import Backchain.Proofs.PathHalving
import Backchain.Proofs.JsonForms
import Backchain.Proofs.JsonRoundTrip
import Backchain.Proofs.RecursiveSearch
import Backchain.Proofs.SearchCounters
import Backchain.Proofs.ScopeCounters
import Backchain.Proofs.RuleNesting
import Backchain.Proofs.ProvenQueries
import Backchain.Proofs.FactMatching
