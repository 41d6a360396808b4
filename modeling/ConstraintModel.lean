import ConstraintModel.Model
import ConstraintModel.Proofs.Agreement
import ConstraintModel.Proofs.Interval
import ConstraintModel.Proofs.Range
import ConstraintModel.Proofs.Scope
import ConstraintModel.Proofs.Related
import ConstraintModel.Proofs.Truth
import ConstraintModel.Proofs.WellFormed
import ConstraintModel.Proofs.Calculus
import ConstraintModel.Proofs.Decompose
import ConstraintModel.Proofs.FlatForm
import ConstraintModel.Proofs.FlatShape
import ConstraintModel.Proofs.Mapped
import ConstraintModel.Proofs.Parts
import ConstraintModel.Proofs.Primitive
import ConstraintModel.Proofs.Accepted
import ConstraintModel.Proofs.LinearShape
import ConstraintModel.Proofs.PositiveShape
import ConstraintModel.Proofs.Linearizable
import ConstraintModel.Proofs.ProductFree
import ConstraintModel.Proofs.AffineShape
import ConstraintModel.Proofs.LinearTotal
import ConstraintModel.Proofs.AffineValue
import ConstraintModel.Proofs.FlatMeaning
import ConstraintModel.Proofs.FlatSolutions
import ConstraintModel.Proofs.Circuits
import ConstraintModel.Proofs.LinearSolutions
import ConstraintModel.Proofs.PrimitiveSolutions
import ConstraintModel.Proofs.PartialTours
import ConstraintModel.Proofs.PositiveMeaning
import ConstraintModel.Proofs.ProjectedSolutions
import ConstraintModel.Proofs.Coincidence
import ConstraintModel.Proofs.MutualInverses
import ConstraintModel.Proofs.ValueSets
import ConstraintModel.Proofs.Negation
import ConstraintModel.Proofs.Enclosure
import ConstraintModel.Proofs.ViewRemoval
import ConstraintModel.Proofs.Separation
import ConstraintModel.Proofs.Channelling
import ConstraintModel.Proofs.FlatValues
import ConstraintModel.Proofs.Termination
import ConstraintModel.Proofs.Sessions
import ConstraintModel.Proofs.LinearTermination
import ConstraintModel.Proofs.SplitSolutions
import ConstraintModel.Proofs.LiftedSolutions
