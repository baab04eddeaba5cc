import ParetoSelection.Binary64
import ParetoSelection.Geometry
import ParetoSelection.Fitness
import ParetoSelection.Dominance
import ParetoSelection.Maxima.Finder
import ParetoSelection.Maxima.Window
import ParetoSelection.Maxima.Checked
import ParetoSelection.Fronts.Strategy
import ParetoSelection.Fronts.Rounds
import ParetoSelection.Fronts.Tally
import ParetoSelection.Crowding
import ParetoSelection.Crowding.Passes
import ParetoSelection.SimplexLattice
import ParetoSelection.SimplexLattice.Buffer
import ParetoSelection.SplitMix
import ParetoSelection.ConeTree.Arena
import ParetoSelection.ConeTree.Search
import ParetoSelection.ConeTree.Stack
import ParetoSelection.SingleObjective
import ParetoSelection.Nsga2
import ParetoSelection.Nsga3.Stores
import ParetoSelection.Policy
import ParetoSelection.Proofs.Fronts.Agreement
import ParetoSelection.Proofs.Policy.Survivors
import ParetoSelection.Proofs.Nsga3.Evenness
import ParetoSelection.Proofs.Nsga3.Outcome
import ParetoSelection.Proofs.Nsga3.Occupancy
import ParetoSelection.Proofs.Fronts.Survival
import ParetoSelection.Proofs.Policy.CachedRanks
import ParetoSelection.Proofs.Binary64.Zeros
import ParetoSelection.Proofs.Fronts.Comparisons
import ParetoSelection.Proofs.Fronts.ZeroSigns
import ParetoSelection.Proofs.ConeTree.BestMatch
import ParetoSelection.Proofs.Nsga3.Box
import ParetoSelection.Proofs.Nsga3.Access
import ParetoSelection.Proofs.Nsga3.Nearest
import ParetoSelection.Proofs.Nsga3.Bookkeeping
import ParetoSelection.Proofs.Policy.Refusals
import ParetoSelection.Proofs.ConeTree.Scan
import ParetoSelection.Proofs.ConeTree.Stack
import ParetoSelection.Proofs.ConeTree.Rounding
import ParetoSelection.Proofs.SimplexLattice.Enumeration
import ParetoSelection.Proofs.SimplexLattice.Buffer
import ParetoSelection.Proofs.Binary64.Tolerance
import ParetoSelection.Proofs.Maxima.Window
import ParetoSelection.Proofs.Maxima.Elimination
import ParetoSelection.Proofs.Fronts.Rounds
import ParetoSelection.Proofs.Fronts.Countdown
import ParetoSelection.Proofs.Maxima.Selection
import ParetoSelection.Proofs.Fronts.Placement
import ParetoSelection.Proofs.SingleObjective
import ParetoSelection.Proofs.Maxima.Undominated
import ParetoSelection.Proofs.Binary64.Trichotomy
import ParetoSelection.Proofs.Exact.Admissible
import ParetoSelection.Proofs.Nsga3.Extremes
import ParetoSelection.Proofs.SimplexLattice.Nearest
import ParetoSelection.Proofs.SimplexLattice.Saturation
import ParetoSelection.Proofs.SplitMix.Period
import ParetoSelection.Proofs.Crowding.Rearrangement
import ParetoSelection.Proofs.Exact.Crowding
import ParetoSelection.Proofs.Policy.Truncation
import ParetoSelection.Proofs.Policy.Tournament
import ParetoSelection.Proofs.Nsga3.Pool
import ParetoSelection.Proofs.Exact.LineDistance
import ParetoSelection.Proofs.Dominance.Componentwise
