import Oberon.Command.Folder
import Oberon.Main
import Oberon.Proofs.Traces
import Oberon.Proofs.TypedEmission
import Oberon.Proofs.Trees
import Oberon.Proofs.TypedExpressions
import Oberon.Proofs.TypedStatements
import Oberon.Proofs.Sections
import Oberon.Proofs.Temporaries
import Oberon.Proofs.BlockNames
import Oberon.Proofs.TypedSections
import Oberon.Proofs.TypedPrograms
import Oberon.Proofs.WellFormed
import Oberon.Proofs.Memory
import Oberon.Proofs.Objects
import Oberon.Proofs.TypedMemory
import Oberon.Proofs.TypedConsole
import Oberon.Proofs.TypedRuns
import Oberon.Proofs.Loading
import Oberon.Proofs.Soundness
import Oberon.Proofs.Steps
import Oberon.Proofs.Semantics
import Oberon.Proofs.Segments
import Oberon.Proofs.Stores
import Oberon.Proofs.Operations
import Oberon.Proofs.Utf8
import Oberon.Proofs.Computations
import Oberon.Proofs.Actions
import Oberon.Proofs.ControlParts
import Oberon.Proofs.Calls
import Oberon.Proofs.Symbols
import Oberon.Proofs.Discipline
import Oberon.Proofs.Constants
import Oberon.Proofs.Aliases
import Oberon.Proofs.Blocks
import Oberon.Proofs.Flow
import Oberon.Proofs.Following
import Oberon.Proofs.Simulation
import Oberon.Proofs.ModuleScope
import Oberon.Proofs.Refinement
import Oberon.Proofs.Confinement
import Oberon.Proofs.Effects
import Oberon.Proofs.Copies
import Oberon.Proofs.Reservations
import Oberon.Proofs.Faults
import Oberon.Proofs.Fuel
import Oberon.Proofs.CheckedRuns
import Oberon.Proofs.Ranges
import Oberon.Proofs.Remembering
import Oberon.Proofs.Spelling
import Oberon.Proofs.SpelledModules
import Oberon.Proofs.Expressions
import Oberon.Proofs.Orderly
import Oberon.Proofs.Outlines
import Oberon.Proofs.Bodies
import Oberon.Proofs.Provenance
import Oberon.Proofs.CallSites
import Oberon.Proofs.ControlFlow
import Oberon.Proofs.Counting
import Oberon.Proofs.Trips
import Oberon.Proofs.Reachability
import Oberon.Proofs.Addressing
import Oberon.Proofs.Hygiene
import Oberon.Proofs.ArrayAssignment
import Oberon.Proofs.TwosComplement
import Oberon.Proofs.ScalarAccess
import Oberon.Proofs.Conformance
import Oberon.Proofs.StringLiterals
import Oberon.Proofs.Scripts
import Oberon.Proofs.ArrayTypes
import Oberon.Proofs.Interning
