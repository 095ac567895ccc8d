import Forager.Json.Access
import Forager.Main
import Forager.Text.Natural
import Forager.Proofs.Computation
import Forager.Proofs.Sexp.Tokens
import Forager.Proofs.Sexp.Nodes
import Forager.Proofs.Sexp.RoundTrip
import Forager.Proofs.Sexp.Faults
import Forager.Proofs.Sexp.Relink
import Forager.Proofs.Sexp.Links
import Forager.Proofs.Sexp.Descent
import Forager.Proofs.Sexp.Edits
import Forager.Proofs.Sexp.Transplant
import Forager.Proofs.Sexp.Swaps
import Forager.Proofs.Sexp.Isolation
import Forager.Proofs.Number.Rounding
import Forager.Proofs.Number.Packing
import Forager.Proofs.Number.Nearest
import Forager.Proofs.Number.Shortest
import Forager.Proofs.Number.Numerals
import Forager.Proofs.Number.RoundTrip
import Forager.Proofs.Number.Order
import Forager.Proofs.Number.Overflow
import Forager.Proofs.Number.Differences
import Forager.Proofs.Number.Values
import Forager.Proofs.Text.Bytes
import Forager.Proofs.Text.Natural
import Forager.Proofs.Program.Shape
import Forager.Proofs.Program.Soundness
import Forager.Proofs.Program.Notes
import Forager.Proofs.Program.RoundTrip
import Forager.Proofs.Program.Places
import Forager.Proofs.Chance.Draws
import Forager.Proofs.Chance.Fractions
import Forager.Proofs.Arena.Programs
import Forager.Proofs.Arena.Holdings
import Forager.Proofs.Arena.Events
import Forager.Proofs.Arena.Ownership
import Forager.Proofs.Arena.Accounting
import Forager.Proofs.Arena.Idle
import Forager.Proofs.Arena.Fitness
import Forager.Proofs.Arena.Modes
import Forager.Proofs.Arena.Recovery
import Forager.Proofs.Arena.Spacing
import Forager.Proofs.Arena.Placement
import Forager.Proofs.Breeding.Typing
import Forager.Proofs.Breeding.Mutants
import Forager.Proofs.Breeding.Crossover
import Forager.Proofs.Breeding.Exchange
import Forager.Proofs.Breeding.Roulette
import Forager.Proofs.Breeding.Heredity
import Forager.Proofs.Breeding.Evaluation
import Forager.Proofs.Breeding.Idle
import Forager.Proofs.Breeding.Evolution
import Forager.Proofs.Breeding.Lineup
import Forager.Proofs.Breeding.Schedule
import Forager.Proofs.Breeding.Interleaving
import Forager.Proofs.Breeding.Seeds
import Forager.Proofs.Breeding.Retry
import Forager.Proofs.Breeding.Fingerprints
import Forager.Proofs.Breeding.Best
import Forager.Proofs.Breeding.Growth
import Forager.Proofs.Breeding.Draining
import Forager.Proofs.Breeding.Closure
import Forager.Proofs.Json.Scalars
import Forager.Proofs.Json.RoundTrip
import Forager.Proofs.Json.Records
import Forager.Proofs.Disk.Places
import Forager.Proofs.Disk.Frame
import Forager.Proofs.Disk.Stages
import Forager.Proofs.Disk.Directories
import Forager.Proofs.Disk.Listing
import Forager.Proofs.Breeding.Strategies
import Forager.Proofs.Archive.Encoding
import Forager.Proofs.Archive.Writing
import Forager.Proofs.Archive.Export
import Forager.Proofs.Timestamp.Calendar
import Forager.Proofs.Timestamp.Order
import Forager.Proofs.Archive.Room
import Forager.Proofs.Archive.Attempts
import Forager.Proofs.Archive.Upkeep
import Forager.Proofs.Archive.Retention
import Forager.Proofs.Archive.Index
import Forager.Proofs.Archive.Store
import Forager.Proofs.Archive.Maps
import Forager.Proofs.Timestamp.Reading
import Forager.Proofs.Archive.Codec
import Forager.Proofs.Session.Course
import Forager.Proofs.Session.Idle
import Forager.Proofs.Session.Agreement
import Forager.Proofs.Session.Failure
import Forager.Proofs.Session.Matches
