import HashedLiterals.Text.Utf8
import HashedLiterals.Text.Units
import HashedLiterals.Text.Blank
import HashedLiterals.Buffer.Writing
import HashedLiterals.Scan.Cursor
import HashedLiterals.Number.Shortest
import HashedLiterals.Position
import HashedLiterals.Diagnostic.Render
import HashedLiterals.Preprocess
import HashedLiterals.Config.Resolve
import HashedLiterals.Command.Args
import HashedLiterals.Command.Diff
import HashedLiterals.Disk.Atomic
import HashedLiterals.Config.File
import HashedLiterals.FileUpdate
import HashedLiterals.Collect
import HashedLiterals.Command.Run
import HashedLiterals.Main
import HashedLiterals.Proofs.Faults
import HashedLiterals.Proofs.SecondPass
import HashedLiterals.Proofs.Collisions
import HashedLiterals.Proofs.Chunks
import HashedLiterals.Proofs.Texts
import HashedLiterals.Proofs.Lookup
import HashedLiterals.Proofs.Staging
import HashedLiterals.Proofs.Atomic
import HashedLiterals.Proofs.Directories
import HashedLiterals.Proofs.FailedUpdates
import HashedLiterals.Proofs.Lexical
import HashedLiterals.Proofs.Effects
import HashedLiterals.Proofs.Joining
import HashedLiterals.Proofs.OutputTree
import HashedLiterals.Proofs.Recording
import HashedLiterals.Proofs.Reports
import HashedLiterals.Proofs.Lines
import HashedLiterals.Proofs.TextSources
import HashedLiterals.Proofs.Driving
import HashedLiterals.Proofs.Layering
import HashedLiterals.Proofs.Resolution
import HashedLiterals.Proofs.Footprint
import HashedLiterals.Proofs.LinkedDestinations
import HashedLiterals.Proofs.DryRuns
import HashedLiterals.Proofs.Containment
import HashedLiterals.Proofs.Acceptance
import HashedLiterals.Proofs.ConfigFiles
import HashedLiterals.Proofs.Mappings
import HashedLiterals.Proofs.Reporting
import HashedLiterals.Proofs.SourceMaps
import HashedLiterals.Proofs.FirstCollisions
import HashedLiterals.Proofs.Isolation
import HashedLiterals.Proofs.Walking
import HashedLiterals.Proofs.FileArguments
import HashedLiterals.Proofs.Comments
import HashedLiterals.Proofs.Recovery
import HashedLiterals.Proofs.Decoding
import HashedLiterals.Proofs.Messages
import HashedLiterals.Proofs.Carets
import HashedLiterals.Proofs.Hunks
import HashedLiterals.Proofs.Expansion
import HashedLiterals.Proofs.Variables
import HashedLiterals.Proofs.Revalidation
import HashedLiterals.Proofs.Stepping
import HashedLiterals.Proofs.Words
import HashedLiterals.Proofs.Reordering
import HashedLiterals.Proofs.Colors
import HashedLiterals.Proofs.Growth
import HashedLiterals.Proofs.Offsets
