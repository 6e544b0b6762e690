import HashOrbit.Pass
import HashOrbit.Walk
import HashOrbit.Journal
import HashOrbit.Detector
import HashOrbit.Search
import HashOrbit.Render
import HashOrbit.CommandLine.Command
import HashOrbit.CommandLine.UsageError
import HashOrbit.CommandLine.Reader
import HashOrbit.Program
import HashOrbit.Main
import HashOrbit.Proofs.Pass.ClosedForm
import HashOrbit.Proofs.Pass.Collision
import HashOrbit.Proofs.Pass.Absorption
import HashOrbit.Proofs.Detector.Memory
import HashOrbit.Proofs.Detector.Numbering
import HashOrbit.Proofs.Stream
import HashOrbit.Proofs.Search.Verdict
import HashOrbit.Proofs.Search.Streams
import HashOrbit.Proofs.Search.Answers
import HashOrbit.Proofs.Search.Records
import HashOrbit.Proofs.Search.Renaming
import HashOrbit.Proofs.Search.Cap
import HashOrbit.Proofs.Walk.Loop
import HashOrbit.Proofs.Walk.Meeting
import HashOrbit.Proofs.Walk.Offsets
import HashOrbit.Proofs.Walk.Solve
import HashOrbit.Proofs.Render
import HashOrbit.Proofs.CommandLine.Numerals
import HashOrbit.Proofs.CommandLine.Parameters
import HashOrbit.Proofs.Program.Console
import HashOrbit.Proofs.Program.Options
