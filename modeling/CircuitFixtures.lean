import CircuitFixtures.Assignment.Json
import CircuitFixtures.Main
import CircuitFixtures.Proofs.Assignment.FixedText
import CircuitFixtures.Proofs.Deflate.Matching
import CircuitFixtures.Proofs.Fixture.Check
import CircuitFixtures.Proofs.Payload.Canonical
import CircuitFixtures.Proofs.Fixture.Edits
import CircuitFixtures.Proofs.Fixture.ArtifactRoundTrip
import CircuitFixtures.Proofs.Fixture.Bytecode
import CircuitFixtures.Proofs.Assignment.Restriction
import CircuitFixtures.Proofs.Fixture.PublicWitness
import CircuitFixtures.Proofs.Files.Following
import CircuitFixtures.Proofs.Files.Writing
import CircuitFixtures.Proofs.CommandLine.Export
import CircuitFixtures.Proofs.Config.Layers
import CircuitFixtures.Proofs.CommandLine.Session
import CircuitFixtures.Proofs.CommandLine.Verbosity
import CircuitFixtures.Proofs.Fixture.RepeatedIndex
import CircuitFixtures.Proofs.Fixture.Location
import CircuitFixtures.Proofs.Circuit.PublicWitness
import CircuitFixtures.Proofs.Field.Canonical
import CircuitFixtures.Proofs.Assignment.History
import CircuitFixtures.Proofs.Files.Names
import CircuitFixtures.Proofs.Text.Order
import CircuitFixtures.Proofs.CommandLine.Listing
import CircuitFixtures.Proofs.Index.Ranges
import CircuitFixtures.Proofs.Circuit.Witnesses
import CircuitFixtures.Proofs.Fixture.WrittenAgain
import CircuitFixtures.Proofs.Fixture.FirstFault
import CircuitFixtures.Proofs.Assignment.Difference
import CircuitFixtures.Proofs.Assignment.FixedEntries
import CircuitFixtures.Proofs.Fixture.Derived
import CircuitFixtures.Proofs.Archive.Unpacked
import CircuitFixtures.Proofs.Payload.Size
import CircuitFixtures.Proofs.Fixture.Resolution
import CircuitFixtures.Proofs.Config.Discovery
import CircuitFixtures.Proofs.CommandLine.Printed
