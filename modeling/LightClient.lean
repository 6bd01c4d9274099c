import LightClient.Block.WitnessCommitment
import LightClient.Config.Text
import LightClient.Header.Chain
import LightClient.Inclusion.Assembly
import LightClient.Inclusion.Text
import LightClient.Session.Reading
import LightClient.Session.Writing
import LightClient.Proofs.Block.Commitment
import LightClient.Proofs.Block.Contents
import LightClient.Proofs.Block.Grammar
import LightClient.Proofs.Config
import LightClient.Proofs.Counts
import LightClient.Proofs.Header.Chain
import LightClient.Proofs.Header.Views
import LightClient.Proofs.Inclusion.Completeness
import LightClient.Proofs.Inclusion.Text
import LightClient.Proofs.Inclusion.Witnesses
import LightClient.Proofs.Inclusion.Work
import LightClient.Proofs.Locality
import LightClient.Proofs.Merkle.Duplication
import LightClient.Proofs.Merkle.Soundness
import LightClient.Proofs.Merkle.Uniqueness
import LightClient.Proofs.Script.Minimality
import LightClient.Proofs.Script.Templates
import LightClient.Proofs.Script.Walk
import LightClient.Proofs.Session.Limit
import LightClient.Proofs.Session.Marks
import LightClient.Proofs.Session.Reading
import LightClient.Proofs.Session.RoundTrip
import LightClient.Proofs.Sizes
import LightClient.Proofs.Streaming
import LightClient.Proofs.Target.Order
import LightClient.Proofs.Target.Value
import LightClient.Proofs.Transaction.Kinds
import LightClient.Proofs.Transaction.Strictness
import LightClient.Proofs.Truncation
import LightClient.Proofs.Weight
