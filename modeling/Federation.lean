import Federation.Document.Audit
import Federation.Document.Config
import Federation.Document.State
import Federation.Server
import Federation.Proofs.Replay
import Federation.Proofs.Bookkeeping
import Federation.Proofs.Majority
import Federation.Proofs.Poisoning
import Federation.Proofs.Ranking
import Federation.Proofs.Influence
import Federation.Proofs.Outcomes
import Federation.Proofs.Obstacles
import Federation.Proofs.Contagion
import Federation.Proofs.Checkpoints
import Federation.Proofs.Configurations
import Federation.Proofs.Coordinates
import Federation.Proofs.Momentum
import Federation.Proofs.Medians
import Federation.Proofs.Retention
import Federation.Proofs.Float.Zeros
import Federation.Proofs.Agreement
import Federation.Proofs.Reordering
import Federation.Proofs.Definiteness
import Federation.Proofs.Audits
import Federation.Proofs.Independence
import Federation.Proofs.Reports
import Federation.Proofs.Unanimity
import Federation.Proofs.Overflow
import Federation.Proofs.Variation
import Federation.Proofs.Calls
import Federation.Proofs.Flattening
import Federation.Proofs.Means
import Federation.Proofs.Invariance
import Federation.Proofs.Softmax
