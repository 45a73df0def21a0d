import Parterre.Engine.Levels
import Parterre.Main
import Parterre.Proofs.GeometryOnly
import Parterre.Proofs.Cover
import Parterre.Proofs.Endless
import Parterre.Region.Outline.Decode
import Parterre.Source.Script
import Parterre.Engine.Lineage
import Parterre.Proofs.Relabelling
import Parterre.Proofs.Contraction
import Parterre.Proofs.DepthBound
import Parterre.Proofs.Fitting
import Parterre.Proofs.Replay
import Parterre.Proofs.FullSize
import Parterre.Proofs.Tally
import Parterre.Proofs.Ground
import Parterre.Proofs.Statistics
import Parterre.Proofs.DepthOrder
import Parterre.Proofs.Truncation
import Parterre.Proofs.SmallLeaves
import Parterre.Proofs.Parcels
import Parterre.Proofs.Beds
import Parterre.Proofs.Overrides
import Parterre.Proofs.Acyclic
import Parterre.Proofs.Refusal
import Parterre.Proofs.Position
import Parterre.Proofs.Seams
import Parterre.Proofs.Intervals
import Parterre.Proofs.Selections
import Parterre.Proofs.HitTest
import Parterre.Proofs.Registration
import Parterre.Proofs.Json.Laws
import Parterre.Proofs.Outline
import Parterre.Proofs.LeafTotals
import Parterre.Proofs.Batch
import Parterre.Proofs.Traversal
import Parterre.Proofs.PointSets
