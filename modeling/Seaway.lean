import Seaway.Binary64
import Seaway.Decimal.Shortest
import Seaway.Decimal.Format
import Seaway.Decimal.Read
import Seaway.Text.Blank
import Seaway.Plane.Basic
import Seaway.Plane.Orient
import Seaway.Plane.Area
import Seaway.Plane.Contains
import Seaway.Plane.Clip
import Seaway.Fault
import Seaway.Track.Basic
import Seaway.Geodesy
import Seaway.Decimal.Scaled
import Seaway.Track.Pathway
import Seaway.Zone.Basic
import Seaway.Zone.Domain
import Seaway.Folder
import Seaway.Zone.File
import Seaway.Track.Segment
import Seaway.Track.Resample
import Seaway.Fence
import Seaway.Track.Reports
import Seaway.Stream
import Seaway.Calendar
import Seaway.Decimal.Integer
import Seaway.Csv.Write
import Seaway.Csv.Read
import Seaway.Transit.Edge
import Seaway.Transit.Record
import Seaway.Transit.Sink
import Seaway.Graph.Params
import Seaway.Graph.Stats
import Seaway.Graph.Run
import Seaway.Proofs.Order
import Seaway.Proofs.Except
import Seaway.Proofs.Zone.Locate
import Seaway.Proofs.Track.Valid
import Seaway.Proofs.Track.Rows
import Seaway.Proofs.Transit.Edges
import Seaway.Proofs.Pathway.Best
import Seaway.Proofs.Pathway.Deal
import Seaway.Proofs.Track.Derived
import Seaway.Proofs.Track.Span
import Seaway.Proofs.Exact
import Seaway.Proofs.Zone.Extent
import Seaway.Proofs.Zone.Construct
import Seaway.Proofs.Transit.Artifacts
import Seaway.Proofs.Graph.Batch
import Seaway.Proofs.Graph.Isolation
import Seaway.Proofs.Track.Split
import Seaway.Proofs.Track.Fence
import Seaway.Proofs.Track.Resample
import Seaway.Proofs.Quotient
import Seaway.Proofs.Pathway.Junction
import Seaway.Proofs.Pathway.Idempotent
import Seaway.Proofs.Track.Reports
import Seaway.Proofs.Pathway.Floor
import Seaway.Proofs.Rounding
import Seaway.Proofs.Zone.Antimeridian
import Seaway.Proofs.Bits
import Seaway.Proofs.Csv.Record
import Seaway.Proofs.Nearest
import Seaway.Proofs.Shortest
import Seaway.Proofs.Digits
import Seaway.Proofs.ReadBack
import Seaway.Proofs.Transit.Record
import Seaway.Proofs.Sign
import Seaway.Proofs.Transit.Fenced
import Seaway.Proofs.Zone.File
import Seaway.Proofs.Between
import Seaway.Proofs.Proportion
import Seaway.Proofs.Track.Interpolate
